import Turkey.Dedup.Sha1Block

/-! The digest that names a chunk (`sha.c`, `openssl/md32_common.h`, `openssl/sha_locl.h`): the data comes in pieces of
    any length, what does not fill a block is kept in `data`, the length in bits is counted in two words of 32 bits,
    and the end is padded. -/

namespace Turkey.Sha1

/-! ### The code -/

def HASH_CBLOCK : ℕ := 64

/-- The 64 bytes of the field `data`. -/
abbrev Area := { l : Bytes // l.length = HASH_CBLOCK }

structure SHA_CTX where
  h : Hash
  Nl : BitVec 32
  Nh : BitVec 32
  data : Area
  num : ℕ

theorem length_overwrite {p : Area} {n : ℕ} {l : Bytes} (h : n + l.length ≤ HASH_CBLOCK) :
    (p.1.take n ++ l ++ p.1.drop (n + l.length)).length = HASH_CBLOCK := by
  have := p.2
  simp only [List.length_append, List.length_take, List.length_drop]
  omega

/-- Bytes are written from position `n` on; `none` when they go over the end. -/
def Area.write (p : Area) (n : ℕ) (l : Bytes) : Option Area :=
  if h : n + l.length ≤ HASH_CBLOCK then some ⟨p.1.take n ++ l ++ p.1.drop (n + l.length), length_overwrite h⟩ else none

/-- `memcpy (p+n,data,len)`; `none` when it goes over an end. -/
def Area.memcpy (p : Area) (n : ℕ) (data : Bytes) (len : ℕ) : Option Area :=
  if len ≤ data.length then p.write n (data.take len) else none

/-- `memset (p+n,0,len)` -/
def Area.memset (p : Area) (n len : ℕ) : Option Area := p.write n (List.replicate len 0)

/-- `HASH_BLOCK_DATA_ORDER (c,p,num)` -/
def HASH_BLOCK_DATA_ORDER (junk : Locals) (c : SHA_CTX) (p : Bytes) (num : ℕ) : Option SHA_CTX :=
  (sha1BlockDataOrder junk c.h p num).map fun h => { c with h := h }

/-- `HASH_INIT`: the rest of `c` stays as it was. -/
def SHA1_Init (c : SHA_CTX) : SHA_CTX :=
  { c with h := ⟨0x67452301#32, 0xefcdab89#32, 0x98badcfe#32, 0x10325476#32, 0xc3d2e1f0#32⟩, Nl := 0, Nh := 0, num := 0 }

/-- The part of `HASH_UPDATE` that counts. -/
def SHA_CTX.count (c : SHA_CTX) (len : ℕ) : SHA_CTX :=
  let l := c.Nl + (BitVec.ofNat 32 len <<< 3)
  let Nh := if l < c.Nl then c.Nh + 1 else c.Nh
  { c with Nl := l, Nh := Nh + BitVec.ofNat 32 (len >>> 29) }

/-- The part of `HASH_UPDATE` for what comes in full blocks, and for what is left. -/
def SHA_CTX.blocks (c : SHA_CTX) (junk : Locals) (data : Bytes) (len : ℕ) : Option SHA_CTX := do
  let n := len / HASH_CBLOCK
  let c ← (if n > 0 then HASH_BLOCK_DATA_ORDER junk c data n else some c)
  let data := data.drop (n * HASH_CBLOCK)
  let len := len - n * HASH_CBLOCK
  if len ≠ 0 then
    let p ← c.data.memcpy 0 data len
    return { c with num := len % 2 ^ 32, data := p }
  else return c

/-- `HASH_UPDATE`; `junk` is what the registers and words of the two calls hold before. -/
def SHA1_Update (junk junk' : Locals) (c : SHA_CTX) (data : Bytes) (len : ℕ) : Option SHA_CTX := do
  if len = 0 then return c
  let c := c.count len
  let n := c.num
  if n ≠ 0 then
    if len ≥ HASH_CBLOCK ∨ (len + n) % 2 ^ 64 ≥ HASH_CBLOCK then
      let p ← c.data.memcpy n data (HASH_CBLOCK - n)
      let c ← HASH_BLOCK_DATA_ORDER junk { c with data := p } p.1 1
      let p ← c.data.memset 0 HASH_CBLOCK
      let n := HASH_CBLOCK - n
      { c with num := 0, data := p }.blocks junk' (data.drop n) (len - n)
    else
      let p ← c.data.memcpy n data len
      return { c with num := (c.num + len) % 2 ^ 32, data := p }
  else c.blocks junk' data len

/-- `HOST_l2c` -/
def hostL2c {w : ℕ} (l : BitVec w) : Bytes :=
  [24, 16, 8, 0].map fun n => UInt8.ofBitVec (((l >>> n) &&& 0xff).setWidth 8)

/-- `HASH_MAKE_STRING` -/
def HASH_MAKE_STRING (c : SHA_CTX) : Bytes :=
  hostL2c (c.h.h0.setWidth 64) ++ hostL2c (c.h.h1.setWidth 64) ++ hostL2c (c.h.h2.setWidth 64) ++
    hostL2c (c.h.h3.setWidth 64) ++ hostL2c (c.h.h4.setWidth 64)

/-- The part of `HASH_FINAL` for the last block, of which `n` bytes are in the area `p`. -/
def SHA_CTX.lastBlock (c : SHA_CTX) (junk : Locals) (p : Area) (n : ℕ) : Option (Bytes × SHA_CTX) := do
  let p ← p.memset n (HASH_CBLOCK - 8 - n)
  let p ← p.write (HASH_CBLOCK - 8) (hostL2c c.Nh)
  let p ← p.write (HASH_CBLOCK - 4) (hostL2c c.Nl)
  let c ← HASH_BLOCK_DATA_ORDER junk c p.1 1
  let p ← p.memset 0 HASH_CBLOCK
  let c := { c with num := 0, data := p }
  return (HASH_MAKE_STRING c, c)

/-- `HASH_FINAL` -/
def SHA1_Final (junk junk' : Locals) (c : SHA_CTX) : Option (Bytes × SHA_CTX) := do
  let n := c.num
  let p ← c.data.write n [0x80]
  let n := n + 1
  if n > HASH_CBLOCK - 8 then
    let p ← p.memset n (HASH_CBLOCK - n)
    let c ← HASH_BLOCK_DATA_ORDER junk c p.1 1
    c.lastBlock junk' p 0
  else c.lastBlock junk' p n

/-- `SHA1_Digest`; `sha` is what the context on the stack holds before. -/
def SHA1_Digest (junk : Fin 4 → Locals) (sha : SHA_CTX) (data : Bytes) (len : ℕ) : Option Bytes := do
  let sha := SHA1_Init sha
  let sha ← SHA1_Update (junk 0) (junk 1) sha data len
  let (digest, _) ← SHA1_Final (junk 2) (junk 3) sha
  return digest

/-! ### The standard -/

/-- A number in `k` bytes, the big end first. -/
def bigEndian (k x : ℕ) : Bytes := (List.range k).map fun i => UInt8.ofNat (x / 256 ^ (k - 1 - i))

/-- A one, zeros up to the last 8 bytes of a block, and the length in bits. -/
def pad (m : Bytes) : Bytes := m ++ 0x80 :: List.replicate ((119 - m.length % 64) % 64) 0 ++ bigEndian 8 (8 * m.length)

def initial : Hash := ⟨0x67452301#32, 0xefcdab89#32, 0x98badcfe#32, 0x10325476#32, 0xc3d2e1f0#32⟩

def Hash.bytes (h : Hash) : Bytes :=
  bigEndian 4 h.h0.toNat ++ bigEndian 4 h.h1.toNat ++ bigEndian 4 h.h2.toNat ++ bigEndian 4 h.h3.toNat ++
    bigEndian 4 h.h4.toNat

def sha1 (m : Bytes) : Bytes := (Streaming.absorbAll block 64 initial (pad m)).bytes

/-! ### The area -/

open Streaming

theorem Area.write_spec (p : Area) {n : ℕ} {l : Bytes} (h : n + l.length ≤ HASH_CBLOCK) :
    ∃ p', p.write n l = some p' ∧ p'.1.take (n + l.length) = p.1.take n ++ l := by
  have hn : (p.1.take n).length = n := by
    rw [List.length_take, p.2]
    omega
  refine ⟨_, dif_pos h, List.take_left' ?_⟩
  rw [List.length_append, hn]

theorem Area.memcpy_spec (p : Area) (n len : ℕ) (data : Bytes) (hlen : len ≤ data.length) (h : n + len ≤ HASH_CBLOCK) :
    ∃ p', p.memcpy n data len = some p' ∧ p'.1.take (n + len) = p.1.take n ++ data.take len := by
  have htake : (data.take len).length = len := by rw [List.length_take, min_eq_left hlen]
  obtain ⟨p', hp', heq⟩ := p.write_spec (l := data.take len) (by rw [htake]; exact h)
  rw [htake] at heq
  exact ⟨p', by rw [memcpy, if_pos hlen, hp'], heq⟩

theorem Area.memset_spec (p : Area) (n len : ℕ) (h : n + len ≤ HASH_CBLOCK) :
    ∃ p', p.memset n len = some p' ∧ p'.1.take (n + len) = p.1.take n ++ List.replicate len 0 := by
  obtain ⟨p', hp', heq⟩ := p.write_spec (l := List.replicate len 0) (by rw [List.length_replicate]; exact h)
  rw [List.length_replicate] at heq
  exact ⟨p', hp', heq⟩

theorem Area.take_all (p : Area) : p.1.take 64 = p.1 := List.take_of_length_le p.2.le

theorem HASH_BLOCK_DATA_ORDER_eq (junk : Locals) (c : SHA_CTX) {p : Bytes} {num : ℕ} (hnum : 0 < num)
    (hlen : 64 * num ≤ p.length) :
    HASH_BLOCK_DATA_ORDER junk c p num = some { c with h := absorb block 64 num c.h p } := by
  rw [HASH_BLOCK_DATA_ORDER, sha1BlockDataOrder_eq junk c.h hnum hlen, Option.map_some]

/-- One block from the area. -/
theorem HASH_BLOCK_DATA_ORDER_area (junk : Locals) (c : SHA_CTX) (p : Area) :
    HASH_BLOCK_DATA_ORDER junk c p.1 1 = some { c with h := block c.h p.1 } := by
  rw [HASH_BLOCK_DATA_ORDER_eq junk c one_pos p.2.ge]
  show some { c with h := block c.h (p.1.take 64) } = _
  rw [p.take_all]

/-! ### The pieces -/

/-- What a context holds that has been fed with `m`. -/
structure Fed (c : SHA_CTX) (m : Bytes) : Prop where
  h : c.h = absorbAll block 64 initial m
  num : c.num = (rest 64 m).length
  data : c.data.1.take c.num = rest 64 m
  count : c.Nh.toNat * 2 ^ 32 + c.Nl.toNat = 8 * m.length % 2 ^ 64

theorem fed_init (c : SHA_CTX) : Fed (SHA1_Init c) [] := by
  refine ⟨rfl, rfl, rfl, ?_⟩
  simp [SHA1_Init]

@[simp] theorem count_h (c : SHA_CTX) (len : ℕ) : (c.count len).h = c.h := rfl

@[simp] theorem count_num (c : SHA_CTX) (len : ℕ) : (c.count len).num = c.num := rfl

@[simp] theorem count_data (c : SHA_CTX) (len : ℕ) : (c.count len).data = c.data := rfl

/-- The two words count the bits. -/
theorem count_spec (c : SHA_CTX) (len : ℕ) : (c.count len).Nh.toNat * 2 ^ 32 + (c.count len).Nl.toNat =
    (c.Nh.toNat * 2 ^ 32 + c.Nl.toNat + 8 * len) % 2 ^ 64 := by
  have hshift : (BitVec.ofNat 32 len <<< 3).toNat = 8 * len % 2 ^ 32 := by
    rw [BitVec.toNat_shiftLeft, BitVec.toNat_ofNat, Nat.shiftLeft_eq]
    omega
  have hhigh : (BitVec.ofNat 32 (len >>> 29)).toNat = len / 2 ^ 29 % 2 ^ 32 := by
    rw [BitVec.toNat_ofNat, Nat.shiftRight_eq_div_pow]
  have hNl : (c.count len).Nl.toNat = (c.Nl.toNat + 8 * len % 2 ^ 32) % 2 ^ 32 := by
    rw [← hshift, ← BitVec.toNat_add]
    rfl
  have hlt := c.Nl.isLt
  have hltNh := c.Nh.isLt
  -- the sum of the lower words is smaller than what was there exactly when it has overflowed
  by_cases hcarry : c.Nl.toNat + 8 * len % 2 ^ 32 < 2 ^ 32
  · have hNh : (c.count len).Nh.toNat = (c.Nh.toNat + len / 2 ^ 29 % 2 ^ 32) % 2 ^ 32 := by
      have hle : ¬(c.Nl + (BitVec.ofNat 32 len <<< 3) < c.Nl) := by
        rw [BitVec.lt_def, BitVec.toNat_add, hshift]
        omega
      rw [← hhigh, ← BitVec.toNat_add, SHA_CTX.count]
      simp only [if_neg hle]
    omega
  · have hNh : (c.count len).Nh.toNat = ((c.Nh.toNat + 1) % 2 ^ 32 + len / 2 ^ 29 % 2 ^ 32) % 2 ^ 32 := by
      have hle : c.Nl + (BitVec.ofNat 32 len <<< 3) < c.Nl := by
        rw [BitVec.lt_def, BitVec.toNat_add, hshift]
        omega
      rw [← hhigh, SHA_CTX.count]
      simp only [if_pos hle, BitVec.toNat_add]
      rfl
    omega

/-- What comes in full blocks goes into the state, and the rest into the area. -/
theorem blocks_spec (c : SHA_CTX) (junk : Locals) (data : Bytes) (hnum : c.num = 0) :
    ∃ c', c.blocks junk data data.length = some c' ∧ c'.h = absorbAll block 64 c.h data ∧
      c'.num = (rest 64 data).length ∧ c'.data.1.take c'.num = rest 64 data ∧ c'.Nl = c.Nl ∧ c'.Nh = c.Nh := by
  have hfull : (if data.length / HASH_CBLOCK > 0 then HASH_BLOCK_DATA_ORDER junk c data (data.length / HASH_CBLOCK)
      else some c) = some { c with h := absorbAll block 64 c.h data } := by
    split_ifs with h
    · exact HASH_BLOCK_DATA_ORDER_eq junk c h (Nat.mul_div_le _ _)
    · have hlt : data.length < 64 := Nat.lt_of_div_eq_zero (by decide) (by rw [HASH_CBLOCK] at h; omega)
      rw [absorbAll_of_lt hlt]
  have hdrop : data.drop (data.length / HASH_CBLOCK * HASH_CBLOCK) = rest 64 data := by rw [Nat.mul_comm]; rfl
  have hlen : data.length - data.length / HASH_CBLOCK * HASH_CBLOCK = (rest 64 data).length := by
    rw [← hdrop, List.length_drop]
  have hlt : (rest 64 data).length < 64 := by
    rw [length_rest]
    exact Nat.mod_lt _ (by decide)
  rw [SHA_CTX.blocks, hfull, hdrop, hlen]
  by_cases hrest : (rest 64 data).length = 0
  · refine ⟨{ c with h := absorbAll block 64 c.h data }, ?_, rfl, hnum.trans hrest.symm, ?_, rfl, rfl⟩
    · simp only [Option.bind_eq_bind, Option.bind_some, hrest, ne_eq, not_true_eq_false, if_false]
      rfl
    · show c.data.1.take c.num = _
      rw [hnum, List.take_zero, List.length_eq_zero_iff.mp hrest]
  · obtain ⟨p, hp, htake⟩ := c.data.memcpy_spec 0 _ _ le_rfl (by rw [Nat.zero_add]; exact hlt.le)
    rw [Nat.zero_add, List.take_zero, List.nil_append, List.take_length] at htake
    have hmod : (rest 64 data).length % 2 ^ 32 = (rest 64 data).length := Nat.mod_eq_of_lt (by omega)
    refine ⟨{ c with h := absorbAll block 64 c.h data, num := (rest 64 data).length % 2 ^ 32, data := p },
      ?_, rfl, hmod, ?_, rfl, rfl⟩
    · simp only [Option.bind_eq_bind, Option.bind_some, hrest, hp, ne_eq, not_false_eq_true, if_true]
      rfl
    · show p.1.take _ = _
      rw [hmod, htake]

/-- An update feeds a piece, and never leaves the area or the piece. -/
theorem Fed.update {c : SHA_CTX} {m : Bytes} (hfed : Fed c m) (junk junk' : Locals) (data : Bytes) :
    ∃ c', SHA1_Update junk junk' c data data.length = some c' ∧ Fed c' (m ++ data) := by
  have hcount : ((c.count data.length).Nh.toNat * 2 ^ 32 + (c.count data.length).Nl.toNat) =
      8 * (m ++ data).length % 2 ^ 64 := by
    rw [count_spec, hfed.count, List.length_append]
    omega
  have hlt : c.num < 64 := by
    rw [hfed.num, length_rest]
    exact Nat.mod_lt _ (by decide)
  rw [SHA1_Update]
  by_cases hzero : data.length = 0
  · rw [if_pos hzero, List.length_eq_zero_iff.mp hzero, List.append_nil]
    exact ⟨c, rfl, hfed⟩
  rw [if_neg hzero]
  have hfront : (rest 64 m ++ data).length = c.num + data.length := by rw [List.length_append, hfed.num]
  have habsorb := absorbAll_append (f := block) (s := initial) (a := m) (b := data) (show 0 < 64 by decide)
  have hrest := rest_append (a := m) (b := data) (show 0 < 64 by decide)
  rw [← hfed.h] at habsorb
  by_cases hnum : c.num = 0
  · have hnil : rest 64 m = [] := List.length_eq_zero_iff.mp (hfed.num.symm.trans hnum)
    rw [hnil, List.nil_append] at habsorb hrest
    obtain ⟨c', hc', hh, hn, hd, hNl, hNh⟩ := blocks_spec (c.count data.length) junk' data hnum
    refine ⟨c', ?_, hh.trans habsorb.symm, by rw [hn, hrest], by rw [hd, hrest], by rw [hNl, hNh, hcount]⟩
    rw [← hc']
    exact if_neg (not_not.mpr hnum)
  · have hmod : (data.length + c.num) % 2 ^ 64 = data.length + c.num ∨ HASH_CBLOCK ≤ data.length := by
      rw [HASH_CBLOCK]
      omega
    by_cases hfull : 64 ≤ c.num + data.length
    · -- the area is filled up, and its block goes into the state
      obtain ⟨p, hp, htake⟩ := c.data.memcpy_spec c.num (64 - c.num) data (by omega)
        (by rw [HASH_CBLOCK]; omega)
      obtain ⟨p', hp', _⟩ := p.memset_spec 0 HASH_CBLOCK (Nat.zero_add _).le
      have hfill : 64 ≤ (rest 64 m ++ data).length := by rw [hfront]; exact hfull
      have hblock : (rest 64 m ++ data).take 64 = p.1 := by
        rw [Nat.add_sub_cancel' hlt.le, p.take_all, hfed.data] at htake
        rw [htake, List.take_append, hfed.num, List.take_of_length_le (by rw [← hfed.num]; exact hlt.le)]
      have hdrop : (rest 64 m ++ data).drop 64 = data.drop (64 - c.num) := by
        rw [List.drop_append, hfed.num, List.drop_eq_nil_of_le (by rw [← hfed.num]; exact hlt.le), List.nil_append]
      rw [absorbAll_of_le (by decide) hfill, hblock, hdrop] at habsorb
      rw [rest_of_le (by decide) hfill, hdrop] at hrest
      obtain ⟨c', hc', hh, hn, hd, hNl, hNh⟩ :=
          blocks_spec { c.count data.length with h := block c.h p.1, num := 0, data := p' }
        junk' (data.drop (64 - c.num)) rfl
      refine ⟨c', ?_, hh.trans habsorb.symm, by rw [hn, hrest], by rw [hd, hrest], by rw [hNl, hNh, hcount]⟩
      rw [← hc', List.length_drop]
      have hguard : data.length ≥ HASH_CBLOCK ∨ (data.length + c.num) % 2 ^ 64 ≥ HASH_CBLOCK := by
        rcases hmod with h | h
        · rw [h, HASH_CBLOCK]
          omega
        · exact Or.inl h
      simp only [count_num, count_data, ne_eq, hnum, not_false_eq_true, if_true, hguard, Option.bind_eq_bind,
        Option.bind_some, HASH_BLOCK_DATA_ORDER_area, count_h]
      have hcopy : c.data.memcpy c.num data (HASH_CBLOCK - c.num) = some p := hp
      rw [hcopy, Option.bind_some, hp', Option.bind_some]
      rfl
    · -- the piece goes behind what is in the area
      have hsmall : (rest 64 m ++ data).length < 64 := by omega
      obtain ⟨p, hp, htake⟩ := c.data.memcpy_spec c.num data.length data le_rfl
        (by rw [HASH_CBLOCK]; omega)
      rw [absorbAll_of_lt hsmall] at habsorb
      rw [rest_of_lt hsmall] at hrest
      have hguard : ¬(data.length ≥ HASH_CBLOCK ∨ (data.length + c.num) % 2 ^ 64 ≥ HASH_CBLOCK) := by
        rw [HASH_CBLOCK]
        omega
      have hnum32 : (c.num + data.length) % 2 ^ 32 = (rest 64 (m ++ data)).length := by
        rw [hrest, hfront]
        omega
      refine ⟨{ c.count data.length with num := (c.num + data.length) % 2 ^ 32, data := p },
        ?_, habsorb.symm, hnum32, ?_, hcount⟩
      · simp only [count_num, count_data, ne_eq, hnum, not_false_eq_true, if_true, hguard, if_false,
          Option.bind_eq_bind, hp, Option.bind_some]
        rfl
      · show p.1.take _ = _
        rw [hnum32, hrest, hfront, htake, hfed.data, List.take_length]

/-! ### The end -/

theorem length_bigEndian (k x : ℕ) : (bigEndian k x).length = k := by rw [bigEndian, List.length_map, List.length_range]

theorem ofNat_congr {x y : ℕ} (h : x % 256 = y % 256) : UInt8.ofNat x = UInt8.ofNat y := by
  rw [← UInt8.toNat_inj, UInt8.toNat_ofNat', UInt8.toNat_ofNat']
  exact h

theorem bigEndian_four (x : ℕ) : bigEndian 4 x =
    [UInt8.ofNat (x / 2 ^ 24), UInt8.ofNat (x / 2 ^ 16), UInt8.ofNat (x / 2 ^ 8), UInt8.ofNat x] := by
  simp [bigEndian, List.range_succ]

theorem bigEndian_eight (x : ℕ) : bigEndian 8 x =
    [UInt8.ofNat (x / 2 ^ 56), UInt8.ofNat (x / 2 ^ 48), UInt8.ofNat (x / 2 ^ 40), UInt8.ofNat (x / 2 ^ 32),
      UInt8.ofNat (x / 2 ^ 24), UInt8.ofNat (x / 2 ^ 16), UInt8.ofNat (x / 2 ^ 8), UInt8.ofNat x] := by
  simp [bigEndian, List.range_succ]

theorem hostL2c_byte {w : ℕ} (hw : 8 ≤ w) (l : BitVec w) (n : ℕ) :
    UInt8.ofBitVec (((l >>> n) &&& 0xff).setWidth 8) = UInt8.ofNat (l.toNat / 2 ^ n) := by
  have hmask : (0xff : BitVec w).toNat = 2 ^ 8 - 1 := by
    show 255 % 2 ^ w = _
    exact Nat.mod_eq_of_lt (lt_of_lt_of_le (by decide) (Nat.pow_le_pow_right (by decide) hw))
  rw [← UInt8.toNat_inj, UInt8.toNat_ofNat', UInt8.toNat_ofBitVec, BitVec.toNat_setWidth, BitVec.toNat_and, hmask,
    Nat.and_two_pow_sub_one_eq_mod, BitVec.toNat_ushiftRight, Nat.shiftRight_eq_div_pow, Nat.mod_mod]

theorem hostL2c_eq {w : ℕ} (hw : 8 ≤ w) (l : BitVec w) : hostL2c l = bigEndian 4 l.toNat := by
  rw [hostL2c, bigEndian_four]
  simp only [List.map_cons, List.map_nil, hostL2c_byte hw, pow_zero, Nat.div_one]

/-- The two words of the count are the eight bytes of the length. -/
theorem bigEndian_append (a : ℕ) {b : ℕ} (hb : b < 2 ^ 32) :
    bigEndian 4 a ++ bigEndian 4 b = bigEndian 8 (a * 2 ^ 32 + b) := by
  rw [bigEndian_four, bigEndian_four, bigEndian_eight]
  simp only [List.cons_append, List.nil_append, List.cons.injEq, and_true]
  refine ⟨?_, ?_, ?_, ?_, ?_, ?_, ?_, ?_⟩ <;> apply ofNat_congr <;> omega

theorem bigEndian_mod (x : ℕ) : bigEndian 8 (x % 2 ^ 64) = bigEndian 8 x := by
  rw [bigEndian_eight, bigEndian_eight]
  simp only [List.cons.injEq, and_true]
  refine ⟨?_, ?_, ?_, ?_, ?_, ?_, ?_, ?_⟩ <;> apply ofNat_congr <;> omega

theorem HASH_MAKE_STRING_eq (c : SHA_CTX) : HASH_MAKE_STRING c = c.h.bytes := by
  have hword : ∀ x : BitVec 32, hostL2c (x.setWidth 64) = bigEndian 4 x.toNat := by
    intro x
    rw [hostL2c_eq (by decide), BitVec.toNat_setWidth_of_le (by decide)]
  simp only [HASH_MAKE_STRING, hword, Hash.bytes]

theorem lastBlock_spec (c : SHA_CTX) (junk : Locals) {p : Area} {n : ℕ} (hn : n ≤ 56) :
    ∃ c', c.lastBlock junk p n = some ((block c.h (p.1.take n ++ List.replicate (56 - n) 0 ++
      bigEndian 8 (c.Nh.toNat * 2 ^ 32 + c.Nl.toNat))).bytes, c') := by
  have hNh : (hostL2c c.Nh).length = 4 := by rw [hostL2c_eq (by decide), length_bigEndian]
  have hNl : (hostL2c c.Nl).length = 4 := by rw [hostL2c_eq (by decide), length_bigEndian]
  obtain ⟨p1, hp1, h1⟩ := p.memset_spec n (HASH_CBLOCK - 8 - n) (by rw [HASH_CBLOCK]; omega)
  obtain ⟨p2, hp2, h2⟩ := p1.write_spec (n := HASH_CBLOCK - 8) (l := hostL2c c.Nh) (by rw [hNh]; decide)
  obtain ⟨p3, hp3, h3⟩ := p2.write_spec (n := HASH_CBLOCK - 4) (l := hostL2c c.Nl) (by rw [hNl]; decide)
  obtain ⟨p4, hp4, _⟩ := p3.memset_spec 0 HASH_CBLOCK (Nat.zero_add _).le
  have hfront : n + (HASH_CBLOCK - 8 - n) = HASH_CBLOCK - 8 := by rw [HASH_CBLOCK]; omega
  rw [hfront] at h1
  rw [hNh, h1] at h2
  rw [hNl] at h3
  have h64 : p3.1.take 64 = p2.1.take (HASH_CBLOCK - 8 + 4) ++ hostL2c c.Nl := h3
  rw [p3.take_all, h2, hostL2c_eq (by decide), hostL2c_eq (by decide), List.append_assoc,
    bigEndian_append _ c.Nl.isLt] at h64
  refine ⟨{ c with h := block c.h p3.1, num := 0, data := p4 }, ?_⟩
  rw [SHA_CTX.lastBlock, Option.bind_eq_bind, hp1, Option.bind_some, Option.bind_eq_bind, hp2, Option.bind_some, hp3,
    Option.bind_some, HASH_BLOCK_DATA_ORDER_area, Option.bind_some, hp4, Option.bind_some]
  show some (HASH_MAKE_STRING _, _) = _
  rw [HASH_MAKE_STRING_eq, h64]
  rfl

/-- The length that goes behind the padding. -/
theorem Fed.bytes {c : SHA_CTX} {m : Bytes} (hfed : Fed c m) :
    bigEndian 8 (c.Nh.toNat * 2 ^ 32 + c.Nl.toNat) = bigEndian 8 (8 * m.length) := by rw [hfed.count, bigEndian_mod]

/-- What is padded comes out in full blocks. -/
theorem Fed.final {c : SHA_CTX} {m : Bytes} (hfed : Fed c m) (junk junk' : Locals) :
    ∃ c', SHA1_Final junk junk' c = some (sha1 m, c') := by
  have hnum : c.num = m.length % 64 := by rw [hfed.num, length_rest]
  have hlt : c.num < 64 := by
    rw [hnum]
    exact Nat.mod_lt _ (by decide)
  have hspec : absorbAll block 64 initial (pad m) = absorbAll block 64 c.h
      (rest 64 m ++ [0x80] ++ List.replicate ((119 - c.num) % 64) 0 ++ bigEndian 8 (8 * m.length)) := by
    rw [pad, ← hnum, List.append_assoc, List.append_assoc, absorbAll_append (by decide), ← hfed.h]
    simp only [List.append_assoc, List.cons_append, List.nil_append]
  have hfront : (rest 64 m ++ [0x80]).length = c.num + 1 := by
    rw [List.length_append, ← hfed.num, List.length_singleton]
  obtain ⟨p, hp, htake⟩ := c.data.write_spec (n := c.num) (l := [0x80]) hlt
  rw [List.length_singleton, hfed.data] at htake
  rw [SHA1_Final, Option.bind_eq_bind, hp, Option.bind_some, sha1, hspec]
  by_cases hroom : c.num + 1 > HASH_CBLOCK - 8
  · -- the length does not fit behind the data: the padding goes on in another block
    have h56 : 56 ≤ c.num := Nat.le_of_lt_succ hroom
    obtain ⟨p1, hp1, h1⟩ := p.memset_spec (c.num + 1) (HASH_CBLOCK - (c.num + 1)) (by rw [HASH_CBLOCK]; omega)
    have h64 : c.num + 1 + (HASH_CBLOCK - (c.num + 1)) = 64 := by rw [HASH_CBLOCK]; omega
    rw [h64, p1.take_all, htake] at h1
    obtain ⟨c', hc'⟩ := lastBlock_spec { c with h := block c.h p1.1 } junk' (p := p1) (n := 0) (by decide)
    refine ⟨c', ?_⟩
    rw [if_pos hroom, Option.bind_eq_bind, hp1, Option.bind_some, HASH_BLOCK_DATA_ORDER_area, Option.bind_some,
      hc']
    have hzeros : (119 - c.num) % 64 = HASH_CBLOCK - (c.num + 1) + 56 := by
      rw [HASH_CBLOCK]
      omega
    have hlast : (List.replicate 56 (0 : UInt8) ++ bigEndian 8 (8 * m.length)).length = 64 := by
      rw [List.length_append, List.length_replicate, length_bigEndian]
    have hp1len : p1.1.length = 64 := p1.2
    rw [hzeros, List.replicate_add, ← List.append_assoc, ← h1, List.append_assoc p1.1, absorbAll_cons (by decide) hp1len,
      absorbAll_single (by decide) hlast]
    show some ((block _ ([] ++ List.replicate 56 0 ++ bigEndian 8 (c.Nh.toNat * 2 ^ 32 + c.Nl.toNat))).bytes, c') = _
    rw [hfed.bytes, List.nil_append]
  · -- all fits into the block
    obtain ⟨c', hc'⟩ := lastBlock_spec c junk' (p := p) (n := c.num + 1) (not_lt.mp hroom)
    have hzeros : (119 - c.num) % 64 = 56 - (c.num + 1) := by
      have := not_lt.mp hroom
      rw [HASH_CBLOCK] at this
      omega
    have hlen : (rest 64 m ++ [0x80] ++ List.replicate (56 - (c.num + 1)) 0 ++ bigEndian 8 (8 * m.length)).length = 64 := by
      have := not_lt.mp hroom
      rw [HASH_CBLOCK] at this
      rw [List.length_append, List.length_append, hfront, List.length_replicate, length_bigEndian]
      omega
    refine ⟨c', ?_⟩
    rw [if_neg hroom, hc', htake, hfed.bytes, hzeros, absorbAll_single (by decide) hlen]

/-- All updates, one after the other. -/
def updates (junk : ℕ → Locals) : List Bytes → SHA_CTX → Option SHA_CTX
  | [], c => some c
  | l :: pieces, c => do
    let c ← SHA1_Update (junk (2 * pieces.length)) (junk (2 * pieces.length + 1)) c l l.length
    updates junk pieces c

theorem Fed.updates {c : SHA_CTX} {m : Bytes} (hfed : Fed c m) (junk : ℕ → Locals) (pieces : List Bytes) :
    ∃ c', Sha1.updates junk pieces c = some c' ∧ Fed c' (m ++ pieces.flatten) := by
  induction pieces generalizing c m with
  | nil => exact ⟨c, rfl, by rwa [List.flatten_nil, List.append_nil]⟩
  | cons l pieces ih =>
    obtain ⟨c1, hc1, h1⟩ := hfed.update (junk (2 * pieces.length)) (junk (2 * pieces.length + 1)) l
    obtain ⟨c2, hc2, h2⟩ := ih h1
    refine ⟨c2, ?_, by rwa [List.flatten_cons, ← List.append_assoc]⟩
    rw [Sha1.updates, Option.bind_eq_bind, hc1, Option.bind_some, hc2]

/-- CORRECT: the digest of the pieces is the digest of the whole. From any context, and whatever the registers hold
    before each call: after `SHA1_Init`, updates with any pieces never leave the area or the pieces, and `SHA1_Final` gives
    the SHA-1 of all the pieces joined, as the standard has it. -/
theorem digest_of_pieces (junk : ℕ → Locals) (c : SHA_CTX) (pieces : List Bytes) (junk1 junk2 : Locals) :
    ∃ c1 c2, updates junk pieces (SHA1_Init c) = some c1 ∧ SHA1_Final junk1 junk2 c1 = some (sha1 pieces.flatten, c2) := by
  obtain ⟨c1, hc1, h1⟩ := (fed_init c).updates junk pieces
  obtain ⟨c2, hc2⟩ := h1.final junk1 junk2
  exact ⟨c1, c2, hc1, by rw [hc2, List.nil_append]⟩

/-- The digest of a chunk. -/
theorem SHA1_Digest_eq (junk : Fin 4 → Locals) (sha : SHA_CTX) (data : Bytes) :
    SHA1_Digest junk sha data data.length = some (sha1 data) := by
  obtain ⟨c1, hc1, h1⟩ := (fed_init sha).update (junk 0) (junk 1) data
  obtain ⟨c2, hc2⟩ := h1.final (junk 2) (junk 3)
  rw [SHA1_Digest, Option.bind_eq_bind, hc1, Option.bind_some, Option.bind_eq_bind, hc2, List.nil_append]
  rfl

end Turkey.Sha1
