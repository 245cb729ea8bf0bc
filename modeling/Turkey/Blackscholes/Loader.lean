import Mathlib.Algebra.Group.Int.Defs
import Mathlib.Algebra.Group.Nat.Defs
import Mathlib.Data.Int.Notation
import Mathlib.Data.List.Basic
import Mathlib.Data.List.GetD
import Mathlib.Data.List.Induction
import Mathlib.Data.Nat.Notation
import Mathlib.Tactic.SplitIfs

/-! The input file of blackscholes: `ascii2binary` writes it, and the mains of the pthread and the turkey
    version read it.

    The writer puts down the count as an `int` and then the array of `OptionData`; a `float` is the word of
    its bits. The two readers differ in the count only: the one uses `fread`, the other `fscanf` with `%i`,
    which takes characters for digits. Neither looks at what the `fread` of the array returns, so that
    the bytes it does not get are those that `malloc` found on the heap. -/

namespace Turkey.Blackscholes

/-- A byte of a file or of memory. -/
abbrev Byte := BitVec 8

/-- The bits of a `float`. -/
abbrev Float32Bits := BitVec 32

/-- `OptionData`, without its padding. -/
structure OptionData where
  s : Float32Bits
  strike : Float32Bits
  r : Float32Bits
  divq : Float32Bits
  v : Float32Bits
  t : Float32Bits
  OptionType : Byte
  divs : Float32Bits
  DGrefval : Float32Bits
  deriving DecidableEq

/-- The records of a file; `numOptions` is an `int`. -/
structure Options where
  data : List OptionData
  length_lt : data.length < 2 ^ 31

/-! ### The converter -/

/-- The bytes of a word, the lowest first. -/
def wordBytes (w : BitVec 32) : List Byte :=
  [BitVec.ofNat 8 w.toNat, BitVec.ofNat 8 (w.toNat / 2 ^ 8), BitVec.ofNat 8 (w.toNat / 2 ^ 16),
    BitVec.ofNat 8 (w.toNat / 2 ^ 24)]

/-- The three bytes after `OptionType`, which nobody writes. -/
structure Padding where
  a : Byte
  b : Byte
  c : Byte

/-- A structure as it is written to the file. -/
def OptionData.bytes (d : OptionData) (pad : Padding) : List Byte :=
  wordBytes d.s ++ wordBytes d.strike ++ wordBytes d.r ++ wordBytes d.divq ++ wordBytes d.v ++ wordBytes d.t ++
    [d.OptionType, pad.a, pad.b, pad.c] ++ wordBytes d.divs ++ wordBytes d.DGrefval

/-- The array, from its record `i` on. -/
def arrayBytes (pad : ℕ → Padding) : ℕ → List OptionData → List Byte
  | _, [] => []
  | i, d :: data => d.bytes (pad i) ++ arrayBytes pad (i + 1) data

/-- The file that the converter writes. -/
def ascii2binary (options : Options) (pad : ℕ → Padding) : List Byte :=
  wordBytes (BitVec.ofNat 32 options.data.length) ++ arrayBytes pad 0 options.data

/-! ### `fscanf` with `%i` -/

/-- What `fscanf` skips. -/
def isspace (b : Byte) : Bool := (9 ≤ b.toNat ∧ b.toNat ≤ 13) ∨ b.toNat = 32

/-- `0`–`9`, `A`–`F`, `a`–`f` -/
def digitValue (b : Byte) : Option ℕ :=
  if 48 ≤ b.toNat ∧ b.toNat ≤ 57 then some (b.toNat - 48)
  else if 65 ≤ b.toNat ∧ b.toNat ≤ 70 then some (b.toNat - 55)
  else if 97 ≤ b.toNat ∧ b.toNat ≤ 102 then some (b.toNat - 87)
  else none

/-- The digits of a number up to the first character that is none. -/
def takeDigits (base : ℕ) : List Byte → List ℕ × List Byte
  | [] => ([], [])
  | b :: file =>
    match digitValue b with
    | none => ([], b :: file)
    | some d => if d < base then (d :: (takeDigits base file).1, (takeDigits base file).2) else ([], b :: file)

/-- The number with these digits. -/
def digitsValue (base : ℕ) (ds : List ℕ) : ℕ := ds.foldl (fun n d => n * base + d) 0

/-- A number in one base; there must be a digit. -/
def scanBase (base : ℕ) (file : List Byte) : Option (ℕ × List Byte) :=
  match takeDigits base file with
  | ([], _) => none
  | (d :: ds, file) => some (digitsValue base (d :: ds), file)

/-- A number without its sign: hexadecimal after `0x`, octal after `0`, else decimal. -/
def scanMagnitude : List Byte → Option (ℕ × List Byte)
  | [] => none
  | b :: file =>
    if b = 48 then
      match file with
      | x :: file' => if x = 120 ∨ x = 88 then scanBase 16 file' else scanBase 8 (b :: file)
      | [] => scanBase 8 (b :: file)
    else scanBase 10 (b :: file)

/-- What `strtol` makes of a number that no `long` holds, and what an `int` keeps of it. -/
def toInt32 (n : ℤ) : BitVec 32 := BitVec.ofInt 32 (max (-2 ^ 63) (min (2 ^ 63 - 1) n))

/-- A number with its sign. -/
def scanSigned : List Byte → Option (BitVec 32 × List Byte)
  | [] => none
  | b :: file =>
    if b = 45 then (scanMagnitude file).map fun (m, file) => (toInt32 (-m), file)
    else if b = 43 then (scanMagnitude file).map fun (m, file) => (toInt32 m, file)
    else (scanMagnitude (b :: file)).map fun (m, file) => (toInt32 m, file)

/-- `fscanf(file, "%i", &numOptions)`; `none` if it does not return 1. -/
def fscanfInt (file : List Byte) : Option (BitVec 32 × List Byte) := scanSigned (file.dropWhile isspace)

/-! ### The loaders -/

/-- `fread(&numOptions, sizeof(numOptions), 1, file)`; `none` if it does not return 1. -/
def freadInt : List Byte → Option (BitVec 32 × List Byte)
  | a :: b :: c :: d :: file =>
    some (BitVec.ofNat 32 (a.toNat + 2 ^ 8 * b.toNat + 2 ^ 16 * c.toNat + 2 ^ 24 * d.toNat), file)
  | _ => none

/-- The memory of `data` after `fread`. -/
def memory (heap : ℕ → Byte) (file : List Byte) (p : ℕ) : Byte := file.getD p (heap p)

/-- The word at an address. -/
def word (mem : ℕ → Byte) (p : ℕ) : BitVec 32 :=
  BitVec.ofNat 32 ((mem p).toNat + 2 ^ 8 * (mem (p + 1)).toNat + 2 ^ 16 * (mem (p + 2)).toNat +
    2 ^ 24 * (mem (p + 3)).toNat)

/-- The structure at an address. -/
def optionAt (mem : ℕ → Byte) (p : ℕ) : OptionData where
  s := word mem p
  strike := word mem (p + 4)
  r := word mem (p + 8)
  divq := word mem (p + 12)
  v := word mem (p + 16)
  t := word mem (p + 20)
  OptionType := mem (p + 24)
  divs := word mem (p + 28)
  DGrefval := word mem (p + 32)

/-- `malloc` and `fread` of the array, which is 36 bytes for each option. A negative count asks for more
    memory than there is. -/
def loadData (heap : ℕ → Byte) (numOptions : BitVec 32) (file : List Byte) : Option (List OptionData) :=
  if 0 ≤ numOptions.toInt then
    some ((List.range numOptions.toNat).map fun i => optionAt (memory heap file) (36 * i))
  else none

/-- The input of main_pthread.cpp. -/
def loadPthread (heap : ℕ → Byte) (file : List Byte) : Option (List OptionData) :=
  (freadInt file).bind fun (numOptions, file) => loadData heap numOptions file

/-- The input of main_turkey.cpp. -/
def loadTurkey (heap : ℕ → Byte) (file : List Byte) : Option (List OptionData) :=
  (fscanfInt file).bind fun (numOptions, file) => loadData heap numOptions file

/-- Both loaders read the records back, whatever is on the heap. -/
structure ReadsBack (options : Options) (pad : ℕ → Padding) : Prop where
  pthread : ∀ heap, loadPthread heap (ascii2binary options pad) = some options.data
  turkey : ∀ heap, loadTurkey heap (ascii2binary options pad) = some options.data

/-! ### Reading what was written -/

theorem word_eq {mem : ℕ → Byte} {p : ℕ} {w : BitVec 32} (ha : mem p = BitVec.ofNat 8 w.toNat)
    (hb : mem (p + 1) = BitVec.ofNat 8 (w.toNat / 2 ^ 8)) (hc : mem (p + 2) = BitVec.ofNat 8 (w.toNat / 2 ^ 16))
    (hd : mem (p + 3) = BitVec.ofNat 8 (w.toNat / 2 ^ 24)) : word mem p = w := by
  have lt := w.isLt
  apply BitVec.eq_of_toNat_eq
  rw [word, ha, hb, hc, hd]
  simp only [BitVec.toNat_ofNat]
  omega

theorem freadInt_wordBytes (w : BitVec 32) (file : List Byte) :
    freadInt (wordBytes w ++ file) = some (w, file) := by
  have lt := w.isLt
  simp only [wordBytes, List.cons_append, List.nil_append, freadInt, Option.some.injEq, Prod.mk.injEq, and_true]
  apply BitVec.eq_of_toNat_eq
  simp only [BitVec.toNat_ofNat]
  omega

theorem memory_append (heap : ℕ → Byte) (before file : List Byte) (p : ℕ) :
    memory heap (before ++ file) (before.length + p) = memory (fun q => heap (before.length + q)) file p := by
  rw [memory, memory, List.getD_append_right _ _ _ _ (Nat.le_add_right ..), Nat.add_sub_cancel_left]

/-- A word behind other bytes. -/
theorem word_memory (heap : ℕ → Byte) (before : List Byte) (w : BitVec 32) (file : List Byte) :
    word (memory heap (before ++ (wordBytes w ++ file))) before.length = w := by
  apply word_eq
  · exact memory_append heap before _ 0
  · exact memory_append heap before _ 1
  · exact memory_append heap before _ 2
  · exact memory_append heap before _ 3

theorem optionAt_bytes (heap : ℕ → Byte) (d : OptionData) (pad : Padding) (file : List Byte) :
    optionAt (memory heap (d.bytes pad ++ file)) 0 = d := by
  have length : ∀ w, (wordBytes w).length = 4 := fun _ => rfl
  -- the bytes before each field
  have hs := word_memory heap [] d.s
  have hstrike := word_memory heap (wordBytes d.s) d.strike
  have hr := word_memory heap (wordBytes d.s ++ wordBytes d.strike) d.r
  have hdivq := word_memory heap (wordBytes d.s ++ wordBytes d.strike ++ wordBytes d.r) d.divq
  have hv := word_memory heap (wordBytes d.s ++ wordBytes d.strike ++ wordBytes d.r ++ wordBytes d.divq) d.v
  have ht := word_memory heap (wordBytes d.s ++ wordBytes d.strike ++ wordBytes d.r ++ wordBytes d.divq ++
    wordBytes d.v) d.t
  have htype : ∀ file, memory heap (wordBytes d.s ++ wordBytes d.strike ++ wordBytes d.r ++ wordBytes d.divq ++
      wordBytes d.v ++ wordBytes d.t ++ d.OptionType :: file) 24 = d.OptionType :=
    fun file => memory_append heap _ _ 0
  have hdivs := word_memory heap (wordBytes d.s ++ wordBytes d.strike ++ wordBytes d.r ++ wordBytes d.divq ++
    wordBytes d.v ++ wordBytes d.t ++ [d.OptionType, pad.a, pad.b, pad.c]) d.divs
  have hDGrefval := word_memory heap (wordBytes d.s ++ wordBytes d.strike ++ wordBytes d.r ++ wordBytes d.divq ++
    wordBytes d.v ++ wordBytes d.t ++ [d.OptionType, pad.a, pad.b, pad.c] ++ wordBytes d.divs) d.DGrefval
  simp only [List.append_assoc, List.length_append, length, List.length_cons, List.length_nil, List.nil_append,
    List.cons_append] at hs hstrike hr hdivq hv ht htype hdivs hDGrefval
  simp only [optionAt, OptionData.bytes, List.append_assoc, List.cons_append, List.nil_append, Nat.zero_add, hs,
    hstrike, hr, hdivq, hv, ht, htype, hdivs, hDGrefval]

theorem length_bytes (d : OptionData) (pad : Padding) : (d.bytes pad).length = 36 := rfl

theorem optionAt_add (mem : ℕ → Byte) (k p : ℕ) : optionAt mem (k + p) = optionAt (fun q => mem (k + q)) p := rfl

theorem options_arrayBytes (pad : ℕ → Padding) : ∀ (data : List OptionData) (k : ℕ) (heap : ℕ → Byte),
    (List.range data.length).map (fun i => optionAt (memory heap (arrayBytes pad k data)) (36 * i)) = data
  | [], _, _ => rfl
  | d :: data, k, heap => by
    have rest := options_arrayBytes pad data (k + 1) fun q => heap (36 + q)
    have shift := memory_append heap (d.bytes (pad k)) (arrayBytes pad (k + 1) data)
    rw [length_bytes] at shift
    rw [List.length_cons, List.range_succ_eq_map, List.map_cons, List.map_map, arrayBytes, Nat.mul_zero,
      optionAt_bytes]
    refine congrArg (List.cons d) ((List.map_congr_left fun i _ => ?_).trans rest)
    rw [Function.comp_apply, Nat.mul_succ, Nat.add_comm (36 * i), optionAt_add]
    simp only [shift]

theorem length_arrayBytes (pad : ℕ → Padding) : ∀ (data : List OptionData) (k : ℕ),
    (arrayBytes pad k data).length = 36 * data.length
  | [], _ => rfl
  | d :: data, k => by
    rw [arrayBytes, List.length_append, length_bytes, length_arrayBytes pad data, List.length_cons]
    omega

theorem loadPthread_ascii2binary (options : Options) (pad : ℕ → Padding) (heap : ℕ → Byte) :
    loadPthread heap (ascii2binary options pad) = some options.data := by
  have lt := options.length_lt
  have count : (BitVec.ofNat 32 options.data.length).toNat = options.data.length := by
    rw [BitVec.toNat_ofNat]
    omega
  have nonneg : 0 ≤ (BitVec.ofNat 32 options.data.length).toInt := by
    rw [BitVec.toInt_eq_toNat_cond, count]
    split_ifs <;> omega
  simp only [loadPthread, ascii2binary, freadInt_wordBytes, Option.bind_some, loadData]
  rw [if_pos nonneg, count, options_arrayBytes]

/-! ### What `%i` takes from the file -/

/-- The characters of a number: there is one, the last is a digit, and the number has no more digits than
    characters. -/
structure Scanned (taken : List Byte) (m : ℕ) : Prop where
  last : ∃ init b, taken = init ++ [b] ∧ 48 ≤ b.toNat
  lt : m < 16 ^ taken.length

theorem digitsValue_append (base : ℕ) (ds : List ℕ) (d : ℕ) :
    digitsValue base (ds ++ [d]) = digitsValue base ds * base + d := by
  simp [digitsValue, List.foldl_append]

theorem digitsValue_lt {base : ℕ} : ∀ {ds : List ℕ}, (∀ d ∈ ds, d < base) →
    digitsValue base ds < base ^ ds.length := by
  intro ds
  induction ds using List.reverseRecOn with
  | nil => intro; simp [digitsValue]
  | append_singleton ds d ih =>
    intro small
    have hd : d < base := small d (by simp)
    have hds := ih fun x hx => small x (List.mem_append_left _ hx)
    rw [digitsValue_append, List.length_append, List.length_singleton, Nat.pow_succ]
    calc digitsValue base ds * base + d < digitsValue base ds * base + base := by omega
      _ = (digitsValue base ds + 1) * base := (Nat.succ_mul ..).symm
      _ ≤ base ^ ds.length * base := Nat.mul_le_mul_right _ hds

theorem takeDigits_eq (base : ℕ) : ∀ file : List Byte, ∃ taken, file = taken ++ (takeDigits base file).2 ∧
    taken.length = (takeDigits base file).1.length ∧ (∀ b ∈ taken, 48 ≤ b.toNat) ∧
      ∀ d ∈ (takeDigits base file).1, d < base
  | [] => ⟨[], rfl, rfl, nofun, nofun⟩
  | b :: file => by
    rw [takeDigits]
    rcases hb : digitValue b with _ | d
    · exact ⟨[], rfl, rfl, nofun, nofun⟩
    · dsimp only
      split_ifs with hd
      · obtain ⟨taken, hfile, hlen, char, digit⟩ := takeDigits_eq base file
        have big : 48 ≤ b.toNat := by
          simp only [digitValue] at hb
          split_ifs at hb <;> omega
        exact ⟨b :: taken, by rw [List.cons_append, ← hfile], by simp [hlen], List.forall_mem_cons.2 ⟨big, char⟩,
          List.forall_mem_cons.2 ⟨hd, digit⟩⟩
      · exact ⟨[], rfl, rfl, nofun, nofun⟩

theorem scanned_scanBase {base : ℕ} (hbase : base ≤ 16) {file rest : List Byte} {m : ℕ}
    (h : scanBase base file = some (m, rest)) : ∃ taken, file = taken ++ rest ∧ Scanned taken m := by
  obtain ⟨taken, hfile, hlen, char, digit⟩ := takeDigits_eq base file
  rcases hd : takeDigits base file with ⟨_ | ⟨d, ds⟩, file'⟩
  · simp [scanBase, hd] at h
  · simp only [scanBase, hd, Option.some.injEq, Prod.mk.injEq] at h
    obtain ⟨rfl, rfl⟩ := h
    rw [hd] at hfile hlen digit
    refine ⟨taken, hfile, ?_, ?_⟩
    · have ne : taken ≠ [] := List.ne_nil_of_length_pos (by rw [hlen]; simp)
      exact ⟨taken.dropLast, taken.getLast ne, (List.dropLast_append_getLast ne).symm,
        char _ (List.getLast_mem ne)⟩
    · rw [hlen]
      exact Nat.lt_of_lt_of_le (digitsValue_lt digit) (Nat.pow_le_pow_left hbase _)

theorem Scanned.append {taken : List Byte} {m : ℕ} (h : Scanned taken m) (front : List Byte) :
    Scanned (front ++ taken) m := by
  obtain ⟨⟨init, c, rfl, hc⟩, lt⟩ := h
  refine ⟨⟨front ++ init, c, (List.append_assoc ..).symm, hc⟩, Nat.lt_of_lt_of_le lt ?_⟩
  exact Nat.pow_le_pow_right (by decide) (by simp)

theorem scanned_scanMagnitude {file rest : List Byte} {m : ℕ} (h : scanMagnitude file = some (m, rest)) :
    ∃ taken, file = taken ++ rest ∧ Scanned taken m := by
  rcases file with _ | ⟨b, _ | ⟨x, file⟩⟩
  · cases h
  · simp only [scanMagnitude] at h
    split_ifs at h
    · exact scanned_scanBase (by decide) h
    · exact scanned_scanBase (by decide) h
  · simp only [scanMagnitude] at h
    split_ifs at h
    · obtain ⟨taken, rfl, hs⟩ := scanned_scanBase (by decide) h
      exact ⟨b :: x :: taken, rfl, hs.append [b, x]⟩
    · exact scanned_scanBase (by decide) h
    · exact scanned_scanBase (by decide) h

theorem scanned_scanSigned {file rest : List Byte} {n : BitVec 32} (h : scanSigned file = some (n, rest)) :
    ∃ taken m, file = taken ++ rest ∧ Scanned taken m ∧ (n = toInt32 m ∨ n = toInt32 (-m)) := by
  rcases file with _ | ⟨b, file⟩
  · cases h
  · simp only [scanSigned] at h
    split_ifs at h
    · obtain ⟨⟨m, rest'⟩, hm, heq⟩ := Option.map_eq_some_iff.1 h
      obtain ⟨rfl, rfl⟩ := Prod.mk.inj heq
      obtain ⟨taken, rfl, hs⟩ := scanned_scanMagnitude hm
      exact ⟨b :: taken, m, rfl, hs.append [b], .inr rfl⟩
    · obtain ⟨⟨m, rest'⟩, hm, heq⟩ := Option.map_eq_some_iff.1 h
      obtain ⟨rfl, rfl⟩ := Prod.mk.inj heq
      obtain ⟨taken, rfl, hs⟩ := scanned_scanMagnitude hm
      exact ⟨b :: taken, m, rfl, hs.append [b], .inl rfl⟩
    · obtain ⟨⟨m, rest'⟩, hm, heq⟩ := Option.map_eq_some_iff.1 h
      obtain ⟨rfl, rfl⟩ := Prod.mk.inj heq
      obtain ⟨taken, hfile, hs⟩ := scanned_scanMagnitude hm
      exact ⟨taken, m, hfile, hs, .inl rfl⟩

theorem scanned_fscanfInt {file rest : List Byte} {n : BitVec 32} (h : fscanfInt file = some (n, rest)) :
    ∃ taken m, file = taken ++ rest ∧ Scanned taken m ∧ (n = toInt32 m ∨ n = toInt32 (-m)) := by
  obtain ⟨taken, m, hfile, hs, hn⟩ := scanned_scanSigned h
  refine ⟨file.takeWhile isspace ++ taken, m, ?_, hs.append _, hn⟩
  rw [List.append_assoc, ← hfile, List.takeWhile_append_dropWhile]

theorem toNat_toInt32_le {m : ℕ} (small : m < 2 ^ 16) {n : BitVec 32} (hn : n = toInt32 m ∨ n = toInt32 (-m))
    (nonneg : 0 ≤ n.toInt) : n.toNat ≤ m := by
  have keep : ∀ k : ℤ, -2 ^ 16 < k → k < 2 ^ 16 → (toInt32 k).toInt = k := by
    intro k lower upper
    rw [toInt32, BitVec.toInt_ofInt, Int.min_eq_right (by omega), Int.max_eq_right (by omega)]
    exact Int.bmod_eq_of_le (by omega) (by omega)
  have int : n.toInt = n.toNat := by
    have := n.isLt
    rw [BitVec.toInt_eq_toNat_cond] at nonneg ⊢
    split_ifs at nonneg ⊢ <;> omega
  rcases hn with rfl | rfl
  · rw [keep m (by omega) (by omega)] at int
    omega
  · rw [keep (-m) (by omega) (by omega)] at int
    omega

theorem getElem?_wordBytes (w : BitVec 32) : ∀ {i : ℕ}, i < 4 →
    (wordBytes w)[i]? = some (BitVec.ofNat 8 (w.toNat / 2 ^ (8 * i)))
  | 0, _ => by simp [wordBytes]
  | 1, _ => rfl
  | 2, _ => rfl
  | 3, _ => rfl

/-- At most four characters give a smaller number than they are as bytes of a number. -/
theorem lt_of_short {w : BitVec 32} {taken rest file : List Byte} {m : ℕ} (hs : Scanned taken m)
    (hfile : wordBytes w ++ file = taken ++ rest) (short : taken.length ≤ 4) : m < 2 ^ 16 ∧ m < w.toNat := by
  obtain ⟨⟨init, b, rfl, char⟩, lt⟩ := hs
  rw [List.length_append, List.length_singleton] at short lt
  have byte : (wordBytes w ++ file)[init.length]? = some b := by
    rw [hfile]
    simp
  rw [List.getElem?_append_left short, getElem?_wordBytes w short, Option.some.injEq] at byte
  rw [← byte, BitVec.toNat_ofNat] at char
  have place : init.length = 0 ∨ init.length = 1 ∨ init.length = 2 ∨ init.length = 3 := by omega
  rcases place with h | h | h | h <;> rw [h] at char lt <;> omega

theorem of_loadTurkey {heap : ℕ → Byte} {file : List Byte} {data : List OptionData}
    (h : loadTurkey heap file = some data) : ∃ n rest, fscanfInt file = some (n, rest) ∧ 0 ≤ n.toInt ∧
      n.toNat = data.length ∧ data = (List.range data.length).map fun i => optionAt (memory heap rest) (36 * i) := by
  obtain ⟨⟨n, rest⟩, hscan, h⟩ := Option.bind_eq_some_iff.1 h
  simp only [loadData, Option.ite_none_right_eq_some, Option.some.injEq] at h
  have length : n.toNat = data.length := by
    rw [← h.2]
    simp
  exact ⟨n, rest, hscan, h.1, length, by rw [← length, h.2]⟩

/-- The last byte of the array, when the file is too short for it. -/
theorem last_byte_of_heap {heap : ℕ → Byte} {rest : List Byte} {k : ℕ} (short : rest.length ≤ 36 * k + 35) :
    (optionAt (memory heap rest) (36 * k)).DGrefval.toNat / 2 ^ 24 = (heap (36 * k + 35)).toNat := by
  have top : memory heap rest (36 * k + 32 + 3) = heap (36 * k + 35) := List.getD_eq_default _ _ short
  have lt := (memory heap rest (36 * k + 32)).isLt
  have lt₁ := (memory heap rest (36 * k + 32 + 1)).isLt
  have lt₂ := (memory heap rest (36 * k + 32 + 2)).isLt
  have lt₃ := (heap (36 * k + 35)).isLt
  simp only [optionAt, word, BitVec.toNat_ofNat, top]
  omega

/-- If the count is right, then `fscanf` has taken more characters for it than it has bytes. -/
theorem rest_short {options : Options} {pad : ℕ → Padding} {n : BitVec 32} {rest : List Byte}
    (hscan : fscanfInt (ascii2binary options pad) = some (n, rest)) (nonneg : 0 ≤ n.toInt)
    (hn : n.toNat = options.data.length) : rest.length < 36 * options.data.length := by
  have lt := options.length_lt
  obtain ⟨taken, m, hfile, hs, hm⟩ := scanned_fscanfInt hscan
  have length := congrArg List.length hfile
  rw [ascii2binary, List.length_append, length_arrayBytes, List.length_append] at length
  have four : (wordBytes (BitVec.ofNat 32 options.data.length)).length = 4 := rfl
  by_contra long
  have short : taken.length ≤ 4 := by omega
  obtain ⟨small, count⟩ := lt_of_short hs hfile short
  have le := toNat_toInt32_le small hm nonneg
  rw [BitVec.toNat_ofNat] at count
  omega

/-- CORRECT: the loader of the pthread version reads back what the converter wrote, that of the turkey version
    never does: it fails, or gets the count wrong, or the end of its array is what was on the heap. -/
theorem not_readsBack (options : Options) (pad : ℕ → Padding) :
    (∀ heap, loadPthread heap (ascii2binary options pad) = some options.data) ∧ ¬ ReadsBack options pad := by
  refine ⟨loadPthread_ascii2binary options pad, fun h => ?_⟩
  obtain ⟨n, rest, hscan, nonneg, hn, zeros⟩ := of_loadTurkey (h.turkey fun _ => 0)
  obtain ⟨n', rest', hscan', -, -, ones⟩ := of_loadTurkey (h.turkey fun _ => 1)
  rw [hscan] at hscan'
  obtain ⟨rfl, rfl⟩ := Prod.mk.inj (Option.some.inj hscan')
  have short := rest_short hscan nonneg hn
  obtain ⟨k, hk⟩ : ∃ k, options.data.length = k + 1 := Nat.exists_eq_succ_of_ne_zero (by omega)
  have last : ∀ heap, options.data = (List.range options.data.length).map
      (fun i => optionAt (memory heap rest) (36 * i)) →
        options.data[k]? = some (optionAt (memory heap rest) (36 * k)) := by
    intro heap hdata
    rw [hdata, hk]
    simp
  have same := (last _ zeros).symm.trans (last _ ones)
  have byte := congrArg (fun d : OptionData => d.DGrefval.toNat / 2 ^ 24) (Option.some.inj same)
  simp only [last_byte_of_heap (by omega : rest.length ≤ 36 * k + 35)] at byte
  exact absurd byte (by decide)

/-- A call with a spot price of 42. -/
def oneCall : Options :=
  ⟨[⟨0x42280000, 0x42200000, 0x3dcccccd, 0, 0x3e4ccccd, 0x3f000000, 67, 0, 0x40984d2b⟩], by decide⟩

/-- The byte 1 is not a digit, and `fscanf` fails. -/
theorem oneCall_not_readsBack : ¬ ReadsBack oneCall fun _ => ⟨0, 0, 0⟩ := by
  intro h
  exact absurd (h.turkey fun _ => 0) (by decide)

end Turkey.Blackscholes
