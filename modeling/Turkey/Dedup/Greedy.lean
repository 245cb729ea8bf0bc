import Mathlib.Data.PNat.Defs
import Turkey.Dedup.ContentDefined
import Turkey.Dedup.Fragment
import Turkey.Schemes.Segmentation

/-! That the chunks do not depend on how the input is read. `Fragment` and `SerialIntegratedPipeline` fill a
    block of `MAXBUF` bytes, by as many calls of `read` as it takes, or by copying from the preloaded file;
    then they cut what they have and keep the rest for the next block. The size of a block is a parameter
    here, and so is how many bytes every call of `read` returns.

    The chunks are those that the rule of the encoder cuts from the whole input. -/

namespace Turkey.Fragment
open Turkey.Rabin Turkey.Segmentation

/-- The file is in memory, or `read` is called and returns at most the given number of bytes each time. -/
inductive Reading where
  | preloading
  | reads (sizes : ℕ → ℕ+)

/-- The loop that reads until the buffer is full; `j` calls were made before. `read` returns 0 only at the end
    of the file. The values are what was read, what is left of the file and the number of calls. -/
def fill (sizes : ℕ → ℕ+) (j room : ℕ) (input : Bytes) : Bytes × Bytes × ℕ :=
  if room = 0 then ([], input, j)
  else if input = [] then ([], input, j + 1)
  else
    let r := min (sizes j : ℕ) (min room input.length)
    let (block, rest, j) := fill sizes (j + 1) (room - r) (input.drop r)
    (input.take r ++ block, rest, j)
termination_by input.length
decreasing_by
  rename_i hroom hinput
  have := List.length_pos_iff.2 hinput
  have := (sizes j).pos
  rw [List.length_drop]
  omega

/-- The next block of `B` bytes. -/
def Reading.block (r : Reading) (B j : ℕ) (input : Bytes) : Bytes × Bytes × ℕ :=
  match r with
  | .preloading => (input.take B, input.drop B, j)
  | .reads sizes => fill sizes j B input

theorem fill_spec (sizes : ℕ → ℕ+) (j room : ℕ) (input : Bytes) :
    (fill sizes j room input).1 = input.take room ∧ (fill sizes j room input).2.1 = input.drop room := by
  fun_induction fill sizes j room input with
  | case1 => simp
  | case2 => simp
  | case3 j room input hroom hinput r block rest j' hrec ih =>
    have le : r ≤ room := (Nat.min_le_right ..).trans (Nat.min_le_left ..)
    rw [hrec] at ih
    obtain ⟨rfl, rfl⟩ := ih
    refine ⟨?_, ?_⟩
    · rw [← List.take_add, Nat.add_sub_cancel' le]
    · rw [List.drop_drop, Nat.add_sub_cancel' le]

theorem Reading.block_spec (r : Reading) (B j : ℕ) (input : Bytes) :
    (r.block B j input).1 = input.take B ∧ (r.block B j input).2.1 = input.drop B := by
  cases r with
  | preloading => exact ⟨rfl, rfl⟩
  | reads sizes => exact fill_spec sizes j B input

/-- The `while` loop over the file, with blocks of `B` bytes. -/
def blockLoop (find : Bytes → Found) (r : Reading) (B j : ℕ) (temp input : Bytes) : Option (List Bytes) :=
  if B + temp.length > ssizeMax then none
  else
    let next := r.block B j input
    let chunk := temp ++ next.1
    if chunk = [] then some []
    else if next.1 = [] then some [chunk]
    else
      (splitLoop find chunk).bind fun (chunks, temp) =>
        (blockLoop find r B next.2.2 temp next.2.1).map fun rest => chunks ++ rest
termination_by input.length
decreasing_by
  rename_i hread
  have some_read : ¬input.take B = [] := (r.block_spec B j input).1 ▸ hread
  rw [List.take_eq_nil_iff, not_or] at some_read
  rw [(r.block_spec B j input).2, List.length_drop]
  have := List.length_pos_iff.2 some_read.2
  omega

/-! ### The rules -/

/-- Where `rabinseg` cuts a buffer stays when the buffer goes on. -/
theorem rabinseg_append {p : Bytes} (h : rabinseg p p.length < p.length) (t : Bytes) :
    rabinseg (p ++ t) (p ++ t).length = rabinseg p p.length := by
  obtain ⟨hlt, heq⟩ | ⟨-, ge, -⟩ := rabinseg_mem (p := p) (n := p.length)
  · omega
  obtain ⟨k, hk⟩ := Int.le.dest ge
  have reached : Reached p k := by
    rw [Reached, ← hk]
    push_cast
    omega
  have cuts : Rabin.Cuts p k := by
    by_contra none
    have next : Reached p (k + 1) := by
      refine reached_iff.2 ⟨by omega, fun j hj => ?_⟩
      rcases Nat.lt_succ_iff_lt_or_eq.1 hj with hj | rfl
      · exact (reached_iff.1 reached).2 j hj
      · exact none
    rw [Reached, ← hk] at next
    push_cast at next
    omega
  have le := (reached_iff.1 reached).1
  have same : ∀ j ≤ k, Rabin.Cuts (p ++ t) j ↔ Rabin.Cuts p j := by
    intro j hj
    rw [Rabin.Cuts, Rabin.Cuts, fingerprint_append t j (by omega)]
  have reached' : Reached (p ++ t) k := by
    refine reached_iff.2 ⟨by rw [List.length_append]; omega, fun j hj => ?_⟩
    rw [same j (by omega)]
    exact (reached_iff.1 reached).2 j hj
  rw [rabinseg_eq reached' ((same k (Nat.le_refl k)).2 cuts), rabinseg_eq reached cuts]

theorem rabinseg_pos {p : Bytes} (hne : p ≠ []) : 0 < rabinseg p p.length := by
  have := List.length_pos_iff.2 hne
  rcases rabinseg_mem (p := p) (n := p.length) with ⟨-, heq⟩ | ⟨-, ge, -⟩
  · omega
  · rw [nwindow] at ge
    omega

theorem toNat_rabinseg (p : Bytes) : ((rabinseg p p.length).toNat : ℤ) = rabinseg p p.length := by
  rcases rabinseg_mem (p := p) (n := p.length) with ⟨-, heq⟩ | ⟨-, ge, -⟩
  · omega
  · omega

/-- The first boundary of a buffer, if it lies before the end. -/
def boundary (p : Bytes) : Option ℕ :=
  let n := (rabinseg p p.length).toNat
  if n < p.length then some n else none

/-- The first boundary of what comes after `ANCHOR_JUMP` bytes. -/
def anchor (p : Bytes) : Option ℕ := (boundary (p.drop anchorJump)).map (anchorJump + ·)

theorem boundary_eq_some {p : Bytes} {n : ℕ} :
    boundary p = some n ↔ rabinseg p p.length = n ∧ n < p.length := by
  have cast := toNat_rabinseg p
  rw [boundary, Option.ite_none_right_eq_some, Option.some.injEq]
  constructor
  · rintro ⟨hlt, rfl⟩
    exact ⟨cast.symm, hlt⟩
  · rintro ⟨heq, hlt⟩
    omega

/-- The rule of `SerialIntegratedPipeline` and `FragmentRefine`. -/
def serialRule : Rule UInt8 where
  cut := boundary
  inside {p n} h := by
    obtain ⟨heq, hlt⟩ := boundary_eq_some.1 h
    have := rabinseg_pos (List.length_pos_iff.1 (by omega : 0 < p.length))
    omega
  extend {p n} h t := by
    obtain ⟨heq, hlt⟩ := boundary_eq_some.1 h
    refine boundary_eq_some.2 ⟨(rabinseg_append (by omega) t).trans heq, ?_⟩
    rw [List.length_append]
    omega

/-- The rule of `Fragment`. -/
def anchorRule : Rule UInt8 where
  cut := anchor
  inside {p n} h := by
    obtain ⟨m, hm, rfl⟩ := Option.map_eq_some_iff.1 h
    have := serialRule.inside hm
    rw [List.length_drop] at this
    omega
  extend {p n} h t := by
    obtain ⟨m, hm, rfl⟩ := Option.map_eq_some_iff.1 h
    have inside := serialRule.inside hm
    rw [List.length_drop] at inside
    rw [anchor, List.drop_append_of_le_length (by omega)]
    exact Option.map_eq_some_iff.2 ⟨m, serialRule.extend hm t, rfl⟩

/-! ### The encoders follow the rules -/

/-- What a rule makes of a buffer. -/
def Found.of : Option ℕ → Found
  | none => .whole
  | some n => .split n

/-- On buffers whose length is an `int`, the search is the rule. -/
def Follows (find : Bytes → Found) (R : Rule UInt8) : Prop :=
  ∀ buf, buf ≠ [] → buf.length < 2 ^ 31 → find buf = .of (R.cut buf)

theorem toSize_rabinseg {buf : Bytes} (h : buf.length < 2 ^ 31) :
    toSize (rabinseg buf buf.length) = (rabinseg buf buf.length).toNat := by
  have cast := toNat_rabinseg buf
  have := rabinseg_mem (p := buf) (n := buf.length)
  have := toSize_of_nonneg (z := rabinseg buf buf.length) (by omega) (by omega)
  omega

theorem follows_serial : Follows findSerial serialRule := by
  intro buf hne hlen
  have pos := rabinseg_pos hne
  rw [findSerial, int32_of_lt hlen, if_neg (by omega), toSize_rabinseg hlen]
  show _ = Found.of (boundary buf)
  rw [boundary]
  split_ifs
  · rfl
  · rfl

theorem follows_refine : Follows findRefine serialRule := by
  intro buf hne hlen
  rw [findRefine, int32_of_lt hlen, toSize_rabinseg hlen]
  show _ = Found.of (boundary buf)
  rw [boundary]
  split_ifs
  · rfl
  · rfl

theorem follows_anchor : Follows findAnchor anchorRule := by
  intro buf hne hlen
  show _ = Found.of (anchor buf)
  rw [findAnchor]
  by_cases hjump : anchorJump < buf.length
  · have rest : (buf.drop anchorJump).length = buf.length - anchorJump := List.length_drop ..
    have pos : 0 < rabinseg (buf.drop anchorJump) (buf.drop anchorJump).length :=
      rabinseg_pos (List.length_pos_iff.1 (by omega))
    have cast := toNat_rabinseg (buf.drop anchorJump)
    have mem := rabinseg_mem (p := buf.drop anchorJump) (n := (buf.drop anchorJump).length)
    rw [if_pos hjump, int32_of_lt (by omega), ← rest]
    dsimp only
    have whole : rabinseg (buf.drop anchorJump) (buf.drop anchorJump).length + anchorJump =
        ((anchorJump + (rabinseg (buf.drop anchorJump) (buf.drop anchorJump).length).toNat : ℕ) : ℤ) := by
      push_cast
      omega
    rw [if_neg (by omega), whole, int32_of_lt (by omega)]
    have size := toSize_of_nonneg (z := ((anchorJump +
      (rabinseg (buf.drop anchorJump) (buf.drop anchorJump).length).toNat : ℕ) : ℤ)) (by omega) (by omega)
    rw [anchor, boundary, Int.ofNat.inj size]
    by_cases hcut : (rabinseg (buf.drop anchorJump) (buf.drop anchorJump).length).toNat < (buf.drop anchorJump).length
    · rw [if_pos hcut, if_pos (by omega)]
      rfl
    · rw [if_neg hcut, if_neg (by omega)]
      rfl
  · have none : anchor buf = none := by
      cases hcut : anchor buf with
      | none => rfl
      | some n =>
        obtain ⟨m, hm, rfl⟩ := Option.map_eq_some_iff.1 hcut
        have := (boundary_eq_some.1 hm).2
        rw [List.length_drop] at this
        omega
    rw [if_neg hjump, none]
    rfl

section Loop
variable {find : Bytes → Found} {R : Rule UInt8} (follows : Follows find R)
include follows

theorem splitLoop_pieces {buf : Bytes} : buf ≠ [] → buf.length < 2 ^ 31 →
    splitLoop find buf = some (pieces R buf) := by
  induction buf using R.induction with
  | none buf hcut =>
    intro hne hlen
    rw [splitLoop, follows buf hne hlen, hcut, pieces_none hcut]
    rfl
  | some buf n hcut ih =>
    intro hne hlen
    have rest := ih (drop_ne_nil hcut) (by rw [List.length_drop]; omega)
    rw [splitLoop, follows buf hne hlen, hcut, pieces_some hcut]
    simp only [Found.of]
    rw [if_pos (R.inside hcut), rest]
    rfl

/-- The chunks are those of the whole input, unless the program gives up because a buffer could be larger
    than the system allows. -/
theorem blockLoop_greedy (r : Reading) {B : ℕ} (pos : 0 < B) (j : ℕ) (temp input : Bytes)
    (hlen : (temp ++ input).length < 2 ^ 31) (htemp : temp ≠ [] → R.cut temp = none) :
    blockLoop find r B j temp input = some (greedy R (temp ++ input)) ∨
      ssizeMax < B + (temp ++ input).length ∧ blockLoop find r B j temp input = none := by
  obtain ⟨hblock, hrest⟩ := r.block_spec B j input
  rw [blockLoop]
  by_cases hsize : B + temp.length > ssizeMax
  · rw [if_pos hsize]
    exact .inr ⟨by rw [List.length_append]; omega, rfl⟩
  rw [if_neg hsize]
  dsimp only
  rw [hblock, hrest]
  by_cases hinput : input = []
  · subst hinput
    rw [List.take_nil, List.append_nil, if_pos (rfl : ([] : Bytes) = [])]
    by_cases hnil : temp = []
    · rw [hnil, if_pos rfl, greedy_nil]
      exact .inl rfl
    · rw [if_neg hnil, greedy_none (htemp hnil) hnil]
      exact .inl rfl
  have hread : input.take B ≠ [] := by
    rw [ne_eq, List.take_eq_nil_iff, not_or]
    exact ⟨pos.ne', hinput⟩
  have hchunk : temp ++ input.take B ≠ [] := fun h => hread (List.append_eq_nil_iff.1 h).2
  have whole : temp ++ input = temp ++ input.take B ++ input.drop B := by
    rw [List.append_assoc, List.take_append_drop]
  have short : (temp ++ input.take B).length < 2 ^ 31 := by
    rw [whole, List.length_append] at hlen
    omega
  rw [if_neg hchunk, if_neg hread, splitLoop_pieces follows hchunk short, Option.bind_some]
  have length : ((pieces R (temp ++ input.take B)).2 ++ input.drop B).length ≤ (temp ++ input).length := by
    have left := length_left (R := R) (p := temp ++ input.take B)
    rw [whole, List.length_append, List.length_append]
    exact Nat.add_le_add_right left _
  have hlt : (input.drop B).length < input.length := by
    have := List.length_pos_iff.2 hinput
    rw [List.length_drop]
    omega
  rcases blockLoop_greedy r pos (r.block B j input).2.2 (pieces R (temp ++ input.take B)).2 (input.drop B)
      (by omega) (fun _ => (cut_left hchunk).1) with ih | ⟨hbig, ih⟩
  · left
    rw [ih, whole, greedy_append (p := temp ++ input.take B)]
    rfl
  · right
    rw [ih]
    exact ⟨by omega, rfl⟩
termination_by input.length

end Loop

/-- CORRECT: for every input of fewer than 2^31 bytes, every size of the blocks and every way of reading,
    the coarse chunks and those of the serial encoder are the pieces of the whole input. -/
theorem chunks_of_any_reading (input : Bytes) (hlen : input.length < 2 ^ 31) (B : ℕ) (pos : 0 < B) (r : Reading) :
    (blockLoop findAnchor r B 0 [] input = some (greedy anchorRule input) ∨
      ssizeMax < B + input.length ∧ blockLoop findAnchor r B 0 [] input = none) ∧
    (blockLoop findSerial r B 0 [] input = some (greedy serialRule input) ∨
      ssizeMax < B + input.length ∧ blockLoop findSerial r B 0 [] input = none) :=
  ⟨blockLoop_greedy follows_anchor r pos 0 [] input hlen (absurd rfl),
    blockLoop_greedy follows_serial r pos 0 [] input hlen (absurd rfl)⟩

/-- Two windows of zeros, read in blocks of 40 bytes, 5 bytes at a time: they are one coarse chunk, and the serial
    encoder cuts behind the first. -/
theorem chunks_of_any_reading_zeros :
    blockLoop findAnchor (.reads fun _ => 5) 40 0 [] (List.replicate 64 0) = some [List.replicate 64 0] ∧
    blockLoop findSerial (.reads fun _ => 5) 40 0 [] (List.replicate 64 0) =
      some [List.replicate 32 0, List.replicate 32 0] := by
  have h := chunks_of_any_reading (List.replicate 64 0) (by decide) 40 (by decide) (.reads fun _ => 5)
  have hsmall : ¬ssizeMax < 40 + (List.replicate 64 (0 : UInt8)).length := by decide
  have hanchor : anchorRule.cut (List.replicate 64 0) = none := by decide
  have hfirst : serialRule.cut (List.replicate 64 0) = some 32 := by decide +kernel
  have hsecond : serialRule.cut (List.replicate 32 0) = none := by decide +kernel
  have hpieces : greedy serialRule (List.replicate 64 0) = [List.replicate 32 0, List.replicate 32 0] := by
    rw [greedy_some hfirst]
    exact congrArg _ (greedy_none hsecond (by decide))
  rw [greedy_none hanchor (by decide), hpieces] at h
  exact ⟨h.1.resolve_right fun hbig => hsmall hbig.1, h.2.resolve_right fun hbig => hsmall hbig.1⟩

end Turkey.Fragment
