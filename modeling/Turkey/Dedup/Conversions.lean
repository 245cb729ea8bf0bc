import Turkey.Dedup.Greedy

/-! The lengths of buffers in `Fragment`, `FragmentRefine` and `SerialIntegratedPipeline` are `size_t`, but
    `rabinseg` takes an `int` and returns one, which is then compared with the length again. A buffer grows by
    `MAXBUF` bytes as long as no boundary is found in it, so its length need not be an `int`.

    The calls of `rabinseg` in a run are listed with the buffers they are made for. -/

namespace Turkey.Fragment
open Turkey.Rabin Turkey.Segmentation

/-- The buffers for which the `do` loop looks for a place. -/
def splitCalls (find : Bytes → Found) (buf : Bytes) : List Bytes :=
  buf :: match find buf with
    | .split place => if 0 < place ∧ place < buf.length then splitCalls find (buf.drop place) else []
    | _ => []
termination_by buf.length
decreasing_by rw [List.length_drop]; omega

/-- The buffers for which the loop over the file looks for a place, until it ends or the program does. -/
def readCalls (find : Bytes → Found) (temp input : Bytes) : List Bytes :=
  if maxbuf + temp.length > ssizeMax then []
  else if input.take maxbuf = [] then []
  else
    splitCalls find (temp ++ input.take maxbuf) ++
      match splitLoop find (temp ++ input.take maxbuf) with
      | none => []
      | some (_, temp) => readCalls find temp (input.drop maxbuf)
termination_by input.length
decreasing_by
  have hread : ¬input.take maxbuf = [] := by assumption
  rcases input with _ | ⟨b, input⟩
  · exact absurd rfl hread
  · rw [List.length_drop, List.length_cons, maxbuf]; omega

/-- What `rabinseg` returns when it is called `jump` bytes into the buffer. -/
def offset (jump : ℕ) (buf : Bytes) : ℤ := rabinseg (buf.drop jump) (int32 (buf.length - jump : ℕ))

/-- No number changes: the `int` argument is the length of what is scanned, the offset that is compared with
    the length is the one returned, it is not 0, and a buffer is only split inside. -/
structure Exact (jump : ℕ) (find : Bytes → Found) (buf : Bytes) : Prop where
  argument : int32 (buf.length - jump : ℕ) = (buf.length - jump : ℕ)
  compared : (toSize (int32 (offset jump buf + jump)) : ℤ) = offset jump buf + jump
  nonzero : offset jump buf ≠ 0
  split : ∀ place, find buf = .split place → 0 < place ∧ place < buf.length

/-- The length of what is scanned, and the place that was found, are `int`s. -/
structure Fits (jump : ℕ) (buf : Bytes) : Prop where
  length : buf.length - jump < 2 ^ 31
  place : rabinseg (buf.drop jump) (buf.drop jump).length + jump < 2 ^ 31

theorem int32_eq_iff {n : ℕ} : int32 n = n ↔ n < 2 ^ 31 := by
  constructor
  · intro h
    have := int32_lt n
    omega
  · exact int32_of_lt

section Calls
variable {find : Bytes → Found} {R : Rule UInt8} {jump : ℕ} {buf : Bytes}

theorem offset_eq (h : buf.length - jump < 2 ^ 31) :
    offset jump buf = rabinseg (buf.drop jump) (buf.drop jump).length := by
  rw [offset, int32_of_lt h, List.length_drop]

theorem Fits.compared (h : Fits jump buf) :
    (toSize (int32 (offset jump buf + jump)) : ℤ) = offset jump buf + jump := by
  have place := h.place
  rw [offset_eq h.length]
  rw [← toNat_rabinseg (buf.drop jump), ← Nat.cast_add] at place ⊢
  rw [int32_of_lt (by omega)]
  exact toSize_of_nonneg (by omega) place

/-- The conversions are exact if and only if the numbers are `int`s. -/
theorem exact_iff (small : jump < 2 ^ 31) (hjump : jump < buf.length)
    (split : Fits jump buf → ∀ place, find buf = .split place → 0 < place ∧ place < buf.length) :
    Exact jump find buf ↔ Fits jump buf := by
  have pos : 0 < rabinseg (buf.drop jump) (buf.drop jump).length := by
    refine rabinseg_pos (List.length_pos_iff.1 ?_)
    rw [List.length_drop]
    omega
  constructor
  · intro h
    have hlen := int32_eq_iff.1 h.argument
    have hplace := h.compared
    rw [offset_eq hlen] at hplace
    refine ⟨hlen, ?_⟩
    have lt := int32_lt (rabinseg (buf.drop jump) (buf.drop jump).length + jump)
    have ge := le_int32 (rabinseg (buf.drop jump) (buf.drop jump).length + jump)
    by_cases neg : int32 (rabinseg (buf.drop jump) (buf.drop jump).length + jump) < 0
    · have big := le_toSize_of_neg neg ge
      have mem := rabinseg_mem (p := buf.drop jump) (n := (buf.drop jump).length)
      rw [List.length_drop] at mem hplace big
      omega
    · have := toSize_of_nonneg (not_lt.1 neg) lt
      omega
  · intro h
    refine ⟨int32_of_lt h.length, h.compared, ?_, split h⟩
    rw [offset_eq h.length]
    omega

theorem fits_zero : Fits 0 buf ↔ buf.length < 2 ^ 31 := by
  have mem := rabinseg_mem (p := buf) (n := buf.length)
  constructor
  · exact fun h => h.length
  · intro h
    refine ⟨h, ?_⟩
    rw [List.drop_zero]
    omega

theorem Follows.split (follows : Follows find R) (hne : buf ≠ []) (hlen : buf.length < 2 ^ 31) {place : ℕ}
    (h : find buf = .split place) : 0 < place ∧ place < buf.length := by
  rw [follows buf hne hlen] at h
  cases hcut : R.cut buf with
  | none =>
    rw [hcut] at h
    cases h
  | some n =>
    rw [hcut] at h
    obtain rfl := Found.split.inj h
    exact R.inside hcut

/-- `SerialIntegratedPipeline` and `FragmentRefine` -/
theorem exact_zero_iff (follows : Follows find R) (hne : buf ≠ []) : Exact 0 find buf ↔ buf.length < 2 ^ 31 := by
  rw [← fits_zero]
  refine exact_iff (by decide) (List.length_pos_iff.2 hne) fun h place hplace => ?_
  exact follows.split hne (fits_zero.1 h) hplace

/-- `Fragment` -/
theorem exact_anchor_iff (hjump : anchorJump < buf.length) :
    Exact anchorJump findAnchor buf ↔ Fits anchorJump buf := by
  refine exact_iff (by decide) hjump fun h place hplace => ?_
  have pos : 0 < rabinseg (buf.drop anchorJump) (buf.drop anchorJump).length := by
    refine rabinseg_pos (List.length_pos_iff.1 ?_)
    rw [List.length_drop]
    omega
  have number := h.compared
  rw [findAnchor, if_pos hjump] at hplace
  dsimp only at hplace
  split_ifs at hplace with hzero hlt
  obtain rfl := Found.split.inj hplace
  rw [← offset_eq h.length] at pos
  refine ⟨?_, hlt⟩
  rw [offset] at number pos
  omega

end Calls

/-! ### The calls of a run -/

theorem splitCalls_ne_nil {find : Bytes → Found} {buf : Bytes} (hne : buf ≠ []) :
    ∀ b ∈ splitCalls find buf, b ≠ [] := by
  intro b hb
  rw [splitCalls, List.mem_cons] at hb
  rcases hb with rfl | hb
  · exact hne
  split at hb
  · split at hb
    · rename_i place _ hplace
      have hdrop : buf.drop place ≠ [] := by
        rw [ne_eq, List.drop_eq_nil_iff]
        omega
      exact splitCalls_ne_nil hdrop b hb
    · cases hb
  · cases hb
termination_by buf.length
decreasing_by rw [List.length_drop]; omega

theorem readCalls_ne_nil {find : Bytes → Found} {temp input : Bytes} : ∀ b ∈ readCalls find temp input, b ≠ [] := by
  intro b hb
  rw [readCalls] at hb
  split at hb
  · cases hb
  split at hb
  · cases hb
  rename_i hread
  have hne : temp ++ input.take maxbuf ≠ [] := fun h => hread (List.append_eq_nil_iff.1 h).2
  rcases List.mem_append.1 hb with hb | hb
  · exact splitCalls_ne_nil hne b hb
  split at hb
  · cases hb
  · exact readCalls_ne_nil b hb
termination_by input.length
decreasing_by
  rcases input with _ | ⟨a, input⟩
  · exact absurd rfl (by assumption : ¬([] : Bytes).take maxbuf = [])
  · rw [List.length_drop, List.length_cons, maxbuf]; omega

/-- CORRECT: in every run of the three loops, all calls of `rabinseg` are exact if and only if every buffer
    they are made for has a length that is an `int`. In `Fragment` it is the length after `ANCHOR_JUMP` that has
    to be one, and the place that is found. -/
theorem conversions_exact_iff (input : Bytes) :
    ((∀ buf ∈ readCalls findSerial [] input, Exact 0 findSerial buf) ↔
      ∀ buf ∈ readCalls findSerial [] input, buf.length < 2 ^ 31) ∧
    ((∀ buf ∈ readCalls findAnchor [] input, anchorJump < buf.length → Exact anchorJump findAnchor buf) ↔
      ∀ buf ∈ readCalls findAnchor [] input, anchorJump < buf.length → Fits anchorJump buf) ∧
    ∀ chunk ≠ [], ((∀ buf ∈ splitCalls findRefine chunk, Exact 0 findRefine buf) ↔
      ∀ buf ∈ splitCalls findRefine chunk, buf.length < 2 ^ 31) := by
  refine ⟨?_, ?_, fun chunk hne => ?_⟩
  · exact forall₂_congr fun buf hbuf => exact_zero_iff follows_serial (readCalls_ne_nil buf hbuf)
  · exact forall₃_congr fun buf _ hjump => exact_anchor_iff hjump
  · exact forall₂_congr fun buf hbuf => exact_zero_iff follows_refine (splitCalls_ne_nil hne buf hbuf)

/-! ### A file without a boundary -/

theorem rabinseg_take_quiet {n m : ℕ} (hle : nwindow ≤ m) (hm : m ≤ nwindow + n) :
    rabinseg ((quiet n).take m) ((quiet n).take m).length = ((quiet n).take m).length := by
  have length : ((quiet n).take m).length = m := by
    rw [List.length_take, quiet_length]
    omega
  have all : Reached (quiet n) n := by
    rw [Reached, quiet_length, rabinseg_quiet]
  have reached : Reached ((quiet n).take m) (m - nwindow) := by
    refine reached_iff.2 ⟨by omega, fun j hj => ?_⟩
    have none := (reached_iff.1 all).2 j (by omega)
    rw [Rabin.Cuts, ← fingerprint_append ((quiet n).drop m) j (by omega), List.take_append_drop]
    exact none
  have mem := rabinseg_mem (p := (quiet n).take m) (n := ((quiet n).take m).length)
  rw [Reached] at reached
  omega

section Silence
variable {q : Bytes} (length : q.length = 16 * maxbuf)
  (silent : ∀ m, nwindow ≤ m → m ≤ q.length → rabinseg (q.take m) (q.take m).length = (q.take m).length)
include length

theorem readCalls_silent {i : ℕ} (hi : i < 16) : readCalls findSerial (q.take (i * maxbuf)) (q.drop (i * maxbuf)) =
    splitCalls findSerial (q.take ((i + 1) * maxbuf)) ++
      match splitLoop findSerial (q.take ((i + 1) * maxbuf)) with
      | none => []
      | some (_, temp) => readCalls findSerial temp (q.drop ((i + 1) * maxbuf)) := by
  have bound : i * maxbuf ≤ 15 * maxbuf := Nat.mul_le_mul_right _ (by omega)
  have size : 16 * maxbuf ≤ ssizeMax ∧ 0 < maxbuf := by decide
  have block : q.take (i * maxbuf) ++ (q.drop (i * maxbuf)).take maxbuf = q.take ((i + 1) * maxbuf) := by
    rw [Nat.succ_mul, List.take_add]
  have hread : (q.drop (i * maxbuf)).take maxbuf ≠ [] := by
    rw [ne_eq, List.take_eq_nil_iff, List.drop_eq_nil_iff]
    omega
  rw [readCalls, if_neg (by rw [List.length_take]; omega), if_neg hread, block, List.drop_drop, ← Nat.succ_mul]

include silent

theorem find_silent {i : ℕ} (pos : 0 < i) (hi : i < 16) : findSerial (q.take (i * maxbuf)) = .whole := by
  have bound : i * maxbuf ≤ 15 * maxbuf := Nat.mul_le_mul_right _ (by omega)
  have below : maxbuf ≤ i * maxbuf := Nat.le_mul_of_pos_left _ pos
  have size : 15 * maxbuf < 2 ^ 31 := by decide
  have window : nwindow ≤ maxbuf ∧ 0 < maxbuf := by decide
  have cut : (q.take (i * maxbuf)).length = i * maxbuf := by
    rw [List.length_take]
    omega
  have none : boundary (q.take (i * maxbuf)) = none := by
    rw [boundary, silent _ (by omega) (by omega), Int.toNat_natCast, if_neg (lt_irrefl _)]
  rw [follows_serial _ (List.length_pos_iff.1 (by omega)) (by omega)]
  exact congrArg Found.of none

/-- The blocks are read one after the other, and nothing is split off until the whole is in the buffer. -/
theorem mem_readCalls_silent : ∀ k i, i + k = 15 →
    q ∈ readCalls findSerial (q.take (i * maxbuf)) (q.drop (i * maxbuf)) := by
  intro k
  induction k with
  | zero =>
    intro i hi
    have last : i + 1 = 16 := by omega
    have all : q.take ((i + 1) * maxbuf) = q := by rw [last, ← length, List.take_length]
    rw [readCalls_silent length (by omega), all, splitCalls]
    exact List.mem_append_left _ (List.mem_cons_self ..)
  | succ k ih =>
    intro i hi
    have next := ih (i + 1) (by omega)
    have whole : findSerial (q.take ((i + 1) * maxbuf)) = .whole := find_silent length silent (by omega) (by omega)
    rw [readCalls_silent length (by omega), splitLoop_whole whole]
    exact List.mem_append_right _ next

end Silence

theorem not_exact_of_quiet {n : ℕ} (hn : nwindow + n = 16 * maxbuf) :
    ∃ buf ∈ readCalls findSerial [] (quiet n), ¬Exact 0 findSerial buf := by
  have length : (quiet n).length = 16 * maxbuf := (quiet_length n).trans hn
  have mem := mem_readCalls_silent length
    (fun m hm hle => rabinseg_take_quiet hm (by rwa [quiet_length] at hle)) 15 0 rfl
  rw [Nat.zero_mul, List.take_zero, List.drop_zero] at mem
  refine ⟨_, mem, fun h => ?_⟩
  have small := (exact_zero_iff follows_serial (readCalls_ne_nil _ mem)).1 h
  rw [length] at small
  exact absurd small (by decide)

/-- 2 GiB without a boundary: after 16 blocks the buffer has 2^31 bytes, and the `int` argument is negative. -/
theorem two_gib_not_exact : ∃ buf ∈ readCalls findSerial [] (quiet 2147483616), ¬Exact 0 findSerial buf :=
  not_exact_of_quiet (by decide)

end Turkey.Fragment
