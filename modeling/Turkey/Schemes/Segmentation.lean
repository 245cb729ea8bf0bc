import Mathlib.Data.List.Basic

/-! Cutting a list into pieces by a rule that finds the first place to cut. If the place does not change when
    the list goes on, then the list can be cut while it comes in: what has no place for a cut is kept and
    looked at again with what comes next. -/

namespace Turkey.Segmentation

/-- A place to cut lies inside the list, and stays where it is when the list goes on. -/
structure Rule (α : Type*) where
  cut : List α → Option ℕ
  inside : ∀ {p n}, cut p = some n → 0 < n ∧ n < p.length
  extend : ∀ {p n}, cut p = some n → ∀ t, cut (p ++ t) = some n

variable {α : Type*} (R : Rule α)

/-- The pieces of the whole list. -/
def greedy (p : List α) : List (List α) :=
  match _h : R.cut p with
  | none => if p.isEmpty then [] else [p]
  | some n => p.take n :: greedy (p.drop n)
termination_by p.length
decreasing_by
  have := R.inside _h
  rw [List.length_drop]
  omega

/-- The pieces that can be cut off, and what is left. -/
def pieces (p : List α) : List (List α) × List α :=
  match _h : R.cut p with
  | none => ([], p)
  | some n => (p.take n :: (pieces (p.drop n)).1, (pieces (p.drop n)).2)
termination_by p.length
decreasing_by
  all_goals
    have := R.inside _h
    rw [List.length_drop]
    omega

variable {R} {p : List α}

theorem greedy_none (h : R.cut p = none) (hne : p ≠ []) : greedy R p = [p] := by
  rw [greedy]
  split
  · rw [if_neg (by rwa [List.isEmpty_iff])]
  · rename_i hcut
    rw [h] at hcut
    cases hcut

theorem greedy_nil : greedy R [] = [] := by
  rw [greedy]
  split
  · rfl
  · rename_i hcut
    exact absurd (R.inside hcut).2 (Nat.not_lt_zero _)

theorem greedy_some {n : ℕ} (h : R.cut p = some n) : greedy R p = p.take n :: greedy R (p.drop n) := by
  rw [greedy]
  split
  · rename_i hcut
    rw [h] at hcut
    cases hcut
  · rename_i hcut
    obtain rfl := Option.some.inj (h.symm.trans hcut)
    rfl

/-- The first piece stays when the list goes on. -/
theorem greedy_cut {n : ℕ} (h : R.cut p = some n) (t : List α) :
    greedy R (p ++ t) = p.take n :: greedy R (p.drop n ++ t) := by
  have := R.inside h
  rw [greedy_some (R.extend h t), List.take_append_of_le_length (by omega),
    List.drop_append_of_le_length (by omega)]

theorem pieces_none (h : R.cut p = none) : pieces R p = ([], p) := by
  rw [pieces]
  split
  · rfl
  · rename_i hcut
    rw [h] at hcut
    cases hcut

theorem pieces_some {n : ℕ} (h : R.cut p = some n) :
    pieces R p = (p.take n :: (pieces R (p.drop n)).1, (pieces R (p.drop n)).2) := by
  rw [pieces]
  split
  · rename_i hcut
    rw [h] at hcut
    cases hcut
  · rename_i hcut
    obtain rfl := Option.some.inj (h.symm.trans hcut)
    rfl

theorem drop_ne_nil {n : ℕ} (h : R.cut p = some n) : p.drop n ≠ [] := by
  rw [ne_eq, List.drop_eq_nil_iff]
  have := (R.inside h).2
  omega

/-- Cutting off the first piece is what an induction on the pieces does. -/
theorem Rule.induction {P : List α → Prop} (none : ∀ p, R.cut p = none → P p)
    (some : ∀ p n, R.cut p = some n → P (p.drop n) → P p) (p : List α) : P p := by
  cases hcut : R.cut p with
  | none => exact none p hcut
  | some n =>
    have := R.inside hcut
    exact some p n hcut (Rule.induction none some (p.drop n))
termination_by p.length
decreasing_by
  rw [List.length_drop]
  omega

/-- What is left has no place for a cut, and it is something. -/
theorem cut_left : p ≠ [] → R.cut (pieces R p).2 = none ∧ (pieces R p).2 ≠ [] := by
  induction p using R.induction with
  | none p hcut =>
    intro hne
    rw [pieces_none hcut]
    exact ⟨hcut, hne⟩
  | some p n hcut ih =>
    intro _
    rw [pieces_some hcut]
    exact ih (drop_ne_nil hcut)

theorem length_left : (pieces R p).2.length ≤ p.length := by
  induction p using R.induction with
  | none p hcut => exact Nat.le_of_eq (by rw [pieces_none hcut])
  | some p n hcut ih =>
    rw [pieces_some hcut]
    rw [List.length_drop] at ih
    exact Nat.le_trans ih (Nat.sub_le ..)

/-- The list goes on with `t`: the pieces that were cut off are pieces of the whole, and what is left is cut
    together with `t`. -/
theorem greedy_append (t : List α) : greedy R (p ++ t) = (pieces R p).1 ++ greedy R ((pieces R p).2 ++ t) := by
  induction p using R.induction with
  | none p hcut =>
    rw [pieces_none hcut]
    rfl
  | some p n hcut ih =>
    rw [greedy_cut hcut t, pieces_some hcut, ih]
    rfl

/-- The pieces make up the list, and each is something. -/
theorem greedy_spec : (greedy R p).flatten = p ∧ ∀ c ∈ greedy R p, c ≠ [] := by
  induction p using R.induction with
  | none p hcut =>
    rcases eq_or_ne p [] with rfl | hne
    · rw [greedy_nil]
      exact ⟨rfl, nofun⟩
    · rw [greedy_none hcut hne]
      refine ⟨List.append_nil p, fun c hc => ?_⟩
      rwa [List.mem_singleton.mp hc]
  | some p n hcut ih =>
    have := R.inside hcut
    rw [greedy_some hcut]
    refine ⟨by rw [List.flatten_cons, ih.1, List.take_append_drop], fun c hc => ?_⟩
    rcases List.mem_cons.mp hc with rfl | hc
    · exact List.length_pos_iff.mp (by rw [List.length_take]; omega)
    · exact ih.2 c hc

theorem greedy_ne_nil (hne : p ≠ []) : greedy R p ≠ [] := by
  intro h
  have hflat := (greedy_spec (R := R) (p := p)).1
  rw [h] at hflat
  exact hne hflat.symm

end Turkey.Segmentation
