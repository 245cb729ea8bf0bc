import Mathlib.Algebra.BigOperators.Ring.Finset
import Mathlib.Algebra.Order.Ring.Defs
import Mathlib.Algebra.Order.Group.Abs
import Mathlib.Tactic.Ring
import Mathlib.Tactic.LinearCombination

/-! Points that are served by centers: every center costs `z`, and point `i` pays `far i j` when it is assigned
    to `j`. A new center `x` takes the points that pay less at `x`, and the whole rest of a center when closing
    that center saves more than its points pay in addition. -/

namespace Turkey.Facility

/-- The open centers, and the center of each point. -/
structure Clustering (ι R : Type*) where
  centers : Finset ι
  assign : ι → ι
  cost : ι → R

variable {ι R : Type*} [DecidableEq ι] [CommRing R] [LinearOrder R]
variable (s : Finset ι) (far : ι → ι → R) (z : R)

/-- The centers are the points that somebody is assigned to, and each is assigned to itself. -/
structure Consistent (c : Clustering ι R) : Prop where
  subset : c.centers ⊆ s
  image : c.centers = s.image c.assign
  self : ∀ i ∈ c.centers, c.assign i = i
  cost : ∀ i ∈ s, c.cost i = far i (c.assign i)

/-- Nobody pays for himself, and who pays nothing at another point is in the same place. -/
structure Distances : Prop where
  self : ∀ i ∈ s, far i i = 0
  nonneg : ∀ i ∈ s, ∀ j ∈ s, 0 ≤ far i j
  same : ∀ i ∈ s, ∀ j ∈ s, far i j = 0 → ∀ k ∈ s, far k i = far k j

/-- What is paid for the centers and by the points. -/
def total (c : Clustering ι R) : R := ∑ i ∈ s, c.cost i + z * c.centers.card

variable (x : ι) (c : Clustering ι R)

/-- Point `i` pays less at `x`. -/
def Switches (i : ι) : Prop := far i x < c.cost i

instance (i : ι) : Decidable (Switches far x c i) := inferInstanceAs (Decidable (_ < _))

/-- What is saved when center `k` is closed and its points go to `x`, except for those that go anyway. -/
def low (k : ι) : R := z + ∑ i ∈ s with ¬Switches far x c i ∧ c.assign i = k, (c.cost i - far i x)

/-- The centers that it pays to close. -/
def closing : Finset ι := {k ∈ c.centers | 0 < low s far z x c k}

/-- What the opening of `x` costs in total. -/
def openingCost : R :=
  z + ∑ i ∈ s with Switches far x c i, (far i x - c.cost i) - ∑ k ∈ closing s far z x c, low s far z x c k

/-- The point goes to the new center. -/
def Moves (i : ι) : Prop := Switches far x c i ∨ 0 < low s far z x c (c.assign i)

instance (i : ι) : Decidable (Moves s far z x c i) := inferInstanceAs (Decidable (_ ∨ _))

/-- The clustering with the new center. -/
def reassign : Clustering ι R where
  centers := insert x (c.centers \ closing s far z x c)
  assign i := if Moves s far z x c i then x else c.assign i
  cost i := if Moves s far z x c i then far i x else c.cost i

variable {s far z x c} (h : Consistent s far c) (dist : Distances s far) (hz : 0 < z) (hx : x ∈ s)
include h

omit [CommRing R] [LinearOrder R] in
theorem Consistent.assign_mem {i : ι} (hi : i ∈ s) : c.assign i ∈ c.centers := by
  rw [h.image]
  exact Finset.mem_image_of_mem _ hi

include dist

theorem Consistent.cost_center {i : ι} (hi : i ∈ c.centers) : c.cost i = 0 := by
  rw [h.cost i (h.subset hi), h.self i hi, dist.self i (h.subset hi)]

include hx

/-- A center pays nothing, so it does not leave itself. -/
theorem Consistent.not_switches {i : ι} (hi : i ∈ c.centers) : ¬Switches far x c i := by
  rw [Switches, h.cost_center dist hi, not_lt]
  exact dist.nonneg i (h.subset hi) x hx

/-- A center that stays open stays assigned to itself. -/
theorem Consistent.not_moves {k : ι} (hk : k ∈ c.centers \ closing s far z x c) : ¬Moves s far z x c k := by
  obtain ⟨hc, hn⟩ := Finset.mem_sdiff.1 hk
  rintro (switches | low)
  · exact h.not_switches dist hx hc switches
  · rw [h.self k hc] at low
    exact hn (Finset.mem_filter.2 ⟨hc, low⟩)

include hz

/-- A center in the place of `x` is closed: its points pay the same at `x`. -/
theorem Consistent.low_pos {k : ι} (hk : k ∈ c.centers) (same : far x k = 0) : 0 < low s far z x c k := by
  have zero : ∑ i ∈ s with ¬Switches far x c i ∧ c.assign i = k, (c.cost i - far i x) = 0 := by
    refine Finset.sum_eq_zero fun i hi => ?_
    obtain ⟨mem, -, rfl⟩ := Finset.mem_filter.1 hi
    rw [h.cost i mem, dist.same x hx _ (h.subset hk) same i mem, sub_self]
  rw [low, zero, add_zero]
  exact hz

/-- The new center is assigned to itself. -/
theorem Consistent.moves : Moves s far z x c x := by
  have hk := h.assign_mem hx
  rcases (dist.nonneg x hx _ (h.subset hk)).eq_or_lt with zero | pos
  · exact .inr (h.low_pos dist hz hx hk zero.symm)
  · refine .inl ?_
    rw [Switches, dist.self x hx, h.cost x hx]
    exact pos

theorem Consistent.notMem_rest : x ∉ c.centers \ closing s far z x c := by
  intro hmem
  obtain ⟨hc, hn⟩ := Finset.mem_sdiff.1 hmem
  exact hn (Finset.mem_filter.2 ⟨hc, h.low_pos dist hz hx hc (dist.self x hx)⟩)

theorem Consistent.card_reassign : (reassign s far z x c).centers.card + (closing s far z x c).card =
    c.centers.card + 1 := by
  have subset : closing s far z x c ⊆ c.centers := Finset.filter_subset ..
  rw [reassign, Finset.card_insert_of_notMem (h.notMem_rest dist hz hx), add_right_comm,
    Finset.card_sdiff_add_card_eq_card subset]

theorem Consistent.reassign : Consistent s far (reassign s far z x c) where
  subset := Finset.insert_subset hx (Finset.sdiff_subset.trans h.subset)
  image := by
    ext k
    simp only [Facility.reassign, Finset.mem_insert, Finset.mem_image]
    constructor
    · rintro (rfl | hk)
      · exact ⟨k, hx, if_pos (h.moves dist hz hx)⟩
      · have hc := (Finset.mem_sdiff.1 hk).1
        exact ⟨k, h.subset hc, by rw [if_neg (h.not_moves dist hx hk), h.self k hc]⟩
    · rintro ⟨i, hi, rfl⟩
      split_ifs with hm
      · exact .inl rfl
      · refine .inr (Finset.mem_sdiff.2 ⟨h.assign_mem hi, fun hclose => hm (.inr ?_)⟩)
        exact (Finset.mem_filter.1 hclose).2
  self k hk := by
    rcases Finset.mem_insert.1 hk with rfl | hk
    · exact if_pos (h.moves dist hz hx)
    · exact (if_neg (h.not_moves dist hx hk)).trans (h.self k (Finset.mem_sdiff.1 hk).1)
  cost i hi := by
    simp only [Facility.reassign]
    split_ifs with hm
    · rfl
    · exact h.cost i hi

omit dist hz hx in
/-- The points that go because their center is closed, by their center. -/
theorem Consistent.sum_low : ∑ k ∈ closing s far z x c, low s far z x c k = z * (closing s far z x c).card +
    ∑ i ∈ s with ¬Switches far x c i ∧ 0 < low s far z x c (c.assign i), (c.cost i - far i x) := by
  have members : ∀ i ∈ ({i ∈ s | ¬Switches far x c i ∧ 0 < low s far z x c (c.assign i)} : Finset ι),
      c.assign i ∈ closing s far z x c := by
    intro i hi
    obtain ⟨hi, -, hlow⟩ := Finset.mem_filter.1 hi
    exact Finset.mem_filter.2 ⟨h.assign_mem hi, hlow⟩
  rw [← Finset.sum_fiberwise_of_maps_to members, mul_comm, ← nsmul_eq_mul, ← Finset.sum_const,
    ← Finset.sum_add_distrib]
  refine Finset.sum_congr rfl fun k hk => ?_
  rw [low, Finset.filter_filter]
  congr 2
  refine Finset.filter_congr fun i _ => ?_
  constructor
  · rintro ⟨stays, rfl⟩
    exact ⟨⟨stays, (Finset.mem_filter.1 hk).2⟩, rfl⟩
  · rintro ⟨⟨stays, -⟩, rfl⟩
    exact ⟨stays, rfl⟩

omit h dist hz hx in
theorem sum_cost_reassign : ∑ i ∈ s, (reassign s far z x c).cost i = ∑ i ∈ s, c.cost i +
    ∑ i ∈ s with Switches far x c i, (far i x - c.cost i) -
    ∑ i ∈ s with ¬Switches far x c i ∧ 0 < low s far z x c (c.assign i), (c.cost i - far i x) := by
  simp only [Finset.sum_filter]
  rw [← Finset.sum_add_distrib, ← Finset.sum_sub_distrib]
  refine Finset.sum_congr rfl fun i _ => ?_
  by_cases switches : Switches far x c i
  · simp [reassign, Moves, switches]
  · by_cases closes : 0 < low s far z x c (c.assign i)
    · simp [reassign, Moves, switches, closes]
    · simp [reassign, Moves, switches, closes]

/-- What is paid changes by exactly the cost of the opening. -/
theorem Consistent.total_reassign : total s z (Facility.reassign s far z x c) =
    total s z c + openingCost s far z x c := by
  have card : ((Facility.reassign s far z x c).centers.card : R) + (closing s far z x c).card =
      c.centers.card + 1 := by
    rw [← Nat.cast_add, h.card_reassign dist hz hx, Nat.cast_add, Nat.cast_one]
  rw [total, total, openingCost, sum_cost_reassign, h.sum_low]
  linear_combination z * card

end Turkey.Facility
