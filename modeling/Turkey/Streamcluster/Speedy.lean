import Mathlib.Algebra.Order.Field.Basic
import Mathlib.Algebra.Order.Field.Rat
import Turkey.Streamcluster.Centers
import Turkey.Streamcluster.Pgain

/-! `pspeedy` of streamcluster, in exact arithmetic: it goes through the points once and opens a center at a point
    with a probability that grows with what the point has to pay.

    A point is opened only if it pays something, so that the centers are in different places: there are never
    more of them than places. When its draws are 0 there is a center in every place. -/

namespace Turkey.Pgain
open Turkey.ParallelFor

/-- What `lrand48` returns. -/
abbrev Draw := Fin (2 ^ 31)

instance neZero_draws : NeZero (2 ^ 31) := ⟨by decide⟩

section Model
variable {K : Type*} [Field K] [LinearOrder K] (b : Blocks) (dim : ℕ)

/-- `lrand48() / (float)INT_MAX` -/
def unit (d : Draw) : K := (d.val : K) / (2 ^ 31 - 1 : ℕ)

/-- Every thread adds up the values of its block, and thread 0 adds up what the threads have found. -/
def aggregate (f : ℕ → K) : K := ((List.range b.nproc).map fun pid => ((b.block pid).map f).sum).sum

/-- The first point is a center, and all points are sent to it. -/
def firstCenter (s : State K) : State K := { s with
  p := fun k =>
    if k < b.num then { s.p k with cost := dist (s.p k) (s.p 0) dim * (s.p k).weight, assign := 0 } else s.p k
  numcenters := 1 }

/-- A center is opened at point `i`. -/
def openCenter (s : State K) (i : ℕ) : State K := { s with
  p := fun k =>
    if k < b.num ∧ dist (s.p i) (s.p k) dim * (s.p k).weight < (s.p k).cost then
      { s.p k with cost := dist (s.p i) (s.p k) dim * (s.p k).weight, assign := i }
    else s.p k
  numcenters := s.numcenters + 1 }

/-- The random decision on point `i`. -/
def decideOpen (z : K) (draws : ℕ → Draw) (s : State K) (i : ℕ) : State K :=
  if unit (draws (i - 1)) < (s.p i).cost / z then openCenter b dim s i else s

/-- The state after `pspeedy`, and the cost that it returns. There is a draw for each point but the first. -/
def pspeedy (z : K) (draws : ℕ → Draw) (s : State K) : State K × K :=
  let s := (List.range' 1 (b.num - 1)).foldl (decideOpen b dim z draws) (firstCenter b dim s)
  (s, z * s.numcenters + aggregate b fun k => (s.p k).cost)

end Model

variable {K : Type*} [Field K] [LinearOrder K] {b : Blocks} {dim : ℕ} {s s' : State K}

omit [LinearOrder K] in
theorem aggregate_eq (b : Blocks) (f : ℕ → K) : aggregate b f = ∑ k ∈ Finset.range b.num, f k := by
  have hsum : (b.iterations.map fun q => f q.2).sum = _ := (Blocks.Order.byThread b).sum_snd f
  rw [← hsum, Blocks.iterations, List.map_flatMap, List.flatMap_def, List.sum_flatten, List.map_map]
  simp [aggregate, Function.comp_def]

/-! ### Places -/

/-- Where a point is. -/
def place (dim : ℕ) (s : State K) (i : ℕ) : Fin dim → K := fun d => (s.p i).coord d

/-- The number of different places of the points. -/
def places (num dim : ℕ) (s : State K) : ℕ := ((Finset.range num).image (place dim s)).card

/-- The weights and the places are the same. -/
def SamePlaces (s s' : State K) : Prop :=
  ∀ i, (s'.p i).weight = (s.p i).weight ∧ (s'.p i).coord = (s.p i).coord

omit [Field K] [LinearOrder K] in
theorem SamePlaces.trans {s'' : State K} (h : SamePlaces s s') (h' : SamePlaces s' s'') : SamePlaces s s'' :=
  fun i => ⟨(h' i).1.trans (h i).1, (h' i).2.trans (h i).2⟩

omit [LinearOrder K] in
theorem SamePlaces.dist (h : SamePlaces s s') (i j : ℕ) : dist (s'.p i) (s'.p j) dim = dist (s.p i) (s.p j) dim := by
  simp only [dist_eq, (h i).2, (h j).2]

omit [Field K] in
theorem SamePlaces.places (h : SamePlaces s s') (num : ℕ) : places num dim s' = places num dim s := by
  have hplace : place dim s' = place dim s := by
    funext i d
    rw [place, place, (h i).2]
  rw [Pgain.places, Pgain.places, hplace]

omit [LinearOrder K] in
theorem samePlaces_firstCenter (b : Blocks) (dim : ℕ) (s : State K) : SamePlaces s (firstCenter b dim s) := by
  intro i
  simp only [firstCenter]
  split_ifs
  · exact ⟨rfl, rfl⟩
  · exact ⟨rfl, rfl⟩

theorem samePlaces_openCenter (b : Blocks) (dim : ℕ) (s : State K) (i : ℕ) : SamePlaces s (openCenter b dim s i) := by
  intro k
  simp only [openCenter]
  split_ifs
  · exact ⟨rfl, rfl⟩
  · exact ⟨rfl, rfl⟩

theorem samePlaces_decideOpen (b : Blocks) (dim : ℕ) (z : K) (draws : ℕ → Draw) (s : State K) (i : ℕ) :
    SamePlaces s (decideOpen b dim z draws s i) := by
  rw [decideOpen]
  split_ifs
  · exact samePlaces_openCenter b dim s i
  · exact fun _ => ⟨rfl, rfl⟩

theorem samePlaces_pspeedy (b : Blocks) (dim : ℕ) (z : K) (draws : ℕ → Draw) (s : State K) :
    SamePlaces s (pspeedy b dim z draws s).1 := by
  suffices h : ∀ (l : List ℕ) (s : State K), SamePlaces s (l.foldl (decideOpen b dim z draws) s) from
    (samePlaces_firstCenter b dim s).trans (h _ _)
  intro l
  induction l with
  | nil => exact fun s _ => ⟨rfl, rfl⟩
  | cons i l ih => exact fun s => (samePlaces_decideOpen b dim z draws s i).trans (ih _)

/-- `pspeedy` leaves the array `is_center` alone. -/
theorem isCenter_pspeedy (b : Blocks) (dim : ℕ) (z : K) (draws : ℕ → Draw) (s : State K) :
    (pspeedy b dim z draws s).1.isCenter = s.isCenter := by
  suffices h : ∀ (l : List ℕ) (s : State K), (l.foldl (decideOpen b dim z draws) s).isCenter = s.isCenter from h _ _
  intro l
  induction l with
  | nil => exact fun s => rfl
  | cons i l ih =>
    intro s
    rw [List.foldl_cons, ih, decideOpen]
    split_ifs <;> rfl

omit [LinearOrder K] in
theorem dist_comm (p q : Point K) (dim : ℕ) : dist p q dim = dist q p dim := by
  rw [dist_eq, dist_eq]
  exact Finset.sum_congr rfl fun i _ => by ring

variable [IsStrictOrderedRing K]

theorem dist_eq_zero_iff {i j : ℕ} : dist (s.p i) (s.p j) dim = 0 ↔ place dim s i = place dim s j := by
  constructor
  · intro h
    exact funext fun d => coord_eq_of_dist h d.isLt
  · intro h
    rw [dist_eq]
    refine Finset.sum_eq_zero fun d hd => ?_
    have hcoord : (s.p i).coord d = (s.p j).coord d := congrFun h ⟨d, Finset.mem_range.1 hd⟩
    rw [hcoord, sub_self, zero_mul]

/-! ### The centers -/

/-- A center is assigned to itself, every point to a center than which no other is cheaper, and the centers are in
    different places. -/
structure Seeded (num dim : ℕ) (s : State K) : Prop where
  lt : ∀ k < num, (s.p k).assign < num
  self : ∀ k < num, (s.p (s.p k).assign).assign = (s.p k).assign
  cost : ∀ k < num, (s.p k).cost = dist (s.p k) (s.p (s.p k).assign) dim * (s.p k).weight
  least : ∀ k < num, ∀ j < num, (s.p j).assign = j → (s.p k).cost ≤ dist (s.p k) (s.p j) dim * (s.p k).weight
  apart : ∀ i < num, ∀ j < num, (s.p i).assign = i → (s.p j).assign = j → dist (s.p i) (s.p j) dim = 0 → i = j
  numcenters : s.numcenters = ((Finset.range num).filter fun i => (s.p i).assign = i).card

/-- The weights are positive. -/
def Weighted (num : ℕ) (s : State K) : Prop := ∀ k < num, 0 < (s.p k).weight

omit [IsStrictOrderedRing K] in
theorem SamePlaces.weighted (h : SamePlaces s s') {num : ℕ} (hw : Weighted num s) : Weighted num s' :=
  fun k hk => by
    rw [(h k).1]
    exact hw k hk

theorem Seeded.cost_nonneg (h : Seeded b.num dim s) (hw : Weighted b.num s) {k : ℕ} (hk : k < b.num) :
    0 ≤ (s.p k).cost := by
  rw [h.cost k hk]
  exact mul_nonneg (dist_nonneg ..) (hw k hk).le

omit [IsStrictOrderedRing K] in
theorem Seeded.cost_center (h : Seeded b.num dim s) {k : ℕ} (hk : k < b.num) (hc : (s.p k).assign = k) :
    (s.p k).cost = 0 := by
  rw [h.cost k hk, hc, dist_self, zero_mul]

omit [IsStrictOrderedRing K] in
/-- At the start the first point is the only center. -/
theorem seeded_firstCenter (hnum : 0 < b.num) (s : State K) : Seeded b.num dim (firstCenter b dim s) := by
  have hp : ∀ {k}, k < b.num → (firstCenter b dim s).p k =
      { s.p k with cost := dist (s.p k) (s.p 0) dim * (s.p k).weight, assign := 0 } := fun hk => if_pos hk
  have hsame := samePlaces_firstCenter b dim s
  refine ⟨fun k hk => ?_, fun k hk => ?_, fun k hk => ?_, fun k hk j hj hc => ?_, fun i hi j hj hci hcj _ => ?_, ?_⟩
  · rw [hp hk]
    exact hnum
  · rw [hp hk, hp hnum]
  · rw [hsame.dist, (hsame k).1, hp hk]
  · rw [hp hj] at hc
    obtain rfl : 0 = j := hc
    rw [hsame.dist, (hsame k).1, hp hk]
  · rw [hp hi] at hci
    rw [hp hj] at hcj
    exact hci.symm.trans hcj
  · have hfilter : ((Finset.range b.num).filter fun i => ((firstCenter b dim s).p i).assign = i) = {0} := by
      ext i
      rw [Finset.mem_filter, Finset.mem_range, Finset.mem_singleton]
      constructor
      · rintro ⟨hi, hc⟩
        rw [hp hi] at hc
        exact hc.symm
      · rintro rfl
        exact ⟨hnum, by rw [hp hnum]⟩
    rw [hfilter]
    rfl

theorem Seeded.openCenter (h : Seeded b.num dim s) (hw : Weighted b.num s) {i : ℕ} (hi : i < b.num)
    (hcost : 0 < (s.p i).cost) : Seeded b.num dim (openCenter b dim s i) := by
  have hsame := samePlaces_openCenter b dim s i
  -- point `i` is not a center, and no center is in its place
  have hnot : (s.p i).assign ≠ i := fun hc => hcost.ne' (h.cost_center hi hc)
  have hfar : ∀ j < b.num, (s.p j).assign = j → dist (s.p i) (s.p j) dim ≠ 0 := by
    intro j hj hc hzero
    have hle := h.least i hi j hj hc
    rw [hzero, zero_mul] at hle
    exact hcost.not_ge hle
  have hmove : ∀ {k}, k < b.num → dist (s.p i) (s.p k) dim * (s.p k).weight < (s.p k).cost →
      (Pgain.openCenter b dim s i).p k = { s.p k with
        cost := dist (s.p i) (s.p k) dim * (s.p k).weight, assign := i } := fun hk hlt => if_pos ⟨hk, hlt⟩
  have hstay : ∀ {k}, ¬dist (s.p i) (s.p k) dim * (s.p k).weight < (s.p k).cost →
      (Pgain.openCenter b dim s i).p k = s.p k := fun hlt => if_neg fun h => hlt h.2
  have hself : ((Pgain.openCenter b dim s i).p i).assign = i := by
    rw [hmove hi (by rwa [dist_self, zero_mul])]
  have hold : ∀ {j}, j < b.num → (s.p j).assign = j → (Pgain.openCenter b dim s i).p j = s.p j := by
    intro j hj hc
    refine hstay ?_
    rw [h.cost_center hj hc, not_lt]
    exact mul_nonneg (dist_nonneg ..) (hw j hj).le
  have hcenter : ∀ j < b.num, ((Pgain.openCenter b dim s i).p j).assign = j ↔ j = i ∨ (s.p j).assign = j := by
    intro j hj
    constructor
    · intro hc
      by_cases hlt : dist (s.p i) (s.p j) dim * (s.p j).weight < (s.p j).cost
      · rw [hmove hj hlt] at hc
        exact .inl hc.symm
      · rw [hstay hlt] at hc
        exact .inr hc
    · rintro (rfl | hc)
      · exact hself
      · rw [hold hj hc]
        exact hc
  have hpay : ∀ {k}, k < b.num → ((Pgain.openCenter b dim s i).p k).cost ≤ (s.p k).cost ∧
      ((Pgain.openCenter b dim s i).p k).cost ≤ dist (s.p k) (s.p i) dim * (s.p k).weight := by
    intro k hk
    by_cases hlt : dist (s.p i) (s.p k) dim * (s.p k).weight < (s.p k).cost
    · rw [hmove hk hlt, dist_comm (s.p k)]
      exact ⟨hlt.le, le_rfl⟩
    · rw [hstay hlt, dist_comm (s.p k)]
      exact ⟨le_rfl, not_lt.1 hlt⟩
  refine ⟨fun k hk => ?_, fun k hk => ?_, fun k hk => ?_, fun k hk j hj hc => ?_,
    fun j hj j' hj' hc hc' hzero => ?_, ?_⟩
  · by_cases hlt : dist (s.p i) (s.p k) dim * (s.p k).weight < (s.p k).cost
    · rw [hmove hk hlt]
      exact hi
    · rw [hstay hlt]
      exact h.lt k hk
  · by_cases hlt : dist (s.p i) (s.p k) dim * (s.p k).weight < (s.p k).cost
    · rw [hmove hk hlt]
      exact hself
    · rw [hstay hlt, hold (h.lt k hk) (h.self k hk)]
      exact h.self k hk
  · rw [hsame.dist, (hsame k).1]
    by_cases hlt : dist (s.p i) (s.p k) dim * (s.p k).weight < (s.p k).cost
    · rw [hmove hk hlt, dist_comm]
    · rw [hstay hlt]
      exact h.cost k hk
  · rw [hsame.dist, (hsame k).1]
    rcases (hcenter j hj).1 hc with rfl | hc
    · exact (hpay hk).2
    · exact (hpay hk).1.trans (h.least k hk j hj hc)
  · rw [hsame.dist] at hzero
    rcases (hcenter j hj).1 hc with rfl | hcj
    · rcases (hcenter j' hj').1 hc' with rfl | hcj'
      · rfl
      · exact absurd hzero (hfar j' hj' hcj')
    · rcases (hcenter j' hj').1 hc' with rfl | hcj'
      · rw [dist_comm] at hzero
        exact absurd hzero (hfar j hj hcj)
      · exact h.apart j hj j' hj' hcj hcj' hzero
  · have hfilter : ((Finset.range b.num).filter fun j => ((Pgain.openCenter b dim s i).p j).assign = j) =
        insert i ((Finset.range b.num).filter fun j => (s.p j).assign = j) := by
      ext j
      rw [Finset.mem_filter, Finset.mem_insert, Finset.mem_filter, Finset.mem_range]
      constructor
      · rintro ⟨hj, hc⟩
        exact ((hcenter j hj).1 hc).imp id fun hc => ⟨hj, hc⟩
      · rintro (rfl | ⟨hj, hc⟩)
        · exact ⟨hi, hself⟩
        · exact ⟨hj, (hcenter j hj).2 (.inr hc)⟩
    rw [hfilter, Finset.card_insert_of_notMem (by simp [hnot]), Nat.cast_succ, ← h.numcenters]
    rfl

/-- A point that is opened pays something. -/
theorem Seeded.decideOpen (h : Seeded b.num dim s) (hw : Weighted b.num s) {z : K} (hz : 0 ≤ z) (draws : ℕ → Draw)
    {i : ℕ} (hi : i < b.num) : Seeded b.num dim (decideOpen b dim z draws s i) := by
  rw [Pgain.decideOpen]
  split_ifs with hopen
  · have hunit : (0 : K) ≤ unit (draws (i - 1)) :=
      div_nonneg (Nat.cast_nonneg _) (Nat.cast_nonneg _)
    have hquot : 0 < (s.p i).cost / z := hunit.trans_lt hopen
    refine h.openCenter hw hi (lt_of_not_ge fun hle => ?_)
    exact hquot.not_ge (div_nonpos_of_nonpos_of_nonneg hle hz)
  · exact h

theorem seeded_pspeedy (hnum : 0 < b.num) (hw : Weighted b.num s) {z : K} (hz : 0 ≤ z) (draws : ℕ → Draw) :
    Seeded b.num dim (pspeedy b dim z draws s).1 := by
  suffices h : ∀ (l : List ℕ) (s : State K), (∀ i ∈ l, i < b.num) → Weighted b.num s → Seeded b.num dim s →
      Seeded b.num dim (l.foldl (decideOpen b dim z draws) s) by
    refine h _ _ (fun i hi => ?_) ((samePlaces_firstCenter b dim s).weighted hw) (seeded_firstCenter hnum s)
    rw [List.mem_range'_1] at hi
    omega
  intro l
  induction l with
  | nil => exact fun s _ _ h => h
  | cons i l ih =>
    intro s hl hw h
    rw [List.forall_mem_cons] at hl
    exact ih _ hl.2 ((samePlaces_decideOpen b dim z draws s i).weighted hw) (h.decideOpen hw hz draws hl.1)

/-! ### How many centers there can be -/

/-- There are at most as many centers as places. -/
theorem Seeded.numcenters_le (h : Seeded b.num dim s) : s.numcenters ≤ places b.num dim s := by
  rw [h.numcenters, places, Nat.cast_le]
  rw [← Finset.card_image_of_injOn (f := place dim s)]
  · exact Finset.card_le_card (Finset.image_subset_image (Finset.filter_subset _ _))
  · intro i hi j hj hplace
    obtain ⟨hi, hci⟩ := Finset.mem_filter.1 hi
    obtain ⟨hj, hcj⟩ := Finset.mem_filter.1 hj
    exact h.apart i (Finset.mem_range.1 hi) j (Finset.mem_range.1 hj) hci hcj (dist_eq_zero_iff.2 hplace)

/-- If nobody pays, there is a center in every place. -/
theorem Seeded.places_le (h : Seeded b.num dim s) (hw : Weighted b.num s) (hfree : ∀ k < b.num, (s.p k).cost = 0) :
    places b.num dim s ≤ s.numcenters := by
  rw [h.numcenters, places, Nat.cast_le]
  refine le_trans (Finset.card_le_card fun v hv => ?_) (Finset.card_image_le (f := place dim s))
  obtain ⟨k, hk, rfl⟩ := Finset.mem_image.1 hv
  have hk := Finset.mem_range.1 hk
  have hzero := (h.cost k hk).symm.trans (hfree k hk)
  have hplace := dist_eq_zero_iff.1 ((mul_eq_zero.1 hzero).resolve_right (hw k hk).ne')
  refine Finset.mem_image.2 ⟨(s.p k).assign, ?_, hplace.symm⟩
  exact Finset.mem_filter.2 ⟨Finset.mem_range.2 (h.lt k hk), h.self k hk⟩

omit [IsStrictOrderedRing K] in
theorem openCenter_cost_le (s : State K) (i k : ℕ) : ((openCenter b dim s i).p k).cost ≤ (s.p k).cost := by
  simp only [openCenter]
  split_ifs with hlt
  · exact hlt.2.le
  · exact le_rfl

/-- When the draws are 0 a point that pays is opened. -/
theorem free_of_zero {z : K} (hz : 0 < z) {draws : ℕ → Draw} :
    ∀ (l : List ℕ) (s : State K), (∀ i ∈ l, i < b.num) → (∀ i ∈ l, draws (i - 1) = 0) → Weighted b.num s →
      Seeded b.num dim s → ∀ k < b.num, (k ∈ l ∨ (s.p k).cost = 0) →
        ((l.foldl (decideOpen b dim z draws) s).p k).cost = 0
  | [], s, _, _, _, _, k, _, hk => hk.resolve_left nofun
  | i :: l, s, hl, hdraws, hw, h, k, hk, hcase => by
    rw [List.forall_mem_cons] at hl hdraws
    have hw' := (samePlaces_decideOpen b dim z draws s i).weighted hw
    have h' := h.decideOpen hw hz.le draws hl.1
    rw [List.foldl_cons]
    refine free_of_zero hz l _ hl.2 hdraws.2 hw' h' k hk ?_
    have hle : ((Pgain.decideOpen b dim z draws s i).p k).cost ≤ (s.p k).cost := by
      rw [Pgain.decideOpen]
      split_ifs
      · exact openCenter_cost_le s i k
      · exact le_rfl
    have hzero : (s.p k).cost = 0 → ((Pgain.decideOpen b dim z draws s i).p k).cost = 0 := fun hc =>
      le_antisymm (hc ▸ hle) (h'.cost_nonneg hw' hk)
    rcases hcase with hmem | hc
    · rcases List.mem_cons.1 hmem with rfl | hmem
      · rcases (h.cost_nonneg hw hk).eq_or_lt with hc | hc
        · exact .inr (hzero hc.symm)
        · -- the point is opened, and pays nothing any more
          have hopen : unit (draws (k - 1)) < (s.p k).cost / z := by
            rw [unit, hdraws.1, Fin.val_zero, Nat.cast_zero, zero_div]
            exact div_pos hc hz
          have hlt : dist (s.p k) (s.p k) dim * (s.p k).weight < (s.p k).cost := by
            rwa [dist_self, zero_mul]
          refine .inr ?_
          simp only [Pgain.decideOpen, hopen, if_true, Pgain.openCenter, hk, hlt, and_self]
          rw [dist_self, zero_mul]
      · exact .inl hmem
    · exact .inr (hzero hc)

/-- There are draws with which `pspeedy` opens a center in every place. -/
theorem pspeedy_places (hnum : 0 < b.num) (hw : Weighted b.num s) {z : K} (hz : 0 < z) {draws : ℕ → Draw}
    (hdraws : ∀ n < b.num - 1, draws n = 0) : (pspeedy b dim z draws s).1.numcenters = places b.num dim s := by
  have hsame := samePlaces_pspeedy b dim z draws s
  have h : Seeded b.num dim (pspeedy b dim z draws s).1 := seeded_pspeedy hnum hw hz.le draws
  rw [← hsame.places b.num]
  refine le_antisymm h.numcenters_le (h.places_le (hsame.weighted hw) fun k hk => ?_)
  have hfirst : Seeded b.num dim (firstCenter b dim s) := seeded_firstCenter hnum s
  refine free_of_zero hz _ _ (fun i hi => ?_) (fun i hi => hdraws _ ?_)
    ((samePlaces_firstCenter b dim s).weighted hw) hfirst k hk ?_
  · rw [List.mem_range'_1] at hi
    omega
  · rw [List.mem_range'_1] at hi
    omega
  · rcases Nat.eq_zero_or_pos k with rfl | hpos
    · refine .inr (hfirst.cost_center hk ?_)
      simp [firstCenter, hk]
    · refine .inl (List.mem_range'_1.2 ?_)
      omega

end Turkey.Pgain
