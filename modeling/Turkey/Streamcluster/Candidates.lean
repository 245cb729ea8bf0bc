import Mathlib.Analysis.Complex.ExponentialBounds
import Mathlib.Analysis.SpecialFunctions.Log.Basic
import Turkey.Streamcluster.Location

/-! The number of the candidates of `selectfeasible_fast`, with the natural logarithm.

    It is `ITER * kmin * log(kmin)`, rounded down: 4 for `kmin = 2`, but 0 for `kmin = 1`. The number of
    iterations in `pFL` is the same with `kmax`, and there are none only for `kmax = 1`.

    Each candidate is found by a binary search. When the largest number is drawn it always goes to the right, and
    comes to a sum of two positions that is too large for an `int` if there are more than 2 ^ 30 + 1 points. -/

namespace Turkey.Pgain

variable {a : Search ℝ} {f : Found ℝ}

/-- Every candidate is the point that a drawn weight falls to, also after some shuffles, and no search fails. -/
structure CandidatesValid (a : Search ℝ) (f : Found ℝ) : Prop where
  select : ∀ (s : State ℝ) (draws : ℕ → Draw) (feasible : ℕ → ℕ) (numfeasible : ℕ),
    selectfeasibleFast a s draws = .ok (feasible, numfeasible) → (feasible = id ∧ numfeasible = a.num) ∨
      ∀ i < numfeasible, Falls a.num (accumweight s) (drawn a.num s (draws i)) (feasible i)
  shuffled : ∀ (feasible : ℕ → ℕ) (numfeasible : ℕ) (ds : List (ℕ → Draw)), ∀ i < numfeasible, ∃ j < numfeasible,
    ds.foldl (fun feasible draws => intshuffle numfeasible draws feasible) feasible i = feasible j
  runs : ∀ (fuel : ℕ) (draws : ℕ → Draw) (e : Stop), pkmedian a fuel { f with draws := draws } = .error e → e = .fuel

/-! ### The bounds -/

/-- `ITER * k * log(k)` is at least 1 from 2 on. -/
theorem floor_bound_pos {k : ℕ} (hk : 2 ≤ k) : 0 < ⌊((ITER * k : ℕ) : ℝ) * Real.log k⌋₊ := by
  have hcast : (2 : ℝ) ≤ k := by exact_mod_cast hk
  have hsix : (6 : ℝ) ≤ ((ITER * k : ℕ) : ℝ) := by
    rw [ITER]
    push_cast
    linarith
  have hlog : (1 / 2 : ℝ) ≤ Real.log k := by
    have htwo := Real.log_two_gt_d9
    have hmono : Real.log 2 ≤ Real.log k := Real.log_le_log two_pos hcast
    linarith
  rw [Nat.floor_pos]
  calc (1 : ℝ) ≤ 6 * (1 / 2) := by norm_num
    _ ≤ ((ITER * k : ℕ) : ℝ) * Real.log k := mul_le_mul hsix hlog (by norm_num) (Nat.cast_nonneg _)

theorem floor_bound_one : ⌊((ITER * 1 : ℕ) : ℝ) * Real.log (1 : ℕ)⌋₊ = 0 := by
  rw [Nat.cast_one, Real.log_one, mul_zero, Nat.floor_zero]

theorem shuffled (numfeasible : ℕ) : ∀ (ds : List (ℕ → Draw)) (feasible : ℕ → ℕ), ∀ i < numfeasible,
    ∃ j < numfeasible, ds.foldl (fun feasible draws => intshuffle numfeasible draws feasible) feasible i = feasible j
  | [], _, i, hi => ⟨i, hi, rfl⟩
  | draws :: ds, feasible, i, hi => by
    obtain ⟨j, hj, heq⟩ := shuffled numfeasible ds (intshuffle numfeasible draws feasible) i hi
    obtain ⟨k, hk, heq'⟩ := exists_intshuffle draws feasible j hj
    exact ⟨k, hk, heq.trans heq'⟩

/-! ### The failing searches -/

theorem bind_error {α β : Type} {x : Except Stop α} {e : Stop} (g : α → Except Stop β) (hx : x = .error e) :
    (x >>= g) = .error e := by
  rw [hx]
  rfl

theorem bind_ok {α β : Type} {x : Except Stop α} {v : α} (g : α → Except Stop β) (hx : x = .ok v) :
    (x >>= g) = g v := by
  rw [hx]
  rfl

/-- What is paid is positive if there are different places. -/
theorem Tried.cost_pos {t : Try ℝ} (h : Tried a f t) (hnum : 0 < a.num) (hw : Weighted a.num f.s)
    (hplaces : 1 < places a.num a.dim f.s) : 0 < t.cost := by
  have hone : (1 : ℝ) ≤ t.k := by exact_mod_cast h.one_le_k hnum
  have hsum : 0 ≤ ∑ k ∈ Finset.range a.num, (t.found.s.p k).cost := Finset.sum_nonneg fun k hk =>
    h.seeded.cost_nonneg (h.points.weighted hw) (Finset.mem_range.1 hk)
  rw [h.cost]
  exact add_pos_of_pos_of_nonneg (mul_pos (h.z.1 hplaces) (one_pos.trans_le hone)) hsum

/-- Without candidates the first iteration divides by zero. -/
theorem searchLoop_division {t : Bounds ℝ} (hcost : 0 < t.location.cost) (hiter : 0 < a.iter) :
    searchLoop a 0 1 1 t = .error .division := by
  have hquot : t.location.cost / t.location.cost > 1 / 10 := by
    rw [div_self hcost.ne']
    norm_num
  obtain ⟨n, hn⟩ := Nat.exists_eq_succ_of_ne_zero hiter.ne'
  have hpFL : pFL a 1 0 t.z a.iter (1 / 10) t.location = .error .division := by
    rw [pFL, pFLLoop, if_pos hquot]
    refine bind_error _ ?_
    rw [hn, gains, if_pos rfl]
  rw [searchLoop]
  exact bind_error _ (bind_error _ hpFL)

theorem pkmedian_division (hlog : a.log = fun n : ℕ => Real.log n) (hmin : a.kmin = 1) (hmax : 2 ≤ a.kmax)
    (hnum : a.kmax < a.num) (hint : a.num < 2 ^ 31) (hw : Weighted a.num f.s)
    (hplaces : 1 < places a.num a.dim f.s) : pkmedian a 1 f = .error .division := by
  have hpos : 0 < a.num := by omega
  have ht := Tried.speedyAgain hpos hw SP _ (tried_firstTry hpos hw)
  have henough : enoughCenters a 1 (speedyAgain a SP (firstTry a f)) = .ok (speedyAgain a SP (firstTry a f)) := by
    have hone := ht.one_le_k hpos
    rw [enoughCenters, if_neg]
    omega
  have hbound : a.bound = 0 := by
    rw [Search.bound, hlog, hmin]
    dsimp only
    rw [Nat.cast_one, Real.log_one, mul_zero]
  have hselect : ∃ feasible, selectfeasibleFast a (speedyAgain a SP (firstTry a f)).found.s
      (speedyAgain a SP (firstTry a f)).found.draws = .ok (feasible, 0) := by
    rw [selectfeasibleFast, if_neg (by rw [hmin, ITER]; decide), hbound,
      if_pos ⟨by rw [hmin]; exact one_pos, Nat.cast_pos.2 hpos⟩, Nat.floor_zero]
    dsimp only
    rw [if_pos fun i hi => absurd hi (Nat.not_lt_zero i)]
    exact ⟨_, rfl⟩
  obtain ⟨feasible, hselect⟩ := hselect
  have hiter : 0 < a.iter := by
    rw [Search.iter, hlog]
    exact floor_bound_pos hmax
  rw [pkmedian, if_neg (not_le.2 hnum), if_neg (not_le.2 hint), bind_ok _ henough, bind_ok _ hselect]
  exact bind_error _ (searchLoop_division (ht.cost_pos hpos hw hplaces) hiter)

/-- When the first draws are 0 there are enough centers at once, and the other draws are left. -/
theorem enough_of_zero {draws : ℕ → Draw} (hdraws : ∀ i < 2 * (a.num - 1), draws i = 0) (hpos : 0 < a.num)
    (hw : Weighted a.num f.s) (hmany : 1 < places a.num a.dim f.s) (hplaces : a.kmin ≤ places a.num a.dim f.s) :
    ∃ t, enoughCenters a 0 (speedyAgain a SP (firstTry a { f with draws := draws })) = .ok t ∧
      Weighted a.num t.found.s ∧ ∀ i, t.found.draws i = draws (2 * (a.num - 1) + i) := by
  have hpoints := rearranged_shuffle a.num { f with draws := draws }
  have hk : (firstTry a { f with draws := draws }).k = places a.num a.dim f.s := by
    rw [← hpoints.places a.dim, firstTry]
    refine Try.pspeedy_k hpos (hpoints.weighted hw) (((priced_hiz hpos hw).half le_rfl fun _ => rfl).1 hmany)
      fun n hn => hdraws _ ?_
    omega
  have hstay : speedyAgain a SP (firstTry a { f with draws := draws }) = firstTry a { f with draws := draws } := by
    rw [SP, speedyAgain, if_neg]
    omega
  refine ⟨firstTry a { f with draws := draws }, ?_, ?_, fun i => ?_⟩
  · rw [hstay, enoughCenters, if_neg]
    omega
  · have hw' : Weighted a.num ({ f with draws := draws } : Found ℝ).s := hw
    exact (tried_firstTry hpos hw').points.weighted hw
  · show draws (a.num - 1 + (a.num - 1 + i)) = _
    congr 1
    omega

/-- With the largest number the drawn weight is that of all points. -/
theorem candidate_eq_none (hnum : 2 ^ 30 + 1 < a.num) {s : State ℝ} (hw : Weighted a.num s) :
    candidate a.num (accumweight s) (drawn a.num s (Fin.last (2 ^ 31 - 1))) = none := by
  have hunit : (unit (Fin.last (2 ^ 31 - 1)) : ℝ) = 1 := by
    rw [unit, Fin.val_last, div_self]
    norm_num
  have hmono : ∀ i j, i ≤ j → j < a.num → accumweight s i ≤ accumweight s j := by
    intro i j hij hj
    induction j, hij using Nat.le_induction with
    | base => exact le_rfl
    | succ j _ ih => exact (ih (by omega)).trans (le_add_of_nonneg_right (hw _ hj).le)
  have hbelow : ∀ k < a.num, accumweight s k ≤ drawn a.num s (Fin.last (2 ^ 31 - 1)) := by
    intro k hk
    rw [drawn, hunit, one_mul]
    exact hmono k _ (by omega) (by omega)
  rw [candidate, if_neg (not_lt.2 (hbelow 0 (by omega)))]
  exact search_eq_none (by omega) (by omega) fun k hk => hbelow k (by omega)

/-- Draws that lead to as many centers as there are places, and then to the last of the points. -/
def lastDraws (num : ℕ) (i : ℕ) : Draw := if i < 2 * (num - 1) then 0 else Fin.last (2 ^ 31 - 1)

theorem pkmedian_overflow (hover : CanOverflow a) (hmin : 2 ≤ a.kmin) (hnum : a.kmax < a.num) (hw : Weighted a.num f.s)
    (hplaces : a.kmin ≤ places a.num a.dim f.s) :
    pkmedian a 0 { f with draws := lastDraws a.num } = .error .overflow := by
  have hzero : ∀ i < 2 * (a.num - 1), lastDraws a.num i = 0 := fun i hi => if_pos hi
  obtain ⟨t, ht, hweighted, hdraws⟩ := enough_of_zero hzero (by omega) hw (by omega) hplaces
  rw [pkmedian, if_neg (not_le.2 hnum)]
  split_ifs with hint
  · rfl
  · rw [bind_ok _ ht]
    refine bind_error _ ?_
    rw [selectfeasibleFast]
    split_ifs with hproduct hbound
    · rfl
    · obtain ⟨hmany, -, hone⟩ := hover.resolve_left hproduct
      refine if_neg fun hall => ?_
      have hlast : t.found.draws 0 = Fin.last (2 ^ 31 - 1) := (hdraws 0).trans (if_neg (by omega))
      have hsome := hall 0 hone
      dsimp only at hsome
      rw [hlast, candidate_eq_none hmany hweighted] at hsome
      exact absurd hsome (by decide)
    · exact absurd ⟨by omega, (hover.resolve_left hproduct).2.1⟩ hbound

/-- For at least two centers a selection can overflow exactly when one of the numbers is too large. -/
theorem canOverflow_iff (hlog : a.log = fun n : ℕ => Real.log n) (hmin : 2 ≤ a.kmin) : CanOverflow a ↔
    ¬(ITER * a.kmin < 2 ^ 31 ∧ (a.num ≤ 2 ^ 30 + 1 ∨ (a.num : ℝ) ≤ (ITER * a.kmin : ℕ) * Real.log a.kmin)) := by
  have hfloor : 0 < ⌊a.bound⌋₊ := by
    rw [Search.bound, hlog]
    exact floor_bound_pos hmin
  have hbound : a.bound = (ITER * a.kmin : ℕ) * Real.log a.kmin := by rw [Search.bound, hlog]
  rw [CanOverflow, and_iff_left hfloor, hbound, not_and_or, not_or, not_lt, not_le, not_le]

theorem not_canOverflow_one (hlog : a.log = fun n : ℕ => Real.log n) (hmin : a.kmin = 1) : ¬CanOverflow a := by
  rintro (hproduct | ⟨-, -, hone⟩)
  · rw [hmin, ITER] at hproduct
    omega
  · rw [Search.bound, hlog, hmin, floor_bound_one] at hone
    exact absurd hone (lt_irrefl 0)

theorem valid_iff (hlog : a.log = fun n : ℕ => Real.log n) (hmin : 1 ≤ a.kmin) (hle : a.kmin ≤ a.kmax)
    (hnum : a.kmax < a.num) (hw : Weighted a.num f.s) (hclear : ∀ i, f.s.isCenter i = false) :
    CandidatesValid a f ↔ a.num < 2 ^ 31 ∧ (a.kmin = 1 → a.kmax = 1 ∨ places a.num a.dim f.s ≤ 1) ∧
      (a.kmin = 1 ∨ places a.num a.dim f.s < a.kmin ∨ ITER * a.kmin < 2 ^ 31 ∧
        (a.num ≤ 2 ^ 30 + 1 ∨ (a.num : ℝ) ≤ (ITER * a.kmin : ℕ) * Real.log a.kmin)) := by
  have hpos : 0 < a.num := by omega
  constructor
  · rintro ⟨-, -, hruns⟩
    have hint : a.num < 2 ^ 31 := by
      by_contra hmany
      have hfail : pkmedian a 0 f = .error .overflow := by
        rw [pkmedian, if_neg (not_le.2 hnum), if_pos (not_lt.1 hmany)]
      exact absurd (hruns 0 f.draws _ hfail) (by decide)
    refine ⟨hint, fun hone => ?_, ?_⟩
    · by_contra hnot
      rw [not_or, not_le] at hnot
      have hfail := hruns 1 f.draws _ (pkmedian_division hlog hone (by omega) hnum hint hw hnot.2)
      exact absurd hfail (by decide)
    · by_contra hnot
      rw [not_or, not_or, not_lt] at hnot
      obtain ⟨hone, hplaces, hover⟩ := hnot
      rw [← canOverflow_iff hlog (by omega)] at hover
      have hfail := hruns 0 _ _ (pkmedian_overflow hover (by omega) hnum hw hplaces)
      exact absurd hfail (by decide)
  · rintro ⟨hint, hone, hover⟩
    refine ⟨fun s draws feasible numfeasible hselect => ?_, fun feasible n ds => shuffled n ds feasible,
      fun fuel draws e he => ?_⟩
    · rcases (selectfeasibleFast_outcome hpos s draws).ok hselect with heq | ⟨-, hfalls⟩
      · cases heq
        exact .inl ⟨rfl, rfl⟩
      · exact .inr hfalls
    · have hw' : Weighted a.num ({ f with draws := draws } : Found ℝ).s := hw
      rcases (pkmedian_outcome hnum hw' hclear fuel).error he with h | ⟨-, hmany | ⟨hcan, hkmin⟩⟩ |
        ⟨-, hfloor, hiter, hplaces⟩
      · exact h
      · exact absurd hint (not_lt.2 hmany)
      · rcases Nat.lt_or_ge 1 a.kmin with htwo | hle'
        · rcases hover with hone' | hfew | hfits
          · omega
          · exact absurd hkmin (not_le.2 hfew)
          · exact absurd hfits ((canOverflow_iff hlog htwo).1 hcan)
        · exact absurd hcan (not_canOverflow_one hlog (le_antisymm hle' hmin))
      · rw [Search.bound, hlog] at hfloor
        rcases Nat.lt_or_ge 1 a.kmin with htwo | hle'
        · exact absurd hfloor (floor_bound_pos htwo).ne'
        · rcases hone (le_antisymm hle' hmin) with hmax | hsame
          · rw [Search.iter, hlog, hmax, floor_bound_one] at hiter
            exact absurd hiter (lt_irrefl 0)
          · exact absurd hplaces (not_lt.2 hsame)

/-- CORRECT: the candidates are valid and no search fails if and only if `kmin` is not 1 (or `kmax` is 1, or all
    points are in one place) and the numbers are of type `int`: that of the points, and, where two candidates or
    more are drawn, `ITER * kmin` and the sums in the binary search. -/
theorem candidates_valid_iff (hlog : a.log = fun n : ℕ => Real.log n) (hmin : 1 ≤ a.kmin) (hle : a.kmin ≤ a.kmax)
    (hnum : a.kmax < a.num) (hw : Weighted a.num f.s) (hclear : ∀ i, f.s.isCenter i = false) :
    CandidatesValid a f ↔ a.num < 2 ^ 31 ∧ (a.kmin = 1 → a.kmax = 1 ∨ places a.num a.dim f.s ≤ 1) ∧
      (a.kmin = 1 ∨ places a.num a.dim f.s < a.kmin ∨ ITER * a.kmin < 2 ^ 31 ∧
        (a.num ≤ 2 ^ 30 + 1 ∨ (a.num : ℝ) ≤ (ITER * a.kmin : ℕ) * Real.log a.kmin)) :=
  valid_iff hlog hmin hle hnum hw hclear

/-- Three points and one thread. -/
noncomputable def threePoints (kmin : ℕ) : Search ℝ where
  blocks := ⟨3, 1, Nat.one_pos⟩
  dim := 1
  kmin := kmin
  kmax := 2
  log := fun n => Real.log n
  calls := fun _ => ⟨fun _ => .byThread _, fun _ => 0⟩

/-- The points are 1 apart. -/
def inLine : Found ℝ where
  s := ⟨fun i => ⟨1, fun _ => i, 0, 0⟩, fun _ => false, 0, fun _ => 0, fun _ => false⟩
  row := id
  draws := fun _ => 0
  called := 0

theorem candidates_valid_two : CandidatesValid (threePoints 2) inLine :=
  (candidates_valid_iff rfl (by decide) (by decide) (by decide) (fun _ _ => one_pos) fun _ => rfl).2
    ⟨by decide, fun h => absurd h (by decide), .inr (.inr ⟨by decide, .inl (by decide)⟩)⟩

/-- With `kmin` 1 there are no candidates, and the search divides by zero. -/
theorem candidates_not_valid : ¬CandidatesValid (threePoints 1) inLine := by
  intro h
  have hplaces : 1 < places (threePoints 1).num (threePoints 1).dim inLine.s := by
    refine Finset.one_lt_card.2 ⟨_, Finset.mem_image_of_mem _ (Finset.mem_range.2 (by decide : 0 < 3)), _,
      Finset.mem_image_of_mem _ (Finset.mem_range.2 (by decide : 1 < 3)), fun heq => ?_⟩
    have hcoord : ((0 : ℕ) : ℝ) = ((1 : ℕ) : ℝ) := congrFun heq (0 : Fin 1)
    norm_num at hcoord
  have hvalid := (valid_iff rfl (by decide) (by decide) (by decide) (fun _ _ => one_pos) fun _ => rfl).1 h
  rcases hvalid.2.1 rfl with hmax | hsame
  · exact absurd hmax (by decide)
  · exact absurd hplaces (not_lt.2 hsame)

end Turkey.Pgain
