import Mathlib.Algebra.Order.Floor.Semiring
import Turkey.Schemes.Run
import Turkey.Streamcluster.Speedy

/-! `pkmedian` of streamcluster, in exact arithmetic: it shuffles the points and calls `pspeedy` until there are
    `kmin` centers, selects the points that may become centers (`selectfeasible_fast`), and calls `pgain` for
    these (`pFL`) in a binary search for the price `z` of a center.

    All threads take the same branches, on the values that `pspeedy` and `pgain` return to all of them. A loop
    without a bound has fuel. `static long k` is the number of centers of the state, which stays as it is from
    one call to the next. -/

namespace Turkey.Pgain
open Turkey.ParallelFor Turkey.Run

/-- What goes on around a call of `pgain`. -/
structure Call (K : Type) (b : Blocks) where
  order : Loop → b.Order
  heap : ℕ → K

/-- The arguments of `pkmedian`, the natural logarithm and the calls of `pgain`. -/
structure Search (K : Type) where
  blocks : Blocks
  dim : ℕ
  kmin : ℕ
  kmax : ℕ
  log : ℕ → K
  calls : ℕ → Call K blocks

/-- Why a search has no result. -/
inductive Stop where
  /-- The loops have not come to an end yet. -/
  | fuel
  /-- A number is too large for an `int`: that of the points, `ITER * kmin`, or a sum in a binary search. -/
  | overflow
  /-- `i % numfeasible` -/
  | division
  /-- `points->p[x]` -/
  | index
  deriving DecidableEq

/-- The points with the places in the block that they point to, the draws that are left, and how often `pgain`
    has been called. -/
structure Found (K : Type) where
  s : State K
  row : ℕ → ℕ
  draws : ℕ → Draw
  called : ℕ

section Model
variable {K : Type} [Field K] [LinearOrder K] [FloorSemiring K] (a : Search K)

/-- The number of points. -/
abbrev Search.num : ℕ := a.blocks.num

/-- `SP` -/
def SP : ℕ := 1

/-- `ITER` -/
def ITER : ℕ := 3

/-- The draws after the first `n`. -/
def later (n : ℕ) (draws : ℕ → Draw) : ℕ → Draw := fun i => draws (n + i)

/-! ### The candidates -/

/-- The weights of the points up to `i`, added up. -/
def accumweight (s : State K) : ℕ → K
  | 0 => (s.p 0).weight
  | i + 1 => accumweight s i + (s.p (i + 1)).weight

/-- The binary search for `w`, whose variables are of type `int`; `none` when `l + r` is too large for it. -/
def search (accum : ℕ → K) (w : K) (l r : ℕ) : Option ℕ :=
  if l + 1 < r then
    if 2 ^ 31 ≤ l + r then none
    else
      let k := (l + r) / 2
      if w < accum k then search accum w l k else search accum w k r
  else some r
termination_by r - l

/-- The point that the drawn weight `w` selects; `none` when the search for it overflows. -/
def candidate (num : ℕ) (accum : ℕ → K) (w : K) : Option ℕ :=
  if w < accum 0 then some 0 else search accum w 0 (num - 1)

/-- The drawn weight. -/
def drawn (num : ℕ) (s : State K) (d : Draw) : K := unit d * accumweight s (num - 1)

/-- `ITER * kmin * log(kmin)` -/
def Search.bound : K := (ITER * a.kmin : ℕ) * a.log a.kmin

/-- `selectfeasible_fast`: the array and its length. For `kmin = 0` the bound is not a number, and all points are
    feasible. -/
def selectfeasibleFast (s : State K) (draws : ℕ → Draw) : Except Stop ((ℕ → ℕ) × ℕ) :=
  if 2 ^ 31 ≤ ITER * a.kmin then .error .overflow
  else if 0 < a.kmin ∧ a.bound < a.num then
    let feasible := fun i => candidate a.num (accumweight s) (drawn a.num s (draws i))
    if ∀ i < ⌊a.bound⌋₊, (feasible i).isSome then .ok (fun i => (feasible i).getD 0, ⌊a.bound⌋₊)
    else .error .overflow
  else .ok (id, a.num)

/-! ### The facility location -/

/-- `intshuffle` -/
def intshuffle (length : ℕ) (draws : ℕ → Draw) (intarray : ℕ → ℕ) : ℕ → ℕ :=
  (List.range length).foldl (fun q i => q ∘ Equiv.swap i ((draws i).val % (length - i) + i)) intarray

/-- The points, the feasible candidates, the draws that are left, how often `pgain` has been called, the change of the
    last round, and the cost. -/
structure Location (K : Type) where
  s : State K
  feasible : ℕ → ℕ
  draws : ℕ → Draw
  called : ℕ
  change : K
  cost : K

/-- The arguments of a call of `pgain`. -/
def Search.config (z : K) (x called : ℕ) : Config K :=
  ⟨a.blocks, a.dim, z, x, (a.calls called).order, (a.calls called).heap⟩

/-- The next `n` iterations of the inner loop of `pFL`, from iteration `i` on. -/
def gains (numfeasible : ℕ) (z : K) : ℕ → ℕ → Location K → Except Stop (Location K)
  | 0, _, f => .ok f
  | n + 1, i, f =>
    if numfeasible = 0 then .error .division
    else
      let x := f.feasible (i % numfeasible)
      if a.num ≤ x then .error .index
      else
        let (s, gain) := pgain (a.config z x f.called) f.s
        gains numfeasible z n (i + 1) { f with s := s, called := f.called + 1, change := f.change + gain }

/-- The loop of `pFL`, which changes `cost`; before it `change` is set to `cost`. -/
def pFLLoop (numfeasible : ℕ) (z : K) (iter : ℕ) (e : K) : ℕ → Location K → Except Stop (Location K)
  | 0, f => if f.change / f.cost > e then .error .fuel else .ok f
  | fuel + 1, f =>
    if f.change / f.cost > e then do
      let f ← gains a numfeasible z iter 0 { f with
        change := 0
        feasible := intshuffle numfeasible f.draws f.feasible
        draws := later numfeasible f.draws }
      pFLLoop numfeasible z iter e fuel { f with cost := f.cost - f.change }
    else .ok f

/-- `pFL` -/
def pFL (fuel numfeasible : ℕ) (z : K) (iter : ℕ) (e : K) (f : Location K) : Except Stop (Location K) :=
  pFLLoop a numfeasible z iter e fuel { f with change := f.cost }

/-! ### The search -/

/-- `hiz`: every thread adds up what its points pay at the first one. -/
def hiz (s : State K) : K := aggregate a.blocks fun k => dist (s.p k) (s.p 0) a.dim * (s.p k).weight

/-- `shuffle`, with the next draws. -/
def Found.shuffle (num : ℕ) (f : Found K) : Found K := { f with
  s := { f.s with p := Streamcluster.shuffle num (fun i => (f.draws i).val) f.s.p }
  row := Streamcluster.shuffle num (fun i => (f.draws i).val) f.row
  draws := later (num - 1) f.draws }

/-- The variables of the loops that call `pspeedy`; `loz` is 0. -/
structure Try (K : Type) where
  found : Found K
  hiz : K
  z : K
  cost : K
  i : ℕ

/-- The number of centers. -/
def Try.k (t : Try K) : ℤ := t.found.s.numcenters

/-- `pspeedy` with the cost `z`. -/
def Try.pspeedy (t : Try K) : Try K :=
  let (s, cost) := Pgain.pspeedy a.blocks a.dim t.z t.found.draws t.found.s
  { t with found := { t.found with s := s, draws := later (a.num - 1) t.found.draws }, cost := cost }

/-- The first call of `pspeedy`, on the shuffled points. -/
def firstTry (f : Found K) : Try K :=
  let z := (hiz a f.s + 0) / 2
  Try.pspeedy a ⟨f.shuffle a.num, hiz a f.s, z, 0, 0⟩

/-- `while ((k < kmin) && (i < SP))`, for the next `n` values of `i`. -/
def speedyAgain : ℕ → Try K → Try K
  | 0, t => t
  | n + 1, t => if t.k < a.kmin then speedyAgain n { t.pspeedy a with i := t.i + 1 } else t

/-- Once through the loop `while (k < kmin)`. -/
def lowerPrice (t : Try K) : Try K :=
  let t := if SP ≤ t.i then { t with hiz := t.z, z := (t.z + 0) / 2, i := 0 } else t
  let t := { t with found := t.found.shuffle a.num }
  { t.pspeedy a with i := t.i + 1 }

/-- The loop that lowers the price until there are enough centers. -/
def enoughCenters : ℕ → Try K → Except Stop (Try K)
  | 0, t => if t.k < a.kmin then .error .fuel else .ok t
  | fuel + 1, t => if t.k < a.kmin then enoughCenters fuel (lowerPrice a t) else .ok t

/-- The variables of the binary search. -/
structure Bounds (K : Type) where
  location : Location K
  hiz : K
  loz : K
  z : K

/-- The number of centers. -/
def Bounds.k (t : Bounds K) : ℤ := t.location.s.numcenters

/-- The number of iterations in `pFL`. -/
def Search.iter : ℕ := ⌊((ITER * a.kmax : ℕ) : K) * a.log a.kmax⌋₊

/-- The number of centers seems good. -/
def closeEnough (k : ℤ) : Prop :=
  (10 * k ≤ 11 * a.kmax ∧ 9 * a.kmin ≤ 10 * k) ∨ (k ≤ a.kmax + 2 ∧ (a.kmin : ℤ) - 2 ≤ k)

instance (k : ℤ) : Decidable (closeEnough a k) := inferInstanceAs (Decidable (_ ∨ _))

/-- A more accurate run. -/
def accurate (fuel numfeasible : ℕ) (z : K) (f : Location K) : Except Stop (Location K) :=
  if closeEnough a f.s.numcenters then pFL a fuel numfeasible z a.iter (1 / 1000) f else .ok f

/-- Too many centers: a center costs more from now on. -/
def raise (t : Bounds K) : Bounds K :=
  if t.k > a.kmax then
    let z := (t.hiz + t.z) / 2
    { t with
      loz := t.z
      z := z
      location := { t.location with cost := t.location.cost + (z - t.z) * t.k } }
  else t

/-- Too few. -/
def reduce (t : Bounds K) : Bounds K :=
  if t.k < a.kmin then
    let z := (t.z + t.loz) / 2
    { t with
      hiz := t.z
      z := z
      location := { t.location with cost := t.location.cost + (z - t.z) * t.k } }
  else t

/-- The loop of `pkmedian` ends. -/
def goodEnough (t : Bounds K) : Prop := (t.k ≤ a.kmax ∧ a.kmin ≤ t.k) ∨ 999 / 1000 * t.hiz ≤ t.loz

instance (t : Bounds K) : Decidable (goodEnough a t) := inferInstanceAs (Decidable (_ ∨ _))

/-- Once through the loop `while (1)`, before the test that leaves it. -/
def searchStep (fuel numfeasible : ℕ) (t : Bounds K) : Except Stop (Bounds K) := do
  let f ← pFL a fuel numfeasible t.z a.iter (1 / 10) t.location
  let f ← accurate a fuel numfeasible t.z f
  return reduce a (raise a { t with location := f })

/-- The loop of `pkmedian`. -/
def searchLoop (numfeasible fuel : ℕ) : ℕ → Bounds K → Except Stop (Bounds K)
  | 0, _ => .error .fuel
  | n + 1, t => do
    let t ← searchStep a fuel numfeasible t
    if goodEnough a t then return t else searchLoop numfeasible fuel n t

/-- `is_center[points->p[i].assign] = true` for all points. -/
def markCenters (num : ℕ) (s : State K) : State K := { s with
  isCenter := (List.range num).foldl (fun isCenter i => Function.update isCenter (s.p i).assign true) s.isCenter }

/-- All points are returned as facilities. -/
def allFacilities (num : ℕ) (s : State K) : State K := { s with
  p := fun k => if k < num then { s.p k with assign := k, cost := 0 } else s.p k }

/-- `pkmedian`: what it has found, and `kfinal`. -/
def pkmedian (fuel : ℕ) (f : Found K) : Except Stop (Found K × ℤ) :=
  if a.num ≤ a.kmax then .ok ({ f with s := allFacilities a.num f.s }, f.s.numcenters)
  -- the loops of `pspeedy` and `selectfeasible_fast` count the points in an `int`
  else if 2 ^ 31 ≤ a.num then .error .overflow
  else do
    let t ← enoughCenters a fuel (speedyAgain a SP (firstTry a f))
    let (feasible, numfeasible) ← selectfeasibleFast a t.found.s t.found.draws
    let used := if numfeasible = a.num then 0 else numfeasible
    let l ← searchLoop a numfeasible fuel fuel
      ⟨⟨markCenters a.num t.found.s, feasible, later used t.found.draws, t.found.called, 0, t.cost⟩, t.hiz, 0, t.z⟩
    return (⟨l.location.s, t.found.row, l.location.draws, l.location.called⟩, l.k)

end Model

/-! ### Outcomes -/

/-- A result with `P`, or a reason with `Q`. -/
def Outcome {α : Type} (P : α → Prop) (Q : Stop → Prop) : Except Stop α → Prop
  | .ok x => P x
  | .error e => Q e

theorem Outcome.bind' {α β : Type} {P : α → Prop} {P' : β → Prop} {Q Q' : Stop → Prop} {x : Except Stop α}
    {f : α → Except Stop β} (hx : Outcome P Q x) (hQ : ∀ e, Q e → Q' e) (hf : ∀ v, P v → Outcome P' Q' (f v)) :
    Outcome P' Q' (x >>= f) := by
  cases x with
  | error e => exact hQ e hx
  | ok v => exact hf v hx

theorem Outcome.bind {α β : Type} {P : α → Prop} {P' : β → Prop} {Q : Stop → Prop} {x : Except Stop α}
    {f : α → Except Stop β} (hx : Outcome P Q x) (hf : ∀ v, P v → Outcome P' Q (f v)) : Outcome P' Q (x >>= f) :=
  hx.bind' (fun _ h => h) hf

theorem Outcome.mono {α : Type} {P P' : α → Prop} {Q Q' : Stop → Prop} {x : Except Stop α} (h : Outcome P Q x)
    (hP : ∀ v, P v → P' v) (hQ : ∀ e, Q e → Q' e) : Outcome P' Q' x := by
  cases x with
  | error e => exact hQ e h
  | ok v => exact hP v h

theorem Outcome.ok {α : Type} {P : α → Prop} {Q : Stop → Prop} {x : Except Stop α} (h : Outcome P Q x) {v : α}
    (hv : x = .ok v) : P v := by
  rw [hv] at h
  exact h

theorem Outcome.error {α : Type} {P : α → Prop} {Q : Stop → Prop} {x : Except Stop α} (h : Outcome P Q x) {e : Stop}
    (he : x = .error e) : Q e := by
  rw [he] at h
  exact h

/-! ### Points that change their places in the array -/

section Rearranged
variable {K : Type} {num : ℕ} {s s' s'' : State K}

/-- The points are the same, in another order of the array. -/
def Rearranged (num : ℕ) (s s' : State K) : Prop :=
  ∃ π : Equiv.Perm ℕ, (∀ i < num, π i < num) ∧
    ∀ i, (s'.p i).weight = (s.p (π i)).weight ∧ (s'.p i).coord = (s.p (π i)).coord

theorem Rearranged.refl (num : ℕ) (s : State K) : Rearranged num s s := ⟨1, fun _ hi => hi, fun _ => ⟨rfl, rfl⟩⟩

theorem SamePlaces.rearranged (h : SamePlaces s s') (num : ℕ) : Rearranged num s s' := ⟨1, fun _ hi => hi, h⟩

theorem Rearranged.trans (h : Rearranged num s s') (h' : Rearranged num s' s'') : Rearranged num s s'' := by
  obtain ⟨π, hπ, hs⟩ := h
  obtain ⟨σ, hσ, hs'⟩ := h'
  exact ⟨π * σ, fun i hi => hπ _ (hσ i hi), fun i =>
    ⟨(hs' i).1.trans (hs (σ i)).1, (hs' i).2.trans (hs (σ i)).2⟩⟩

theorem rearranged_shuffle (num : ℕ) (f : Found K) : Rearranged num f.s (f.shuffle num).s := by
  refine ⟨Streamcluster.shufflePerm num fun i => (f.draws i).val, Streamcluster.shufflePerm_lt _, fun i => ?_⟩
  simp only [Found.shuffle, Streamcluster.shuffle_eq, Function.comp_apply, and_self]

theorem image_perm {π : Equiv.Perm ℕ} (hπ : ∀ i < num, π i < num) : (Finset.range num).image π =
    Finset.range num := by
  refine Finset.eq_of_subset_of_card_le (fun j hj => ?_) (Finset.card_image_of_injective _ π.injective).ge
  obtain ⟨i, hi, rfl⟩ := Finset.mem_image.1 hj
  exact Finset.mem_range.2 (hπ i (Finset.mem_range.1 hi))

theorem Rearranged.places [LinearOrder K] (h : Rearranged num s s') (dim : ℕ) :
    places num dim s' = places num dim s := by
  obtain ⟨π, hπ, hs⟩ := h
  have hplace : place dim s' = place dim s ∘ π := by
    funext i d
    rw [place, (hs i).2]
    rfl
  rw [Pgain.places, hplace, ← Finset.image_image, image_perm hπ, Pgain.places]

variable [Field K] [LinearOrder K]

theorem Rearranged.weighted (h : Rearranged num s s') (hw : Weighted num s) : Weighted num s' := by
  obtain ⟨π, hπ, hs⟩ := h
  intro k hk
  rw [(hs k).1]
  exact hw _ (hπ k hk)

end Rearranged

/-! ### The loops that call `pspeedy` -/

section Tries
variable {K : Type} [Field K] [LinearOrder K] {a : Search K} {f : Found K} {t : Try K}

/-- Positive if there are different places, else zero. -/
def Priced (n : ℕ) (z : K) : Prop := (1 < n → 0 < z) ∧ (n ≤ 1 → z = 0)

/-- The centers that `pspeedy` leaves, for the points of `f`. -/
structure Tried (a : Search K) (f : Found K) (t : Try K) : Prop where
  points : Rearranged a.num f.s t.found.s
  isCenter : t.found.s.isCenter = f.s.isCenter
  seeded : Seeded a.num a.dim t.found.s
  cost : t.cost = t.z * t.k + ∑ k ∈ Finset.range a.num, (t.found.s.p k).cost
  hiz : Priced (places a.num a.dim f.s) t.hiz
  z : Priced (places a.num a.dim f.s) t.z

variable [IsStrictOrderedRing K]

omit [IsStrictOrderedRing K] in
theorem Priced.nonneg {n : ℕ} {z : K} (h : Priced n z) : 0 ≤ z := by
  rcases Nat.lt_or_ge 1 n with hn | hn
  · exact (h.1 hn).le
  · exact (h.2 hn).ge

theorem Priced.half {n : ℕ} {y z : K} (hz : Priced n z) (hy : 0 ≤ y) (hy' : n ≤ 1 → y = 0) : Priced n ((z + y) / 2) :=
  ⟨fun hn => div_pos (add_pos_of_pos_of_nonneg (hz.1 hn) hy) two_pos,
    fun hn => by rw [hz.2 hn, hy' hn, add_zero, zero_div]⟩

/-- What is paid at the first point. -/
theorem priced_hiz (hnum : 0 < a.num) {s : State K} (hw : Weighted a.num s) :
    Priced (places a.num a.dim s) (hiz a s) := by
  have hnonneg : ∀ k ∈ Finset.range a.num, 0 ≤ dist (s.p k) (s.p 0) a.dim * (s.p k).weight := fun k hk =>
    mul_nonneg (dist_nonneg ..) (hw k (Finset.mem_range.1 hk)).le
  have hzero : ∀ k < a.num, dist (s.p k) (s.p 0) a.dim * (s.p k).weight = 0 ↔ place a.dim s k = place a.dim s 0 := by
    intro k hk
    rw [mul_eq_zero, or_iff_left (hw k hk).ne', dist_eq_zero_iff]
  rw [hiz, aggregate_eq]
  constructor
  · intro hn
    refine lt_of_le_of_ne (Finset.sum_nonneg hnonneg) fun h => ?_
    rw [eq_comm, Finset.sum_eq_zero_iff_of_nonneg hnonneg] at h
    have hone : places a.num a.dim s ≤ ({place a.dim s 0} : Finset (Fin a.dim → K)).card := by
      refine Finset.card_le_card fun v hv => ?_
      obtain ⟨k, hk, rfl⟩ := Finset.mem_image.1 hv
      exact Finset.mem_singleton.2 ((hzero k (Finset.mem_range.1 hk)).1 (h k hk))
    rw [Finset.card_singleton] at hone
    omega
  · intro hn
    refine Finset.sum_eq_zero fun k hk => (hzero k (Finset.mem_range.1 hk)).2 ?_
    exact Finset.card_le_one.1 hn _ (Finset.mem_image_of_mem _ hk) _
      (Finset.mem_image_of_mem _ (Finset.mem_range.2 hnum))

/-- A call of `pspeedy` on points in any order. -/
theorem tried_pspeedy (hnum : 0 < a.num) (hw : Weighted a.num f.s) (hpoints : Rearranged a.num f.s t.found.s)
    (hcenter : t.found.s.isCenter = f.s.isCenter) (hhiz : Priced (places a.num a.dim f.s) t.hiz)
    (hz : Priced (places a.num a.dim f.s) t.z) (i : ℕ) :
    Tried a f { t.pspeedy a with i := i } where
  points := hpoints.trans ((samePlaces_pspeedy a.blocks a.dim t.z t.found.draws t.found.s).rearranged a.num)
  isCenter := (isCenter_pspeedy a.blocks a.dim t.z t.found.draws t.found.s).trans hcenter
  seeded := seeded_pspeedy hnum (hpoints.weighted hw) hz.nonneg t.found.draws
  cost := by
    simp only [Try.pspeedy, Try.k, Pgain.pspeedy]
    rw [aggregate_eq]
  hiz := hhiz
  z := hz

theorem tried_firstTry (hnum : 0 < a.num) (hw : Weighted a.num f.s) : Tried a f (firstTry a f) :=
  tried_pspeedy (t := ⟨f.shuffle a.num, hiz a f.s, (hiz a f.s + 0) / 2, 0, 0⟩) hnum hw (rearranged_shuffle a.num f)
    rfl (priced_hiz hnum hw) ((priced_hiz hnum hw).half le_rfl fun _ => rfl) 0

theorem Tried.speedyAgain (hnum : 0 < a.num) (hw : Weighted a.num f.s) :
    ∀ (n : ℕ) (t : Try K), Tried a f t → Tried a f (speedyAgain a n t)
  | 0, _, h => h
  | n + 1, t, h => by
    rw [Pgain.speedyAgain]
    split_ifs
    · exact Tried.speedyAgain hnum hw n _ (tried_pspeedy hnum hw h.points h.isCenter h.hiz h.z _)
    · exact h

theorem Tried.lowerPrice (h : Tried a f t) (hnum : 0 < a.num) (hw : Weighted a.num f.s) (draws : ℕ → Draw) :
    Tried a f (lowerPrice a { t with found := { t.found with draws := draws } }) := by
  have hpoints : Rearranged a.num f.s ({ t.found with draws := draws }.shuffle a.num).s :=
    h.points.trans (rearranged_shuffle a.num { t.found with draws := draws })
  rw [Pgain.lowerPrice]
  split_ifs
  · exact tried_pspeedy (t := ⟨{ t.found with draws := draws }.shuffle a.num, t.z, (t.z + 0) / 2, t.cost, 0⟩) hnum hw
      hpoints h.isCenter h.z (h.z.half le_rfl fun _ => rfl) _
  · exact tried_pspeedy (t := ⟨{ t.found with draws := draws }.shuffle a.num, t.hiz, t.z, t.cost, t.i⟩) hnum hw
      hpoints h.isCenter h.hiz h.z _

/-- The search goes on when there are `kmin` centers. -/
theorem enoughCenters_outcome (hnum : 0 < a.num) (hw : Weighted a.num f.s) : ∀ (fuel : ℕ) (t : Try K), Tried a f t →
    Outcome (fun t => Tried a f t ∧ a.kmin ≤ t.k) (· = .fuel) (enoughCenters a fuel t)
  | 0, t, h => by
    rw [enoughCenters]
    split_ifs with hk
    · rfl
    · exact ⟨h, not_lt.1 hk⟩
  | fuel + 1, t, h => by
    rw [enoughCenters]
    split_ifs with hk
    · exact enoughCenters_outcome hnum hw fuel _ (h.lowerPrice hnum hw t.found.draws)
    · exact ⟨h, not_lt.1 hk⟩

/-! ### Whether the loop can end -/

/-- Once through the loop `while (k < kmin)` with these draws. -/
def tryAgain (a : Search K) (t : Try K) (draws : ℕ → Draw) : Option (Try K) :=
  if t.k < a.kmin then some (lowerPrice a { t with found := { t.found with draws := draws } }) else none

/-- The states that the loop can reach. -/
def CanReach (a : Search K) (f : Found K) (t : Try K) : Prop :=
  ∃ draws ds, exec (tryAgain a) (speedyAgain a SP (firstTry a { f with draws := draws })) ds = some t

theorem CanReach.tried (h : CanReach a f t) (hnum : 0 < a.num) (hw : Weighted a.num f.s) : Tried a f t := by
  obtain ⟨draws, ds, hrun⟩ := h
  have hstart : Tried a f (Pgain.speedyAgain a SP (firstTry a { f with draws := draws })) := by
    have hw' : Weighted a.num ({ f with draws := draws } : Found K).s := hw
    obtain ⟨points, isCenter, seeded, cost, hiz, z⟩ := Tried.speedyAgain hnum hw' SP _ (tried_firstTry hnum hw')
    exact ⟨points, isCenter, seeded, cost, hiz, z⟩
  refine exec_inv (I := Tried a f) (fun t ds t' h hstep => ?_) hstart hrun
  rw [tryAgain, Option.ite_none_right_eq_some] at hstep
  obtain ⟨-, hstep⟩ := hstep
  cases hstep
  exact h.lowerPrice hnum hw ds

/-- There are never more centers than places. -/
theorem Tried.k_le (h : Tried a f t) : t.k ≤ places a.num a.dim f.s := by
  rw [← h.points.places a.dim]
  exact h.seeded.numcenters_le

omit [IsStrictOrderedRing K] in
/-- The first point is assigned to a center. -/
theorem Tried.one_le_k (h : Tried a f t) (hnum : 0 < a.num) : 1 ≤ t.k := by
  have hk : t.k = _ := h.seeded.numcenters
  have hmem : (t.found.s.p 0).assign ∈ (Finset.range a.num).filter fun i => (t.found.s.p i).assign = i :=
    Finset.mem_filter.2 ⟨Finset.mem_range.2 (h.seeded.lt 0 hnum), h.seeded.self 0 hnum⟩
  have hcard := Finset.card_pos.2 ⟨_, hmem⟩
  omega

theorem Try.pspeedy_k {t : Try K} (hnum : 0 < a.num) (hw : Weighted a.num t.found.s) (hz : 0 < t.z)
    (hdraws : ∀ n < a.num - 1, t.found.draws n = 0) : (t.pspeedy a).k = places a.num a.dim t.found.s :=
  pspeedy_places hnum hw hz hdraws

/-- With all draws 0, once through the loop is enough. -/
theorem Tried.lowerPrice_k (h : Tried a f t) (hnum : 0 < a.num) (hw : Weighted a.num f.s)
    (hplaces : 1 < places a.num a.dim f.s) :
    (Pgain.lowerPrice a { t with found := { t.found with draws := fun _ => 0 } }).k = places a.num a.dim f.s := by
  have hpoints : Rearranged a.num f.s ({ t.found with draws := fun _ => 0 }.shuffle a.num).s :=
    h.points.trans (rearranged_shuffle a.num { t.found with draws := fun _ => 0 })
  rw [← hpoints.places a.dim, Pgain.lowerPrice]
  split_ifs
  · have hz : 0 < (t.z + 0) / 2 := (h.z.half le_rfl fun _ => rfl).1 hplaces
    have hk := Try.pspeedy_k (a := a)
      (t := ⟨{ t.found with draws := fun _ => 0 }.shuffle a.num, t.z, (t.z + 0) / 2, t.cost, 0⟩)
      hnum (hpoints.weighted hw) hz fun _ _ => rfl
    exact hk
  · have hk := Try.pspeedy_k (a := a) (t := ⟨{ t.found with draws := fun _ => 0 }.shuffle a.num, t.hiz, t.z,
        t.cost, t.i⟩)
      hnum (hpoints.weighted hw) (h.z.1 hplaces) fun _ _ => rfl
    exact hk

theorem Tried.exists_exit (h : Tried a f t) (hnum : 0 < a.num) (hw : Weighted a.num f.s)
    (hplaces : a.kmin ≤ places a.num a.dim f.s) : ∃ ds t', exec (tryAgain a) t ds = some t' ∧ ¬t'.k < a.kmin := by
  by_cases hk : t.k < a.kmin
  · have hone := h.one_le_k hnum
    refine ⟨[fun _ => 0], _, exec_cons_eq_some.2 ⟨_, if_pos hk, rfl⟩, ?_⟩
    rw [h.lowerPrice_k hnum hw (by omega)]
    omega
  · exact ⟨[], t, rfl, hk⟩

theorem exits_iff (hpos : 0 < a.num) (hw : Weighted a.num f.s) :
    (∀ t, CanReach a f t → ∃ ds t', exec (tryAgain a) t ds = some t' ∧ ¬t'.k < a.kmin) ↔
      a.kmin ≤ places a.num a.dim f.s := by
  constructor
  · intro h
    obtain ⟨ds, t', hrun, hend⟩ := h _ ⟨f.draws, [], rfl⟩
    have hreach : CanReach a f t' := ⟨f.draws, ds, hrun⟩
    have hle := (hreach.tried hpos hw).k_le
    omega
  · exact fun hplaces t ht => (ht.tried hpos hw).exists_exit hpos hw hplaces

/-- CORRECT: the loop can be left from every state that it can reach if and only if the points are in at least
    `kmin` different places. -/
theorem loop_can_end_iff (hnum : a.kmax < a.num) (hw : Weighted a.num f.s) :
    (∀ t, CanReach a f t → ∃ ds t', exec (tryAgain a) t ds = some t' ∧ ¬t'.k < a.kmin) ↔
      a.kmin ≤ ((Finset.range a.num).image fun i => fun d : Fin a.dim => (f.s.p i).coord d).card :=
  exits_iff (Nat.lt_of_le_of_lt (Nat.zero_le _) hnum) hw

end Tries

/-- Three points and one thread. -/
def three (kmin kmax : ℕ) : Search ℚ where
  blocks := ⟨3, 1, Nat.one_pos⟩
  dim := 1
  kmin := kmin
  kmax := kmax
  log := fun _ => 0
  calls := fun _ => ⟨fun _ => .byThread _, fun _ => 0⟩

/-- Points with these coordinates. -/
def atPlaces (coord : ℕ → ℚ) : Found ℚ where
  s := ⟨fun i => ⟨1, fun _ => coord i, 0, 0⟩, fun _ => false, 0, fun _ => 0, fun _ => false⟩
  row := id
  draws := fun _ => 0
  called := 0

theorem loop_can_end_two : (three 2 2).kmax < (three 2 2).num ∧
    ∀ t, CanReach (three 2 2) (atPlaces fun i => (i % 2 : ℕ)) t →
      ∃ ds t', exec (tryAgain (three 2 2)) t ds = some t' ∧ ¬t'.k < (three 2 2).kmin :=
  ⟨by decide, (loop_can_end_iff (by decide) fun _ _ => one_pos).2 (by decide +kernel)⟩

/-- Three equal points: there will never be two centers. -/
theorem loop_never_ends : ¬∀ t, CanReach (three 2 2) (atPlaces fun _ => 0) t →
    ∃ ds t', exec (tryAgain (three 2 2)) t ds = some t' ∧ ¬t'.k < (three 2 2).kmin :=
  fun h => absurd ((exits_iff (by decide) fun _ _ => one_pos).1 h) (by decide +kernel)

end Turkey.Pgain
