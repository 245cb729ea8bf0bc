import Mathlib.Algebra.Order.BigOperators.Group.Finset
import Mathlib.Algebra.Order.Floor.Defs
import Mathlib.Algebra.Order.Ring.Rat
import Mathlib.Data.Rat.Floor
import Turkey.Schemes.Facility
import Turkey.Schemes.ParallelFor

/-! `pgain` of streamcluster, in exact arithmetic: it finds out what the opening of a center at point `x`
    would cost, and opens it when something is saved.

    The `nproc` threads run it together, with barriers between the phases. In a phase, a thread writes only to
    its own block of the arrays, to its own row of the working memory and to its own variables (thread 0 also
    to the variables they share), and reads nothing that another thread writes in that phase; so the order in
    which the iterations of the threads come is given, and nothing depends on it. The floating-point numbers
    are elements of an ordered ring. -/

namespace Turkey.Pgain
open Turkey.ParallelFor

/-- `Point` -/
structure Point (R : Type*) where
  weight : R
  coord : ℕ → R
  assign : ℕ
  cost : R

/-- The points and the arrays that belong to them. -/
structure State (R : Type*) where
  p : ℕ → Point R
  isCenter : ℕ → Bool
  numcenters : ℤ
  centerTable : ℕ → ℕ
  switchMembership : ℕ → Bool

/-- The loops of `pgain` that are divided among the threads. -/
inductive Loop where
  | count
  | place
  | clear
  | lower
  | close
  | assign
  | isCenter

/-- The arguments, the division of the points among the threads, the order of the iterations in every loop
    and what `malloc` finds in the working memory. -/
structure Config (R : Type*) where
  blocks : Blocks
  dim : ℕ
  z : R
  x : ℕ
  order : Loop → blocks.Order
  heap : ℕ → R

section Model
variable {R : Type*} [CommRing R] [LinearOrder R] [FloorSemiring R] (c : Config R)

/-- The square of the Euclidean distance. -/
def dist (p1 p2 : Point R) (dim : ℕ) : R :=
  (List.range dim).foldl (fun result i =>
    result + (p1.coord i - p2.coord i) * (p1.coord i - p2.coord i)) 0

/-- `CACHE_LINE / sizeof(double)` -/
def cl : ℕ := 4

/-- The length of a row of the working memory. The size of the whole, `stride*(nproc+1)`, is an `int` product in the
    source, and taken as exact here. -/
def stride (numcenters : ℤ) : ℕ :=
  let stride := (numcenters + 2).toNat
  if stride % cl ≠ 0 then cl * (stride / cl + 1) else stride

/-- The number of threads. -/
def Config.nproc : ℕ := c.blocks.nproc

/-- Every thread writes a value into its row. -/
def store (stride offset : ℕ) (v : ℕ → R) (workMem : ℕ → R) : ℕ → R :=
  forEach (fun pid => pid * stride + offset) (fun pid _ => v pid) (List.range c.nproc) workMem

/-! ### The table of the centers -/

/-- `center_table`, and the counts of the threads. -/
structure Table where
  centerTable : ℕ → ℕ
  count : ℕ → ℕ

/-- A point of the first loop: a center is counted by the thread that has it. -/
def countCenter (s : State R) (t : Table) : ℕ × ℕ → Table
  | (pid, i) =>
    if s.isCenter i then
      ⟨Function.update t.centerTable i (t.count pid), Function.update t.count pid (t.count pid + 1)⟩
    else t

/-- Thread 0 makes the counts into offsets. -/
def offsets (stride : ℕ) (workMem : ℕ → R) : (ℕ → R) × ℕ :=
  (List.range c.nproc).foldl (fun (workMem, accum) p =>
    let tmp := ⌊workMem (p * stride)⌋₊
    (Function.update workMem (p * stride) (accum : R), accum + tmp)) (workMem, 0)

/-- The numbers of the centers. -/
def centerTable (s : State R) : ℕ → ℕ :=
  let stride := stride s.numcenters
  let t := (c.order .count).run.foldl (countCenter s) ⟨s.centerTable, fun _ => 0⟩
  let workMem := store c stride 0 (fun pid => (t.count pid : R)) c.heap
  let workMem := (offsets c stride workMem).1
  forEach Prod.snd (fun (pid, i) entry => if s.isCenter i then entry + ⌊workMem (pid * stride)⌋₊ else entry)
    (c.order .place).run t.centerTable

/-! ### The cost of the opening -/

/-- What the second loop finds: the points that switch, the costs of the threads and the gains in their rows. -/
structure Lower (R : Type*) where
  switchMembership : ℕ → Bool
  costOfOpeningX : ℕ → R
  workMem : ℕ → R

/-- A point of the second loop. -/
def lowerStep (s : State R) (table : ℕ → ℕ) (a : Lower R) : ℕ × ℕ → Lower R
  | (pid, i) =>
    let xCost := dist (s.p i) (s.p c.x) c.dim * (s.p i).weight
    let currentCost := (s.p i).cost
    if xCost < currentCost then { a with
      switchMembership := Function.update a.switchMembership i true
      costOfOpeningX := Function.update a.costOfOpeningX pid (a.costOfOpeningX pid + (xCost - currentCost)) }
    else
      let k := pid * stride s.numcenters + table (s.p i).assign
      { a with workMem := Function.update a.workMem k (a.workMem k + (currentCost - xCost)) }

/-- What the third loop finds: the sums of the gains, and the centers to be closed. -/
structure Close (R : Type*) where
  workMem : ℕ → R
  numberOfCentersToClose : ℕ → ℕ
  costOfOpeningX : ℕ → R

/-- `low` of center `i`, from the rows of all threads. -/
def lowOf (s : State R) (table : ℕ → ℕ) (workMem : ℕ → R) (i : ℕ) : R :=
  (List.range c.nproc).foldl (fun low p => low + workMem (table i + p * stride s.numcenters)) c.z

/-- A point of the third loop. -/
def closeStep (s : State R) (table : ℕ → ℕ) (a : Close R) : ℕ × ℕ → Close R
  | (pid, i) =>
    if s.isCenter i then
      let low := lowOf c s table a.workMem i
      let workMem := Function.update a.workMem (c.nproc * stride s.numcenters + table i) low
      if 0 < low then ⟨workMem, Function.update a.numberOfCentersToClose pid (a.numberOfCentersToClose pid + 1),
        Function.update a.costOfOpeningX pid (a.costOfOpeningX pid - low)⟩
      else { a with workMem := workMem }
    else a

/-- The working memory before the loop over the points: all rows are cleared, also the global one. -/
def cleared (s : State R) : ℕ → R := fun k =>
  if k < (c.nproc + 1) * stride s.numcenters then 0 else c.heap k

/-- The second loop of all threads. -/
def lower (s : State R) (table : ℕ → ℕ) : Lower R :=
  (c.order .lower).run.foldl (lowerStep c s table)
    ⟨forEach Prod.snd (fun _ _ => false) (c.order .clear).run s.switchMembership, fun _ => 0, cleared c s⟩

/-- The third loop of all threads. -/
def close (s : State R) (table : ℕ → ℕ) : Close R :=
  let l := lower c s table
  (c.order .close).run.foldl (closeStep c s table) ⟨l.workMem, fun _ => 0, l.costOfOpeningX⟩

/-- What the threads have written at the end of their rows. -/
def results (s : State R) (table : ℕ → ℕ) : ℕ → R :=
  let stride := stride s.numcenters
  let a := close c s table
  store c stride (stride - 2 + 1) a.costOfOpeningX
    (store c stride (stride - 2) (fun pid => (a.numberOfCentersToClose pid : R)) a.workMem)

/-- `gl_number_of_centers_to_close` -/
def glNumberOfCentersToClose (s : State R) (table : ℕ → ℕ) : ℕ :=
  let stride := stride s.numcenters
  (List.range c.nproc).foldl (fun n p => n + ⌊results c s table (p * stride + (stride - 2))⌋₊) 0

/-- `gl_cost_of_opening_x` -/
def glCostOfOpeningX (s : State R) (table : ℕ → ℕ) : R :=
  let stride := stride s.numcenters
  (List.range c.nproc).foldl (fun cost p => cost + results c s table (p * stride + (stride - 2 + 1))) c.z

/-! ### The opening -/

/-- `gl_lower`, for the center at place `i`. -/
def glLower (s : State R) (table : ℕ → ℕ) (i : ℕ) : R :=
  results c s table (c.nproc * stride s.numcenters + table i)

/-- A point of the loop that assigns the points anew. -/
def assignStep (s : State R) (table : ℕ → ℕ) (i : ℕ) (p : Point R) : Point R :=
  let closeCenter := 0 < glLower c s table p.assign
  if (lower c s table).switchMembership i ∨ closeCenter then
    { p with cost := p.weight * dist p (s.p c.x) c.dim, assign := c.x }
  else p

/-- The points when `x` has been opened. -/
def openX (s : State R) (table : ℕ → ℕ) : State R where
  p := forEach Prod.snd (fun q => assignStep c s table q.2) (c.order .assign).run s.p
  isCenter := Function.update
    (forEach Prod.snd (fun q isCenter => if isCenter ∧ 0 < glLower c s table q.2 then false else isCenter)
      (c.order .isCenter).run s.isCenter) c.x true
  numcenters := s.numcenters + 1 - glNumberOfCentersToClose c s table
  centerTable := table
  switchMembership := (lower c s table).switchMembership

/-- The state after `pgain`, and what it returns. -/
def pgain (s : State R) : State R × R :=
  let table := centerTable c s
  if glCostOfOpeningX c s table < 0 then (openX c s table, -glCostOfOpeningX c s table)
  else ({ s with centerTable := table, switchMembership := (lower c s table).switchMembership }, -0)

end Model

variable {R : Type*} {c : Config R} {s : State R}

/-! ### Rows of the working memory -/

theorem cell_lt {p q stride k : ℕ} (hpq : p < q) (hk : k < stride) : p * stride + k < q * stride := by
  have := Nat.mul_le_mul_right stride (Nat.succ_le_of_lt hpq)
  rw [Nat.succ_mul] at this
  omega

theorem cell_inj {p q stride k l : ℕ} (hk : k < stride) (hl : l < stride)
    (h : p * stride + k = q * stride + l) : p = q ∧ k = l := by
  rcases Nat.lt_trichotomy p q with hpq | rfl | hpq
  · have := cell_lt hpq hk
    omega
  · exact ⟨rfl, by omega⟩
  · have := cell_lt hpq hl
    omega

theorem le_stride (m : ℕ) : m + 2 ≤ stride m := by
  have nat : ((m : ℤ) + 2).toNat = m + 2 := by omega
  simp only [stride, cl, nat]
  split_ifs
  · omega
  · exact Nat.le_refl _

theorem nodup_cells {stride offset : ℕ} (h : offset < stride) (n : ℕ) :
    ((List.range n).map fun pid => pid * stride + offset).Nodup :=
  List.nodup_range.map fun _ _ hpq => (cell_inj h h hpq).1

theorem store_of_lt {stride offset pid : ℕ} {v w : ℕ → R} (h : offset < stride) (hp : pid < c.nproc) :
    store c stride offset v w (pid * stride + offset) = v pid :=
  forEach_of_mem (nodup_cells h _) (List.mem_range.2 hp)

theorem store_of_ne {stride offset k : ℕ} {v w : ℕ → R} (h : ∀ pid < c.nproc, k ≠ pid * stride + offset) :
    store c stride offset v w k = w k := by
  refine forEach_of_notMem fun hmem => ?_
  obtain ⟨pid, hpid, rfl⟩ := List.mem_map.1 hmem
  exact h pid (List.mem_range.1 hpid) rfl

/-! ### The table numbers the centers -/

/-- The iterations that count a center. -/
def centersIn (s : State R) (pid : ℕ) (seen : List (ℕ × ℕ)) : ℕ :=
  (seen.map fun q => if q.1 = pid then (if s.isCenter q.2 then 1 else 0) else 0).sum

/-- Invariant of the count: in every thread the centers have different numbers below the thread's count. -/
structure Counted (s : State R) (seen : List (ℕ × ℕ)) (t : Table) : Prop where
  count : ∀ pid, t.count pid = centersIn s pid seen
  lt : ∀ q ∈ seen, s.isCenter q.2 → t.centerTable q.2 < t.count q.1
  inj : ∀ q ∈ seen, ∀ r ∈ seen, s.isCenter q.2 → s.isCenter r.2 → q.1 = r.1 →
    t.centerTable q.2 = t.centerTable r.2 → q.2 = r.2

theorem Counted.step {seen : List (ℕ × ℕ)} {t : Table} {pid i : ℕ} (h : Counted s seen t)
    (fresh : i ∉ seen.map Prod.snd) : Counted s (seen ++ [(pid, i)]) (countCenter s t (pid, i)) := by
  have old : ∀ q ∈ seen, q.2 ≠ i := fun q hq heq => fresh (heq ▸ List.mem_map_of_mem hq)
  have concat (p : ℕ) : centersIn s p (seen ++ [(pid, i)]) =
      centersIn s p seen + if pid = p then (if s.isCenter i then 1 else 0) else 0 := by
    simp [centersIn]
  by_cases hi : s.isCenter i
  · simp only [countCenter, hi, if_true] at concat ⊢
    refine ⟨fun p => ?_, fun q hq hc => ?_, fun q hq r hr hqc hrc hpid heq => ?_⟩ <;> dsimp only at *
    · rw [concat, ← h.count]
      rcases eq_or_ne p pid with rfl | hp
      · rw [Function.update_self, if_pos rfl]
      · rw [Function.update_of_ne hp, if_neg hp.symm, Nat.add_zero]
    · rcases List.mem_append.1 hq with hq | hq
      · have lt := h.lt q hq hc
        rw [Function.update_of_ne (old q hq)]
        rcases eq_or_ne q.1 pid with hp | hp
        · rw [hp, Function.update_self]
          rw [hp] at lt
          omega
        · rw [Function.update_of_ne hp]
          exact lt
      · obtain rfl := List.mem_singleton.1 hq
        rw [Function.update_self, Function.update_self]
        exact Nat.lt_succ_self _
    · rcases List.mem_append.1 hq with hq | hq <;> rcases List.mem_append.1 hr with hr | hr
      · rw [Function.update_of_ne (old q hq), Function.update_of_ne (old r hr)] at heq
        exact h.inj q hq r hr hqc hrc hpid heq
      · obtain rfl := List.mem_singleton.1 hr
        have lt := h.lt q hq hqc
        rw [Function.update_of_ne (old q hq), Function.update_self] at heq
        rw [hpid, heq] at lt
        exact absurd lt (Nat.lt_irrefl _)
      · obtain rfl := List.mem_singleton.1 hq
        have lt := h.lt r hr hrc
        rw [Function.update_of_ne (old r hr), Function.update_self] at heq
        rw [← hpid, ← heq] at lt
        exact absurd lt (Nat.lt_irrefl _)
      · rw [List.mem_singleton.1 hq, List.mem_singleton.1 hr]
  · simp only [countCenter, hi, Bool.false_eq_true, if_false, ite_self, Nat.add_zero] at concat ⊢
    refine ⟨fun p => (h.count p).trans (concat p).symm, fun q hq hc => ?_, fun q hq r hr hqc hrc => ?_⟩
    · rcases List.mem_append.1 hq with hq | hq
      · exact h.lt q hq hc
      · rw [List.mem_singleton.1 hq] at hc
        exact absurd hc hi
    · rcases List.mem_append.1 hq with hq | hq <;> rcases List.mem_append.1 hr with hr | hr
      · exact h.inj q hq r hr hqc hrc
      · rw [List.mem_singleton.1 hr] at hrc
        exact absurd hrc hi
      · rw [List.mem_singleton.1 hq] at hqc
        exact absurd hqc hi
      · rw [List.mem_singleton.1 hq] at hqc
        exact absurd hqc hi

theorem counted (o : c.blocks.Order) (table : ℕ → ℕ) :
    Counted s o.run (o.run.foldl (countCenter s) ⟨table, fun _ => 0⟩) := by
  refine (foldl_inv (I := fun seen t => (seen.map Prod.snd).Nodup → Counted s seen t)
    (fun _ => ⟨fun _ => rfl, ?_, ?_⟩)
    (fun seen q t ih nodup => ?_) o.run) o.nodup
  · nofun
  · nofun
  · rw [List.map_append, List.nodup_append] at nodup
    exact (ih nodup.1).step fun hmem => nodup.2.2 _ hmem _ (List.mem_singleton_self _) rfl

theorem centersIn_order (o : c.blocks.Order) : ∑ pid ∈ Finset.range c.nproc, centersIn s pid o.run =
    ((Finset.range c.blocks.num).filter fun i => s.isCenter i).card := by
  simp only [centersIn]
  rw [Config.nproc, o.sum_threads fun q => if s.isCenter q.2 then 1 else 0,
    o.sum_snd fun i => if s.isCenter i then 1 else 0, Finset.card_filter]

section Floor
variable [CommRing R] [LinearOrder R] [IsStrictOrderedRing R] [FloorSemiring R]

theorem offsets_range {stride : ℕ} {w : ℕ → R} {count : ℕ → ℕ} (pos : 0 < stride)
    (hw : ∀ p < c.nproc, w (p * stride) = count p) : ∀ n ≤ c.nproc,
    let r := (List.range n).foldl (fun (workMem, accum) p =>
      (Function.update workMem (p * stride) ((accum : ℕ) : R), accum + ⌊workMem (p * stride)⌋₊)) (w, 0)
    r.2 = ∑ q ∈ Finset.range n, count q ∧
      (∀ p < n, r.1 (p * stride) = ((∑ q ∈ Finset.range p, count q : ℕ) : R)) ∧
      ∀ p, n ≤ p → r.1 (p * stride) = w (p * stride)
  | 0, _ => ⟨rfl, fun p hp => absurd hp (Nat.not_lt_zero p), fun _ _ => rfl⟩
  | n + 1, hn => by
    obtain ⟨accum, done, rest⟩ := offsets_range pos hw n (Nat.le_of_succ_le hn)
    have other {p : ℕ} (hp : p ≠ n) : p * stride ≠ n * stride := fun h => hp (Nat.eq_of_mul_eq_mul_right pos h)
    simp only [List.range_succ, List.foldl_append, List.foldl_cons, List.foldl_nil]
    refine ⟨?_, fun p hp => ?_, fun p hp => ?_⟩
    · rw [rest n (Nat.le_refl n), hw n hn, Nat.floor_natCast, accum, Finset.sum_range_succ]
    · rcases Nat.lt_succ_iff_lt_or_eq.1 hp with hp | rfl
      · rw [Function.update_of_ne (other hp.ne), done p hp]
      · rw [Function.update_self, accum]
    · rw [Function.update_of_ne (other (by omega)), rest p (by omega)]

/-- The centers have different numbers below the number of centers. -/
theorem centerTable_spec (hnum : s.numcenters = ((Finset.range c.blocks.num).filter fun i => s.isCenter i).card) :
    (∀ i < c.blocks.num, s.isCenter i → (centerTable c s i : ℤ) < s.numcenters) ∧
    ∀ i < c.blocks.num, ∀ j < c.blocks.num, s.isCenter i → s.isCenter j →
      centerTable c s i = centerTable c s j → i = j := by
  set t := (c.order .count).run.foldl (countCenter s) ⟨s.centerTable, fun _ => 0⟩ with ht
  have table : Counted s (c.order .count).run t := counted (c.order .count) s.centerTable
  have wide := le_stride ((Finset.range c.blocks.num).filter fun i => s.isCenter i).card
  rw [← hnum] at wide
  have total : ∑ pid ∈ Finset.range c.nproc, t.count pid =
      ((Finset.range c.blocks.num).filter fun i => s.isCenter i).card := by
    simp only [table.count]
    exact centersIn_order _
  have counts : ∀ p < c.nproc, store c (stride s.numcenters) 0 (fun pid => (t.count pid : R)) c.heap
      (p * stride s.numcenters) = t.count p := fun p hp => store_of_lt (by omega) hp
  obtain ⟨-, offset, -⟩ := offsets_range (by omega) counts c.nproc (Nat.le_refl _)
  have entry : ∀ i < c.blocks.num, s.isCenter i → ∃ q ∈ (c.order .count).run, q.2 = i ∧ q.1 < c.nproc ∧
      centerTable c s i = t.centerTable i + ∑ p ∈ Finset.range q.1, t.count p := by
    intro i hi hc
    obtain ⟨q, hmem, rfl⟩ := List.mem_map.1 ((c.order .place).mem_iff.2 hi)
    have hpid := (c.order .place).fst_lt hmem
    refine ⟨q, (c.order .place).mem_of_mem _ hmem, rfl, hpid, ?_⟩
    simp only [centerTable]
    rw [forEach_of_mem (c.order .place).nodup hmem]
    simp only [hc, if_true]
    exact congrArg _ ((congrArg Nat.floor (offset q.1 hpid)).trans (Nat.floor_natCast _))
  have upTo {p n : ℕ} (h : p < n) : ∑ q ∈ Finset.range p, t.count q + t.count p ≤ ∑ q ∈ Finset.range n,
      t.count q := by
    rw [← Finset.sum_range_succ]
    exact Finset.sum_le_sum_of_subset (Finset.range_subset_range.2 h)
  constructor
  · intro i hi hc
    obtain ⟨q, hmem, rfl, hpid, heq⟩ := entry i hi hc
    have lt := table.lt q hmem hc
    have le := upTo hpid
    omega
  · intro i hi j hj hci hcj heq
    obtain ⟨q, hq, rfl, -, hi'⟩ := entry i hi hci
    obtain ⟨r, hr, rfl, -, hj'⟩ := entry j hj hcj
    have ltq := table.lt q hq hci
    have ltr := table.lt r hr hcj
    rcases Nat.lt_trichotomy q.1 r.1 with hlt | same | hlt
    · have := upTo hlt
      omega
    · rw [same] at hi'
      exact table.inj q hq r hr hci hcj same (by omega)
    · have := upTo hlt
      omega

end Floor

section Order
variable [CommRing R] [LinearOrder R]

/-! ### The savings of the centers -/

/-- What point `i` would pay at `x`. -/
def xCost (c : Config R) (s : State R) (i : ℕ) : R := dist (s.p i) (s.p c.x) c.dim * (s.p i).weight

/-- The table gives the centers places in a row, before the two at its end. -/
structure Numbered (c : Config R) (s : State R) (table : ℕ → ℕ) : Prop where
  lt : ∀ i < c.blocks.num, s.isCenter i → table i < stride s.numcenters - 2
  inj : ∀ i < c.blocks.num, ∀ j < c.blocks.num, s.isCenter i → s.isCenter j → table i = table j → i = j

/-- Invariant of the loop over the points. -/
structure Lowered (c : Config R) (s : State R) (table : ℕ → ℕ) (seen : List (ℕ × ℕ)) (a₀ a : Lower R) : Prop where
  switch : ∀ i, a.switchMembership i = true ↔
    a₀.switchMembership i = true ∨ i ∈ seen.map Prod.snd ∧ xCost c s i < (s.p i).cost
  cost : ∀ pid, a.costOfOpeningX pid = a₀.costOfOpeningX pid + (seen.map fun q => if q.1 = pid then
    (if xCost c s q.2 < (s.p q.2).cost then xCost c s q.2 - (s.p q.2).cost else 0) else 0).sum
  workMem : ∀ k, a.workMem k = a₀.workMem k + (seen.map fun q =>
    if ¬xCost c s q.2 < (s.p q.2).cost ∧ q.1 * stride s.numcenters + table (s.p q.2).assign = k then
      (s.p q.2).cost - xCost c s q.2 else 0).sum

theorem Lowered.step {table : ℕ → ℕ} {seen : List (ℕ × ℕ)} {a₀ a : Lower R} (h : Lowered c s table seen a₀ a)
    (q : ℕ × ℕ) : Lowered c s table (seen ++ [q]) a₀ (lowerStep c s table a q) := by
  obtain ⟨pid, i⟩ := q
  by_cases switches : xCost c s i < (s.p i).cost
  · have step : lowerStep c s table a (pid, i) = { a with
        switchMembership := Function.update a.switchMembership i true
        costOfOpeningX := Function.update a.costOfOpeningX pid
          (a.costOfOpeningX pid + (xCost c s i - (s.p i).cost)) } := if_pos switches
    rw [step]
    refine ⟨fun j => ?_, fun p => ?_, fun k => ?_⟩
    · rcases eq_or_ne j i with rfl | hj
      · simp [switches]
      · simp [h.switch, hj]
    · rcases eq_or_ne p pid with rfl | hp
      · simp [h.cost, switches, add_assoc]
      · simp [Function.update_of_ne hp, h.cost, hp.symm]
    · simp [h.workMem, switches]
  · have step : lowerStep c s table a (pid, i) = { a with
        workMem := Function.update a.workMem (pid * stride s.numcenters + table (s.p i).assign)
          (a.workMem (pid * stride s.numcenters + table (s.p i).assign) + ((s.p i).cost - xCost c s i)) } :=
      if_neg switches
    rw [step]
    refine ⟨fun j => ?_, fun p => ?_, fun k => ?_⟩
    · rcases eq_or_ne j i with rfl | hj
      · simp [h.switch, switches]
      · simp [h.switch, hj]
    · simp [h.cost, switches]
    · rcases eq_or_ne k (pid * stride s.numcenters + table (s.p i).assign) with rfl | hk
      · simp [h.workMem, switches, add_assoc]
      · simp [Function.update_of_ne hk, h.workMem, hk.symm]

/-- The loop over the points in any of the iterations. -/
theorem lowered_foldl (c : Config R) (s : State R) (table : ℕ → ℕ) (a₀ : Lower R) (l : List (ℕ × ℕ)) :
    Lowered c s table l a₀ (l.foldl (lowerStep c s table) a₀) := by
  refine foldl_inv (I := fun seen a => Lowered c s table seen _ a) ?_ (fun _ q _ ih => ih.step q) _
  exact ⟨by simp, by simp, by simp⟩

theorem lowered (c : Config R) (s : State R) (table : ℕ → ℕ) : Lowered c s table (c.order .lower).run
    ⟨forEach Prod.snd (fun _ _ => false) (c.order .clear).run s.switchMembership, fun _ => 0, cleared c s⟩
    (lower c s table) := lowered_foldl c s table _ _

theorem switchMembership_iff {table : ℕ → ℕ} {i : ℕ} (hi : i < c.blocks.num) :
    (lower c s table).switchMembership i = true ↔ xCost c s i < (s.p i).cost := by
  obtain ⟨q, hq, rfl⟩ := List.mem_map.1 ((c.order .clear).mem_iff.2 hi)
  have clear : forEach Prod.snd (fun _ _ => false) (c.order .clear).run s.switchMembership q.2 = false :=
    forEach_of_mem (c.order .clear).nodup hq
  rw [(lowered c s table).switch, (c.order .lower).mem_iff]
  simp [hi, clear]

theorem sum_costOfOpeningX (table : ℕ → ℕ) : ∑ pid ∈ Finset.range c.nproc, (lower c s table).costOfOpeningX pid =
    ∑ i ∈ Finset.range c.blocks.num with xCost c s i < (s.p i).cost, (xCost c s i - (s.p i).cost) := by
  simp only [(lowered c s table).cost, zero_add]
  rw [Config.nproc, (c.order .lower).sum_threads fun q =>
      if xCost c s q.2 < (s.p q.2).cost then xCost c s q.2 - (s.p q.2).cost else 0,
    (c.order .lower).sum_snd fun i => if xCost c s i < (s.p i).cost then xCost c s i - (s.p i).cost else 0,
    Finset.sum_filter]

/-- What point `i` pays at point `j`. -/
def far (c : Config R) (s : State R) (i j : ℕ) : R := (s.p i).weight * dist (s.p i) (s.p j) c.dim

/-- The points, their centers and what they are assigned to, as sets. -/
def clustering (c : Config R) (s : State R) : Facility.Clustering ℕ R where
  centers := {i ∈ Finset.range c.blocks.num | s.isCenter i}
  assign i := (s.p i).assign
  cost i := (s.p i).cost

omit [CommRing R] [LinearOrder R] in
theorem mem_centers {i : ℕ} : i ∈ (clustering c s).centers ↔ i < c.blocks.num ∧ s.isCenter i := by
  rw [clustering, Finset.mem_filter, Finset.mem_range]

theorem switches_iff {i : ℕ} :
    xCost c s i < (s.p i).cost ↔ Facility.Switches (far c s) c.x (clustering c s) i := by
  rw [xCost, mul_comm]
  rfl

variable {table : ℕ → ℕ}

/-- The savings that the rows of all threads hold for a center. -/
theorem lowOf_lower (num : Numbered c s table)
    (assigned : ∀ i < c.blocks.num, (s.p i).assign ∈ (clustering c s).centers) {i : ℕ}
    (hi : i ∈ (clustering c s).centers) : lowOf c s table (lower c s table).workMem i =
      Facility.low (Finset.range c.blocks.num) (far c s) c.z c.x (clustering c s) i := by
  obtain ⟨i_lt, hic⟩ := mem_centers.1 hi
  have col : table i < stride s.numcenters := by
    have := num.lt i i_lt hic
    omega
  have row : ∀ p ∈ Finset.range c.nproc, (lower c s table).workMem (table i + p * stride s.numcenters) =
      ((c.order .lower).run.map fun q => if q.1 = p then
        (if ¬xCost c s q.2 < (s.p q.2).cost ∧ (s.p q.2).assign = i then (s.p q.2).cost - xCost c s q.2 else 0)
        else 0).sum := by
    intro p hp
    have zero : cleared c s (table i + p * stride s.numcenters) = 0 := by
      refine if_pos ?_
      rw [Nat.add_comm]
      exact cell_lt (Nat.lt_succ_of_lt (Finset.mem_range.1 hp)) col
    rw [(lowered c s table).workMem]
    dsimp only
    rw [zero, zero_add]
    congr 1
    refine List.map_congr_left fun q hq => ?_
    obtain ⟨a_lt, hac⟩ := mem_centers.1 (assigned q.2 ((c.order .lower).mem_iff.1 (List.mem_map_of_mem hq)))
    have col' : table (s.p q.2).assign < stride s.numcenters := by
      have := num.lt _ a_lt hac
      omega
    have cell : q.1 * stride s.numcenters + table (s.p q.2).assign = table i + p * stride s.numcenters ↔
        q.1 = p ∧ (s.p q.2).assign = i := by
      rw [Nat.add_comm (table i)]
      constructor
      · intro h
        obtain ⟨hp, ht⟩ := cell_inj col' col h
        exact ⟨hp, num.inj _ a_lt i i_lt hac hic ht⟩
      · rintro ⟨rfl, rfl⟩
        rfl
    rw [← ite_and]
    refine if_congr ?_ rfl rfl
    rw [cell]
    tauto
  rw [lowOf, foldl_add (fun p => (lower c s table).workMem (table i + p * stride s.numcenters)),
    Finset.sum_congr rfl row, Config.nproc, (c.order .lower).sum_threads fun q =>
      if ¬xCost c s q.2 < (s.p q.2).cost ∧ (s.p q.2).assign = i then (s.p q.2).cost - xCost c s q.2 else 0,
    (c.order .lower).sum_snd fun k =>
      if ¬xCost c s k < (s.p k).cost ∧ (s.p k).assign = i then (s.p k).cost - xCost c s k else 0,
    Facility.low, Finset.sum_filter]
  congr 1
  refine Finset.sum_congr rfl fun k _ => ?_
  refine if_congr (and_congr_left' (not_congr switches_iff)) ?_ rfl
  rw [xCost, mul_comm]
  rfl

/-! ### The centers that are closed -/

/-- Invariant of the loop over the centers; `low` is what the rows hold for a center before it. -/
structure Closed (c : Config R) (s : State R) (table : ℕ → ℕ) (low : ℕ → R) (seen : List (ℕ × ℕ))
    (a₀ a : Close R) : Prop where
  number : ∀ pid, a.numberOfCentersToClose pid = a₀.numberOfCentersToClose pid + (seen.map fun q =>
    if q.1 = pid then (if s.isCenter q.2 ∧ 0 < low q.2 then 1 else 0) else 0).sum
  cost : ∀ pid, a.costOfOpeningX pid = a₀.costOfOpeningX pid - (seen.map fun q =>
    if q.1 = pid then (if s.isCenter q.2 ∧ 0 < low q.2 then low q.2 else 0) else 0).sum
  rows : ∀ k < c.nproc * stride s.numcenters, a.workMem k = a₀.workMem k
  glLower : ∀ q ∈ seen, s.isCenter q.2 → a.workMem (c.nproc * stride s.numcenters + table q.2) = low q.2

omit [LinearOrder R] in
theorem lowOf_congr {w w' : ℕ → R} (rows : ∀ k < c.nproc * stride s.numcenters, w k = w' k) {i : ℕ}
    (col : table i < stride s.numcenters) : lowOf c s table w i = lowOf c s table w' i := by
  rw [lowOf, lowOf, foldl_add (fun p => w (table i + p * stride s.numcenters)),
    foldl_add (fun p => w' (table i + p * stride s.numcenters))]
  congr 1
  refine Finset.sum_congr rfl fun p hp => rows _ ?_
  rw [Nat.add_comm]
  exact cell_lt (Finset.mem_range.1 hp) col

theorem Closed.step {low : ℕ → R} {seen : List (ℕ × ℕ)} {a₀ a : Close R} (h : Closed c s table low seen a₀ a)
    (num : Numbered c s table) (hlow : low = lowOf c s table a₀.workMem) (old : ∀ q ∈ seen, q.2 < c.blocks.num)
    {q : ℕ × ℕ} (hq : q.2 < c.blocks.num) :
    Closed c s table low (seen ++ [q]) a₀ (closeStep c s table a q) := by
  subst hlow
  obtain ⟨pid, i⟩ := q
  by_cases hi : s.isCenter i
  · have col : table i < stride s.numcenters := by
      have := num.lt i hq hi
      omega
    have low : lowOf c s table a.workMem i = lowOf c s table a₀.workMem i := lowOf_congr h.rows col
    have rows : ∀ k < c.nproc * stride s.numcenters, Function.update a.workMem
        (c.nproc * stride s.numcenters + table i) (lowOf c s table a₀.workMem i) k = a₀.workMem k := by
      intro k hk
      rw [Function.update_of_ne (by omega), h.rows k hk]
    have glLower : ∀ r ∈ seen ++ [(pid, i)], s.isCenter r.2 → Function.update a.workMem
        (c.nproc * stride s.numcenters + table i) (lowOf c s table a₀.workMem i)
        (c.nproc * stride s.numcenters + table r.2) = lowOf c s table a₀.workMem r.2 := by
      intro r hr hrc
      rcases List.mem_append.1 hr with hr | hr
      · rcases eq_or_ne (table r.2) (table i) with same | other
        · rw [num.inj r.2 (old r hr) i hq hrc hi same, Function.update_self]
        · rw [Function.update_of_ne (by omega), h.glLower r hr hrc]
      · rw [List.mem_singleton.1 hr, Function.update_self]
    by_cases pos : 0 < lowOf c s table a₀.workMem i
    · have step : closeStep c s table a (pid, i) = ⟨Function.update a.workMem
          (c.nproc * stride s.numcenters + table i) (lowOf c s table a₀.workMem i),
          Function.update a.numberOfCentersToClose pid (a.numberOfCentersToClose pid + 1),
          Function.update a.costOfOpeningX pid (a.costOfOpeningX pid - lowOf c s table a₀.workMem i)⟩ := by
        simp only [closeStep, hi, low, pos, if_true]
      rw [step]
      refine ⟨fun p => ?_, fun p => ?_, rows, glLower⟩
      · rcases eq_or_ne p pid with rfl | hp
        · simp [h.number, hi, pos, Nat.add_assoc]
        · simp [Function.update_of_ne hp, h.number, hp.symm]
      · rcases eq_or_ne p pid with rfl | hp
        · simp [h.cost, hi, pos, sub_sub]
        · simp [Function.update_of_ne hp, h.cost, hp.symm]
    · have step : closeStep c s table a (pid, i) = ⟨Function.update a.workMem
          (c.nproc * stride s.numcenters + table i) (lowOf c s table a₀.workMem i),
          a.numberOfCentersToClose, a.costOfOpeningX⟩ := by
        simp only [closeStep, hi, low, pos, if_true, if_false]
      rw [step]
      refine ⟨fun p => ?_, fun p => ?_, rows, glLower⟩
      · simp [h.number, pos]
      · simp [h.cost, pos]
  · have step : closeStep c s table a (pid, i) = a := if_neg hi
    rw [step]
    refine ⟨fun p => ?_, fun p => ?_, h.rows, fun r hr hrc => ?_⟩
    · simp [h.number, hi]
    · simp [h.cost, hi]
    · rcases List.mem_append.1 hr with hr | hr
      · exact h.glLower r hr hrc
      · rw [List.mem_singleton.1 hr] at hrc
        exact absurd hrc hi

/-- The loop over the centers in any of the iterations. -/
theorem closed_foldl (num : Numbered c s table) (a₀ : Close R) {l : List (ℕ × ℕ)}
    (inside : ∀ q ∈ l, q.2 < c.blocks.num) :
    Closed c s table (lowOf c s table a₀.workMem) l a₀ (l.foldl (closeStep c s table) a₀) := by
  refine (foldl_inv (I := fun seen a => (∀ q ∈ seen, q.2 < c.blocks.num) → Closed c s table
    (lowOf c s table a₀.workMem) seen a₀ a) ?_ ?_ l) inside
  · exact fun _ => ⟨by simp, by simp, fun _ _ => rfl, nofun⟩
  · intro seen q a ih inside
    have old : ∀ r ∈ seen, r.2 < c.blocks.num := fun r hr => inside r (List.mem_append_left _ hr)
    exact (ih old).step num rfl old (inside q (by simp))

theorem closed (num : Numbered c s table) : Closed c s table (lowOf c s table (lower c s table).workMem)
    (c.order .close).run ⟨(lower c s table).workMem, fun _ => 0, (lower c s table).costOfOpeningX⟩
    (close c s table) :=
  closed_foldl num ⟨(lower c s table).workMem, fun _ => 0, (lower c s table).costOfOpeningX⟩
    fun _ hq => (c.order .close).mem_iff.1 (List.mem_map_of_mem hq)

/-- Only the entries of the centers in the global row are written. -/
theorem close_workMem (table : ℕ → ℕ) {k : ℕ}
    (hk : ∀ i < c.blocks.num, s.isCenter i → k ≠ c.nproc * stride s.numcenters + table i) :
    (close c s table).workMem k = (lower c s table).workMem k := by
  have inside : ∀ q ∈ (c.order .close).run, q.2 < c.blocks.num := fun q hq =>
    (c.order .close).mem_iff.1 (List.mem_map_of_mem hq)
  refine (foldl_inv (I := fun seen (a : Close R) => (∀ q ∈ seen, q.2 < c.blocks.num) →
    a.workMem k = (lower c s table).workMem k) (fun _ => rfl) (fun seen q a ih inside => ?_) _) inside
  have old := ih fun r hr => inside r (List.mem_append_left _ hr)
  have hq := inside q (by simp)
  simp only [closeStep]
  split_ifs with hc
  · exact (Function.update_of_ne (hk q.2 hq hc) ..).trans old
  · exact (Function.update_of_ne (hk q.2 hq hc) ..).trans old
  · exact old

/-- The global row is not touched by what the threads write at the end of theirs. -/
theorem results_of_le (wide : 2 ≤ stride s.numcenters) {k : ℕ} (h : c.nproc * stride s.numcenters ≤ k) :
    results c s table k = (close c s table).workMem k := by
  have row : ∀ pid < c.nproc, ∀ offset < stride s.numcenters, k ≠ pid * stride s.numcenters + offset := by
    intro pid hpid offset hoffset
    have := cell_lt hpid hoffset
    omega
  rw [results, store_of_ne fun pid hpid => row pid hpid _ (by omega),
    store_of_ne fun pid hpid => row pid hpid _ (by omega)]

/-- How many centers thread `p` would close. -/
theorem results_number (wide : 2 ≤ stride s.numcenters) {p : ℕ} (hp : p < c.nproc) :
    results c s table (p * stride s.numcenters + (stride s.numcenters - 2)) =
      ((close c s table).numberOfCentersToClose p : R) := by
  have other : ∀ pid < c.nproc, p * stride s.numcenters + (stride s.numcenters - 2) ≠
      pid * stride s.numcenters + (stride s.numcenters - 2 + 1) := by
    intro pid _ heq
    have := (cell_inj (by omega) (by omega) heq).2
    omega
  rw [results, store_of_ne other, store_of_lt (by omega) hp]

/-- What the opening costs in the block of thread `p`. -/
theorem results_cost (wide : 2 ≤ stride s.numcenters) {p : ℕ} (hp : p < c.nproc) :
    results c s table (p * stride s.numcenters + (stride s.numcenters - 2 + 1)) =
      (close c s table).costOfOpeningX p :=
  store_of_lt (by omega) hp

end Order

/-! ### Consistent states -/

section Consistent
variable [CommRing R]

/-- The centers are the points that somebody is assigned to, each of them is assigned to itself, they are
    counted, and every point pays for the distance to its center. -/
structure Consistent (c : Config R) (s : State R) : Prop where
  image : ∀ i, i < c.blocks.num ∧ s.isCenter i ↔ ∃ k < c.blocks.num, (s.p k).assign = i
  self : ∀ i < c.blocks.num, s.isCenter i → (s.p i).assign = i
  numcenters : s.numcenters = ((Finset.range c.blocks.num).filter fun i => s.isCenter i).card
  cost : ∀ i < c.blocks.num, (s.p i).cost = (s.p i).weight * dist (s.p i) (s.p (s.p i).assign) c.dim

/-- What is paid by the points and for the centers. -/
def total (c : Config R) (s : State R) : R :=
  ∑ i ∈ Finset.range c.blocks.num, (s.p i).cost + c.z * s.numcenters

theorem Consistent.facility (h : Consistent c s) :
    Facility.Consistent (Finset.range c.blocks.num) (far c s) (clustering c s) where
  subset := Finset.filter_subset ..
  image := by
    ext i
    rw [mem_centers, h.image, Finset.mem_image]
    simp only [Finset.mem_range]
    rfl
  self i hi := h.self i (mem_centers.1 hi).1 (mem_centers.1 hi).2
  cost i hi := h.cost i (Finset.mem_range.1 hi)

theorem Consistent.assigned (h : Consistent c s) {i : ℕ} (hi : i < c.blocks.num) :
    (s.p i).assign ∈ (clustering c s).centers := mem_centers.2 ((h.image _).2 ⟨i, hi, rfl⟩)

theorem Consistent.wide (h : Consistent c s) : s.numcenters + 2 ≤ stride s.numcenters := by
  have := le_stride ((Finset.range c.blocks.num).filter fun i => s.isCenter i).card
  rw [h.numcenters]
  omega

theorem dist_eq (p1 p2 : Point R) (dim : ℕ) :
    dist p1 p2 dim = ∑ i ∈ Finset.range dim, (p1.coord i - p2.coord i) * (p1.coord i - p2.coord i) := by
  rw [dist, foldl_add, zero_add]

theorem dist_self (p : Point R) (dim : ℕ) : dist p p dim = 0 := by
  simp [dist_eq]

variable [LinearOrder R] [IsStrictOrderedRing R]

theorem dist_nonneg (p1 p2 : Point R) (dim : ℕ) : 0 ≤ dist p1 p2 dim := by
  rw [dist_eq]
  exact Finset.sum_nonneg fun i _ => mul_self_nonneg _

theorem coord_eq_of_dist {p1 p2 : Point R} {dim : ℕ} (h : dist p1 p2 dim = 0) {i : ℕ} (hi : i < dim) :
    p1.coord i = p2.coord i := by
  rw [dist_eq, Finset.sum_eq_zero_iff_of_nonneg fun i _ => mul_self_nonneg _] at h
  exact sub_eq_zero.1 (mul_self_eq_zero.1 (h i (Finset.mem_range.2 hi)))

theorem distances (weight : ∀ i < c.blocks.num, 0 < (s.p i).weight) :
    Facility.Distances (Finset.range c.blocks.num) (far c s) where
  self i _ := by rw [far, dist_self, mul_zero]
  nonneg i hi j _ := mul_nonneg (weight i (Finset.mem_range.1 hi)).le (dist_nonneg ..)
  same i hi j _ h k _ := by
    have zero := (mul_eq_zero.1 h).resolve_left (weight i (Finset.mem_range.1 hi)).ne'
    rw [far, far, dist_eq, dist_eq]
    congr 1
    refine Finset.sum_congr rfl fun d hd => ?_
    rw [coord_eq_of_dist zero (Finset.mem_range.1 hd)]

end Consistent

/-! ### The gain -/

section Gain
variable [CommRing R] [LinearOrder R] [IsStrictOrderedRing R] [FloorSemiring R]

theorem Consistent.numbered (h : Consistent c s) : Numbered c s (centerTable c s) := by
  obtain ⟨lt, inj⟩ := centerTable_spec h.numcenters
  refine ⟨fun i hi hc => ?_, inj⟩
  have wide := h.wide
  have := lt i hi hc
  omega

theorem Consistent.lowOf_eq (h : Consistent c s) {i : ℕ} (hi : i ∈ (clustering c s).centers) :
    lowOf c s (centerTable c s) (lower c s (centerTable c s)).workMem i =
      Facility.low (Finset.range c.blocks.num) (far c s) c.z c.x (clustering c s) i :=
  lowOf_lower h.numbered (fun _ => h.assigned) hi

theorem Consistent.glLower_eq (h : Consistent c s) {i : ℕ} (hi : i ∈ (clustering c s).centers) :
    glLower c s (centerTable c s) i =
      Facility.low (Finset.range c.blocks.num) (far c s) c.z c.x (clustering c s) i := by
  obtain ⟨i_lt, hic⟩ := mem_centers.1 hi
  obtain ⟨q, hq, rfl⟩ := List.mem_map.1 ((c.order .close).mem_iff.2 i_lt)
  have wide := h.wide
  have num := h.numcenters
  rw [glLower, results_of_le (by omega) (Nat.le_add_right ..), (closed h.numbered).glLower q hq hic, h.lowOf_eq hi]

/-- The loop over the centers, added up over the threads. -/
theorem Consistent.sum_close {M : Type*} [AddCommMonoid M] (h : Consistent c s) (f : R → M) :
    ∑ pid ∈ Finset.range c.nproc, ((c.order .close).run.map fun q => if q.1 = pid then
      (if s.isCenter q.2 ∧ 0 < lowOf c s (centerTable c s) (lower c s (centerTable c s)).workMem q.2 then
        f (lowOf c s (centerTable c s) (lower c s (centerTable c s)).workMem q.2) else 0) else 0).sum =
    ∑ i ∈ Facility.closing (Finset.range c.blocks.num) (far c s) c.z c.x (clustering c s),
      f (Facility.low (Finset.range c.blocks.num) (far c s) c.z c.x (clustering c s) i) := by
  rw [Config.nproc, (c.order .close).sum_threads fun q => if s.isCenter q.2 ∧
      0 < lowOf c s (centerTable c s) (lower c s (centerTable c s)).workMem q.2 then
        f (lowOf c s (centerTable c s) (lower c s (centerTable c s)).workMem q.2) else 0,
    (c.order .close).sum_snd fun i => if s.isCenter i ∧
      0 < lowOf c s (centerTable c s) (lower c s (centerTable c s)).workMem i then
        f (lowOf c s (centerTable c s) (lower c s (centerTable c s)).workMem i) else 0,
    Facility.closing, clustering, Finset.filter_filter, Finset.sum_filter]
  refine Finset.sum_congr rfl fun i hi => ?_
  by_cases hic : s.isCenter i
  · rw [h.lowOf_eq (mem_centers.2 ⟨Finset.mem_range.1 hi, hic⟩)]
    rfl
  · simp [hic]

theorem Consistent.glNumberOfCentersToClose_eq (h : Consistent c s) :
    glNumberOfCentersToClose c s (centerTable c s) =
      (Facility.closing (Finset.range c.blocks.num) (far c s) c.z c.x (clustering c s)).card := by
  have wide := h.wide
  have num := h.numcenters
  have cell : ∀ p ∈ Finset.range c.nproc, ⌊results c s (centerTable c s)
      (p * stride s.numcenters + (stride s.numcenters - 2))⌋₊ =
        (close c s (centerTable c s)).numberOfCentersToClose p := fun p hp => by
    rw [results_number (by omega) (Finset.mem_range.1 hp), Nat.floor_natCast]
  rw [glNumberOfCentersToClose, foldl_add (fun p => ⌊results c s (centerTable c s)
    (p * stride s.numcenters + (stride s.numcenters - 2))⌋₊), Finset.sum_congr rfl cell, zero_add]
  simp only [(closed h.numbered).number, zero_add]
  rw [h.sum_close fun _ => 1, Finset.sum_const, smul_eq_mul, mul_one]

theorem Consistent.glCostOfOpeningX_eq (h : Consistent c s) : glCostOfOpeningX c s (centerTable c s) =
    Facility.openingCost (Finset.range c.blocks.num) (far c s) c.z c.x (clustering c s) := by
  have wide := h.wide
  have num := h.numcenters
  have cell : ∀ p ∈ Finset.range c.nproc, results c s (centerTable c s)
      (p * stride s.numcenters + (stride s.numcenters - 2 + 1)) =
        (close c s (centerTable c s)).costOfOpeningX p :=
    fun p hp => results_cost (by omega) (Finset.mem_range.1 hp)
  have switched : ∑ i ∈ Finset.range c.blocks.num with xCost c s i < (s.p i).cost, (xCost c s i - (s.p i).cost) =
      ∑ i ∈ Finset.range c.blocks.num with Facility.Switches (far c s) c.x (clustering c s) i,
        (far c s i c.x - (clustering c s).cost i) := by
    refine Finset.sum_congr (Finset.filter_congr fun i _ => switches_iff) fun i _ => ?_
    rw [xCost, mul_comm]
    rfl
  rw [glCostOfOpeningX, foldl_add (fun p => results c s (centerTable c s)
    (p * stride s.numcenters + (stride s.numcenters - 2 + 1))), Finset.sum_congr rfl cell]
  simp only [(closed h.numbered).cost]
  rw [Finset.sum_sub_distrib, sum_costOfOpeningX, h.sum_close fun low => low, switched, Facility.openingCost,
    add_sub_assoc]

/-! ### The opening -/

omit [IsStrictOrderedRing R] in
theorem openX_p (table : ℕ → ℕ) {i : ℕ} (hi : i < c.blocks.num) :
    (openX c s table).p i = assignStep c s table i (s.p i) := by
  obtain ⟨q, hq, rfl⟩ := List.mem_map.1 ((c.order .assign).mem_iff.2 hi)
  exact forEach_of_mem (c.order .assign).nodup hq

theorem Consistent.openX_clustering (h : Consistent c s) {i : ℕ} (hi : i < c.blocks.num) :
    ((openX c s (centerTable c s)).p i).assign =
      (Facility.reassign (Finset.range c.blocks.num) (far c s) c.z c.x (clustering c s)).assign i ∧
    ((openX c s (centerTable c s)).p i).cost =
      (Facility.reassign (Finset.range c.blocks.num) (far c s) c.z c.x (clustering c s)).cost i := by
  have moves : ((lower c s (centerTable c s)).switchMembership i = true ∨
      0 < glLower c s (centerTable c s) (s.p i).assign) ↔
      Facility.Moves (Finset.range c.blocks.num) (far c s) c.z c.x (clustering c s) i := by
    rw [switchMembership_iff hi, switches_iff, h.glLower_eq (h.assigned hi)]
    rfl
  rw [openX_p _ hi]
  simp only [assignStep, moves, Facility.reassign]
  split_ifs
  · exact ⟨rfl, rfl⟩
  · exact ⟨rfl, rfl⟩

theorem Consistent.openX_centers (h : Consistent c s) (hx : c.x < c.blocks.num) :
    (clustering c (openX c s (centerTable c s))).centers =
      (Facility.reassign (Finset.range c.blocks.num) (far c s) c.z c.x (clustering c s)).centers := by
  ext i
  rw [mem_centers, Facility.reassign, Finset.mem_insert, Finset.mem_sdiff, mem_centers, Facility.closing,
    Finset.mem_filter]
  rcases eq_or_ne i c.x with rfl | hix
  · simp [openX, hx]
  by_cases hi : i < c.blocks.num
  · obtain ⟨q, hq, rfl⟩ := List.mem_map.1 ((c.order .isCenter).mem_iff.2 hi)
    have entry : (openX c s (centerTable c s)).isCenter q.2 =
        if s.isCenter q.2 ∧ 0 < glLower c s (centerTable c s) q.2 then false else s.isCenter q.2 := by
      simp only [openX]
      rw [Function.update_of_ne hix, forEach_of_mem (c.order .isCenter).nodup hq]
    rw [entry]
    by_cases hc : s.isCenter q.2
    · have mem := mem_centers.2 ⟨hi, hc⟩
      rw [h.glLower_eq mem]
      by_cases pos : 0 < Facility.low (Finset.range c.blocks.num) (far c s) c.z c.x (clustering c s) q.2
      · simp [hc, hix, mem, pos]
      · simp [hc, hi, hix, pos]
    · simp [hc, hix]
  · simp [hi, hix]

omit [IsStrictOrderedRing R] in
/-- The points stay where they are. -/
theorem far_openX (table : ℕ → ℕ) {i j : ℕ} (hi : i < c.blocks.num) (hj : j < c.blocks.num) :
    far c (openX c s table) i j = far c s i j := by
  have same {k : ℕ} (hk : k < c.blocks.num) : ((openX c s table).p k).weight = (s.p k).weight ∧
      ((openX c s table).p k).coord = (s.p k).coord := by
    rw [openX_p table hk, assignStep]
    split_ifs
    · exact ⟨rfl, rfl⟩
    · exact ⟨rfl, rfl⟩
  rw [far, far, dist_eq, dist_eq, (same hi).1, (same hi).2, (same hj).2]

variable (weight : ∀ i < c.blocks.num, 0 < (s.p i).weight) (hz : 0 < c.z) (hx : c.x < c.blocks.num)
include weight hz hx

theorem Consistent.openX_numcenters (h : Consistent c s) :
    (openX c s (centerTable c s)).numcenters = (clustering c (openX c s (centerTable c s))).centers.card := by
  have card := h.facility.card_reassign (distances weight) hz (Finset.mem_range.2 hx)
  have before : s.numcenters = (clustering c s).centers.card := h.numcenters
  rw [h.openX_centers hx]
  simp only [openX, h.glNumberOfCentersToClose_eq]
  omega

theorem Consistent.openX (h : Consistent c s) : Consistent c (openX c s (centerTable c s)) := by
  have after := h.facility.reassign (distances weight) hz (Finset.mem_range.2 hx)
  have mem (i : ℕ) : i < c.blocks.num ∧ (Pgain.openX c s (centerTable c s)).isCenter i ↔
      i ∈ (Facility.reassign (Finset.range c.blocks.num) (far c s) c.z c.x (clustering c s)).centers := by
    rw [← mem_centers, h.openX_centers hx]
  refine ⟨fun i => ?_, fun i hi hc => ?_, h.openX_numcenters weight hz hx, fun i hi => ?_⟩
  · rw [mem, after.image, Finset.mem_image]
    refine exists_congr fun k => ?_
    rw [Finset.mem_range]
    exact and_congr_right fun hk => by rw [(h.openX_clustering hk).1]
  · rw [(h.openX_clustering hi).1]
    exact after.self i ((mem i).1 ⟨hi, hc⟩)
  · have to_lt := Finset.mem_range.1 (after.subset (after.assign_mem (Finset.mem_range.2 hi)))
    refine ((h.openX_clustering hi).2.trans (after.cost i (Finset.mem_range.2 hi))).trans ?_
    rw [← far_openX (centerTable c s) hi to_lt, ← (h.openX_clustering hi).1]
    rfl

theorem Consistent.total_openX (h : Consistent c s) : total c (Pgain.openX c s (centerTable c s)) =
    total c s + glCostOfOpeningX c s (centerTable c s) := by
  have gain := h.facility.total_reassign (distances weight) hz (Finset.mem_range.2 hx)
  have before : total c s = Facility.total (Finset.range c.blocks.num) c.z (clustering c s) := by
    rw [total, h.numcenters, Int.cast_natCast]
    rfl
  have after : total c (Pgain.openX c s (centerTable c s)) = Facility.total (Finset.range c.blocks.num) c.z
      (Facility.reassign (Finset.range c.blocks.num) (far c s) c.z c.x (clustering c s)) := by
    rw [total, Facility.total, h.openX_numcenters weight hz hx, h.openX_centers hx, Int.cast_natCast]
    congr 1
    exact Finset.sum_congr rfl fun i hi => (h.openX_clustering (Finset.mem_range.1 hi)).2
  rw [after, gain, ← before, h.glCostOfOpeningX_eq]

theorem Consistent.pgain (h : Consistent c s) : Consistent c (pgain c s).1 := by
  rw [Pgain.pgain]
  split_ifs
  · exact h.openX weight hz hx
  · exact ⟨h.image, h.self, h.numcenters, h.cost⟩

/-- CORRECT: `pgain` leaves a consistent clustering, returns by how much the total is less than before, and
    changes nothing when it returns 0. -/
theorem pgain_gain (h : Consistent c s) : Consistent c (pgain c s).1 ∧ 0 ≤ (pgain c s).2 ∧
    (pgain c s).2 = total c s - total c (pgain c s).1 ∧
    ((pgain c s).2 = 0 → (pgain c s).1.p = s.p ∧ (pgain c s).1.isCenter = s.isCenter ∧
      (pgain c s).1.numcenters = s.numcenters) := by
  refine ⟨h.pgain weight hz hx, ?_⟩
  by_cases saves : glCostOfOpeningX c s (centerTable c s) < 0
  · have result : Pgain.pgain c s = (Pgain.openX c s (centerTable c s), -glCostOfOpeningX c s (centerTable c s)) :=
      if_pos saves
    rw [result]
    refine ⟨?_, ?_, fun zero => ?_⟩
    · exact neg_nonneg.2 saves.le
    · dsimp only
      rw [h.total_openX weight hz hx]
      ring
    · exact absurd (neg_eq_zero.1 zero) saves.ne
  · have result : Pgain.pgain c s = ({ s with
        centerTable := centerTable c s
        switchMembership := (lower c s (centerTable c s)).switchMembership }, -0) := if_neg saves
    rw [result]
    refine ⟨?_, ?_, fun _ => ⟨rfl, rfl, rfl⟩⟩
    · rw [neg_zero]
    · rw [neg_zero]
      exact (sub_self _).symm

end Gain

/-- Two threads and two points on a line, 3 apart; the candidate is the second one. -/
def line : Config ℚ where
  blocks := ⟨2, 2, Nat.two_pos⟩
  dim := 1
  z := 1
  x := 1
  order := fun _ => .byThread _
  heap := fun _ => 0

/-- The first point is the center of both. -/
def together : State ℚ where
  p i := ⟨1, fun _ => if i = 0 then 0 else 3, 0, if i = 0 then 0 else 9⟩
  isCenter i := i == 0
  numcenters := 1
  centerTable _ := 0
  switchMembership _ := false

theorem together_consistent : Consistent line together where
  image i := by
    simp only [line, together, beq_iff_eq]
    constructor
    · rintro ⟨-, rfl⟩
      exact ⟨0, by decide, rfl⟩
    · rintro ⟨k, -, rfl⟩
      exact ⟨by decide, rfl⟩
  self i _ hi := (beq_iff_eq.1 hi).symm
  numcenters := by decide
  cost i hi := by
    obtain rfl | rfl : i = 0 ∨ i = 1 := by
      have : i < 2 := hi
      omega
    · decide +kernel
    · decide +kernel

theorem pgain_gain_line : (pgain line together).2 = total line together - total line (pgain line together).1 ∧
    (pgain line together).2 = 8 :=
  ⟨(pgain_gain (fun _ _ => (zero_lt_one : (0 : ℚ) < 1)) (zero_lt_one : (0 : ℚ) < 1)
    (by decide) together_consistent).2.2.1, by decide +kernel⟩

end Turkey.Pgain
