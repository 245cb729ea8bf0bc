import Mathlib.Data.Finset.Card
import Mathlib.Data.Fintype.Card
import Mathlib.Data.List.Basic
import Mathlib.Logic.Function.Basic

/-! The uses of a barrier with two phases. A counter says how many threads are in the barrier; while threads
    arrive it goes up, and the last one ends the phase; while they depart it goes down, and the last one starts the
    next use. A thread may be back before the others have left: it then has to wait for the next
    arrival phase. The first to arrive is the master.

    The invariant says of all threads how often they have departed: in an arrival phase all of them as often, in a
    departure phase those that are still in the barrier once less. -/

namespace Turkey.Uses

/-- Where a thread is. `before`: it has called, but has not been counted yet. -/
inductive Stage where
  | away
  | before
  | inside (master : Bool)
  | gone (master : Bool)
  deriving DecidableEq

/-- Whether the thread has called and not returned yet. -/
def Stage.calls : Stage → ℕ
  | .away => 0
  | _ => 1

/-- Counted and not yet gone. -/
def Stage.isInside : Stage → Bool
  | .inside _ => true
  | _ => false

/-- Behind the departure, and not yet returned. -/
def Stage.isGone : Stage → Bool
  | .gone _ => true
  | _ => false

/-- Whether the thread is the master of the current use, once it has arrived. -/
def Stage.master : Stage → List Bool
  | .inside m => [m]
  | .gone m => [m]
  | _ => []

/-- The barrier; `entered` counts the calls of a thread, and `results` says what they have returned. -/
structure Barrier (n : ℕ) where
  count : ℕ
  isArrivalPhase : Bool
  entered : Fin n → ℕ
  results : Fin n → List Bool

variable {n : ℕ}

namespace Barrier
variable (b : Barrier n)

/-- A call begins. -/
def enter (t : Fin n) : Barrier n := { b with entered := Function.update b.entered t (b.entered t + 1) }

/-- Another thread is in the barrier; the last one ends the arrival phase. -/
def arrive : Barrier n :=
  { b with
    count := b.count + 1
    isArrivalPhase := if b.count + 1 ≥ n then false else b.isArrivalPhase }

/-- A thread leaves; the last one starts the next arrival phase. -/
def depart : Barrier n :=
  { b with
    count := b.count - 1
    isArrivalPhase := if b.count - 1 = 0 then true else b.isArrivalPhase }

/-- A call returns. -/
def returns (t : Fin n) (master : Bool) : Barrier n :=
  { b with results := Function.update b.results t (b.results t ++ [master]) }

end Barrier

/-- What a thread can do in its stage. -/
inductive Move (b : Barrier n) (stage : Fin n → Stage) (t : Fin n) : Barrier n → (Fin n → Stage) → Prop where
  | enter : stage t = .away → Move b stage t (b.enter t) (Function.update stage t .before)
  | arrive : stage t = .before → b.isArrivalPhase = true →
      Move b stage t b.arrive (Function.update stage t (.inside (b.count = 0)))
  | depart (m : Bool) : stage t = .inside m → b.isArrivalPhase = false →
      Move b stage t b.depart (Function.update stage t (.gone m))
  | returns (m : Bool) : stage t = .gone m → Move b stage t (b.returns t m) (Function.update stage t .away)

/-! ### The invariant -/

section Invariant
variable (b : Barrier n) (stage : Fin n → Stage)

/-- How often a thread has departed. -/
def departures (t : Fin n) : ℕ := (b.results t).length + if (stage t).isGone then 1 else 0

/-- What the calls of a thread return, the current one included as soon as it is known. -/
def masters (t : Fin n) : List Bool := b.results t ++ (stage t).master

/-- The threads that are counted. -/
def inside : Finset (Fin n) := Finset.univ.filter fun t => (stage t).isInside = true

/-- All threads are in use `k` of the barrier, or about to come to it. -/
def InUse (k : ℕ) : Prop :=
  if b.isArrivalPhase then b.count < n ∧ ∀ t, departures b stage t = k
  else 0 < b.count ∧ ∀ t, departures b stage t + (if (stage t).isInside then 1 else 0) = k + 1

/-- Invariant of the steps. -/
structure Ok : Prop where
  entered : ∀ t, b.entered t = (b.results t).length + (stage t).calls
  count : b.count = (inside stage).card
  use : ∃ k, InUse b stage k
  master : ∀ j, (∃ t, j < (masters b stage t).length) → ∃! t, (masters b stage t)[j]? = some true

end Invariant

variable {b b' : Barrier n} {stage stage' : Fin n → Stage} {t : Fin n}

theorem length_masters (t : Fin n) : (masters b stage t).length =
    departures b stage t + if (stage t).isInside then 1 else 0 := by
  rw [masters, departures, List.length_append]
  cases stage t <;> simp [Stage.master, Stage.isGone, Stage.isInside]

theorem mem_inside {t : Fin n} : t ∈ inside stage ↔ (stage t).isInside = true := by
  simp [inside]

theorem inside_update_true (h : (stage t).isInside = false) {x : Stage} (hx : x.isInside = true) :
    (inside (Function.update stage t x)).card = (inside stage).card + 1 := by
  have hset : inside (Function.update stage t x) = insert t (inside stage) := by
    ext u
    rw [Finset.mem_insert, mem_inside, mem_inside]
    rcases eq_or_ne u t with rfl | hne
    · simp [hx]
    · simp [hne]
  rw [hset, Finset.card_insert_of_notMem]
  rw [mem_inside, h]
  exact Bool.false_ne_true

theorem inside_update_false (h : (stage t).isInside = true) {x : Stage} (hx : x.isInside = false) :
    (inside (Function.update stage t x)).card + 1 = (inside stage).card := by
  have hset : inside (Function.update stage t x) = (inside stage).erase t := by
    ext u
    rw [Finset.mem_erase, mem_inside, mem_inside]
    rcases eq_or_ne u t with rfl | hne
    · simp [hx]
    · simp [hne]
  rw [hset]
  exact Finset.card_erase_add_one (mem_inside.2 h)

/-- One more entry in one of the lists, for the use that has no master yet or for one that has. -/
theorem existsUnique_concat {f g : Fin n → List Bool} {x : Bool} (hself : g t = f t ++ [x])
    (hother : ∀ u ≠ t, g u = f u) (hx : x = true ↔ ∀ u, (f u).length ≤ (f t).length)
    (hf : ∀ j, (∃ u, j < (f u).length) → ∃! u, (f u)[j]? = some true) (j : ℕ) (hj : ∃ u, j < (g u).length) :
    ∃! u, (g u)[j]? = some true := by
  rcases eq_or_ne j (f t).length with rfl | hne
  · have hlast : (g t)[(f t).length]? = some x := by simp [hself]
    cases x with
    | true =>
      refine ⟨t, hlast, fun u hu => ?_⟩
      by_contra hut
      dsimp only at hu
      rw [hother u hut, List.getElem?_eq_none (hx.1 rfl u)] at hu
      cases hu
    | false =>
      have hlong : ∃ u, (f t).length < (f u).length := by simpa using hx.not
      obtain ⟨u, hu, hunique⟩ := hf _ hlong
      have hut : u ≠ t := by
        rintro rfl
        simp at hu
      refine ⟨u, ?_, fun v hv => hunique v ?_⟩
      · dsimp only
        rw [hother u hut, hu]
      · have hvt : v ≠ t := by
          rintro rfl
          simp [hlast] at hv
        dsimp only at hv ⊢
        rw [← hother v hvt, hv]
  · have hget : ∀ u, (g u)[j]? = (f u)[j]? := by
      intro u
      rcases eq_or_ne u t with rfl | hut
      · rw [hself, List.getElem?_append]
        split_ifs with hlt
        · rfl
        · rw [List.getElem?_eq_none (by simp; omega), List.getElem?_eq_none (by omega)]
      · rw [hother u hut]
    simp only [hget]
    refine hf j ?_
    obtain ⟨u, hu⟩ := hj
    rcases eq_or_ne u t with rfl | hut
    · rw [hself, List.length_append, List.length_singleton] at hu
      exact ⟨u, by omega⟩
    · rw [hother u hut] at hu
      exact ⟨u, hu⟩

namespace Ok

/-- Nothing changes that the invariant speaks of. -/
theorem congr (h : Ok b stage) (hcount : b'.count = b.count) (hphase : b'.isArrivalPhase = b.isArrivalPhase)
    (hentered : ∀ u, b'.entered u = (b'.results u).length + (stage' u).calls)
    (hinside : ∀ u, (stage' u).isInside = (stage u).isInside)
    (hdepartures : ∀ u, departures b' stage' u = departures b stage u)
    (hmasters : ∀ u, masters b' stage' u = masters b stage u) : Ok b' stage' := by
  refine ⟨hentered, ?_, ?_, fun j => ?_⟩
  · rw [hcount, h.count, inside, inside]
    simp only [hinside]
  · obtain ⟨k, hk⟩ := h.use
    refine ⟨k, ?_⟩
    simp only [InUse, hcount, hphase, hdepartures, hinside] at hk ⊢
    exact hk
  · simp only [hmasters]
    exact h.master j

/-- The thread that arrives gets an entry for the current use: it is the master if the barrier was empty. -/
theorem arrive (h : Ok b stage) (hstage : stage t = .before) (hphase : b.isArrivalPhase = true) :
    Ok b.arrive (Function.update stage t (.inside (b.count = 0))) := by
  obtain ⟨k, hk⟩ := h.use
  rw [InUse, if_pos hphase] at hk
  obtain ⟨hcount, hdepartures⟩ := hk
  have hcard : (inside (Function.update stage t (.inside (b.count = 0)))).card = b.count + 1 := by
    rw [inside_update_true (by rw [hstage]; rfl) rfl, h.count]
  have hdepartures' : ∀ u, departures b.arrive (Function.update stage t (.inside (b.count = 0))) u = k := by
    intro u
    rw [← hdepartures u]
    rcases eq_or_ne u t with rfl | hne
    · simp [departures, Barrier.arrive, hstage, Stage.isGone]
    · simp [departures, Barrier.arrive, hne]
  refine ⟨fun u => ?_, hcard.symm, ⟨k, ?_⟩, fun j hj => ?_⟩
  · rcases eq_or_ne u t with rfl | hne
    · simp [Barrier.arrive, h.entered u, hstage, Stage.calls]
    · simp [Barrier.arrive, h.entered u, hne]
  · rcases lt_or_ge (b.count + 1) n with hlt | hlast
    · have hphase' : b.arrive.isArrivalPhase = true := by simp [Barrier.arrive, hphase, hlt]
      rw [InUse, if_pos hphase']
      exact ⟨hlt, hdepartures'⟩
    · have hphase' : b.arrive.isArrivalPhase = false := by simp [Barrier.arrive, hlast]
      have hall : ∀ u, (Function.update stage t (.inside (b.count = 0)) u).isInside = true := by
        intro u
        have huniv : inside (Function.update stage t (.inside (b.count = 0))) = Finset.univ := by
          rw [← Finset.card_eq_iff_eq_univ, hcard, Fintype.card_fin]
          omega
        rw [← mem_inside, huniv]
        exact Finset.mem_univ u
      rw [InUse, if_neg (by simp [hphase'])]
      refine ⟨Nat.succ_pos _, fun u => ?_⟩
      rw [hdepartures' u, if_pos (hall u)]
  · have hself : masters b.arrive (Function.update stage t (.inside (b.count = 0))) t =
        b.results t ++ [decide (b.count = 0)] := by
      simp [masters, Barrier.arrive, Stage.master]
    have hother : ∀ u ≠ t, masters b.arrive (Function.update stage t (.inside (b.count = 0))) u =
        masters b stage u := by
      intro u hne
      simp [masters, Barrier.arrive, hne]
    have hresults : masters b stage t = b.results t := by simp [masters, hstage, Stage.master]
    refine existsUnique_concat (by rw [hself, hresults]) hother ?_ h.master j hj
    simp only [length_masters, hdepartures, hstage, decide_eq_true_eq, h.count, Finset.card_eq_zero,
      Finset.eq_empty_iff_forall_notMem, mem_inside]
    refine forall_congr' fun u => ?_
    cases (stage u).isInside <;> simp [Stage.isInside]

/-- The thread that departs has completed the use; the last one completes it for all. -/
theorem depart (h : Ok b stage) {m : Bool} (hstage : stage t = .inside m) (hphase : b.isArrivalPhase = false) :
    Ok b.depart (Function.update stage t (.gone m)) := by
  obtain ⟨k, hk⟩ := h.use
  rw [InUse, if_neg (by simp [hphase])] at hk
  obtain ⟨hcount, hdepartures⟩ := hk
  have hcard : (inside (Function.update stage t (.gone m))).card = b.count - 1 := by
    have herase := inside_update_false (t := t) (x := .gone m) (by rw [hstage]; rfl : (stage t).isInside = true) rfl
    rw [h.count, ← herase, Nat.add_sub_cancel]
  have hdepartures' : ∀ u, departures b.depart (Function.update stage t (.gone m)) u +
      (if (Function.update stage t (.gone m) u).isInside then 1 else 0) = k + 1 := by
    intro u
    rw [← hdepartures u]
    rcases eq_or_ne u t with rfl | hne
    · simp [departures, Barrier.depart, hstage, Stage.isGone, Stage.isInside]
    · simp [departures, Barrier.depart, hne]
  have hmasters : ∀ u, masters b.depart (Function.update stage t (.gone m)) u = masters b stage u := by
    intro u
    rcases eq_or_ne u t with rfl | hne
    · simp [masters, Barrier.depart, hstage, Stage.master]
    · simp [masters, Barrier.depart, hne]
  refine ⟨fun u => ?_, hcard.symm, ?_, fun j => ?_⟩
  · rcases eq_or_ne u t with rfl | hne
    · simp [Barrier.depart, h.entered u, hstage, Stage.calls]
    · simp [Barrier.depart, h.entered u, hne]
  · rcases Nat.eq_zero_or_pos (b.count - 1) with hlast | hmore
    · have hphase' : b.depart.isArrivalPhase = true := by simp [Barrier.depart, hlast]
      refine ⟨k + 1, ?_⟩
      rw [InUse, if_pos hphase']
      refine ⟨?_, fun u => ?_⟩
      · exact lt_of_eq_of_lt hlast t.pos
      · have hempty : (Function.update stage t (.gone m) u).isInside = false := by
          rw [hlast, Finset.card_eq_zero, Finset.eq_empty_iff_forall_notMem] at hcard
          simpa [mem_inside] using hcard u
        simpa [hempty] using hdepartures' u
    · have hphase' : b.depart.isArrivalPhase = false := by simp [Barrier.depart, hphase]; omega
      refine ⟨k, ?_⟩
      rw [InUse, if_neg (by simp [hphase'])]
      exact ⟨hmore, hdepartures'⟩
  · simp only [hmasters]
    exact h.master j

/-- The invariant holds along every run of the threads. -/
theorem move (h : Ok b stage) (hmove : Move b stage t b' stage') : Ok b' stage' := by
  cases hmove with
  | enter hstage =>
    refine h.congr rfl rfl (fun u => ?_) (fun u => ?_) (fun u => ?_) (fun u => ?_) <;>
      rcases eq_or_ne u t with rfl | hne
    · simp [Barrier.enter, h.entered u, hstage, Stage.calls]
    · simp [Barrier.enter, h.entered u, hne]
    · simp [hstage, Stage.isInside]
    · simp [hne]
    · simp [departures, Barrier.enter, hstage, Stage.isGone]
    · simp [departures, Barrier.enter, hne]
    · simp [masters, Barrier.enter, hstage, Stage.master]
    · simp [masters, Barrier.enter, hne]
  | arrive hstage hphase => exact h.arrive hstage hphase
  | depart m hstage hphase => exact h.depart hstage hphase
  | returns m hstage =>
    refine h.congr rfl rfl (fun u => ?_) (fun u => ?_) (fun u => ?_) (fun u => ?_) <;>
      rcases eq_or_ne u t with rfl | hne
    · simp [Barrier.returns, h.entered u, hstage, Stage.calls]
    · simp [Barrier.returns, h.entered u, hne]
    · simp [hstage, Stage.isInside]
    · simp [hne]
    · simp [departures, Barrier.returns, hstage, Stage.isGone]
    · simp [departures, Barrier.returns, hne]
    · simp [masters, Barrier.returns, hstage, Stage.master]
    · simp [masters, Barrier.returns, hne]

/-- A barrier that nobody has called yet. -/
theorem start (hn : 0 < n) : Ok (n := n) ⟨0, true, fun _ => 0, fun _ => []⟩ fun _ => .away := by
  refine ⟨fun _ => rfl, ?_, ⟨0, ?_⟩, fun j hj => ?_⟩
  · simp [inside, Stage.isInside]
  · simp [InUse, hn, departures, Stage.isGone]
  · simp [masters, Stage.master] at hj

/-! ### What the invariant gives -/

/-- No call returns before all threads have made as many calls. -/
theorem length_results_le (h : Ok b stage) (t u : Fin n) : (b.results t).length ≤ b.entered u := by
  obtain ⟨k, hk⟩ := h.use
  rw [h.entered u]
  have hcalls : (if (stage u).isGone then 1 else 0) + (if (stage u).isInside then 1 else 0) ≤ (stage u).calls := by
    cases stage u <;> simp [Stage.isGone, Stage.isInside, Stage.calls]
  rw [InUse] at hk
  split_ifs at hk with hphase
  · have ht := hk.2 t
    have hu := hk.2 u
    rw [departures] at ht hu
    omega
  · have ht := hk.2 t
    have hu := hk.2 u
    rw [departures] at ht hu
    omega

/-- In one use at most one thread is told that it is the master. -/
theorem master_unique (h : Ok b stage) {t u : Fin n} {j : ℕ} (ht : (b.results t)[j]? = some true)
    (hu : (b.results u)[j]? = some true) : t = u := by
  have hmaster : ∀ v, (b.results v)[j]? = some true → (masters b stage v)[j]? = some true := by
    intro v hv
    rw [masters, List.getElem?_append_left (List.getElem?_eq_some_iff.1 hv).1]
    exact hv
  have hj : ∃ v, j < (masters b stage v).length := ⟨t, (List.getElem?_eq_some_iff.1 (hmaster t ht)).1⟩
  exact (h.master j hj).unique (hmaster t ht) (hmaster u hu)

/-- In a use that all threads have returned from, one of them has been told that it is the master. -/
theorem exists_master (h : Ok b stage) (hn : 0 < n) {j : ℕ} (hj : ∀ t, j < (b.results t).length) :
    ∃! t, (b.results t)[j]? = some true := by
  have hmasters : ∀ t, (masters b stage t)[j]? = (b.results t)[j]? := by
    intro t
    rw [masters, List.getElem?_append_left (hj t)]
  simp only [← hmasters]
  refine h.master j ⟨⟨0, hn⟩, ?_⟩
  rw [masters, List.length_append]
  exact Nat.lt_add_right _ (hj _)

end Ok

end Turkey.Uses
