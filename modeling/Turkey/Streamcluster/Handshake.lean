import Turkey.Schemes.Monitor
import Turkey.Streamcluster.Speedy

/-! `pspeedy` as its threads run it, call after call. Thread 0 goes through the points and decides; the other threads
    wait on the condition variable for the flag `open`, and then every thread sends points of its block to the new
    center. Two barriers stand around the reset of the flag, and three at the end of the call, where all threads
    reset it once more. -/

namespace Turkey.Handshake
open Turkey.ParallelFor Turkey.Pgain Turkey.Monitor Turkey.Run

/-- Calls of `pspeedy` with the same points, one immediately after the other. -/
structure Calls (K : Type) where
  blocks : Blocks
  dim : ℕ
  calls : ℕ
  z : ℕ → K
  draws : ℕ → ℕ → Draw
  state : State K

abbrev Calls.nproc {K : Type} (c : Calls K) : ℕ := c.blocks.nproc

/-- The static variables of `pspeedy` and the points. What the threads have done is written down in `opened`, the
    centers in the order in which they are opened, `log`, the points and centers of a thread's iterations, and
    `results`, what a thread has returned. -/
structure Memory (n : ℕ) (K : Type) where
  p : ℕ → Point K
  kcenter : ℤ
  isOpen : Bool
  i : ℕ
  costs : ℕ → K
  totalcost : K
  opened : List ℕ
  log : Fin n → List (ℕ × ℕ)
  results : Fin n → List K

/-- Where a thread is. With `last` it is at the end of the loop over the points. -/
inductive Pc where
  | enter
  | init (k : ℕ)
  | start
  -- the other threads
  | lock
  | test
  | sleep
  | unlock
  | check
  -- thread 0
  | first
  | decide
  | advance
  | raise (last : Bool)
  | offer (last : Bool)
  | release (last : Bool)
  | signal (last : Bool)
  -- all threads
  | update (k : ℕ)
  | applied
  | clear
  | cleared
  | gathered
  | reset
  | sum
  | summed
  | collect
  | collected
  | leave
  | done
  deriving DecidableEq

section Model
variable {K : Type} [Field K] [LinearOrder K] (c : Calls K) (t : Fin c.nproc)

/-- The first point is the center of point `k`. -/
def seedPoint (k : ℕ) (a : Memory c.nproc K) : Memory c.nproc K := { a with
  p := Function.update a.p k { a.p k with cost := dist (a.p k) (a.p 0) c.dim * (a.p k).weight, assign := 0 } }

/-- Point `k` is sent to the center that has been opened if that is nearer. -/
def updatePoint (k : ℕ) (a : Memory c.nproc K) : Memory c.nproc K :=
  let distance := dist (a.p a.i) (a.p k) c.dim
  { a with
    p :=
      if distance * (a.p k).weight < (a.p k).cost then
        Function.update a.p k { a.p k with cost := distance * (a.p k).weight, assign := a.i }
      else a.p
    log := Function.update a.log t (a.log t ++ [(k, a.i)]) }

/-- The random decision on the next point. -/
def chooseNext (a : Memory c.nproc K) : Memory c.nproc K × Pc :=
  let call := (a.results t).length
  if a.i < c.blocks.num then
    if unit (c.draws call (a.i - 1)) < (a.p a.i).cost / c.z call then
      ({ a with kcenter := a.kcenter + 1, opened := a.opened ++ [a.i] }, .raise false)
    else (a, .advance)
  else (a, .raise true)

/-- A thread adds up the costs of its block. -/
def addCosts (a : Memory c.nproc K) : Memory c.nproc K := { a with
  costs := Function.update a.costs t ((c.blocks.block t).map fun k => (a.p k).cost).sum }

/-- Thread 0 adds up what the threads have found. -/
def collectCosts (a : Memory c.nproc K) : Memory c.nproc K := { a with
  totalcost := c.z (a.results t).length * a.kcenter + ((List.range c.nproc).map a.costs).sum }

/-- A thread returns, and calls `pspeedy` again unless that was the last call. -/
def returnCost (a : Memory c.nproc K) : Memory c.nproc K × Pc :=
  ({ a with results := Function.update a.results t (a.results t ++ [a.totalcost]) },
    if (a.results t).length + 1 < c.calls then .enter else .done)

/-- The code of thread `t`. -/
def op : Pc → Op (Memory c.nproc K) Pc
  | .enter => .barrier (.init (c.blocks.k1 t))
  | .init k =>
    if k < c.blocks.k2 t then .access fun a => (seedPoint c k a, .init (k + 1))
    else .access fun a => (if t.val = 0 then { a with kcenter := 1 } else a, .start)
  | .start => .barrier (if t.val = 0 then .first else .lock)
  | .lock => .lock .test
  | .test => .access fun a => (a, if a.isOpen then .unlock else .sleep)
  | .sleep => .wait .test
  | .unlock => .unlock .check
  | .check => .access fun a => (a, if c.blocks.num ≤ a.i then .gathered else .update (c.blocks.k1 t))
  | .first => .access fun a => ({ a with i := 1 }, .decide)
  | .decide => .access (chooseNext c t)
  | .advance => .access fun a => ({ a with i := a.i + 1 }, .decide)
  | .raise last => .lock (.offer last)
  | .offer last => .access fun a => ({ a with isOpen := true }, .release last)
  | .release last => .unlock (.signal last)
  | .signal last => .broadcast (if last then .gathered else .update (c.blocks.k1 t))
  | .update k =>
    if k < c.blocks.k2 t then .access fun a => (updatePoint c t k a, .update (k + 1))
    else .access fun a => (a, .applied)
  | .applied => .barrier (if t.val = 0 then .clear else .cleared)
  | .clear => .access fun a => ({ a with isOpen := false }, .cleared)
  | .cleared => .barrier (if t.val = 0 then .advance else .lock)
  | .gathered => .barrier .reset
  | .reset => .access fun a => ({ a with isOpen := false }, .sum)
  | .sum => .access fun a => (addCosts c t a, .summed)
  | .summed => .barrier (if t.val = 0 then .collect else .collected)
  | .collect => .access fun a => (collectCosts c t a, .collected)
  | .collected => .barrier .leave
  | .leave => .access (returnCost c t)
  | .done => .stop

/-- The threads before the first call. -/
def start (i : ℕ) (costs : ℕ → K) (totalcost : K) : Sys c.nproc (Memory c.nproc K) Pc where
  mem := ⟨c.state.p, c.state.numcenters, false, i, costs, totalcost, [], fun _ => [], fun _ => []⟩
  thread _ := ⟨if 0 < c.calls then .enter else .done, .running⟩
  holder := none
  waits _ := 0

/-- The places at which a thread has the mutex. -/
def holds : Pc → Bool
  | .test | .sleep | .unlock | .offer _ | .release _ => true
  | _ => false

theorem op_keeps (t : Fin c.nproc) (p : Pc) : (op c t p).Keeps holds p := by
  cases p with
  | init k | update k =>
    rw [op]
    split_ifs <;> exact fun _ => rfl
  | start | applied | cleared | summed =>
    refine ⟨rfl, ?_⟩
    split_ifs <;> rfl
  | test | check | leave =>
    intro a
    dsimp only [returnCost]
    split_ifs <;> rfl
  | decide =>
    intro a
    dsimp only [chooseNext]
    split_ifs <;> rfl
  | signal last =>
    rw [op, Op.Keeps]
    split_ifs <;> rfl
  | lock | unlock | sleep | raise last | release last => exact ⟨rfl, rfl⟩
  | enter | gathered | collected => exact ⟨rfl, rfl⟩
  | first | advance | offer last | clear | reset | sum | collect => exact fun _ => rfl
  | done => rfl

/-! ### One thread -/

/-- The state before call `m` if there is one thread. -/
def before : ℕ → State K
  | 0 => c.state
  | m + 1 => (pspeedy c.blocks.serial c.dim (c.z m) (c.draws m) (before m)).1

/-- What one thread returns from call `m`. -/
def result (m : ℕ) : K := (pspeedy c.blocks.serial c.dim (c.z m) (c.draws m) (before c m)).2

/-- The state in call `m` before the decision on point `i`. -/
def upTo (m i : ℕ) : State K :=
  (List.range' 1 (i - 1)).foldl (decideOpen c.blocks.serial c.dim (c.z m) (c.draws m))
    (firstCenter c.blocks.serial c.dim (before c m))

/-- A center is opened at point `i`. -/
def OpensAt (m i : ℕ) : Prop := unit (c.draws m (i - 1)) < ((upTo c m i).p i).cost / c.z m

instance (m i : ℕ) : Decidable (OpensAt c m i) := inferInstanceAs (Decidable (_ < _))

/-- The centers that are opened in call `m` before point `i`. -/
def openedIn (m i : ℕ) : List ℕ := (List.range' 1 (i - 1)).filter fun j => OpensAt c m j

/-- The centers that are opened before call `m`. -/
def openedBefore (m : ℕ) : List ℕ := (List.range m).flatMap fun j => openedIn c j c.blocks.num

/-- The iterations of thread `t` for some centers. -/
def iterations {K : Type} (c : Calls K) (t : Fin c.nproc) (opened : List ℕ) : List (ℕ × ℕ) :=
  opened.flatMap fun i => (c.blocks.block t).map fun k => (k, i)

theorem upTo_succ {m i : ℕ} (hi : 1 ≤ i) : upTo c m (i + 1) =
    if OpensAt c m i then openCenter c.blocks.serial c.dim (upTo c m i) i else upTo c m i := by
  obtain ⟨j, rfl⟩ := Nat.exists_eq_add_of_le' hi
  rw [upTo, Nat.add_sub_cancel, List.range'_1_concat, List.foldl_append, Nat.add_comm 1 j]
  rfl

theorem openedIn_succ {m i : ℕ} (hi : 1 ≤ i) : openedIn c m (i + 1) =
    openedIn c m i ++ if OpensAt c m i then [i] else [] := by
  obtain ⟨j, rfl⟩ := Nat.exists_eq_add_of_le' hi
  rw [openedIn, Nat.add_sub_cancel, List.range'_1_concat, List.filter_append, Nat.add_comm 1 j, openedIn,
    Nat.add_sub_cancel]
  by_cases h : OpensAt c m (j + 1)
  · simp [h]
  · simp [h]

/-- At the end of the loop. -/
theorem upTo_last {m i : ℕ} (hi : c.blocks.num ≤ i) (hle : i ≤ max 1 c.blocks.num) :
    upTo c m i = before c (m + 1) ∧ openedBefore c m ++ openedIn c m i = openedBefore c (m + 1) := by
  have heq : i - 1 = c.blocks.num - 1 := by omega
  constructor
  · rw [upTo, heq]
    rfl
  · rw [openedIn, heq, openedBefore, openedBefore, List.range_succ, List.flatMap_append, List.flatMap_singleton,
      openedIn]

end Model
end Turkey.Handshake
