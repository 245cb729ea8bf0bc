import Mathlib.Algebra.BigOperators.Ring.Finset
import Mathlib.Algebra.Order.BigOperators.Group.Finset
import Mathlib.Algebra.Order.Ring.Int
import Turkey.Schemes.Run
import Turkey.Schemes.Tally

/-! The bookkeeping of a job (`job.py`, `task.py`, `counter.py`). `Job.run` sets `num_tasks_remaining`,
    hands the tasks to a pool of worker processes and waits until the counter is 0. A worker runs one task
    after another; an exception in `Task.run` ends the run, and `apply_async` keeps it to itself.

    A step is one statement of `Job.run` or of `Task.run(wait=True, count=True)`; the counters are changed
    under their locks. A run may raise where it formats the environment and the arguments, where it opens
    the files and starts the child, and where it waits for it. A poll of the wait loop that finds tasks
    remaining is no step. The counters are integers: a job has fewer than 2^31 tasks. -/

namespace Turkey.Jobs
open Turkey.Run

/-- `len(self.tasks)`, `self.pool_size`, `mp.cpu_count()` and `self.intelligent`. -/
structure Job where
  ntasks : ℕ
  poolSize : ℕ
  cpuCount : ℕ
  intelligent : Bool

/-- The number of processes of the pool. -/
def Job.nworkers (job : Job) : ℕ := min job.ntasks (min job.poolSize job.cpuCount)

/-- Where the run of a task is. `raised` says whether it has incremented `num_tasks_in_system` before. -/
inductive RunPc where
  | unsubmitted
  | queued
  | format
  | increment
  | launch
  | wait
  | leave
  | finish
  | ended
  | raised (counted : Bool)
  deriving DecidableEq

inductive MainPc where
  | pool
  | set
  | submit (i : ℕ)
  | waiting
  | done
  | raised
  deriving DecidableEq

variable {job : Job}

structure State (job : Job) where
  numTasksInSystem : ℤ
  numTasksRemaining : ℤ
  main : MainPc
  run : Fin job.ntasks → RunPc
  queue : List (Fin job.ntasks)
  worker : Fin job.nworkers → Option (Fin job.ntasks)

inductive Action (job : Job) where
  | main
  | take (w : Fin job.nworkers)
  | run (w : Fin job.nworkers) (raises : Bool)

def State.new (job : Job) : State job := ⟨0, 0, .pool, fun _ => .unsubmitted, [], fun _ => none⟩

def State.setRun (s : State job) (i : Fin job.ntasks) (pc : RunPc) : State job :=
  { s with run := Function.update s.run i pc }

def State.setWorker (s : State job) (w : Fin job.nworkers) (o : Option (Fin job.ntasks)) : State job :=
  { s with worker := Function.update s.worker w o }

/-- `Job.run`; a pool without processes and the division by a counter raise. -/
def mainStep (s : State job) : Option (State job) :=
  match s.main with
  | .pool => some { s with main := if job.nworkers = 0 then .raised else .set }
  | .set => some { s with numTasksRemaining := job.ntasks, main := .submit 0 }
  | .submit i =>
    if h : i < job.ntasks then
      if job.intelligent then some { s with main := .raised }
      else some { s.setRun ⟨i, h⟩ .queued with queue := s.queue ++ [⟨i, h⟩], main := .submit (i + 1) }
    else some { s with main := .waiting }
  | .waiting => if 0 < s.numTasksRemaining then none else some { s with main := .done }
  | .done => none
  | .raised => none

/-- A worker takes the next task. -/
def takeStep (s : State job) (w : Fin job.nworkers) : Option (State job) :=
  match s.worker w, s.queue with
  | none, i :: queue => some { (s.setRun i .format).setWorker w (some i) with queue := queue }
  | _, _ => none

/-- One statement of `Task.run` in worker `w`, which has task `i`. -/
def runStep (s : State job) (w : Fin job.nworkers) (i : Fin job.ntasks) (raises : Bool) :
    Option (State job) :=
  match s.run i, raises with
  | .format, false => some (s.setRun i .increment)
  | .format, true => some ((s.setRun i (.raised false)).setWorker w none)
  | .increment, false =>
    some { s.setRun i .launch with numTasksInSystem := s.numTasksInSystem + 1 }
  | .launch, false => some (s.setRun i .wait)
  | .launch, true => some ((s.setRun i (.raised true)).setWorker w none)
  | .wait, false => some (s.setRun i .leave)
  | .wait, true => some ((s.setRun i (.raised true)).setWorker w none)
  | .leave, false => some { s.setRun i .finish with numTasksInSystem := s.numTasksInSystem - 1 }
  | .finish, false =>
    some { (s.setRun i .ended).setWorker w none with numTasksRemaining := s.numTasksRemaining - 1 }
  | _, _ => none

def step (s : State job) : Action job → Option (State job)
  | .main => mainStep s
  | .take w => takeStep s w
  | .run w raises => (s.worker w).bind fun i => runStep s w i raises

/-! ### What the counters should be -/

namespace RunPc

/-- The run has passed its increment, and neither its decrement nor an exception. -/
def InSystem : RunPc → Prop
  | launch | wait | leave => True
  | _ => False

/-- The run has ended, normally or by an exception. -/
def Over : RunPc → Prop
  | ended | raised _ => True
  | _ => False

/-- A worker is at it. -/
def Running : RunPc → Prop
  | format | increment | launch | wait | leave | finish => True
  | _ => False

instance : DecidablePred InSystem := fun pc => by cases pc <;> first | exact .isTrue trivial | exact .isFalse id

instance : DecidablePred Over := fun pc => by cases pc <;> first | exact .isTrue trivial | exact .isFalse id

end RunPc

/-- The tasks whose run has not ended, once the job has begun to count them. -/
def State.outstanding (s : State job) : ℕ :=
  match s.main with
  | .pool | .set => 0
  | _ => (Finset.univ.filter fun i => ¬(s.run i).Over).card

/-- The counters are exact, and `Job.run` has not raised and leaves its wait loop exactly when all runs
    have ended. For each counter a run ends with its decrement, one of its last statements. -/
structure Exact (s : State job) : Prop where
  inSystem : s.numTasksInSystem = (Finset.univ.filter fun i => (s.run i).InSystem).card
  remaining : s.numTasksRemaining = s.outstanding
  nonneg : 0 ≤ s.numTasksInSystem ∧ 0 ≤ s.numTasksRemaining
  main : s.main ≠ .raised
  exits : s.main = .waiting → ((step s .main).isSome ↔ ∀ i, (s.run i).Over)

/-- No statement raises. -/
def NoRaise (s : State job) : Action job → Prop
  | .main => (s.main = .pool → 0 < job.nworkers) ∧ ((∃ i < job.ntasks, s.main = .submit i) → job.intelligent = false)
  | .take _ => True
  | .run _ raises => raises = false

/-! ### One step -/

namespace RunPc

/-- What the run has left in `num_tasks_in_system`. -/
def share : RunPc → ℤ
  | launch | wait | leave | raised true => 1
  | _ => 0

/-- What the run has still to take from `num_tasks_remaining`. -/
def owed : RunPc → ℤ
  | ended => 0
  | _ => 1

/-- The steps that a task has still to take, its submission included. -/
def rank : RunPc → ℕ
  | unsubmitted => 8
  | queued => 7
  | format => 6
  | increment => 5
  | launch => 4
  | wait => 3
  | leave => 2
  | finish => 1
  | ended => 0
  | raised _ => 0

end RunPc

inductive Move (s : State job) : Action job → State job → Prop
  | pool (hpc : s.main = .pool) (hn : 0 < job.nworkers) : Move s .main { s with main := .set }
  | set (hpc : s.main = .set) : Move s .main { s with numTasksRemaining := job.ntasks, main := .submit 0 }
  | submit (i : Fin job.ntasks) (hpc : s.main = .submit i) (hint : job.intelligent = false) :
      Move s .main { s.setRun i .queued with queue := s.queue ++ [i], main := .submit (i + 1) }
  | submitted (i : ℕ) (hpc : s.main = .submit i) (hi : job.ntasks ≤ i) :
      Move s .main { s with main := .waiting }
  | exit (hpc : s.main = .waiting) (hrem : s.numTasksRemaining ≤ 0) : Move s .main { s with main := .done }
  | fail (hpc : s.main = .pool ∧ job.nworkers = 0 ∨
      (∃ i < job.ntasks, s.main = .submit i) ∧ job.intelligent = true) :
      Move s .main { s with main := .raised }
  | take (w : Fin job.nworkers) (i : Fin job.ntasks) (queue : List (Fin job.ntasks))
      (hworker : s.worker w = none) (hqueue : s.queue = i :: queue) :
      Move s (.take w) { (s.setRun i .format).setWorker w (some i) with queue := queue }
  /-- The counters change by what the run changes. -/
  | run (w : Fin job.nworkers) (i : Fin job.ntasks) (raises : Bool) (pc : RunPc) (inSystem remaining : ℤ)
      (worker : Fin job.nworkers → Option (Fin job.ntasks)) (hworker : s.worker w = some i)
      (hrun : (s.run i).Running)
      (hgoes : pc.Running ∧ worker = s.worker ∨ pc.Over ∧ worker = Function.update s.worker w none)
      (hin : inSystem + (s.run i).share = s.numTasksInSystem + pc.share)
      (hrem : remaining + (s.run i).owed = s.numTasksRemaining + pc.owed)
      (hrank : pc.rank < (s.run i).rank) (hraises : (∃ b, pc = .raised b) ↔ raises = true) :
      Move s (.run w raises) { s.setRun i pc with
        numTasksInSystem := inSystem, numTasksRemaining := remaining, worker := worker }

section Steps
variable {s s' : State job}

theorem runStep_cases {w : Fin job.nworkers} {i : Fin job.ntasks} {raises : Bool}
    (hworker : s.worker w = some i) (h : runStep s w i raises = some s') : Move s (.run w raises) s' := by
  unfold runStep at h
  split at h
  case h_10 => cases h
  all_goals
    rename_i hpc
    obtain rfl := Option.some.inj h
    refine .run w i _ _ _ _ _ hworker (by rw [hpc]; trivial) ?_ ?_ ?_ (by rw [hpc]; decide) (by simp)
    · first
      | exact .inl ⟨trivial, rfl⟩
      | exact .inr ⟨trivial, rfl⟩
    · simp [hpc, RunPc.share, State.setRun, State.setWorker]
    · simp [hpc, RunPc.owed, State.setRun]

theorem step_cases {a : Action job} (h : step s a = some s') : Move s a s' := by
  cases a with
  | main =>
    simp only [step, mainStep] at h
    cases hpc : s.main with
    | pool =>
      rw [hpc] at h
      obtain rfl := Option.some.inj h
      split
      · exact .fail (.inl ⟨hpc, ‹_›⟩)
      · exact .pool hpc (Nat.pos_of_ne_zero ‹_›)
    | set =>
      rw [hpc] at h
      obtain rfl := Option.some.inj h
      exact .set hpc
    | submit i =>
      rw [hpc] at h
      dsimp only at h
      split_ifs at h with hi hint
      · obtain rfl := Option.some.inj h
        exact .fail (.inr ⟨⟨i, hi, hpc⟩, hint⟩)
      · obtain rfl := Option.some.inj h
        exact .submit ⟨i, hi⟩ hpc (Bool.eq_false_iff.mpr hint)
      · obtain rfl := Option.some.inj h
        exact .submitted i hpc (not_lt.mp hi)
    | waiting =>
      rw [hpc] at h
      dsimp only at h
      split_ifs at h with hrem
      obtain rfl := Option.some.inj h
      exact .exit hpc (not_lt.mp hrem)
    | done =>
      rw [hpc] at h
      cases h
    | raised =>
      rw [hpc] at h
      cases h
  | take w =>
    simp only [step, takeStep] at h
    split at h
    · obtain rfl := Option.some.inj h
      exact .take w _ _ ‹_› ‹_›
    · cases h
  | run w raises =>
    obtain ⟨i, hworker, h⟩ := Option.bind_eq_some_iff.mp h
    exact runStep_cases hworker h

end Steps

/-! ### Where the tasks are -/

/-- The loop of `Job.run` has yet to come to the task. -/
def MainPc.Before (i : ℕ) : MainPc → Prop
  | pool | set => True
  | submit k => k ≤ i
  | waiting | done | raised => False

/-- The tasks that have been submitted are in the queue, with a worker of their own, or over. -/
structure Placed (s : State job) : Prop where
  submitted : s.main ≠ .raised → ∀ i, s.run i = .unsubmitted ↔ s.main.Before i
  queue : ∀ i, i ∈ s.queue ↔ s.run i = .queued
  nodup : s.queue.Nodup
  busy : ∀ w i, s.worker w = some i → (s.run i).Running
  held : ∀ i, (s.run i).Running → ∃ w, s.worker w = some i
  alone : ∀ w w' i, s.worker w = some i → s.worker w' = some i → w = w'
  pool : s.main ≠ .pool → s.main ≠ .raised → 0 < job.nworkers

section Placed
variable {s s' : State job}

theorem setRun_self (i : Fin job.ntasks) (pc : RunPc) : (s.setRun i pc).run i = pc := Function.update_self ..

theorem setRun_ne {i j : Fin job.ntasks} (h : j ≠ i) (pc : RunPc) : (s.setRun i pc).run j = s.run j :=
  Function.update_of_ne h ..

theorem placed_new : Placed (State.new job) where
  submitted _ _ := iff_of_true rfl trivial
  queue _ := iff_of_false List.not_mem_nil nofun
  nodup := List.nodup_nil
  busy _ _ h := by cases h
  held _ h := h.elim
  alone _ _ _ h := by cases h
  pool h := absurd rfl h

/-- A step of `Job.run` that submits nothing. -/
theorem Placed.main {pc : MainPc} (h : Placed s) {remaining : ℤ} (hraised : s.main ≠ .raised)
    (hbefore : pc ≠ .raised → ∀ i : Fin job.ntasks, s.main.Before i ↔ pc.Before i)
    (hpool : pc ≠ .raised → 0 < job.nworkers) :
    Placed { s with numTasksRemaining := remaining, main := pc } where
  submitted hpc i := (h.submitted hraised i).trans (hbefore hpc i)
  queue := h.queue
  nodup := h.nodup
  busy := h.busy
  held := h.held
  alone := h.alone
  pool _ := hpool

/-- A worker takes a task. -/
theorem Placed.take {w : Fin job.nworkers} {i : Fin job.ntasks} {queue : List (Fin job.ntasks)} (h : Placed s)
    (hworker : s.worker w = none) (hqueue : s.queue = i :: queue) :
    Placed { s with
      run := Function.update s.run i .format
      queue := queue
      worker := Function.update s.worker w (some i) } := by
  have hi : s.run i = .queued := (h.queue i).mp (by rw [hqueue]; exact List.mem_cons_self ..)
  have hnodup := h.nodup
  rw [hqueue, List.nodup_cons] at hnodup
  have hidle : ∀ w' j, s.worker w' = some j → j ≠ i := by
    rintro w' j hw rfl
    have hbusy := h.busy w' j hw
    rwa [hi] at hbusy
  constructor <;> dsimp only
  · intro hm j
    rw [← h.submitted hm j]
    rcases eq_or_ne j i with rfl | hj
    · rw [hi, Function.update_self]
      exact iff_of_false nofun nofun
    · rw [Function.update_of_ne hj]
  · intro j
    rcases eq_or_ne j i with rfl | hj
    · rw [Function.update_self]
      exact iff_of_false hnodup.1 nofun
    · rw [Function.update_of_ne hj, ← h.queue, hqueue, List.mem_cons]
      exact (or_iff_right hj).symm
  · exact hnodup.2
  · intro w' j hw
    rcases eq_or_ne w' w with rfl | hne
    · rw [Function.update_self] at hw
      obtain rfl := Option.some.inj hw
      rw [Function.update_self]
      trivial
    · rw [Function.update_of_ne hne] at hw
      rw [Function.update_of_ne (hidle w' j hw)]
      exact h.busy w' j hw
  · intro j hj
    rcases eq_or_ne j i with rfl | hne
    · exact ⟨w, Function.update_self ..⟩
    · rw [Function.update_of_ne hne] at hj
      obtain ⟨w', hw'⟩ := h.held j hj
      have hw : w' ≠ w := by
        rintro rfl
        rw [hworker] at hw'
        cases hw'
      exact ⟨w', by rwa [Function.update_of_ne hw]⟩
  · intro w' w'' j hw' hw''
    rcases eq_or_ne w' w with rfl | hne <;> rcases eq_or_ne w'' w' with rfl | hne'
    · rfl
    · rw [Function.update_self] at hw'
      rw [Function.update_of_ne hne'] at hw''
      exact absurd (Option.some.inj hw').symm (hidle w'' j hw'')
    · rfl
    · rw [Function.update_of_ne hne] at hw'
      rcases eq_or_ne w'' w with rfl | hne''
      · rw [Function.update_self] at hw''
        exact absurd (Option.some.inj hw'').symm (hidle w' j hw')
      · rw [Function.update_of_ne hne''] at hw''
        exact h.alone w' w'' j hw' hw''
  · exact h.pool

/-- A worker goes on with its task, or is done with it. -/
theorem Placed.run {w : Fin job.nworkers} {i : Fin job.ntasks} {pc : RunPc} {inSystem remaining : ℤ}
    {worker : Fin job.nworkers → Option (Fin job.ntasks)} (h : Placed s) (hworker : s.worker w = some i)
    (hrun : (s.run i).Running)
    (hgoes : pc.Running ∧ worker = s.worker ∨ pc.Over ∧ worker = Function.update s.worker w none) :
    Placed { s with
      run := Function.update s.run i pc
      numTasksInSystem := inSystem
      numTasksRemaining := remaining
      worker := worker } := by
  have hold : s.run i ≠ .unsubmitted ∧ s.run i ≠ .queued := by
    constructor <;> intro hi <;> rw [hi] at hrun <;> exact hrun
  have hnew : pc ≠ .unsubmitted ∧ pc ≠ .queued := by
    constructor <;> rintro rfl <;> rcases hgoes with ⟨hpc, -⟩ | ⟨hpc, -⟩ <;> exact hpc
  constructor <;> dsimp only
  · intro hm j
    rw [← h.submitted hm j]
    rcases eq_or_ne j i with rfl | hj
    · rw [Function.update_self]
      exact iff_of_false hnew.1 hold.1
    · rw [Function.update_of_ne hj]
  · intro j
    rw [h.queue]
    rcases eq_or_ne j i with rfl | hj
    · rw [Function.update_self]
      exact iff_of_false hold.2 hnew.2
    · rw [Function.update_of_ne hj]
  · exact h.nodup
  · intro w' j hw
    rcases hgoes with ⟨hpc, rfl⟩ | ⟨hpc, rfl⟩
    · rcases eq_or_ne j i with rfl | hj
      · rwa [Function.update_self]
      · rw [Function.update_of_ne hj]
        exact h.busy w' j hw
    · rcases eq_or_ne w' w with rfl | hne
      · rw [Function.update_self] at hw
        cases hw
      · rw [Function.update_of_ne hne] at hw
        have hj : j ≠ i := by
          rintro rfl
          exact hne (h.alone w' w j hw hworker)
        rw [Function.update_of_ne hj]
        exact h.busy w' j hw
  · intro j hj
    rcases eq_or_ne j i with rfl | hne
    · rw [Function.update_self] at hj
      rcases hgoes with ⟨-, rfl⟩ | ⟨hpc, -⟩
      · exact ⟨w, hworker⟩
      · cases pc <;> first | exact hpc.elim | exact hj.elim
    · rw [Function.update_of_ne hne] at hj
      obtain ⟨w', hw'⟩ := h.held j hj
      rcases hgoes with ⟨-, rfl⟩ | ⟨-, rfl⟩
      · exact ⟨w', hw'⟩
      · have hw : w' ≠ w := by
          rintro rfl
          exact hne (Option.some.inj (hw'.symm.trans hworker))
        exact ⟨w', by rwa [Function.update_of_ne hw]⟩
  · intro w' w'' j hw' hw''
    rcases hgoes with ⟨-, rfl⟩ | ⟨-, rfl⟩
    · exact h.alone w' w'' j hw' hw''
    · have hkeep : ∀ {v}, Function.update s.worker w none v = some j → s.worker v = some j := by
        intro v hv
        rcases eq_or_ne v w with rfl | hne
        · rw [Function.update_self] at hv
          cases hv
        · rwa [Function.update_of_ne hne] at hv
      exact h.alone w' w'' j (hkeep hw') (hkeep hw'')
  · exact h.pool

theorem placed_step {a : Action job} (h : Placed s) (hs : step s a = some s') : Placed s' := by
  cases step_cases hs with
  | pool hpc hn =>
    refine h.main (by rw [hpc]; exact nofun) (fun _ i => ?_) fun _ => hn
    rw [hpc]
    exact Iff.rfl
  | set hpc =>
    refine h.main (by rw [hpc]; exact nofun) (fun _ i => ?_) fun _ => ?_
    · rw [hpc]
      exact iff_of_true trivial (Nat.zero_le _)
    · exact h.pool (by rw [hpc]; exact nofun) (by rw [hpc]; exact nofun)
  | submit i hpc hint =>
    have hraised : s.main ≠ .raised := by rw [hpc]; exact nofun
    have hi : s.run i = .unsubmitted := (h.submitted hraised i).mpr (by rw [hpc]; exact le_rfl)
    have hnotin : i ∉ s.queue := by
      rw [h.queue, hi]
      exact nofun
    have hidle : ∀ w j, s.worker w = some j → j ≠ i := by
      rintro w j hw rfl
      have hbusy := h.busy w j hw
      rwa [hi] at hbusy
    refine ⟨fun _ j => ?_, fun j => ?_, ?_, fun w j hw => ?_, fun j hj => ?_, h.alone, fun _ _ => ?_⟩
    · rcases eq_or_ne j i with rfl | hj
      · rw [setRun_self]
        exact iff_of_false nofun (not_le.mpr (Nat.lt_succ_self _))
      · rw [setRun_ne hj, h.submitted hraised, hpc]
        exact Nat.le_iff_lt_or_eq.trans (or_iff_left fun he => hj (Fin.ext he.symm))
    · rcases eq_or_ne j i with rfl | hj
      · rw [setRun_self]
        exact iff_of_true (List.mem_append_right _ (List.mem_singleton_self _)) rfl
      · rw [setRun_ne hj, ← h.queue, List.mem_append]
        exact or_iff_left fun he => hj (List.mem_singleton.mp he)
    · exact List.nodup_append.mpr ⟨h.nodup, List.nodup_singleton _, fun j hj k hk he =>
        hnotin (List.mem_singleton.mp hk ▸ he ▸ hj)⟩
    · rw [setRun_ne (hidle w j hw)]
      exact h.busy w j hw
    · rcases eq_or_ne j i with rfl | hne
      · rw [setRun_self] at hj
        exact hj.elim
      · rw [setRun_ne hne] at hj
        exact h.held j hj
    · exact h.pool (by rw [hpc]; exact nofun) hraised
  | submitted i hpc hi =>
    refine h.main (by rw [hpc]; exact nofun) (fun _ j => ?_) fun _ => ?_
    · rw [hpc]
      exact iff_of_false (fun hle => absurd (hle.trans_lt j.isLt) (not_lt.mpr hi)) id
    · exact h.pool (by rw [hpc]; exact nofun) (by rw [hpc]; exact nofun)
  | exit hpc hrem =>
    refine h.main (by rw [hpc]; exact nofun) (fun _ i => ?_) fun _ => ?_
    · rw [hpc]
      exact Iff.rfl
    · exact h.pool (by rw [hpc]; exact nofun) (by rw [hpc]; exact nofun)
  | fail hpc =>
    refine h.main ?_ (fun hne => absurd rfl hne) fun hne => absurd rfl hne
    rcases hpc with ⟨hpc, -⟩ | ⟨⟨i, -, hpc⟩, -⟩ <;> rw [hpc] <;> exact nofun
  | take w i queue hworker hqueue => exact h.take hworker hqueue
  | run w i raises pc inSystem remaining worker hworker hrun hgoes => exact h.run hworker hrun hgoes

end Placed

/-! ### What the counters are -/

/-- `Job.run` has set the counter. -/
def MainPc.Counts : MainPc → Prop
  | pool | set | raised => False
  | submit _ | waiting | done => True

/-- A run that has raised stays in the counters. -/
structure Accounts (s : State job) : Prop where
  inSystem : s.numTasksInSystem = ∑ i, (s.run i).share
  fresh : s.main = .pool ∨ s.main = .set → s.numTasksRemaining = 0
  remaining : s.main.Counts → s.numTasksRemaining = ∑ i, (s.run i).owed
  done : s.main = .done → s.numTasksRemaining ≤ 0

section Accounts
variable {s s' : State job}

theorem accounts_new : Accounts (State.new job) where
  inSystem := Finset.sum_const_zero.symm
  fresh _ := rfl
  remaining h := h.elim
  done h := by cases h

/-- A task that moves without touching the counters. -/
theorem Accounts.move {i : Fin job.ntasks} {pc : RunPc} {main : MainPc} {queue : List (Fin job.ntasks)}
    {worker : Fin job.nworkers → Option (Fin job.ntasks)} {inSystem remaining : ℤ} (h : Accounts s)
    (hin : inSystem + (s.run i).share = s.numTasksInSystem + pc.share)
    (hrem : remaining + (s.run i).owed = s.numTasksRemaining + pc.owed)
    (hfresh : main = .pool ∨ main = .set → remaining = 0) (hcounts : main.Counts → s.main.Counts)
    (hdone : main = .done → remaining ≤ 0) :
    Accounts { s with
      numTasksInSystem := inSystem
      numTasksRemaining := remaining
      main := main
      run := Function.update s.run i pc
      queue := queue
      worker := worker } := by
  have hshare := Tally.sum_update (fun _ => RunPc.share) s.run i pc
  have howed := Tally.sum_update (fun _ => RunPc.owed) s.run i pc
  refine ⟨?_, hfresh, fun hc => ?_, hdone⟩
  · have := h.inSystem
    dsimp only
    omega
  · have := h.remaining (hcounts hc)
    dsimp only
    omega

theorem owed_of_ne_ended {pc : RunPc} (h : pc ≠ .ended) : pc.owed = 1 := by
  cases pc <;> first | rfl | exact absurd rfl h

theorem accounts_step {a : Action job} (hp : Placed s) (h : Accounts s) (hs : step s a = some s') :
    Accounts s' := by
  cases step_cases hs with
  | pool hpc hn => exact ⟨h.inSystem, fun _ => h.fresh (.inl hpc), fun hc => hc.elim, nofun⟩
  | set hpc =>
    refine ⟨h.inSystem, nofun, fun _ => ?_, nofun⟩
    have hall : ∀ i, (s.run i).owed = 1 := by
      intro i
      rw [(hp.submitted (by rw [hpc]; exact nofun) i).mpr (by rw [hpc]; trivial)]
      rfl
    simp [hall]
  | submit i hpc hint =>
    have hi : s.run i = .unsubmitted :=
      (hp.submitted (by rw [hpc]; exact nofun) i).mpr (by rw [hpc]; exact le_rfl)
    exact h.move (by rw [hi]; rfl) (by rw [hi]; rfl) nofun (fun _ => by rw [hpc]; trivial) nofun
  | submitted i hpc hi =>
    exact ⟨h.inSystem, nofun, fun _ => h.remaining (by rw [hpc]; trivial), nofun⟩
  | exit hpc hrem => exact ⟨h.inSystem, nofun, fun _ => h.remaining (by rw [hpc]; trivial), fun _ => hrem⟩
  | fail hpc => exact ⟨h.inSystem, nofun, fun hc => hc.elim, nofun⟩
  | take w i queue hworker hqueue =>
    have hi : s.run i = .queued := (hp.queue i).mp (by rw [hqueue]; exact List.mem_cons_self ..)
    exact h.move (by rw [hi]; rfl) (by rw [hi]; rfl) h.fresh id h.done
  | run w i raises pc inSystem remaining worker hworker hrun hgoes hin hrem hrank hraises =>
    have howed : (s.run i).owed = 1 := by
      refine owed_of_ne_ended fun hi => ?_
      rwa [hi] at hrun
    have hle : pc.owed ≤ 1 := by cases pc <;> simp [RunPc.owed]
    refine h.move hin hrem (fun (hm : s.main = .pool ∨ s.main = .set) => ?_) id fun hm => ?_
    · -- no task runs before the counter is set
      have hbefore : s.run i = .unsubmitted := by
        rcases hm with hm | hm
        · exact (hp.submitted (by rw [hm]; exact nofun) i).mpr (by rw [hm]; trivial)
        · exact (hp.submitted (by rw [hm]; exact nofun) i).mpr (by rw [hm]; trivial)
      rw [hbefore] at hrun
      exact hrun.elim
    · have := h.done hm
      omega

/-- Nothing has raised. -/
structure Clean (s : State job) : Prop where
  main : s.main ≠ .raised
  run : ∀ i b, s.run i ≠ .raised b

theorem clean_new : Clean (State.new job) := ⟨nofun, fun _ _ => nofun⟩

theorem clean_congr (hmain : s'.main = .raised ↔ s.main = .raised)
    (hrun : ∀ i, (∃ b, s'.run i = .raised b) ↔ ∃ b, s.run i = .raised b) : Clean s' ↔ Clean s := by
  constructor
  · intro h
    refine ⟨fun hm => h.main (hmain.mpr hm), fun i b hi => ?_⟩
    obtain ⟨b', hb'⟩ := (hrun i).mpr ⟨b, hi⟩
    exact h.run i b' hb'
  · intro h
    refine ⟨fun hm => h.main (hmain.mp hm), fun i b hi => ?_⟩
    obtain ⟨b', hb'⟩ := (hrun i).mp ⟨b, hi⟩
    exact h.run i b' hb'

/-- A task that moves on. -/
theorem raised_update {i : Fin job.ntasks} {pc : RunPc} (hold : ∀ b, s.run i ≠ .raised b)
    (hnew : ∀ b, pc ≠ .raised b) (j : Fin job.ntasks) :
    (∃ b, Function.update s.run i pc j = .raised b) ↔ ∃ b, s.run j = .raised b := by
  rcases eq_or_ne j i with rfl | hj
  · rw [Function.update_self]
    exact iff_of_false (fun ⟨b, hb⟩ => hnew b hb) fun ⟨b, hb⟩ => hold b hb
  · rw [Function.update_of_ne hj]

/-- A step of `Job.run` with nothing to raise. -/
theorem noRaise_main {pc : MainPc} (hpc : s.main = pc) (hpool : pc = .pool → 0 < job.nworkers)
    (hint : (∃ i < job.ntasks, pc = .submit i) → job.intelligent = false) : NoRaise s .main := by
  subst hpc
  exact ⟨hpool, hint⟩

/-- What has raised stays raised, and a step raises when it does not meet `NoRaise`. -/
theorem clean_step {a : Action job} (hp : Placed s) (hs : step s a = some s') :
    Clean s' ↔ Clean s ∧ NoRaise s a := by
  have hrunning : ∀ {i}, (s.run i).Running → ∀ b, s.run i ≠ .raised b := by
    intro i hrun b hb
    rwa [hb] at hrun
  cases step_cases hs with
  | pool hpc hn =>
    rw [and_iff_left (noRaise_main hpc (fun _ => hn) (by rintro ⟨i, -, hi⟩; cases hi))]
    exact clean_congr (iff_of_false nofun (by rw [hpc]; exact nofun)) fun _ => Iff.rfl
  | set hpc =>
    rw [and_iff_left (noRaise_main hpc nofun (by rintro ⟨i, -, hi⟩; cases hi))]
    exact clean_congr (iff_of_false nofun (by rw [hpc]; exact nofun)) fun _ => Iff.rfl
  | submit i hpc hint =>
    have hi : s.run i = .unsubmitted :=
      (hp.submitted (by rw [hpc]; exact nofun) i).mpr (by rw [hpc]; exact le_rfl)
    rw [and_iff_left (noRaise_main hpc nofun fun _ => hint)]
    refine clean_congr (iff_of_false nofun (by rw [hpc]; exact nofun)) ?_
    exact raised_update (by rw [hi]; exact fun _ => nofun) fun _ => nofun
  | submitted i hpc hi =>
    have hlast : NoRaise s .main := by
      refine noRaise_main hpc nofun ?_
      rintro ⟨j, hj, he⟩
      obtain rfl := MainPc.submit.inj he
      omega
    rw [and_iff_left hlast]
    exact clean_congr (iff_of_false nofun (by rw [hpc]; exact nofun)) fun _ => Iff.rfl
  | exit hpc hrem =>
    rw [and_iff_left (noRaise_main hpc nofun (by rintro ⟨i, -, hi⟩; cases hi))]
    exact clean_congr (iff_of_false nofun (by rw [hpc]; exact nofun)) fun _ => Iff.rfl
  | fail hpc =>
    refine iff_of_false (fun h => h.main rfl) ?_
    rintro ⟨-, hpool, hint⟩
    rcases hpc with ⟨hpc, hn⟩ | ⟨hsubmit, htrue⟩
    · have := hpool hpc
      omega
    · rw [hint hsubmit] at htrue
      cases htrue
  | take w i queue hworker hqueue =>
    have hi : s.run i = .queued := (hp.queue i).mp (by rw [hqueue]; exact List.mem_cons_self ..)
    have hno : NoRaise s (.take w) := trivial
    rw [and_iff_left hno]
    refine clean_congr Iff.rfl ?_
    exact raised_update (by rw [hi]; exact fun _ => nofun) fun _ => nofun
  | run w i raises pc inSystem remaining worker hworker hrun hgoes hin hrem hrank hraises =>
    cases raises with
    | false =>
      have hno : NoRaise s (.run w false) := rfl
      rw [and_iff_left hno]
      refine clean_congr Iff.rfl (raised_update (hrunning hrun) fun b hb => ?_)
      cases hraises.mp ⟨b, hb⟩
    | true =>
      obtain ⟨b, rfl⟩ := hraises.mpr rfl
      refine iff_of_false (fun h => h.run i b (Function.update_self ..)) ?_
      rintro ⟨-, hno⟩
      cases hno

/-! ### Exact counters -/

theorem Clean.share (h : Clean s) (i : Fin job.ntasks) : (s.run i).share = if (s.run i).InSystem then 1 else 0 := by
  have hi := h.run i
  cases hpc : s.run i <;> first | rfl | exact absurd hpc (hi _)

theorem Clean.owed (h : Clean s) (i : Fin job.ntasks) : (s.run i).owed = if ¬(s.run i).Over then 1 else 0 := by
  have hi := h.run i
  cases hpc : s.run i <;> first | rfl | exact absurd hpc (hi _)

theorem Clean.outstanding (h : Clean s) (ha : Accounts s) : s.numTasksRemaining = s.outstanding := by
  unfold State.outstanding
  have hsum : ∑ i, (s.run i).owed = (Finset.univ.filter fun i => ¬(s.run i).Over).card := by
    rw [Finset.natCast_card_filter]
    exact Finset.sum_congr rfl fun i _ => h.owed i
  split
  · exact ha.fresh (.inl ‹_›)
  · exact ha.fresh (.inr ‹_›)
  · rename_i hpool hset
    rw [← hsum]
    refine ha.remaining ?_
    have hmain := h.main
    cases hpc : s.main <;> trivial

theorem Accounts.all_ended (ha : Accounts s) (hc : s.main.Counts) (hrem : s.numTasksRemaining ≤ 0)
    (i : Fin job.ntasks) : s.run i = .ended := by
  have hnonneg : ∀ j, 0 ≤ (s.run j).owed := by
    intro j
    cases s.run j <;> simp [RunPc.owed]
  have hle : (s.run i).owed ≤ ∑ j, (s.run j).owed :=
    Finset.single_le_sum (fun j _ => hnonneg j) (Finset.mem_univ i)
  rw [← ha.remaining hc] at hle
  by_contra hi
  rw [owed_of_ne_ended hi] at hle
  omega

/-- The wait loop is left when all runs have ended normally. -/
theorem exits_iff (ha : Accounts s) (hpc : s.main = .waiting) :
    (step s .main).isSome ↔ ∀ i, s.run i = .ended := by
  simp only [step, mainStep, hpc]
  constructor
  · intro h i
    refine ha.all_ended (by rw [hpc]; trivial) ?_ i
    by_contra hrem
    rw [if_pos (not_le.mp hrem)] at h
    cases h
  · intro h
    have hzero : s.numTasksRemaining = 0 := by
      rw [ha.remaining (by rw [hpc]; trivial)]
      exact Finset.sum_eq_zero fun i _ => by rw [h i]; rfl
    rw [hzero]
    rfl

theorem exact_iff_clean (hp : Placed s) (ha : Accounts s) : Exact s ↔ Clean s := by
  constructor
  · intro h
    refine ⟨h.main, fun i b hi => ?_⟩
    -- the run has raised and is still counted as remaining
    have hcounts : s.main.Counts ∧ s.outstanding = (Finset.univ.filter fun i => ¬(s.run i).Over).card := by
      have hsub := (hp.submitted h.main i).not.mp (by rw [hi]; exact nofun)
      have hmain := h.main
      unfold State.outstanding
      cases hpc : s.main <;> rw [hpc] at hsub <;> first | exact ⟨trivial, rfl⟩ | exact absurd trivial hsub | skip
      exact absurd hpc hmain
    have hlt : ∑ i, (if ¬(s.run i).Over then (1 : ℤ) else 0) < ∑ i, (s.run i).owed := by
      refine Finset.sum_lt_sum (fun j _ => ?_) ⟨i, Finset.mem_univ i, ?_⟩
      · cases s.run j <;> simp [RunPc.Over, RunPc.owed]
      · rw [hi]
        simp [RunPc.Over, RunPc.owed]
    have hrem := h.remaining
    rw [hcounts.2, Finset.natCast_card_filter, ha.remaining hcounts.1] at hrem
    omega
  · intro h
    have hin : s.numTasksInSystem = (Finset.univ.filter fun i => (s.run i).InSystem).card := by
      rw [ha.inSystem, Finset.natCast_card_filter]
      exact Finset.sum_congr rfl fun i _ => h.share i
    have hrem := h.outstanding ha
    refine ⟨hin, hrem, ⟨by omega, by omega⟩, h.main, fun hpc => (exits_iff ha hpc).trans ?_⟩
    refine forall_congr' fun i => ⟨fun hi => by rw [hi]; trivial, fun hi => ?_⟩
    cases hrun : s.run i <;> rw [hrun] at hi <;> first | rfl | exact hi.elim | exact absurd hrun (h.run i _)

/-! ### The job comes to its end -/

/-- The steps that `Job.run` has still to take for `n` tasks. -/
def MainPc.rank (n : ℕ) : MainPc → ℕ
  | pool => n + 4
  | set => n + 3
  | submit i => n - i + 2
  | waiting => 1
  | done => 0
  | raised => 0

def State.work (s : State job) : ℕ := ∑ i, (s.run i).rank + s.main.rank job.ntasks

theorem work_step {a : Action job} (hp : Placed s) (hs : step s a = some s') : s'.work < s.work := by
  have hsum := fun i pc => Tally.sum_update (fun _ => RunPc.rank) s.run i pc
  unfold State.work
  cases step_cases hs with
  | pool hpc hn =>
    simp only [hpc, MainPc.rank]
    omega
  | set hpc =>
    simp only [hpc, MainPc.rank]
    omega
  | submit i hpc hint =>
    have hi : s.run i = .unsubmitted :=
      (hp.submitted (by rw [hpc]; exact nofun) i).mpr (by rw [hpc]; exact le_rfl)
    have hrank : _ + 8 = _ + 7 := hi ▸ hsum i .queued
    simp only [hpc, MainPc.rank, State.setRun]
    omega
  | submitted i hpc hi =>
    simp only [hpc, MainPc.rank]
    omega
  | exit hpc hrem =>
    simp only [hpc, MainPc.rank]
    omega
  | fail hpc =>
    have : 0 < s.main.rank job.ntasks := by
      rcases hpc with ⟨hpc, -⟩ | ⟨⟨i, -, hpc⟩, -⟩ <;> rw [hpc] <;> exact Nat.succ_pos _
    exact Nat.add_lt_add_left this _
  | take w i queue hworker hqueue =>
    have hi : s.run i = .queued := (hp.queue i).mp (by rw [hqueue]; exact List.mem_cons_self ..)
    have hrank : _ + 7 = _ + 6 := hi ▸ hsum i .format
    simp only [State.setRun, State.setWorker]
    omega
  | run w i raises pc inSystem remaining worker hworker hrun hgoes hin hrem hrank hraises =>
    have := hsum i pc
    simp only [State.setRun]
    omega

/-- A worker with a task has a step. -/
theorem running_enabled {w : Fin job.nworkers} {i : Fin job.ntasks} (hworker : s.worker w = some i)
    (hrun : (s.run i).Running) : step s (.run w false) ≠ none := by
  simp only [step, hworker, Option.bind_some, runStep]
  cases hpc : s.run i <;> rw [hpc] at hrun <;> first | exact hrun.elim | simp

/-- Where no step is possible, `Job.run` has returned, unless something has raised. -/
theorem stuck_done (hp : Placed s) (ha : Accounts s) (hc : Clean s) (hstuck : ∀ a, step s a = none) :
    s.main = .done := by
  have hmain := hstuck .main
  have hworkers : ∀ i, ¬(s.run i).Running := by
    intro i hi
    obtain ⟨w, hw⟩ := hp.held i hi
    exact running_enabled hw hi (hstuck _)
  cases hpc : s.main with
  | pool =>
    simp [step, mainStep, hpc] at hmain
  | set =>
    simp [step, mainStep, hpc] at hmain
  | submit i =>
    simp only [step, mainStep, hpc] at hmain
    split_ifs at hmain
  | done => rfl
  | raised => exact absurd hpc hc.main
  | waiting =>
    have hraised : s.main ≠ .raised := hc.main
    -- the queue is empty: a worker without a task would take the next one
    have hqueue : s.queue = [] := by
      cases hq : s.queue with
      | nil => rfl
      | cons i queue =>
        obtain ⟨w⟩ : Nonempty (Fin job.nworkers) := ⟨⟨0, hp.pool (by rw [hpc]; exact nofun) hraised⟩⟩
        cases hw : s.worker w with
        | none =>
          have htake := hstuck (.take w)
          simp [step, takeStep, hw, hq] at htake
        | some j => exact absurd (hp.busy w j hw) (hworkers j)
    have hall : ∀ i, s.run i = .ended := by
      intro i
      have hsub := (hp.submitted hraised i).not.mpr (by rw [hpc]; exact id)
      have hqueued := (hp.queue i).not.mp (by rw [hqueue]; exact List.not_mem_nil)
      have hrun := hworkers i
      cases hi : s.run i <;> rw [hi] at hsub hqueued hrun <;>
        first | rfl | exact absurd rfl hsub | exact absurd rfl hqueued | exact absurd trivial hrun | skip
      exact absurd hi (hc.run i _)
    have hsome := (exits_iff ha hpc).mpr hall
    rw [hmain] at hsome
    cases hsome

/-- CORRECT: in every run the counters are exact, none is negative and the wait loop is left exactly when
    all runs have ended, up to the first statement that raises and not any more behind it. A run has a
    bounded length; when nothing raises it goes on until `Job.run` has returned, and `Job.run` returns
    only then, with all runs ended. -/
theorem counters_exact_iff (job : Job) (as : List (Action job)) (s : State job)
    (hs : exec step (State.new job) as = some s) :
    (Exact s ↔ Meets step NoRaise (State.new job) as) ∧
    as.length ≤ (State.new job).work ∧
    (Meets step NoRaise (State.new job) as → (∀ a, step s a = none) → s.main = .done) ∧
    (s.main = .done → Meets step NoRaise (State.new job) as ∧ ∀ i, s.run i = .ended) := by
  have hinv : Placed s ∧ Accounts s :=
    exec_inv (I := fun s => Placed s ∧ Accounts s)
      (fun _ _ _ h hs => ⟨placed_step h.1 hs, accounts_step h.1 h.2 hs⟩) ⟨placed_new, accounts_new⟩ hs
  obtain ⟨hp, ha⟩ := hinv
  have hclean : Clean s ↔ Meets step NoRaise (State.new job) as :=
    (exec_iff_meets (fun _ _ _ h hs => placed_step h hs) (fun _ _ _ h hs => clean_step h hs) placed_new hs).trans
      (and_iff_right clean_new)
  refine ⟨(exact_iff_clean hp ha).trans hclean, ?_, fun hmeets hstuck => ?_, fun hdone => ?_⟩
  · have hlen := exec_length_le (fun _ _ _ h hs => placed_step h hs) (fun _ _ _ h hs => work_step h hs)
      placed_new hs
    omega
  · exact stuck_done hp ha (hclean.mpr hmeets) hstuck
  · have hall := ha.all_ended (by rw [hdone]; trivial) (ha.done hdone)
    refine ⟨hclean.mp ⟨by rw [hdone]; exact nofun, fun i b hi => ?_⟩, hall⟩
    rw [hall i] at hi
    cases hi

instance (s : State job) : DecidablePred (NoRaise s)
  | .main =>
    have h : (∃ i < job.ntasks, s.main = .submit i) ↔ ∃ i : Fin job.ntasks, s.main = .submit i :=
      ⟨fun ⟨i, hi, h⟩ => ⟨⟨i, hi⟩, h⟩, fun ⟨i, h⟩ => ⟨i, i.isLt, h⟩⟩
    have : Decidable (∃ i < job.ntasks, s.main = .submit i) := decidable_of_iff' _ h
    inferInstanceAs (Decidable ((_ → _) ∧ (_ → _)))
  | .take _ => .isTrue trivial
  | .run _ _ => inferInstanceAs (Decidable (_ = _))

/-- Three tasks and two workers, with no exception. -/
theorem counters_exact_three :
    let job : Job := ⟨3, 2, 8, false⟩
    let run (w : Fin 2) : List (Action job) := .take w :: List.replicate 6 (.run w false)
    let as : List (Action job) := List.replicate 3 .main ++ run 0 ++ List.replicate 3 .main ++ run 1 ++
      run 0 ++ [.main]
    ∃ s, exec step (State.new job) as = some s ∧ s.main = .done ∧ Exact s := by
  intro job run as
  obtain ⟨s, hs, hdone⟩ : ∃ s ∈ exec step (State.new job) as, s.main = .done := by
    decide +kernel +revert
  obtain ⟨hexact, -, -, hend⟩ := counters_exact_iff job as s hs
  exact ⟨s, hs, hdone, hexact.mpr (hend hdone).1⟩

/-- One task, whose child cannot be started. The run has ended and nothing can happen any more, but both
    counters are 1 and `Job.run` waits. -/
theorem raising_task_waits_forever :
    let job : Job := ⟨1, 1, 1, false⟩
    let as : List (Action job) := List.replicate 4 .main ++
      [.take ⟨0, by decide⟩, .run ⟨0, by decide⟩ false, .run ⟨0, by decide⟩ false, .run ⟨0, by decide⟩ true]
    ∃ s, exec step (State.new job) as = some s ∧ (∀ i, (s.run i).Over) ∧ s.main = .waiting ∧
      s.numTasksInSystem = 1 ∧ s.numTasksRemaining = 1 ∧ step s .main = none ∧ ¬Exact s := by
  intro job as
  obtain ⟨s, hs, hover, hmain, hin, hrem⟩ : ∃ s ∈ exec step (State.new job) as, (∀ i, (s.run i).Over) ∧
      s.main = .waiting ∧ s.numTasksInSystem = 1 ∧ s.numTasksRemaining = 1 := by
    decide +kernel +revert
  have hwait : step s .main = none := by
    simp only [step, mainStep, hmain, hrem]
    rfl
  refine ⟨s, hs, hover, hmain, hin, hrem, hwait, fun h => ?_⟩
  have hsome := (h.exits hmain).mpr hover
  rw [hwait] at hsome
  cases hsome

end Accounts

end Turkey.Jobs
