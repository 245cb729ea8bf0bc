import Mathlib.Algebra.Order.Ring.Int
import Mathlib.Data.Int.Order.Basic
import Mathlib.Data.List.Nodup
import Turkey.Jobs.Task
import Turkey.Schemes.Run

/-! The 'intelligent' scheduling of a job (`job.py`), with `num_tasks_in_system` read as its value. For every task
    `Job.run` divides the CPUs by the number of tasks in the system, writes the quotient into a dictionary, waits
    for the task's start and hands the dictionary to the pool. The pool keeps a reference to it until its sending
    thread comes to the task; only then the dictionary is copied into the pipe to the worker processes.

    The counter may have any value at the start. A run that raises stays in the counter when it has been counted
    before. -/

namespace Turkey.Moldable
open Turkey.Run (exec Meets exec_inv exec_iff_meets)
open Turkey.Launch (Task Dict Value)

structure Job where
  tasks : List Task
  poolSize : ℕ
  cpuCount : ℕ
  numCpus : ℤ

namespace Job
variable (job : Job)

def ntasks : ℕ := job.tasks.length

/-- The number of processes of the pool. -/
def nworkers : ℕ := min job.ntasks (min job.poolSize job.cpuCount)

def task (i : Fin job.ntasks) : Task := job.tasks[i]

end Job

/-- Where `Job.run` is. A pool needs a process; behind the loop nothing is submitted any more. -/
inductive MainPc where
  | pool
  | noPool
  | compute (i : ℕ)
  | zeroDivision (i : ℕ)
  | delay (i : ℕ)
  | submit (i : ℕ)
  | waiting

/-- Where the run of a task is. It merges the arguments that it has got from the pipe, and goes on with the number of
    threads that it has found. -/
inductive RunPc where
  | idle
  | merge (args : Dict Value)
  | increment (nthreads : Option Value)
  | running (nthreads : Option Value)
  | finished (nthreads : Option Value)

variable {job : Job}

/-- `computed` has the number of threads that was computed for a task. -/
structure State (job : Job) where
  numTasksInSystem : ℤ
  main : MainPc
  args : Dict Value
  computed : Fin job.ntasks → Option ℤ
  queue : List (Fin job.ntasks)
  pipe : List (Fin job.ntasks × Dict Value)
  run : Fin job.ntasks → RunPc
  worker : Fin job.nworkers → Option (Fin job.ntasks)

/-- A step of `Job.run`, of the thread that sends, of a free worker, or of the run in a worker. -/
inductive Action (job : Job) where
  | main
  | send
  | take (w : Fin job.nworkers)
  | run (w : Fin job.nworkers) (raises : Bool)

def State.new (job : Job) (inSystem : ℤ) : State job :=
  ⟨inSystem, .pool, fun _ => none, fun _ => none, [], [], fun _ => .idle, fun _ => none⟩

/-- `int(self.num_cpus / config.num_tasks_in_system)`; the division rounds down. -/
def Job.nthreads (job : Job) (inSystem : ℤ) : ℤ := job.numCpus.fdiv inSystem

def mainStep (s : State job) : Option (State job) :=
  match s.main with
  | .pool => some { s with main := if job.nworkers = 0 then .noPool else .compute 0 }
  | .compute i =>
    if h : i < job.ntasks then
      if s.numTasksInSystem = 0 then some { s with main := .zeroDivision i }
      else some { s with
        args := Function.update s.args "nthreads" (some (.int (job.nthreads s.numTasksInSystem)))
        computed := Function.update s.computed ⟨i, h⟩ (some (job.nthreads s.numTasksInSystem))
        main := .delay i }
    else some { s with main := .waiting }
  | .delay i => some { s with main := .submit i }
  | .submit i =>
    if h : i < job.ntasks then some { s with queue := s.queue ++ [⟨i, h⟩], main := .compute (i + 1) }
    else none
  | _ => none

/-- The dictionary goes into the pipe as it is now. -/
def sendStep (s : State job) : Option (State job) :=
  match s.queue with
  | [] => none
  | i :: queue => some { s with queue := queue, pipe := s.pipe ++ [(i, s.args)] }

def takeStep (s : State job) (w : Fin job.nworkers) : Option (State job) :=
  match s.worker w, s.pipe with
  | none, (i, args) :: pipe => some { s with
      pipe := pipe
      run := Function.update s.run i (.merge args)
      worker := Function.update s.worker w (some i) }
  | _, _ => none

/-- The worker is free again when the run is over. -/
def State.leave (s : State job) (w : Fin job.nworkers) (i : Fin job.ntasks) (nthreads : Option Value) : State job :=
  { s with run := Function.update s.run i (.finished nthreads), worker := Function.update s.worker w none }

/-- One statement of `Task.run` in worker `w`, which has task `i`. -/
def runStep (s : State job) (w : Fin job.nworkers) (i : Fin job.ntasks) (raises : Bool) : Option (State job) :=
  match s.run i, raises with
  | .merge args, false => some { s with
      run := Function.update s.run i (.increment ((job.task i).merged args "nthreads")) }
  | .merge args, true => some (s.leave w i ((job.task i).merged args "nthreads"))
  | .increment n, false => some { s with
      numTasksInSystem := s.numTasksInSystem + 1
      run := Function.update s.run i (.running n) }
  | .running n, false => some { s.leave w i n with numTasksInSystem := s.numTasksInSystem - 1 }
  | .running n, true => some (s.leave w i n)
  | _, _ => none

def step (s : State job) : Action job → Option (State job)
  | .main => mainStep s
  | .send => sendStep s
  | .take w => takeStep s w
  | .run w raises => (s.worker w).bind fun i => runStep s w i raises

/-! ### What the numbers of threads should be -/

/-- The number of threads that a run has found in its arguments. -/
def State.nthreads (s : State job) (i : Fin job.ntasks) : Option Value :=
  match s.run i with
  | .idle => none
  | .merge args => (job.task i).merged args "nthreads"
  | .increment n | .running n | .finished n => n

/-- `args` give the task the number of threads that was computed for it. -/
def State.Own (s : State job) (i : Fin job.ntasks) (nthreads : Option Value) : Prop :=
  nthreads = (s.computed i).map .int

/-- No division by 0, numbers of threads between 1 and `num_cpus`, and each task with its own, as soon as its
    arguments are in the pipe. -/
structure Usable (s : State job) : Prop where
  divisor : ∀ i, s.main ≠ .zeroDivision i
  bounds : ∀ i n, s.computed i = some n → 1 ≤ n ∧ n ≤ job.numCpus
  sent : ∀ i args, (i, args) ∈ s.pipe → s.Own i ((job.task i).merged args "nthreads")
  runs : ∀ i, s.nthreads i ≠ none → s.Own i (s.nthreads i)

/-- What it takes: at a division there are tasks in the system, and not more than CPUs; and when the arguments
    are sent, nothing else has been written over them. -/
def Fits (s : State job) : Action job → Prop
  | .main => ∀ i < job.ntasks, s.main = .compute i → 1 ≤ s.numTasksInSystem ∧ s.numTasksInSystem ≤ job.numCpus
  | .send => ∀ i, s.queue.head? = some i → s.args "nthreads" = (s.computed i).map .int
  | _ => True

/-! ### One step -/

section Steps
variable {s s' : State job}

/-- A step of a run changes nothing about the numbers of threads. -/
theorem runStep_spec {w : Fin job.nworkers} {i : Fin job.ntasks} {raises : Bool}
    (h : runStep s w i raises = some s') : s'.main = s.main ∧ s'.args = s.args ∧ s'.computed = s.computed ∧
      s'.queue = s.queue ∧ s'.pipe = s.pipe ∧ ∀ j, s'.nthreads j = s.nthreads j := by
  have hsame : ∀ {pc : RunPc} {x : State job}, x.run = Function.update s.run i pc →
      s.nthreads i = x.nthreads i → ∀ j, x.nthreads j = s.nthreads j := by
    intro pc x hrun hi j
    rcases eq_or_ne j i with rfl | hne
    · exact hi.symm
    · rw [State.nthreads, State.nthreads, hrun, Function.update_of_ne hne]
  cases hpc : s.run i with
  | idle => simp [runStep, hpc] at h
  | merge args =>
    cases raises <;> simp only [runStep, hpc, Option.some.injEq] at h <;> subst h
    · refine ⟨rfl, rfl, rfl, rfl, rfl, hsame rfl ?_⟩
      simp [State.nthreads, hpc]
    · refine ⟨rfl, rfl, rfl, rfl, rfl, hsame rfl ?_⟩
      simp [State.nthreads, State.leave, hpc]
  | increment n =>
    cases raises <;> simp only [runStep, hpc, Option.some.injEq, reduceCtorEq] at h
    subst h
    refine ⟨rfl, rfl, rfl, rfl, rfl, hsame rfl ?_⟩
    simp [State.nthreads, hpc]
  | running n =>
    cases raises <;> simp only [runStep, hpc, Option.some.injEq] at h <;> subst h
    · refine ⟨rfl, rfl, rfl, rfl, rfl, hsame rfl ?_⟩
      simp [State.nthreads, State.leave, hpc]
    · refine ⟨rfl, rfl, rfl, rfl, rfl, hsame rfl ?_⟩
      simp [State.nthreads, State.leave, hpc]
  | finished n => simp [runStep, hpc] at h

theorem takeStep_spec {w : Fin job.nworkers} (h : takeStep s w = some s') :
    ∃ i args pipe, s.pipe = (i, args) :: pipe ∧ s' = { s with
      pipe := pipe
      run := Function.update s.run i (.merge args)
      worker := Function.update s.worker w (some i) } := by
  rw [takeStep] at h
  split at h
  · rename_i i args pipe hworker hpipe
    exact ⟨i, args, pipe, hpipe, (Option.some.inj h).symm⟩
  · cases h

theorem nthreads_take {i j : Fin job.ntasks} {args : Dict Value} {pipe : List (Fin job.ntasks × Dict Value)}
    {worker : Fin job.nworkers → Option (Fin job.ntasks)} (h : j ≠ i) : State.nthreads
      { s with pipe := pipe, run := Function.update s.run i (.merge args), worker := worker } j = s.nthreads j := by
  simp only [State.nthreads, Function.update_of_ne h]

/-- The tasks that have been submitted and not been taken yet. -/
def State.pending (s : State job) : List (Fin job.ntasks) := s.pipe.map Prod.fst ++ s.queue

theorem pending_submit {i : Fin job.ntasks} {pc : MainPc} :
    State.pending { s with queue := s.queue ++ [i], main := pc } = s.pending ++ [i] := by
  simp [State.pending]

namespace MainPc

/-- `Job.run` has computed the number of threads of task `j`. -/
def Computed (j : ℕ) : MainPc → Prop
  | pool | noPool => False
  | compute i | zeroDivision i => j < i
  | delay i | submit i => j ≤ i
  | waiting => True

/-- `Job.run` has submitted task `j`. -/
def Past (j : ℕ) : MainPc → Prop
  | pool | noPool => False
  | compute i | zeroDivision i | delay i | submit i => j < i
  | waiting => True

theorem Past.computed {j : ℕ} {pc : MainPc} (h : pc.Past j) : pc.Computed j := by
  cases pc with
  | delay i | submit i => exact Nat.le_of_lt h
  | _ => exact h

end MainPc

/-- Invariant: every submitted task is in one place, and has had its number of threads computed. -/
structure Inv (s : State job) : Prop where
  computed : ∀ j, s.computed j ≠ none ↔ s.main.Computed j
  args : ∀ j : Fin job.ntasks, s.main.Computed j → s.args "nthreads" ≠ none
  past : ∀ j : Fin job.ntasks, j ∈ s.pending ∨ s.nthreads j ≠ none → s.main.Past j
  nodup : s.pending.Nodup
  idle : ∀ j ∈ s.pending, s.nthreads j = none

theorem inv_new (inSystem : ℤ) : Inv (State.new job inSystem) := by
  refine ⟨?_, ?_, ?_, ?_, ?_⟩ <;> simp [State.new, State.pending, State.nthreads, MainPc.Computed]

theorem inv_main (h : Inv s) (hs : mainStep s = some s') : Inv s' := by
  obtain ⟨hcomputed, hargs, hpast, hnodup, hidle⟩ := h
  rw [mainStep] at hs
  cases hpc : s.main with
  | pool =>
    rw [hpc] at hs hcomputed hpast
    obtain rfl := Option.some.inj hs
    split_ifs
    · exact ⟨hcomputed, nofun, hpast, hnodup, hidle⟩
    · refine ⟨fun j => (hcomputed j).trans (by simp [MainPc.Computed]), nofun, fun j hj => (hpast j hj).elim,
        hnodup, hidle⟩
  | compute i =>
    rw [hpc] at hs hcomputed hargs hpast
    dsimp only at hs
    split_ifs at hs with hi hzero
    · obtain rfl := Option.some.inj hs
      exact ⟨hcomputed, hargs, hpast, hnodup, hidle⟩
    · obtain rfl := Option.some.inj hs
      refine ⟨fun j => ?_, fun j _ => by simp, hpast, hnodup, hidle⟩
      rcases eq_or_ne j ⟨i, hi⟩ with rfl | hne
      · simp [MainPc.Computed]
      · have hji : j.val ≠ i := fun heq => hne (Fin.ext heq)
        simp only [Function.update_of_ne hne, hcomputed, MainPc.Computed]
        omega
    · obtain rfl := Option.some.inj hs
      have hall : ∀ j : Fin job.ntasks, j.val < i := fun j => by omega
      exact ⟨fun j => (hcomputed j).trans (iff_of_true (hall j) trivial), fun j _ => hargs j (hall j),
        fun j _ => trivial, hnodup, hidle⟩
  | delay i =>
    rw [hpc] at hs hcomputed hargs hpast
    obtain rfl := Option.some.inj hs
    exact ⟨hcomputed, hargs, hpast, hnodup, hidle⟩
  | submit i =>
    rw [hpc] at hs hcomputed hargs hpast
    dsimp only at hs
    split_ifs at hs with hi
    obtain rfl := Option.some.inj hs
    have hfresh : ¬(⟨i, hi⟩ ∈ s.pending ∨ s.nthreads ⟨i, hi⟩ ≠ none) := fun hj => lt_irrefl i (hpast ⟨i, hi⟩ hj)
    obtain ⟨hpending, hnthreads⟩ := not_or.1 hfresh
    refine ⟨fun j => (hcomputed j).trans Nat.lt_succ_iff.symm, fun j hj => hargs j (Nat.lt_succ_iff.1 hj), ?_,
      ?_, ?_⟩ <;>
      rw [pending_submit]
    · intro j hj
      rw [List.mem_append, List.mem_singleton] at hj
      obtain (hj | rfl) | hj := hj
      · exact Nat.lt_succ_of_lt (hpast j (.inl hj))
      · exact Nat.lt_succ_self i
      · exact Nat.lt_succ_of_lt (hpast j (.inr hj))
    · simpa using List.Nodup.concat hpending hnodup
    · intro j hj
      rw [List.mem_append, List.mem_singleton] at hj
      obtain hj | rfl := hj
      · exact hidle j hj
      · exact not_not.1 hnthreads
  | noPool | zeroDivision i | waiting => simp [hpc] at hs

theorem inv_step {a : Action job} (h : Inv s) (hs : step s a = some s') : Inv s' := by
  cases a with
  | main => exact inv_main h hs
  | send =>
    simp only [step, sendStep] at hs
    cases hqueue : s.queue with
    | nil => simp [hqueue] at hs
    | cons i queue =>
      simp only [hqueue, Option.some.injEq] at hs
      subst hs
      have hpending : ∀ x : State job, x.pipe = s.pipe ++ [(i, s.args)] → x.queue = queue →
          x.pending = s.pending := by
        intro x hpipe hx
        simp [State.pending, hpipe, hx, hqueue]
      refine ⟨h.computed, h.args, ?_, ?_, ?_⟩ <;> rw [hpending _ rfl rfl]
      · exact h.past
      · exact h.nodup
      · exact h.idle
  | take w =>
    obtain ⟨i, args, pipe, hpipe, rfl⟩ := takeStep_spec hs
    have hpending : s.pending = i :: (pipe.map Prod.fst ++ s.queue) := by simp [State.pending, hpipe]
    have hnodup := h.nodup
    have hidle := h.idle
    have hpast := h.past
    rw [hpending] at hnodup hidle hpast
    rw [List.nodup_cons] at hnodup
    refine ⟨h.computed, h.args, fun j hj => hpast j ?_, hnodup.2, fun j hj => ?_⟩
    · rcases eq_or_ne j i with rfl | hne
      · exact .inl (List.mem_cons_self ..)
      · rw [nthreads_take hne] at hj
        exact hj.imp_left (List.mem_cons_of_mem _)
    · rw [nthreads_take (ne_of_mem_of_not_mem hj hnodup.1)]
      exact hidle j (List.mem_cons_of_mem _ hj)
  | run w raises =>
    simp only [step, Option.bind_eq_some_iff] at hs
    obtain ⟨i, -, hs⟩ := hs
    obtain ⟨hmain, hargs, hcomputed, hqueue, hpipe, hnthreads⟩ := runStep_spec hs
    refine ⟨?_, ?_, ?_, ?_, ?_⟩ <;> simp only [State.pending, hmain, hargs, hcomputed, hqueue, hpipe, hnthreads]
    · exact h.computed
    · exact h.args
    · exact h.past
    · exact h.nodup
    · exact h.idle

/-! ### The numbers of threads -/

/-- The quotient is a number of CPUs exactly when the divisor is. -/
theorem nthreads_bounds (hcpus : 1 ≤ job.numCpus) {inSystem : ℤ} (hzero : inSystem ≠ 0) :
    1 ≤ job.nthreads inSystem ∧ job.nthreads inSystem ≤ job.numCpus ↔ 1 ≤ inSystem ∧ inSystem ≤ job.numCpus := by
  rw [Job.nthreads]
  rcases lt_or_gt_of_ne hzero with hneg | hpos
  · have hquotient : job.numCpus.fdiv inSystem < 0 := by
      rw [← Int.neg_fdiv_neg]
      exact Int.fdiv_neg_of_neg_of_pos (by omega) (by omega)
    omega
  · rw [Int.fdiv_eq_ediv_of_nonneg _ hpos.le, Int.le_ediv_iff_mul_le hpos, one_mul]
    have hle : job.numCpus / inSystem ≤ job.numCpus := Int.ediv_le_self _ (by omega)
    omega

/-- A copy of the dictionary gives a task what the dictionary says. -/
theorem merged_nthreads {args : Dict Value} (hargs : args "nthreads" ≠ none) (t : Task) :
    t.merged args "nthreads" = args "nthreads" := by
  obtain ⟨value, hvalue⟩ := Option.ne_none_iff_exists'.1 hargs
  rw [Task.merged, hvalue, Option.some_or]

theorem merged_nthreads_ne_none (args : Dict Value) (t : Task) : t.merged args "nthreads" ≠ none := by
  rw [Task.merged]
  cases args "nthreads" <;> simp [Task.args]

/-- Another number of threads has been computed, for a task that has not been submitted. -/
theorem usable_compute (h : Inv s) (hcpus : 1 ≤ job.numCpus) {i : ℕ} (hi : i < job.ntasks) (hpc : s.main = .compute i)
    (hzero : s.numTasksInSystem ≠ 0) {args : Dict Value} :
    Usable { s with
      args := args
      computed := Function.update s.computed ⟨i, hi⟩ (some (job.nthreads s.numTasksInSystem))
      main := .delay i } ↔ Usable s ∧ 1 ≤ s.numTasksInSystem ∧ s.numTasksInSystem ≤ job.numCpus := by
  rw [← nthreads_bounds hcpus hzero]
  have hnone : s.computed ⟨i, hi⟩ = none := by
    by_contra hsome
    have hlt := (h.computed _).1 hsome
    rw [hpc] at hlt
    exact lt_irrefl i hlt
  have hbefore : ∀ j : Fin job.ntasks, j ∈ s.pending ∨ s.nthreads j ≠ none → j ≠ ⟨i, hi⟩ := by
    rintro j hj rfl
    have hlt := h.past _ hj
    rw [hpc] at hlt
    exact lt_irrefl i hlt
  have hpipe : ∀ {j : Fin job.ntasks} {args : Dict Value}, (j, args) ∈ s.pipe → j ∈ s.pending := by
    intro j args hj
    exact List.mem_append_left _ (List.mem_map_of_mem hj)
  constructor
  · rintro ⟨-, hbounds, hsent, hruns⟩
    refine ⟨⟨by simp [hpc], fun j n hj => ?_, fun j args hj => ?_, fun j hj => ?_⟩, ?_⟩
    · refine hbounds j n ?_
      have hne : j ≠ ⟨i, hi⟩ := by
        rintro rfl
        simp [hnone] at hj
      simpa [hne] using hj
    · simpa [State.Own, hbefore j (.inl (hpipe hj))] using hsent j args hj
    · simpa [State.Own, State.nthreads, hbefore j (.inr hj)] using hruns j hj
    · exact hbounds ⟨i, hi⟩ _ (Function.update_self ..)
  · rintro ⟨⟨-, hbounds, hsent, hruns⟩, hnew⟩
    refine ⟨by simp, fun j n hj => ?_, fun j args hj => ?_, fun j hj => ?_⟩
    · rcases eq_or_ne j ⟨i, hi⟩ with rfl | hne
      · obtain rfl : job.nthreads s.numTasksInSystem = n := by simpa using hj
        exact hnew
      · exact hbounds j n (by simpa [hne] using hj)
    · simpa [State.Own, hbefore j (.inl (hpipe hj))] using hsent j args hj
    · simpa [State.Own, State.nthreads, hbefore j (.inr hj)] using hruns j hj

theorem Usable.congr (h : Usable s) (hmain : ∀ i, s'.main ≠ .zeroDivision i) (hcomputed : s'.computed = s.computed)
    (hpipe : s'.pipe = s.pipe) (hnthreads : ∀ j, s'.nthreads j = s.nthreads j) : Usable s' := by
  refine ⟨hmain, fun i n => ?_, fun i args => ?_, fun i => ?_⟩
  · rw [hcomputed]
    exact h.bounds i n
  · rw [hpipe, State.Own, hcomputed]
    exact h.sent i args
  · rw [hnthreads, State.Own, hcomputed]
    exact h.runs i

/-- A step that computes nothing and sends nothing. -/
theorem usable_same {a : Action job} (hfits : Fits s a) (hmain : ∀ i, s.main ≠ .zeroDivision i)
    (hmain' : ∀ i, s'.main ≠ .zeroDivision i) (hcomputed : s'.computed = s.computed) (hpipe : s'.pipe = s.pipe)
    (hnthreads : ∀ j, s'.nthreads j = s.nthreads j) : Usable s' ↔ Usable s ∧ Fits s a := by
  rw [and_iff_left hfits]
  exact ⟨fun h => h.congr hmain hcomputed.symm hpipe.symm fun j => (hnthreads j).symm,
    fun h => h.congr hmain' hcomputed hpipe hnthreads⟩

theorem usable_main (h : Inv s) (hcpus : 1 ≤ job.numCpus) (hs : mainStep s = some s') :
    Usable s' ↔ Usable s ∧ Fits s .main := by
  rw [mainStep] at hs
  cases hpc : s.main with
  | pool =>
    rw [hpc] at hs
    obtain rfl := Option.some.inj hs
    refine usable_same (by simp [Fits, hpc]) (by simp [hpc]) (fun i => ?_) rfl rfl fun _ => rfl
    dsimp only
    split_ifs <;> exact nofun
  | compute i =>
    rw [hpc] at hs
    dsimp only at hs
    have hfits : Fits s .main ↔ (i < job.ntasks → 1 ≤ s.numTasksInSystem ∧ s.numTasksInSystem ≤ job.numCpus) := by
      simp only [Fits, hpc, MainPc.compute.injEq]
      exact ⟨fun hf hi => hf i hi rfl, fun hf j hj hij => hf (hij ▸ hj)⟩
    split_ifs at hs with hi hzero
    · obtain rfl := Option.some.inj hs
      refine iff_of_false (fun hu => hu.divisor i rfl) fun ⟨_, hf⟩ => ?_
      have hone := (hfits.1 hf hi).1
      omega
    · obtain rfl := Option.some.inj hs
      rw [hfits, usable_compute h hcpus hi hpc hzero]
      simp [hi]
    · obtain rfl := Option.some.inj hs
      exact usable_same (hfits.2 fun hlt => absurd hlt hi) (by simp [hpc]) (by simp) rfl rfl fun _ => rfl
  | delay i =>
    rw [hpc] at hs
    obtain rfl := Option.some.inj hs
    exact usable_same (by simp [Fits, hpc]) (by simp [hpc]) (by simp) rfl rfl fun _ => rfl
  | submit i =>
    rw [hpc] at hs
    dsimp only at hs
    split_ifs at hs with hi
    obtain rfl := Option.some.inj hs
    exact usable_same (by simp [Fits, hpc]) (by simp [hpc]) (by simp) rfl rfl fun _ => rfl
  | noPool | zeroDivision i | waiting => simp [hpc] at hs

/-- The dictionary that is sent gives the task its own number of threads when nobody has written over it. -/
theorem usable_send (h : Inv s) (hs : sendStep s = some s') : Usable s' ↔ Usable s ∧ Fits s .send := by
  rw [sendStep] at hs
  cases hqueue : s.queue with
  | nil => simp [hqueue] at hs
  | cons i queue =>
    simp only [hqueue, Option.some.injEq] at hs
    subst hs
    have hpast := h.past i (.inl (by simp [State.pending, hqueue]))
    have hmerged := merged_nthreads (h.args i hpast.computed) (job.task i)
    have hfits : Fits s .send ↔ s.Own i ((job.task i).merged s.args "nthreads") := by
      simp [Fits, hqueue, State.Own, hmerged]
    rw [hfits]
    constructor
    · rintro ⟨hdivisor, hbounds, hsent, hruns⟩
      refine ⟨⟨hdivisor, hbounds, fun j args hj => ?_, hruns⟩, ?_⟩
      · exact hsent j args (List.mem_append_left _ hj)
      · exact hsent i s.args (by simp)
    · rintro ⟨⟨hdivisor, hbounds, hsent, hruns⟩, hnew⟩
      refine ⟨hdivisor, hbounds, fun j args hj => ?_, hruns⟩
      rw [List.mem_append, List.mem_singleton] at hj
      obtain hj | hj := hj
      · exact hsent j args hj
      · obtain ⟨rfl, rfl⟩ := Prod.mk.inj hj
        exact hnew

/-- A worker gets the arguments that are in the pipe. -/
theorem usable_take (h : Inv s) {w : Fin job.nworkers} (hs : takeStep s w = some s') : Usable s' ↔ Usable s := by
  obtain ⟨i, args, pipe, hpipe, rfl⟩ := takeStep_spec hs
  have hidle := h.idle i (by simp [State.pending, hpipe])
  have hself : State.nthreads { s with
      pipe := pipe
      run := Function.update s.run i (.merge args)
      worker := Function.update s.worker w (some i) } i = (job.task i).merged args "nthreads" := by
    simp [State.nthreads]
  constructor
  · rintro ⟨hdivisor, hbounds, hsent, hruns⟩
    refine ⟨hdivisor, hbounds, fun j args' hj => ?_, fun j hj => ?_⟩
    · rw [hpipe, List.mem_cons] at hj
      obtain hj | hj := hj
      · obtain ⟨rfl, rfl⟩ := Prod.mk.inj hj
        have hown := hruns j
        rw [hself] at hown
        exact hown (merged_nthreads_ne_none args' _)
      · exact hsent j args' hj
    · have hne : j ≠ i := by
        rintro rfl
        exact hj hidle
      have hown := hruns j
      rw [nthreads_take hne] at hown
      exact hown hj
  · rintro ⟨hdivisor, hbounds, hsent, hruns⟩
    refine ⟨hdivisor, hbounds, fun j args' hj => ?_, fun j hj => ?_⟩
    · exact hsent j args' (hpipe ▸ List.mem_cons_of_mem _ hj)
    · rcases eq_or_ne j i with rfl | hne
      · rw [hself]
        exact hsent j args (hpipe ▸ List.mem_cons_self ..)
      · rw [nthreads_take hne] at hj ⊢
        exact hruns j hj

/-- A step keeps the numbers of threads usable when it meets `Fits`, and only then. -/
theorem usable_step (hcpus : 1 ≤ job.numCpus) {a : Action job} (h : Inv s) (hs : step s a = some s') :
    Usable s' ↔ Usable s ∧ Fits s a := by
  cases a with
  | main => exact usable_main h hcpus hs
  | send => exact usable_send h hs
  | take w => exact (usable_take h hs).trans (and_iff_left trivial).symm
  | run w raises =>
    simp only [step, Option.bind_eq_some_iff] at hs
    obtain ⟨i, -, hs⟩ := hs
    obtain ⟨hmain, -, hcomputed, -, hpipe, hnthreads⟩ := runStep_spec hs
    rw [and_iff_left (show Fits s (.run w raises) from trivial)]
    constructor
    · intro hu
      refine hu.congr ?_ hcomputed.symm hpipe.symm fun j => (hnthreads j).symm
      exact hmain ▸ hu.divisor
    · intro hu
      refine hu.congr ?_ hcomputed hpipe hnthreads
      exact hmain ▸ hu.divisor

end Steps

/-! ### The job -/

theorem usable_new (inSystem : ℤ) : Usable (State.new job inSystem) := by
  refine ⟨?_, ?_, ?_, ?_⟩ <;> simp [State.new, State.nthreads]

/-- A pool without processes ends `Job.run` before its loop. -/
theorem usable_of_no_worker (hnone : job.nworkers = 0) {inSystem : ℤ} {acts : List (Action job)} {s : State job}
    (hs : exec step (State.new job inSystem) acts = some s) : Usable s := by
  have hidle : s.queue = [] ∧ s.pipe = [] ∧ (s.main = .pool ∨ s.main = .noPool) ∧ Usable s := by
    refine exec_inv (I := fun s : State job => s.queue = [] ∧ s.pipe = [] ∧
      (s.main = .pool ∨ s.main = .noPool) ∧ Usable s)
      ?_ ⟨rfl, rfl, .inl rfl, usable_new inSystem⟩ hs
    rintro s a s' ⟨hqueue, hpipe, hmain, husable⟩ hstep
    cases a with
    | main =>
      obtain hmain | hmain := hmain <;> simp only [step, mainStep, hmain, hnone, if_true, Option.some.injEq,
          reduceCtorEq] at hstep
      subst hstep
      exact ⟨hqueue, hpipe, .inr rfl, husable.congr (by simp) rfl rfl fun _ => rfl⟩
    | send => simp [step, sendStep, hqueue] at hstep
    | take w => exact absurd w.isLt (by omega)
    | run w raises => exact absurd w.isLt (by omega)
  exact hidle.2.2.2

/-- The first task finds nothing in the system. -/
theorem zeroDivision_of_worker (hpos : job.nworkers ≠ 0) :
    ∃ s, exec step (State.new job 0) [.main, .main] = some s ∧ s.main = .zeroDivision 0 := by
  have htasks : 0 < job.ntasks := by
    have hle : job.nworkers ≤ job.ntasks := min_le_left _ _
    omega
  refine ⟨{ State.new job 0 with main := .zeroDivision 0 }, ?_, rfl⟩
  simp [exec, step, mainStep, State.new, hpos, htasks]

/-- CORRECT: in every run, and with any number of tasks in the system at the start, the numbers of threads are usable
    as long as every step meets `Fits`, and not any more behind a step that does not. When nothing is in the system
    at the start, they are so in all runs exactly when there is no task or no process. -/
theorem usable_iff (job : Job) (hcpus : 1 ≤ job.numCpus) :
    (∀ (inSystem : ℤ) acts (s : State job), exec step (State.new job inSystem) acts = some s →
      (Usable s ↔ Meets step Fits (State.new job inSystem) acts)) ∧
    ((∀ acts (s : State job), exec step (State.new job 0) acts = some s → Usable s) ↔ job.nworkers = 0) := by
  refine ⟨fun inSystem acts s hs => ?_, fun h => ?_, fun hnone acts s hs => usable_of_no_worker hnone hs⟩
  · refine (exec_iff_meets (fun _ _ _ h hs => inv_step h hs) (fun _ _ _ h hs => usable_step hcpus h hs)
      (inv_new inSystem) hs).trans (and_iff_right (usable_new inSystem))
  · by_contra hpos
    obtain ⟨s, hs, hmain⟩ := zeroDivision_of_worker hpos
    exact (h _ s hs).divisor 0 hmain

/-- A job of one task on four CPUs. -/
def oneTask : Job where
  tasks := [⟨fun _ => none, "blackscholes", "pthread", 4, ⟨none, [], [], List.nodup_nil, none, none⟩,
    "build/apps/blackscholes", "apps/blackscholes/inputs", "out/0"⟩]
  poolSize := 1
  cpuCount := 4
  numCpus := 4

theorem usable_iff_oneTask : 1 ≤ oneTask.numCpus ∧
    (∀ (inSystem : ℤ) acts (s : State oneTask), exec step (State.new oneTask inSystem) acts = some s →
      (Usable s ↔ Meets step Fits (State.new oneTask inSystem) acts)) ∧
    ((∀ acts (s : State oneTask), exec step (State.new oneTask 0) acts = some s → Usable s) ↔
      oneTask.nworkers = 0) :=
  ⟨by decide, usable_iff oneTask (by decide)⟩

/-- Its first division is by 0. -/
theorem oneTask_zeroDivision : 1 ≤ oneTask.numCpus ∧
    ∃ acts s, exec step (State.new oneTask 0) acts = some s ∧ s.main = .zeroDivision 0 ∧ ¬Usable s := by
  refine ⟨by decide, [.main, .main], { State.new oneTask 0 with main := .zeroDivision 0 }, rfl, rfl, fun h => ?_⟩
  exact h.divisor 0 rfl

end Turkey.Moldable
