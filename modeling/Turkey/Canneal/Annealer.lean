import Mathlib.Data.Fintype.Basic
import Turkey.Schemes.Run

/-! The threads of canneal (`annealer_thread::Run`, `annealer_thread_turkey::Run`). In every temperature
    step a thread makes its moves, counts those it has accepted and waits at a barrier, which releases the
    threads when all of them wait. Then each decides by itself, in `keep_going`, whether it goes on: with
    `_number_temp_steps == -1` it does when the global flag is still set and it has accepted more good
    moves than bad ones, and a thread that does not go on clears the flag.

    The read of the flag and the write that clears it are steps of their own; what a thread does to its
    counters is one step. The two versions differ in the log that the second one writes. -/

namespace Turkey.Annealer
open Turkey.Run

/-- What `accept_move` says of a swap. -/
inductive MoveDecision where
  | acceptedGood
  | acceptedBad
  | rejected
  deriving DecidableEq

/-- The two versions of `annealer_thread`. -/
inductive Version where
  | pthread
  | turkey
  deriving DecidableEq

/-- The version, and the arguments of the threads. -/
structure Config where
  version : Version
  movesPerThreadTemp : ℕ
  numberTempSteps : ℤ

/-- Where a thread stands in its loop. -/
inductive Pc where
  | keepGoing
  | signal
  | moves
  | barrier
  | waiting
  | returned
  deriving DecidableEq

/-- The local variables of `Run`. -/
structure Thread where
  pc : Pc
  acceptedGoodMoves : ℤ
  acceptedBadMoves : ℤ
  tempStepsCompleted : ℕ

/-- `log` has the counters of the threads that have stopped, in the second version. -/
structure State (n : ℕ) where
  keepGoingGlobalFlag : Bool
  thread : Fin n → Thread
  log : List (ℤ × ℤ)

/-- A step of thread `i`, with what it finds out. -/
inductive Action (n : ℕ) where
  | keepGoing (i : Fin n)
  | signal (i : Fin n)
  | moves (i : Fin n) (decisions : List MoveDecision)
  | barrier (i : Fin n)

variable {n : ℕ} (c : Config)

/-- Before the first step. -/
def State.new (n : ℕ) : State n := ⟨true, fun _ => ⟨.keepGoing, 0, -1, 0⟩, []⟩

/-- A thread with its new values. -/
def State.setThread (s : State n) (i : Fin n) (t : Thread) : State n :=
  { s with thread := Function.update s.thread i t }

/-- The thread has stopped; the second version logs its counters. -/
def State.stop (s : State n) (i : Fin n) : State n :=
  let t := s.thread i
  { s.setThread i { t with pc := .returned } with
    log := match c.version with
      | .pthread => s.log
      | .turkey => s.log ++ [(t.acceptedGoodMoves, t.acceptedBadMoves)] }

/-- A waiting thread that the barrier lets through. -/
def Thread.release (t : Thread) : Thread := { t with pc := .keepGoing }

/-- The moves of one temperature step, of which only the counters are left. -/
def Thread.makeMoves (t : Thread) (decisions : List MoveDecision) : Thread := { t with
  pc := .barrier
  acceptedGoodMoves := decisions.count .acceptedGood
  acceptedBadMoves := decisions.count .acceptedBad
  tempStepsCompleted := t.tempStepsCompleted + 1 }

/-- `keep_going` up to the write of the flag. -/
def keepGoing (s : State n) (i : Fin n) : State n :=
  let t := s.thread i
  if c.numberTempSteps = -1 then
    let rv := s.keepGoingGlobalFlag && decide (t.acceptedBadMoves < t.acceptedGoodMoves)
    s.setThread i { t with pc := if rv then .moves else .signal }
  else if t.tempStepsCompleted < c.numberTempSteps then s.setThread i { t with pc := .moves }
  else s.stop c i

/-- One step; `none` when the thread is somewhere else. -/
def step (s : State n) : Action n → Option (State n)
  | .keepGoing i => if (s.thread i).pc = .keepGoing then some (keepGoing c s i) else none
  | .signal i =>
    if (s.thread i).pc = .signal then some { s.stop c i with keepGoingGlobalFlag := false } else none
  | .moves i decisions =>
    if (s.thread i).pc = .moves ∧ decisions.length = c.movesPerThreadTemp then
      some (s.setThread i ((s.thread i).makeMoves decisions))
    else none
  | .barrier i =>
    if (s.thread i).pc = .barrier then
      let s := s.setThread i { s.thread i with pc := .waiting }
      if ∀ j, (s.thread j).pc = .waiting then
        some { s with thread := fun j => (s.thread j).release }
      else some s
    else none

/-! ### Threads that go on and threads that stop -/

/-- The thread has decided to go on. -/
def Thread.On (t : Thread) : Prop := t.pc = .moves ∨ t.pc = .barrier ∨ t.pc = .waiting

/-- The thread has decided to stop. -/
def Thread.Off (t : Thread) : Prop := t.pc = .signal ∨ t.pc = .returned

/-- The thread has yet to decide, and its counters are for going on. -/
def Thread.Improved (t : Thread) : Prop := t.acceptedBadMoves < t.acceptedGoodMoves

/-- One thread waits at the barrier and another one has returned. -/
def LeftBehind (s : State n) : Prop := ∃ i j, (s.thread i).pc = .waiting ∧ (s.thread j).pc = .returned

/-- A thread that finds the flag set and its counters for going on does so only when no thread has
    decided to stop, and the counters of those that have yet to decide are for going on as well. -/
def Agrees (s : State n) : Action n → Prop
  | .keepGoing i => s.keepGoingGlobalFlag = true → (s.thread i).Improved →
      ∀ j, ¬(s.thread j).Off ∧ ((s.thread j).pc = .keepGoing → (s.thread j).Improved)
  | _ => True

/-- What a step is, in the mode without a number of steps. -/
inductive Move (s : State n) : Action n → State n → Prop
  | goOn (i : Fin n) (hpc : (s.thread i).pc = .keepGoing) (hflag : s.keepGoingGlobalFlag = true)
      (hgood : (s.thread i).Improved) :
      Move s (.keepGoing i) (s.setThread i { s.thread i with pc := .moves })
  | decline (i : Fin n) (hpc : (s.thread i).pc = .keepGoing)
      (hstop : ¬(s.keepGoingGlobalFlag = true ∧ (s.thread i).Improved)) :
      Move s (.keepGoing i) (s.setThread i { s.thread i with pc := .signal })
  | signal (i : Fin n) (hpc : (s.thread i).pc = .signal) :
      Move s (.signal i) { s.stop c i with keepGoingGlobalFlag := false }
  | moves (i : Fin n) (decisions : List MoveDecision) (t : Thread) (hpc : (s.thread i).pc = .moves)
      (ht : t.pc = .barrier) : Move s (.moves i decisions) (s.setThread i t)
  | wait (i : Fin n) (hpc : (s.thread i).pc = .barrier) (hsome : ∃ j ≠ i, (s.thread j).pc ≠ .waiting) :
      Move s (.barrier i) (s.setThread i { s.thread i with pc := .waiting })
  | release (i : Fin n) (hpc : (s.thread i).pc = .barrier) (hall : ∀ j ≠ i, (s.thread j).pc = .waiting)
      (t : Fin n → Thread) (ht : ∀ j, (t j).pc = .keepGoing) : Move s (.barrier i) { s with thread := t }

variable {c} {s s' : State n}

@[simp] theorem setThread_self (i : Fin n) (t : Thread) : (s.setThread i t).thread i = t :=
  Function.update_self ..

theorem setThread_ne {i j : Fin n} (h : j ≠ i) (t : Thread) : (s.setThread i t).thread j = s.thread j :=
  Function.update_of_ne h ..

theorem all_waiting_iff (i : Fin n) (t : Thread) (ht : t.pc = .waiting) :
    (∀ j, ((s.setThread i t).thread j).pc = .waiting) ↔ ∀ j ≠ i, (s.thread j).pc = .waiting := by
  constructor
  · intro h j hj
    rw [← setThread_ne hj t]
    exact h j
  · intro h j
    rcases eq_or_ne j i with rfl | hj
    · rw [setThread_self, ht]
    · rw [setThread_ne hj]
      exact h j hj

theorem step_cases {a : Action n} (hmode : c.numberTempSteps = -1) (h : step c s a = some s') :
    Move c s a s' := by
  cases a with
  | keepGoing i =>
    simp only [step] at h
    split at h
    · rename_i hpc
      obtain rfl := Option.some.inj h
      rw [keepGoing, if_pos hmode]
      by_cases hrv : s.keepGoingGlobalFlag = true ∧ (s.thread i).Improved
      · have : (s.keepGoingGlobalFlag &&
            decide ((s.thread i).acceptedBadMoves < (s.thread i).acceptedGoodMoves)) = true := by
          rw [Bool.and_eq_true, decide_eq_true_eq]
          exact hrv
        simp only [this, if_true]
        exact .goOn i hpc hrv.1 hrv.2
      · have : (s.keepGoingGlobalFlag &&
            decide ((s.thread i).acceptedBadMoves < (s.thread i).acceptedGoodMoves)) = false := by
          rw [Bool.eq_false_iff, ne_eq, Bool.and_eq_true, decide_eq_true_eq]
          exact hrv
        simp only [this, Bool.false_eq_true, if_false]
        exact .decline i hpc hrv
    · cases h
  | signal i =>
    simp only [step] at h
    split at h
    · obtain rfl := Option.some.inj h
      exact .signal i ‹_›
    · cases h
  | moves i decisions =>
    simp only [step] at h
    split at h
    · rename_i hpc
      obtain rfl := Option.some.inj h
      exact .moves i decisions _ hpc.1 rfl
    · cases h
  | barrier i =>
    simp only [step] at h
    split at h
    · rename_i hpc
      rw [if_congr (all_waiting_iff i _ rfl) rfl rfl] at h
      split at h
      · obtain rfl := Option.some.inj h
        exact .release i hpc ‹_› _ fun _ => rfl
      · rename_i hall
        obtain rfl := Option.some.inj h
        push Not at hall
        exact .wait i hpc hall
    · cases h

/-! ### Runs in which the threads agree -/

/-- No thread goes on while another one stops, and those that have yet to decide will go on too. -/
structure Together (s : State n) : Prop where
  apart : ∀ i j, (s.thread i).On → ¬(s.thread j).Off
  agreed : ∀ i j, (s.thread i).On → (s.thread j).pc = .keepGoing → (s.thread j).Improved
  cleared : s.keepGoingGlobalFlag = false → ∃ j, (s.thread j).Off

theorem together_new : Together (State.new n) where
  apart i j h := by rcases h with h | h | h <;> cases h
  agreed i j h := by rcases h with h | h | h <;> cases h
  cleared h := by cases h

/-- A thread that is on stays on. -/
theorem Together.stays {i : Fin n} {t : Thread} (h : Together s) (hi : (s.thread i).On) (ht : t.On) :
    Together (s.setThread i t) := by
  have hon : ∀ k, ((s.setThread i t).thread k).On → (s.thread k).On := by
    intro k hk
    rcases eq_or_ne k i with rfl | hne
    · exact hi
    · rwa [setThread_ne hne] at hk
  refine ⟨fun j k hj hk => ?_, fun j k hj hk => ?_, fun hflag => ?_⟩
  · rcases eq_or_ne k i with rfl | hne
    · rw [setThread_self] at hk
      rcases ht with ht | ht | ht <;> rcases hk with hk | hk <;> rw [ht] at hk <;> cases hk
    · rw [setThread_ne hne] at hk
      exact h.apart j k (hon j hj) hk
  · rcases eq_or_ne k i with rfl | hne
    · rw [setThread_self] at hk
      rcases ht with ht | ht | ht <;> rw [ht] at hk <;> cases hk
    · rw [setThread_ne hne] at hk ⊢
      exact h.agreed j k (hon j hj) hk
  · -- some thread is on, so none has cleared the flag
    obtain ⟨k, hk⟩ := h.cleared hflag
    exact absurd hk (h.apart i k hi)

theorem together_step {a : Action n} (hmode : c.numberTempSteps = -1) (h : Together s) (hg : Agrees s a)
    (hs : step c s a = some s') : Together s' := by
  cases step_cases hmode hs with
  | goOn i hpc hflag hgood =>
    have hall := hg hflag hgood
    refine ⟨fun j k _ hk => ?_, fun j k _ hk => ?_, fun hf => ?_⟩
    · rcases eq_or_ne k i with rfl | hne
      · rw [setThread_self] at hk
        rcases hk with hk | hk <;> cases hk
      · rw [setThread_ne hne] at hk
        exact (hall k).1 hk
    · rcases eq_or_ne k i with rfl | hne
      · rw [setThread_self] at hk
        cases hk
      · rw [setThread_ne hne] at hk ⊢
        exact (hall k).2 hk
    · rw [State.setThread, hflag] at hf
      cases hf
  | decline i hpc hstop =>
    -- no thread is on: it would have seen the flag and the counters of this one
    have hoff : ∀ k, ¬(s.thread k).On := by
      intro k hk
      refine hstop ⟨?_, h.agreed k i hk hpc⟩
      by_contra hflag
      obtain ⟨j, hj⟩ := h.cleared (Bool.eq_false_iff.mpr hflag)
      exact h.apart k j hk hj
    have hoff' : ∀ k, ¬((s.setThread i { s.thread i with pc := .signal }).thread k).On := by
      intro k hk
      rcases eq_or_ne k i with rfl | hne
      · rw [setThread_self] at hk
        rcases hk with hk | hk | hk <;> cases hk
      · rw [setThread_ne hne] at hk
        exact hoff k hk
    refine ⟨fun j k hj => absurd hj (hoff' j), fun j k hj => absurd hj (hoff' j), fun _ => ⟨i, ?_⟩⟩
    rw [setThread_self]
    exact .inl rfl
  | signal i hpc =>
    have hoff : ∀ k, ¬((s.setThread i { s.thread i with pc := .returned }).thread k).On := by
      intro k hk
      rcases eq_or_ne k i with rfl | hne
      · rw [setThread_self] at hk
        rcases hk with hk | hk | hk <;> cases hk
      · rw [setThread_ne hne] at hk
        exact h.apart k i hk (.inl hpc)
    refine ⟨fun j k hj => absurd hj (hoff j), fun j k hj => absurd hj (hoff j), fun _ => ⟨i, .inr ?_⟩⟩
    exact congrArg Thread.pc (setThread_self i _)
  | moves i decisions t hpc ht => exact h.stays (.inl hpc) (.inr (.inl ht))
  | wait i hpc hsome => exact h.stays (.inr (.inl hpc)) (.inr (.inr rfl))
  | release i hpc hall t ht =>
    have hoff : ∀ k, ¬(t k).On := by
      intro k hk
      rcases hk with hk | hk | hk <;> rw [ht k] at hk <;> cases hk
    refine ⟨fun j k hj => absurd hj (hoff j), fun j k hj => absurd hj (hoff j), fun hflag => ?_⟩
    obtain ⟨k, hk⟩ := h.cleared hflag
    exact absurd hk (h.apart i k (.inr (.inl hpc)))

/-! ### Runs in which they do not -/

/-- The thread has stopped, or it will whatever it reads. -/
def Thread.Stops (t : Thread) : Prop := t.Off ∨ t.pc = .keepGoing ∧ ¬t.Improved

/-- A thread has gone on, and another one stops. -/
def Doomed (s : State n) : Prop := ∃ i j, (s.thread i).On ∧ (s.thread j).Stops

theorem Thread.On.not_stops {t : Thread} (h : t.On) : ¬t.Stops := by
  rintro ((hs | hs) | ⟨hs, -⟩) <;> rcases h with h | h | h <;> rw [h] at hs <;> cases hs

theorem doomed_setThread {i j k : Fin n} {t : Thread} (hi : (s.thread i).On) (hj : (s.thread j).Stops)
    (hon : (s.thread k).On → t.On) (hstops : (s.thread k).Stops → t.Stops) : Doomed (s.setThread k t) := by
  refine ⟨i, j, ?_, ?_⟩
  · rcases eq_or_ne i k with rfl | hne
    · rw [setThread_self]
      exact hon hi
    · rwa [setThread_ne hne]
  · rcases eq_or_ne j k with rfl | hne
    · rw [setThread_self]
      exact hstops hj
    · rwa [setThread_ne hne]

/-- The barrier never opens again. -/
theorem doomed_step {a : Action n} (hmode : c.numberTempSteps = -1) (h : Doomed s)
    (hs : step c s a = some s') : Doomed s' := by
  obtain ⟨i, j, hi, hj⟩ := h
  have hpcOn : ∀ {k pc}, (s.thread k).pc = pc → pc = .keepGoing ∨ pc = .signal → ¬(s.thread k).On := by
    rintro k pc hk (rfl | rfl) (h | h | h) <;> rw [hk] at h <;> cases h
  cases step_cases hmode hs with
  | goOn k hpc hflag hgood =>
    refine doomed_setThread hi hj (fun hk => absurd hk (hpcOn hpc (.inl rfl))) fun hk => ?_
    rcases hk with (hk | hk) | ⟨-, hk⟩
    · rw [hpc] at hk
      cases hk
    · rw [hpc] at hk
      cases hk
    · exact absurd hgood hk
  | decline k hpc hstop =>
    exact doomed_setThread hi hj (fun hk => absurd hk (hpcOn hpc (.inl rfl))) fun _ => .inl (.inl rfl)
  | signal k hpc =>
    have hdoomed : Doomed (s.setThread k { s.thread k with pc := .returned }) :=
      doomed_setThread hi hj (fun hk => absurd hk (hpcOn hpc (.inr rfl))) fun _ => .inl (.inr rfl)
    exact hdoomed
  | moves k decisions t hpc ht =>
    exact doomed_setThread hi hj (fun _ => .inr (.inl ht))
      fun hk => absurd hk (Thread.On.not_stops (.inl hpc))
  | wait k hpc hsome =>
    exact doomed_setThread hi hj (fun _ => .inr (.inr rfl))
      fun hk => absurd hk (Thread.On.not_stops (.inr (.inl hpc)))
  | release k hpc hall t ht =>
    -- the one that stops does not wait
    rcases eq_or_ne j k with rfl | hne
    · exact absurd hj (Thread.On.not_stops (.inr (.inl hpc)))
    · exact absurd hj (Thread.On.not_stops (.inr (.inr (hall j hne))))

theorem doomed_of_not_agrees {a : Action n} (hmode : c.numberTempSteps = -1) (hg : ¬Agrees s a)
    (hs : step c s a = some s') : Doomed s' := by
  cases a with
  | keepGoing i =>
    simp only [Agrees, not_forall] at hg
    obtain ⟨hflag, hgood, j, hj⟩ := hg
    have hstops : (s.thread j).Stops := by
      by_contra hno
      refine hj ⟨fun hoff => hno (.inl hoff), fun hpc => ?_⟩
      by_contra himp
      exact hno (.inr ⟨hpc, himp⟩)
    cases step_cases hmode hs with
    | goOn _ hpc _ _ =>
      have hne : j ≠ i := by
        rintro rfl
        rcases hstops with (h | h) | ⟨-, h⟩
        · rw [hpc] at h
          cases h
        · rw [hpc] at h
          cases h
        · exact h hgood
      refine ⟨i, j, ?_, ?_⟩
      · rw [setThread_self]
        exact .inl rfl
      · rwa [setThread_ne hne]
    | decline _ hpc hstop => exact absurd ⟨hflag, hgood⟩ hstop
  | signal i => exact absurd trivial hg
  | moves i decisions => exact absurd trivial hg
  | barrier i => exact absurd trivial hg

/-- A thread that stops can return. -/
theorem exists_returned {j : Fin n} (hmode : c.numberTempSteps = -1) (h : (s.thread j).Stops) :
    ∃ as t, exec (step c) s as = some t ∧ (t.thread j).pc = .returned ∧
      ∀ k ≠ j, t.thread k = s.thread k := by
  have hsignal : ∀ s : State n, (s.thread j).pc = .signal →
      ∃ t, exec (step c) s [.signal j] = some t ∧ (t.thread j).pc = .returned ∧
        ∀ k ≠ j, t.thread k = s.thread k := by
    intro s hpc
    refine ⟨{ s.stop c j with keepGoingGlobalFlag := false }, ?_, ?_, fun k hk => setThread_ne hk _⟩
    · simp only [exec, step, if_pos hpc, Option.bind_some]
    · exact congrArg Thread.pc (setThread_self j _)
  rcases h with (hpc | hpc) | ⟨hpc, himp⟩
  · obtain ⟨t, ht⟩ := hsignal s hpc
    exact ⟨_, t, ht⟩
  · exact ⟨[], s, rfl, hpc, fun _ _ => rfl⟩
  · have hstep : step c s (.keepGoing j) = some (s.setThread j { s.thread j with pc := .signal }) := by
      have hrv : decide ((s.thread j).acceptedBadMoves < (s.thread j).acceptedGoodMoves) = false :=
        decide_eq_false himp
      simp only [step, if_pos hpc, keepGoing, if_pos hmode, hrv, Bool.and_false, Bool.false_eq_true, if_false]
    obtain ⟨t, ht, hret, hother⟩ := hsignal (s.setThread j { s.thread j with pc := .signal })
      (congrArg Thread.pc (setThread_self j _))
    refine ⟨[.keepGoing j, .signal j], t, exec_cons_eq_some.mpr ⟨_, hstep, ht⟩, hret, fun k hk => ?_⟩
    rw [hother k hk, setThread_ne hk]

/-- A thread that has gone on can come to the barrier, where it waits when another one has returned. -/
theorem exists_waiting {i j : Fin n} (hi : (s.thread i).On) (hj : (s.thread j).pc = .returned) :
    ∃ as t, exec (step c) s as = some t ∧ LeftBehind t := by
  have hne : j ≠ i := by
    rintro rfl
    exact hi.not_stops (.inl (.inr hj))
  have hbarrier : ∀ s : State n, (s.thread i).pc = .barrier → (s.thread j).pc = .returned →
      ∃ t, exec (step c) s [.barrier i] = some t ∧ LeftBehind t := by
    intro s hpc hj
    have hall : ¬∀ k, ((s.setThread i { s.thread i with pc := .waiting }).thread k).pc = .waiting := by
      rw [all_waiting_iff i _ rfl]
      intro h
      have := h j hne
      rw [hj] at this
      cases this
    refine ⟨s.setThread i { s.thread i with pc := .waiting }, ?_, i, j, ?_, ?_⟩
    · simp only [exec, step, if_pos hpc, if_neg hall, Option.bind_some]
    · rw [setThread_self]
    · rwa [setThread_ne hne]
  rcases hi with hpc | hpc | hpc
  · let decisions := List.replicate c.movesPerThreadTemp MoveDecision.rejected
    have hstep : step c s (.moves i decisions) = some (s.setThread i ((s.thread i).makeMoves decisions)) :=
      if_pos ⟨hpc, List.length_replicate ..⟩
    obtain ⟨t, ht, hleft⟩ := hbarrier (s.setThread i ((s.thread i).makeMoves decisions))
      (by rw [setThread_self]; rfl) (by rwa [setThread_ne hne])
    exact ⟨_, t, exec_cons_eq_some.mpr ⟨_, hstep, ht⟩, hleft⟩
  · obtain ⟨t, ht⟩ := hbarrier s hpc hj
    exact ⟨_, t, ht⟩
  · exact ⟨[], s, rfl, i, j, hpc, hj⟩

theorem exists_leftBehind (hmode : c.numberTempSteps = -1) (h : Doomed s) :
    ∃ as t, exec (step c) s as = some t ∧ LeftBehind t := by
  obtain ⟨i, j, hi, hj⟩ := h
  have hne : i ≠ j := by
    rintro rfl
    exact hi.not_stops hj
  obtain ⟨as, t, ht, hret, hother⟩ := exists_returned hmode hj
  rw [← hother i hne] at hi
  obtain ⟨bs, u, hu, hleft⟩ := exists_waiting hi hret
  refine ⟨as ++ bs, u, ?_, hleft⟩
  rw [exec_append, ht]
  exact hu

/-- CORRECT: in a run in which no thread goes on unless all of them do, no thread waits at the barrier
    while another one has returned. Every other run can be continued to such a state. -/
theorem threads_leave_together (c : Config) (hmode : c.numberTempSteps = -1) (n : ℕ) (as : List (Action n))
    (s : State n) (hs : exec (step c) (State.new n) as = some s) :
    (Meets (step c) Agrees (State.new n) as → ¬LeftBehind s) ∧
    (¬Meets (step c) Agrees (State.new n) as → ∃ bs t, exec (step c) s bs = some t ∧ LeftBehind t) := by
  constructor
  · rintro hmeets ⟨i, j, hi, hj⟩
    have h : Together s :=
      exec_inv_of_meets (fun _ _ _ h hg hs => together_step hmode h hg hs) together_new hmeets hs
    exact h.apart i j (.inr (.inr hi)) (.inr hj)
  · intro hmeets
    refine exists_leftBehind hmode ?_
    exact exec_of_not_meets (fun _ _ _ hg hs => doomed_of_not_agrees hmode hg hs)
      (fun _ _ _ h hs => doomed_step hmode h hs) hmeets hs

instance (t : Thread) : Decidable t.Off := inferInstanceAs (Decidable (_ ∨ _))

instance (t : Thread) : Decidable t.Improved := inferInstanceAs (Decidable (_ < _))

instance (s : State n) : DecidablePred (Agrees s)
  | .keepGoing _ => inferInstanceAs (Decidable (_ → _ → ∀ _, _ ∧ (_ → _)))
  | .signal _ => .isTrue trivial
  | .moves _ _ => .isTrue trivial
  | .barrier _ => .isTrue trivial

instance (s : State n) : Decidable (LeftBehind s) := inferInstanceAs (Decidable (∃ _ _, _ ∧ _))

/-- Two threads that go on once and stop together. -/
theorem threads_leave_together_two :
    let c : Config := ⟨.turkey, 1, -1⟩
    let round (d : MoveDecision) : List (Action 2) := [.keepGoing 0, .keepGoing 1, .moves 0 [d], .moves 1 [d],
      .barrier 0, .barrier 1]
    let as := round .acceptedGood ++ round .rejected ++ [.keepGoing 0, .keepGoing 1, .signal 1, .signal 0]
    ∃ s, exec (step c) (State.new 2) as = some s ∧ (∀ i, (s.thread i).pc = .returned) ∧ ¬LeftBehind s := by
  intro c round as
  obtain ⟨s, hs, hret⟩ : ∃ s ∈ exec (step c) (State.new 2) as, ∀ i, (s.thread i).pc = .returned := by
    decide +kernel +revert
  have hmeets : Meets (step c) Agrees (State.new 2) as := by decide +kernel +revert
  exact ⟨s, hs, hret, (threads_leave_together c rfl 2 as s hs).1 hmeets⟩

/-- Behind the same barrier one thread reads the flag before the other one clears it, in both versions. -/
theorem thread_left_behind :
    let as : List (Action 2) := [.keepGoing 0, .keepGoing 1, .moves 0 [.acceptedGood], .moves 1 [.rejected],
      .barrier 0, .barrier 1, .keepGoing 0, .keepGoing 1, .signal 1, .moves 0 [.acceptedGood], .barrier 0]
    (∃ s, exec (step ⟨.pthread, 1, -1⟩) (State.new 2) as = some s ∧ LeftBehind s) ∧
      ∃ s, exec (step ⟨.turkey, 1, -1⟩) (State.new 2) as = some s ∧ LeftBehind s := by
  intro as
  constructor
  · change ∃ s ∈ exec (step ⟨.pthread, 1, -1⟩) (State.new 2) as, LeftBehind s
    decide +kernel +revert
  · change ∃ s ∈ exec (step ⟨.turkey, 1, -1⟩) (State.new 2) as, LeftBehind s
    decide +kernel +revert

end Turkey.Annealer
