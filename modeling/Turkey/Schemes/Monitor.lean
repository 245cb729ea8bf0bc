import Mathlib.Logic.Function.Basic
import Mathlib.Data.Fin.Basic
import Turkey.Schemes.Run

/-! Threads that share a memory, a mutex, a condition variable and a barrier.

    A program says for every place in the code of a thread what the thread does there, and every operation is a step.
    A thread that sleeps on the condition variable may also wake up when nobody has called it. The barrier only
    counts: the threads that wait at it may be in different places of their code. -/

namespace Turkey.Monitor

/-- What a thread does, and where it goes. -/
inductive Op (σ P : Type) where
  | access (f : σ → σ × P)
  | lock (p : P)
  | unlock (p : P)
  | wait (p : P)
  | broadcast (p : P)
  | barrier (p : P)
  | stop

/-- A thread sleeps until it is woken, and then it needs the mutex before it can run again. -/
inductive Mode where
  | running
  | asleep
  | woken
  | arrived
  deriving DecidableEq

/-- Where a thread is. -/
structure Thread (P : Type) where
  pc : P
  mode : Mode

/-- `waits` counts how often a thread has come to the barrier. -/
structure Sys (n : ℕ) (σ P : Type) where
  mem : σ
  thread : Fin n → Thread P
  holder : Option (Fin n)
  waits : Fin n → ℕ

/-- A thread runs, or wakes up for no reason, or the barrier lets all threads go. -/
inductive Act (n : ℕ) where
  | run (t : Fin n)
  | wake (t : Fin n)
  | release
  deriving DecidableEq

variable {n : ℕ} {σ P : Type}

/-- What a broadcast does to a thread. -/
def Thread.wake (x : Thread P) : Thread P := if x.mode = .asleep then ⟨x.pc, .woken⟩ else x

/-- Where a thread goes from the barrier. -/
def Op.past (p : P) : Op σ P → P
  | .barrier p' => p'
  | _ => p

/-- The thread is the next to run from `p`. -/
def Sys.goto (s : Sys n σ P) (t : Fin n) (p : P) : Sys n σ P :=
  { s with thread := Function.update s.thread t ⟨p, .running⟩ }

variable (op : Fin n → P → Op σ P)

/-- One step; `none` when it cannot be taken. -/
def step (s : Sys n σ P) : Act n → Option (Sys n σ P)
  | .run t =>
    match (s.thread t).mode, op t (s.thread t).pc with
    | .running, .access f => some (Sys.goto { s with mem := (f s.mem).1 } t (f s.mem).2)
    | .running, .lock p => if s.holder = none then some (Sys.goto { s with holder := some t } t p) else none
    | .running, .unlock p => some (Sys.goto { s with holder := none } t p)
    | .running, .wait p => some { s with
        thread := Function.update s.thread t ⟨p, .asleep⟩
        holder := none }
    | .running, .broadcast p => some (Sys.goto { s with thread := fun u => (s.thread u).wake } t p)
    | .running, .barrier _ => some { s with
        thread := Function.update s.thread t ⟨(s.thread t).pc, .arrived⟩
        waits := Function.update s.waits t (s.waits t + 1) }
    | .woken, _ => if s.holder = none then some (Sys.goto { s with holder := some t } t (s.thread t).pc) else none
    | _, _ => none
  | .wake t =>
    if (s.thread t).mode = .asleep then some { s with thread := Function.update s.thread t ⟨(s.thread t).pc, .woken⟩ }
    else none
  | .release =>
    if ∀ t, (s.thread t).mode = .arrived then
      some { s with thread := fun t => ⟨(op t (s.thread t).pc).past (s.thread t).pc, .running⟩ }
    else none

/-- The steps of thread `t`, case by case. -/
inductive Moves (s : Sys n σ P) (t : Fin n) : Sys n σ P → Prop where
  | access (f : σ → σ × P) : (s.thread t).mode = .running → op t (s.thread t).pc = .access f →
      Moves s t (Sys.goto { s with mem := (f s.mem).1 } t (f s.mem).2)
  | lock (p : P) : (s.thread t).mode = .running → op t (s.thread t).pc = .lock p → s.holder = none →
      Moves s t (Sys.goto { s with holder := some t } t p)
  | unlock (p : P) : (s.thread t).mode = .running → op t (s.thread t).pc = .unlock p →
      Moves s t (Sys.goto { s with holder := none } t p)
  | wait (p : P) : (s.thread t).mode = .running → op t (s.thread t).pc = .wait p →
      Moves s t { s with thread := Function.update s.thread t ⟨p, .asleep⟩, holder := none }
  | broadcast (p : P) : (s.thread t).mode = .running → op t (s.thread t).pc = .broadcast p →
      Moves s t (Sys.goto { s with thread := fun u => (s.thread u).wake } t p)
  | barrier (p : P) : (s.thread t).mode = .running → op t (s.thread t).pc = .barrier p →
      Moves s t { s with
        thread := Function.update s.thread t ⟨(s.thread t).pc, .arrived⟩
        waits := Function.update s.waits t (s.waits t + 1) }
  | woken : (s.thread t).mode = .woken → s.holder = none →
      Moves s t (Sys.goto { s with holder := some t } t (s.thread t).pc)

variable {op} {s s' : Sys n σ P}

theorem moves_of_step {t : Fin n} (h : step op s (.run t) = some s') : Moves op s t s' := by
  rw [step] at h
  cases hmode : (s.thread t).mode with
  | running =>
    cases hop : op t (s.thread t).pc with
    | access f =>
      simp only [hmode, hop, Option.some.injEq] at h
      exact h ▸ .access f hmode hop
    | lock p =>
      simp only [hmode, hop, Option.ite_none_right_eq_some, Option.some.injEq] at h
      exact h.2 ▸ .lock p hmode hop h.1
    | unlock p =>
      simp only [hmode, hop, Option.some.injEq] at h
      exact h ▸ .unlock p hmode hop
    | wait p =>
      simp only [hmode, hop, Option.some.injEq] at h
      exact h ▸ .wait p hmode hop
    | broadcast p =>
      simp only [hmode, hop, Option.some.injEq] at h
      exact h ▸ .broadcast p hmode hop
    | barrier p =>
      simp only [hmode, hop, Option.some.injEq] at h
      exact h ▸ .barrier p hmode hop
    | stop => simp [hmode, hop] at h
  | asleep => simp [hmode] at h
  | woken =>
    simp only [hmode, Option.ite_none_right_eq_some, Option.some.injEq] at h
    exact h.2 ▸ .woken hmode h.1
  | arrived => simp [hmode] at h

/-! ### The mutex -/

/-- With respect to the places at which a thread has the mutex, an operation is in order. -/
def Op.Keeps (holds : P → Bool) (p : P) : Op σ P → Prop
  | .access f => ∀ m, holds (f m).2 = holds p
  | .lock p' => holds p = false ∧ holds p' = true
  | .unlock p' => holds p = true ∧ holds p' = false
  | .wait p' => holds p = true ∧ holds p' = true
  | .broadcast p' => holds p' = holds p
  | .barrier p' => holds p = false ∧ holds p' = false
  | .stop => holds p = false

/-- Invariant of the operations: who has the mutex, and where the threads are that wait. -/
structure Sound (op : Fin n → P → Op σ P) (holds : P → Bool) (s : Sys n σ P) : Prop where
  holder : ∀ t, s.holder = some t ↔ (s.thread t).mode = .running ∧ holds (s.thread t).pc = true
  waiting : ∀ t, (s.thread t).mode = .asleep ∨ (s.thread t).mode = .woken → ∃ p, op t p = .wait (s.thread t).pc
  arrived : ∀ t, (s.thread t).mode = .arrived → ∃ p, op t (s.thread t).pc = .barrier p

variable {holds : P → Bool}

/-- A step that leaves the other threads as they are. -/
theorem Sound.update (h : Sound op holds s) {t : Fin n} {x : Thread P} {holder : Option (Fin n)} {mem : σ}
    {waits : Fin n → ℕ} (hself : holder = some t ↔ x.mode = .running ∧ holds x.pc = true)
    (hothers : ∀ u ≠ t, holder = some u ↔ s.holder = some u)
    (hwaiting : x.mode = .asleep ∨ x.mode = .woken → ∃ p, op t p = .wait x.pc)
    (harrived : x.mode = .arrived → ∃ p, op t x.pc = .barrier p) :
    Sound op holds ⟨mem, Function.update s.thread t x, holder, waits⟩ := by
  refine ⟨fun u => ?_, fun u => ?_, fun u => ?_⟩ <;> dsimp only <;> rcases eq_or_ne u t with rfl | hne
  · rw [Function.update_self]
    exact hself
  · rw [Function.update_of_ne hne, hothers u hne]
    exact h.holder u
  · rw [Function.update_self]
    exact hwaiting
  · rw [Function.update_of_ne hne]
    exact h.waiting u
  · rw [Function.update_self]
    exact harrived
  · rw [Function.update_of_ne hne]
    exact h.arrived u

/-- Calling the others changes nothing about the mutex. -/
theorem Sound.broadcast (h : Sound op holds s) : Sound op holds { s with thread := fun u => (s.thread u).wake } := by
  refine ⟨fun u => (h.holder u).trans ?_, fun u hu => ?_, fun u hu => ?_⟩ <;> dsimp only [Thread.wake] at *
  · split_ifs with hasleep
    · simp [hasleep]
    · exact Iff.rfl
  · split_ifs at hu ⊢ with hasleep
    · exact h.waiting u (.inl hasleep)
    · exact h.waiting u hu
  · split_ifs at hu ⊢ with hasleep
    exact h.arrived u hu

theorem Sound.moves (h : Sound op holds s) (hop : ∀ t p, (op t p).Keeps holds p) {t : Fin n} (hs : Moves op s t s') :
    Sound op holds s' := by
  have hkeeps := hop t (s.thread t).pc
  have hfree : s.holder = none → ∀ u, s.holder ≠ some u := fun hnone u hu => by simp [hnone] at hu
  cases hs with
  | access f hmode haccess =>
    rw [haccess] at hkeeps
    refine h.update ?_ (fun _ _ => Iff.rfl) (by simp) (by simp)
    rw [h.holder, hkeeps, hmode]
  | lock p hmode hlock hnone =>
    rw [hlock] at hkeeps
    refine h.update (by simp [hkeeps.2]) (fun u hne => ?_) (by simp) (by simp)
    simp [hnone, hne.symm]
  | unlock p hmode hunlock =>
    rw [hunlock] at hkeeps
    have hheld : s.holder = some t := (h.holder t).2 ⟨hmode, hkeeps.1⟩
    refine h.update (by simp [hkeeps.2]) (fun u hne => ?_) (by simp) (by simp)
    simp [hheld, hne.symm]
  | wait p hmode hwait =>
    rw [hwait] at hkeeps
    have hheld : s.holder = some t := (h.holder t).2 ⟨hmode, hkeeps.1⟩
    refine h.update (by simp) (fun u hne => ?_) (fun _ => ⟨_, hwait⟩) (by simp)
    simp [hheld, hne.symm]
  | broadcast p hmode hbroadcast =>
    rw [hbroadcast] at hkeeps
    refine h.broadcast.update ?_ (fun _ _ => Iff.rfl) (by simp) (by simp)
    rw [h.holder, hkeeps, hmode]
  | barrier p hmode hbarrier =>
    rw [hbarrier] at hkeeps
    refine h.update ?_ (fun _ _ => Iff.rfl) (by simp) (fun _ => ⟨p, hbarrier⟩)
    have hnot : s.holder ≠ some t := fun hheld => by
      have hheld := ((h.holder t).1 hheld).2
      simp [hkeeps.1] at hheld
    simp [hnot]
  | woken hmode hnone =>
    obtain ⟨q, hq⟩ := h.waiting t (.inr hmode)
    have hkeeps := hop t q
    rw [hq] at hkeeps
    refine h.update (by simp [hkeeps.2]) (fun u hne => ?_) (by simp) (by simp)
    simp [hnone, hne.symm]

theorem Sound.step (h : Sound op holds s) (hop : ∀ t p, (op t p).Keeps holds p) {a : Act n}
    (hs : step op s a = some s') : Sound op holds s' := by
  cases a with
  | run t => exact h.moves hop (moves_of_step hs)
  | wake t =>
    simp only [Monitor.step, Option.ite_none_right_eq_some, Option.some.injEq] at hs
    obtain ⟨hmode, rfl⟩ := hs
    refine h.update ?_ (fun _ _ => Iff.rfl) (fun _ => h.waiting t (.inl hmode)) (by simp)
    simp [h.holder, hmode]
  | release =>
    simp only [Monitor.step, Option.ite_none_right_eq_some, Option.some.injEq] at hs
    obtain ⟨hall, rfl⟩ := hs
    refine ⟨fun t => ?_, by simp, by simp⟩
    obtain ⟨p, hp⟩ := h.arrived t (hall t)
    have hkeeps := hop t (s.thread t).pc
    rw [hp] at hkeeps
    simp [h.holder, hall t, hp, Op.past, hkeeps.2]

/-- When no thread can run, all of them sleep, wait at the barrier or have come to their end. -/
theorem Sound.stuck (h : Sound op holds s) (hop : ∀ t p, (op t p).Keeps holds p)
    (hstuck : ∀ t, Monitor.step op s (.run t) = none) (t : Fin n) : (s.thread t).mode = .asleep ∨
      (s.thread t).mode = .arrived ∨ (s.thread t).mode = .running ∧ op t (s.thread t).pc = .stop := by
  have hfree : s.holder = none := by
    rw [Option.eq_none_iff_forall_ne_some]
    intro u hu
    obtain ⟨hmode, hheld⟩ := (h.holder u).1 hu
    have hrun := hstuck u
    have hkeeps := hop u (s.thread u).pc
    rw [Monitor.step, hmode] at hrun
    cases hp : op u (s.thread u).pc with
    | lock p => simp [hp, Op.Keeps, hheld] at hkeeps
    | stop => simp [hp, Op.Keeps, hheld] at hkeeps
    | _ => simp [hp] at hrun
  have hrun := hstuck t
  rw [Monitor.step] at hrun
  cases hmode : (s.thread t).mode with
  | running =>
    refine .inr (.inr ⟨rfl, ?_⟩)
    cases hp : op t (s.thread t).pc with
    | stop => rfl
    | _ => simp [hmode, hp, hfree] at hrun
  | asleep => exact .inl rfl
  | woken => simp [hmode, hfree] at hrun
  | arrived => exact .inr (.inl rfl)

end Turkey.Monitor
