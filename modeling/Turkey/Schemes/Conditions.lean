import Mathlib.Data.Fintype.Basic
import Turkey.Schemes.Run

/-! Threads that share a memory, one mutex and some condition variables.

    A program says for every place in the code of a thread what the thread does there, and every operation is a step.
    What a thread does between two of the others may be one `access`. `signal` wakes one of the threads that sleep on
    the variable, whichever that is, and does nothing when there is none. A thread may also wake up when nobody has
    called it. -/

namespace Turkey.Conditions

/-- What a thread does, and where it goes. -/
inductive Op (σ P κ : Type*) where
  | access (f : σ → σ × P)
  | lock (p : P)
  | unlock (p : P)
  | wait (c : κ) (p : P)
  | signal (c : κ) (p : P)
  | broadcast (c : κ) (p : P)
  | stop

/-- A thread sleeps on a variable until it is woken, and then it needs the mutex before it can run again. -/
inductive Mode (κ : Type*) where
  | running
  | asleep (c : κ)
  | woken
  deriving DecidableEq

/-- Where a thread is. -/
@[ext] structure Thread (P κ : Type*) where
  pc : P
  mode : Mode κ

/-- The memory, the threads, and who has the mutex. -/
structure Sys (ι σ P κ : Type*) where
  mem : σ
  thread : ι → Thread P κ
  holder : Option ι

/-- A thread runs, or it signals and wakes this thread, or a thread wakes up for no reason. -/
inductive Act (ι : Type*) where
  | run (t : ι)
  | call (t u : ι)
  | wake (t : ι)
  deriving DecidableEq

/-- A step that is not a spurious wake-up. -/
def Act.Regular {ι : Type*} : Act ι → Prop
  | .wake _ => False
  | _ => True

variable {ι σ P κ : Type*} [DecidableEq ι] [DecidableEq κ]

/-- What a broadcast on `c` does to a thread. -/
def Thread.wake (c : κ) (x : Thread P κ) : Thread P κ := if x.mode = .asleep c then ⟨x.pc, .woken⟩ else x

namespace Sys

omit [DecidableEq κ] in
/-- The thread is the next to run from `p`. -/
def goto (s : Sys ι σ P κ) (t : ι) (p : P) : Sys ι σ P κ :=
  { s with thread := Function.update s.thread t ⟨p, .running⟩ }

omit [DecidableEq κ] in
/-- The thread is woken. -/
def rouse (s : Sys ι σ P κ) (t : ι) : Sys ι σ P κ :=
  { s with thread := Function.update s.thread t ⟨(s.thread t).pc, .woken⟩ }

end Sys

variable [Fintype ι] (op : P → Op σ P κ)

/-- One step; `none` when it cannot be taken. -/
def step (s : Sys ι σ P κ) : Act ι → Option (Sys ι σ P κ)
  | .run t =>
    match (s.thread t).mode, op (s.thread t).pc with
    | .running, .access f => some (Sys.goto { s with mem := (f s.mem).1 } t (f s.mem).2)
    | .running, .lock p => if s.holder = none then some (Sys.goto { s with holder := some t } t p) else none
    | .running, .unlock p => some (Sys.goto { s with holder := none } t p)
    | .running, .wait c p => some { s with
        thread := Function.update s.thread t ⟨p, .asleep c⟩
        holder := none }
    | .running, .signal c p => if ∀ u, (s.thread u).mode ≠ .asleep c then some (s.goto t p) else none
    | .running, .broadcast c p => some (Sys.goto { s with thread := fun u => (s.thread u).wake c } t p)
    | .woken, _ => if s.holder = none then some (Sys.goto { s with holder := some t } t (s.thread t).pc) else none
    | _, _ => none
  | .call t u =>
    match (s.thread t).mode, op (s.thread t).pc with
    | .running, .signal c p => if (s.thread u).mode = .asleep c then some ((s.rouse u).goto t p) else none
    | _, _ => none
  | .wake t =>
    match (s.thread t).mode with
    | .asleep _ => some (s.rouse t)
    | _ => none

/-- The steps that are not spurious wake-ups, case by case. -/
inductive Moves (s : Sys ι σ P κ) : Sys ι σ P κ → Prop where
  | access (t : ι) (f : σ → σ × P) : (s.thread t).mode = .running → op (s.thread t).pc = .access f →
      Moves s (Sys.goto { s with mem := (f s.mem).1 } t (f s.mem).2)
  | lock (t : ι) (p : P) : (s.thread t).mode = .running → op (s.thread t).pc = .lock p → s.holder = none →
      Moves s (Sys.goto { s with holder := some t } t p)
  | unlock (t : ι) (p : P) : (s.thread t).mode = .running → op (s.thread t).pc = .unlock p →
      Moves s (Sys.goto { s with holder := none } t p)
  | wait (t : ι) (c : κ) (p : P) : (s.thread t).mode = .running → op (s.thread t).pc = .wait c p →
      Moves s { s with thread := Function.update s.thread t ⟨p, .asleep c⟩, holder := none }
  | signalNone (t : ι) (c : κ) (p : P) : (s.thread t).mode = .running → op (s.thread t).pc = .signal c p →
      (∀ u, (s.thread u).mode ≠ .asleep c) → Moves s (s.goto t p)
  | signal (t u : ι) (c : κ) (p : P) : (s.thread t).mode = .running → op (s.thread t).pc = .signal c p →
      (s.thread u).mode = .asleep c → Moves s ((s.rouse u).goto t p)
  | broadcast (t : ι) (c : κ) (p : P) : (s.thread t).mode = .running → op (s.thread t).pc = .broadcast c p →
      Moves s (Sys.goto { s with thread := fun u => (s.thread u).wake c } t p)
  | resume (t : ι) : (s.thread t).mode = .woken → s.holder = none →
      Moves s (Sys.goto { s with holder := some t } t (s.thread t).pc)

variable {op} {s s' : Sys ι σ P κ}

theorem moves_of_step {a : Act ι} (ha : a.Regular) (h : step op s a = some s') : Moves op s s' := by
  cases a with
  | run t =>
    rw [step] at h
    cases hmode : (s.thread t).mode with
    | running =>
      cases hop : op (s.thread t).pc with
      | access f =>
        simp only [hmode, hop, Option.some.injEq] at h
        exact h ▸ .access t f hmode hop
      | lock p =>
        simp only [hmode, hop, Option.ite_none_right_eq_some, Option.some.injEq] at h
        exact h.2 ▸ .lock t p hmode hop h.1
      | unlock p =>
        simp only [hmode, hop, Option.some.injEq] at h
        exact h ▸ .unlock t p hmode hop
      | wait c p =>
        simp only [hmode, hop, Option.some.injEq] at h
        exact h ▸ .wait t c p hmode hop
      | signal c p =>
        simp only [hmode, hop, Option.ite_none_right_eq_some, Option.some.injEq] at h
        exact h.2 ▸ .signalNone t c p hmode hop h.1
      | broadcast c p =>
        simp only [hmode, hop, Option.some.injEq] at h
        exact h ▸ .broadcast t c p hmode hop
      | stop => simp [hmode, hop] at h
    | asleep c => simp [hmode] at h
    | woken =>
      simp only [hmode, Option.ite_none_right_eq_some, Option.some.injEq] at h
      exact h.2 ▸ .resume t hmode h.1
  | call t u =>
    rw [step] at h
    cases hmode : (s.thread t).mode with
    | running =>
      cases hop : op (s.thread t).pc with
      | signal c p =>
        simp only [hmode, hop, Option.ite_none_right_eq_some, Option.some.injEq] at h
        exact h.2 ▸ .signal t u c p hmode hop h.1
      | _ => simp [hmode, hop] at h
    | _ => simp [hmode] at h
  | wake t => exact ha.elim

theorem rouse_of_step {t : ι} (h : step op s (.wake t) = some s') :
    ∃ c, (s.thread t).mode = .asleep c ∧ s' = s.rouse t := by
  rw [step] at h
  cases hmode : (s.thread t).mode with
  | asleep c =>
    simp only [hmode, Option.some.injEq] at h
    exact ⟨c, rfl, h.symm⟩
  | _ => simp [hmode] at h

/-! ### The mutex -/

/-- With respect to the places at which a thread has the mutex, an operation is in order. -/
def Op.Keeps (holds : P → Bool) (p : P) : Op σ P κ → Prop
  | .access f => ∀ m, holds (f m).2 = holds p
  | .lock p' => holds p = false ∧ holds p' = true
  | .unlock p' => holds p = true ∧ holds p' = false
  | .wait _ p' => holds p = true ∧ holds p' = true
  | .signal _ p' => holds p' = holds p
  | .broadcast _ p' => holds p' = holds p
  | .stop => holds p = false

/-- Invariant of the operations: who has the mutex, and where the threads are that sleep. -/
structure Sound (op : P → Op σ P κ) (holds : P → Bool) (s : Sys ι σ P κ) : Prop where
  holder : ∀ t, s.holder = some t ↔ (s.thread t).mode = .running ∧ holds (s.thread t).pc = true
  asleep : ∀ t c, (s.thread t).mode = .asleep c → ∃ p, op p = .wait c (s.thread t).pc
  woken : ∀ t, (s.thread t).mode = .woken → ∃ c p, op p = .wait c (s.thread t).pc

variable {holds : P → Bool}

omit [Fintype ι] [DecidableEq κ] in
/-- A step that leaves the other threads as they are. -/
theorem Sound.update (h : Sound op holds s) {t : ι} {x : Thread P κ} {holder : Option ι} {mem : σ}
    (hself : holder = some t ↔ x.mode = .running ∧ holds x.pc = true)
    (hothers : ∀ u ≠ t, holder = some u ↔ s.holder = some u)
    (hasleep : ∀ c, x.mode = .asleep c → ∃ p, op p = .wait c x.pc)
    (hwoken : x.mode = .woken → ∃ c p, op p = .wait c x.pc) :
    Sound op holds ⟨mem, Function.update s.thread t x, holder⟩ := by
  refine ⟨fun u => ?_, fun u => ?_, fun u => ?_⟩ <;> dsimp only <;> rcases eq_or_ne u t with rfl | hne
  · rw [Function.update_self]
    exact hself
  · rw [Function.update_of_ne hne, hothers u hne]
    exact h.holder u
  · rw [Function.update_self]
    exact hasleep
  · rw [Function.update_of_ne hne]
    exact h.asleep u
  · rw [Function.update_self]
    exact hwoken
  · rw [Function.update_of_ne hne]
    exact h.woken u

omit [Fintype ι] [DecidableEq κ] in
theorem Sound.rouse (h : Sound op holds s) {t : ι} {c : κ} (hasleep : (s.thread t).mode = .asleep c) :
    Sound op holds (s.rouse t) := by
  refine h.update ?_ (fun _ _ => Iff.rfl) (by simp) fun _ => ?_
  · simp [h.holder, hasleep]
  · exact ⟨c, h.asleep t c hasleep⟩

omit [Fintype ι] [DecidableEq ι] in
/-- Calling the others changes nothing about the mutex. -/
theorem Sound.broadcast (h : Sound op holds s) (c : κ) :
    Sound op holds { s with thread := fun u => (s.thread u).wake c } := by
  refine ⟨fun u => (h.holder u).trans ?_, fun u d hu => ?_, fun u hu => ?_⟩ <;> dsimp only [Thread.wake] at *
  · split_ifs with hasleep
    · simp [hasleep]
    · exact Iff.rfl
  · split_ifs at hu ⊢ with hasleep
    exact h.asleep u d hu
  · split_ifs at hu ⊢ with hasleep
    · exact ⟨c, h.asleep u c hasleep⟩
    · exact h.woken u hu

omit [Fintype ι] in
theorem Sound.moves (h : Sound op holds s) (hop : ∀ p, (op p).Keeps holds p) (hs : Moves op s s') :
    Sound op holds s' := by
  cases hs with
  | access t f hmode haccess =>
    have hkeeps := hop (s.thread t).pc
    rw [haccess] at hkeeps
    refine h.update ?_ (fun _ _ => Iff.rfl) (by simp) (by simp)
    rw [h.holder, hkeeps, hmode]
  | lock t p hmode hlock hnone =>
    have hkeeps := hop (s.thread t).pc
    rw [hlock] at hkeeps
    refine h.update (by simp [hkeeps.2]) (fun u hne => ?_) (by simp) (by simp)
    simp [hnone, hne.symm]
  | unlock t p hmode hunlock =>
    have hkeeps := hop (s.thread t).pc
    rw [hunlock] at hkeeps
    have hheld : s.holder = some t := (h.holder t).2 ⟨hmode, hkeeps.1⟩
    refine h.update (by simp [hkeeps.2]) (fun u hne => ?_) (by simp) (by simp)
    simp [hheld, hne.symm]
  | wait t c p hmode hwait =>
    have hkeeps := hop (s.thread t).pc
    rw [hwait] at hkeeps
    have hheld : s.holder = some t := (h.holder t).2 ⟨hmode, hkeeps.1⟩
    refine h.update (by simp) (fun u hne => ?_) (fun d hd => ?_) (by simp)
    · simp [hheld, hne.symm]
    · cases hd
      exact ⟨_, hwait⟩
  | signalNone t c p hmode hsignal hnone =>
    have hkeeps := hop (s.thread t).pc
    rw [hsignal] at hkeeps
    refine h.update ?_ (fun _ _ => Iff.rfl) (by simp) (by simp)
    rw [h.holder, hkeeps, hmode]
  | signal t u c p hmode hsignal hasleep =>
    have hkeeps := hop (s.thread t).pc
    rw [hsignal] at hkeeps
    refine (h.rouse hasleep).update ?_ (fun _ _ => Iff.rfl) (by simp) (by simp)
    exact (h.holder t).trans (by rw [hkeeps, hmode])
  | broadcast t c p hmode hbroadcast =>
    have hkeeps := hop (s.thread t).pc
    rw [hbroadcast] at hkeeps
    refine (h.broadcast c).update ?_ (fun _ _ => Iff.rfl) (by simp) (by simp)
    rw [h.holder, hkeeps, hmode]
  | resume t hmode hnone =>
    obtain ⟨c, q, hq⟩ := h.woken t hmode
    have hkeeps := hop q
    rw [hq] at hkeeps
    refine h.update (by simp [hkeeps.2]) (fun u hne => ?_) (by simp) (by simp)
    simp [hnone, hne.symm]

omit [Fintype ι] [DecidableEq ι] [DecidableEq κ] in
/-- Two threads do not have the mutex at the same time. -/
theorem Sound.exclusive (h : Sound op holds s) {t u : ι} (ht : (s.thread t).mode = .running)
    (htp : holds (s.thread t).pc = true) (hu : (s.thread u).mode = .running) (hup : holds (s.thread u).pc = true) :
    t = u := by
  have := (h.holder t).2 ⟨ht, htp⟩
  rw [(h.holder u).2 ⟨hu, hup⟩] at this
  exact (Option.some.inj this).symm

/-- When there is no step but spurious wake-ups, all threads sleep or have come to their end. -/
theorem Sound.stuck (h : Sound op holds s) (hop : ∀ p, (op p).Keeps holds p)
    (hstuck : ∀ a : Act ι, a.Regular → step op s a = none) (t : ι) :
    (∃ c, (s.thread t).mode = .asleep c) ∨ (s.thread t).mode = .running ∧ op (s.thread t).pc = .stop := by
  have hsignal : ∀ u c p, (s.thread u).mode = .running → op (s.thread u).pc ≠ .signal c p := by
    intro u c p hmode hp
    have hrun := hstuck (.run u) trivial
    simp only [step, hmode, hp, ite_eq_right_iff, reduceCtorEq, imp_false, not_forall, not_not] at hrun
    obtain ⟨v, hv⟩ := hrun
    have hcall := hstuck (.call u v) trivial
    simp [step, hmode, hp, hv] at hcall
  have hfree : s.holder = none := by
    rw [Option.eq_none_iff_forall_ne_some]
    intro u hu
    obtain ⟨hmode, hheld⟩ := (h.holder u).1 hu
    have hrun := hstuck (.run u) trivial
    have hkeeps := hop (s.thread u).pc
    rw [step, hmode] at hrun
    cases hp : op (s.thread u).pc with
    | lock p => simp [hp, Op.Keeps, hheld] at hkeeps
    | stop => simp [hp, Op.Keeps, hheld] at hkeeps
    | signal c p => exact hsignal u c p hmode hp
    | _ => simp [hp] at hrun
  have hrun := hstuck (.run t) trivial
  rw [step] at hrun
  cases hmode : (s.thread t).mode with
  | running =>
    refine .inr ⟨rfl, ?_⟩
    cases hp : op (s.thread t).pc with
    | stop => rfl
    | signal c p => exact absurd hp (hsignal t c p hmode)
    | _ => simp [hmode, hp, hfree] at hrun
  | asleep c => exact .inl ⟨c, rfl⟩
  | woken => simp [hmode, hfree] at hrun

end Turkey.Conditions
