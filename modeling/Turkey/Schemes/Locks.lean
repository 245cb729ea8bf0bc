import Mathlib.Logic.Function.Basic

/-! Many locks, of which a thread holds one at a time. `lock` says for every lock who has it, and `inside` for every
    thread which one it has got by what it has done so far. The two agree as long as a thread takes a lock that is
    free and gives back the one it has. -/

namespace Turkey.Locks

/-- A lock is held by the thread that is inside, and by no other. -/
structure Held {T L : Type*} (lock : L → Option T) (inside : T → Option L) : Prop where
  iff : ∀ t l, lock l = some t ↔ inside t = some l

namespace Held
variable {T L : Type*} {lock : L → Option T} {inside : T → Option L} {t u : T} {l : L}

theorem new : Held (fun _ : L => none) (fun _ : T => none) := by
  constructor
  intro t l
  constructor <;> intro h <;> cases h

/-- No two threads have the same lock. -/
theorem exclusive (h : Held lock inside) (ht : inside t = some l) (hu : inside u = some l) : t = u := by
  have htl := (h.iff t l).2 ht
  rw [(h.iff u l).2 hu, Option.some.injEq] at htl
  exact htl.symm

variable [DecidableEq T]

/-- A thread goes on without taking or giving back a lock. -/
theorem stay (h : Held lock inside) {x : Option L} (hx : inside t = x) : Held lock (Function.update inside t x) := by
  rwa [← hx, Function.update_eq_self]

variable [DecidableEq L]

theorem acquire (h : Held lock inside) (hl : lock l = none) (ht : inside t = none) :
    Held (Function.update lock l (some t)) (Function.update inside t (some l)) := by
  constructor
  intro u m
  by_cases hm : m = l
  · subst hm
    rw [Function.update_self, Option.some.injEq]
    by_cases hu : u = t
    · simp only [hu, Function.update_self]
    · rw [Function.update_of_ne hu, ← h.iff, hl]
      constructor
      · intro heq
        exact absurd heq.symm hu
      · intro heq
        cases heq
  · rw [Function.update_of_ne hm, h.iff]
    by_cases hu : u = t
    · rw [hu, Function.update_self, ht, Option.some.injEq]
      constructor
      · intro heq
        cases heq
      · intro heq
        exact absurd heq.symm hm
    · rw [Function.update_of_ne hu]

theorem release (h : Held lock inside) (ht : inside t = some l) :
    Held (Function.update lock l none) (Function.update inside t none) := by
  constructor
  intro u m
  by_cases hm : m = l
  · subst hm
    rw [Function.update_self]
    by_cases hu : u = t
    · simp only [hu, Function.update_self]
      constructor <;> intro heq <;> cases heq
    · rw [Function.update_of_ne hu]
      constructor
      · intro heq
        cases heq
      · intro heq
        exact absurd (h.exclusive heq ht) hu
  · rw [Function.update_of_ne hm, h.iff]
    by_cases hu : u = t
    · rw [hu, Function.update_self, ht, Option.some.injEq]
      constructor
      · intro heq
        exact absurd heq.symm hm
      · intro heq
        cases heq
    · rw [Function.update_of_ne hu]

end Held

end Turkey.Locks
