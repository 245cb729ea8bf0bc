import Mathlib.Algebra.BigOperators.Group.Finset.Basic
import Mathlib.Algebra.BigOperators.Group.Finset.Piecewise
import Mathlib.Algebra.BigOperators.Group.List.Basic
import Mathlib.Algebra.Order.BigOperators.Group.Finset
import Mathlib.Data.Fintype.BigOperators
import Turkey.Schemes.Run

/-! Threads that add amounts to entries of a shared array.

    An addition is not atomic: the thread takes the mutex that goes with it, if there is one, loads the entry,
    stores the sum and releases the mutex. The programs are disciplined when two threads that add to one entry
    do so under one mutex, so that an entry without a mutex belongs to one thread. Then no addition is lost: at
    the end of every run each entry has all the amounts that were added to it. -/

namespace Turkey.Accumulate
open Turkey.Run

/-- A value that is added to an entry, under a mutex or without one. -/
structure Addition (κ μ M : Type*) where
  entry : κ
  mutex : Option μ
  amount : M

/-- How far a thread is with its additions; `x` is the one it is at, `rest` are those after it. -/
inductive Pc (κ μ M : Type*) where
  | idle (todo : List (Addition κ μ M))
  | held (x : Addition κ μ M) (rest : List (Addition κ μ M))
  | loaded (x : Addition κ μ M) (rest : List (Addition κ μ M)) (v : M)
  | stored (x : Addition κ μ M) (rest : List (Addition κ μ M))

/-- The entries, who holds which mutex, and where the threads are. -/
structure State (T κ μ M : Type*) where
  mem : κ → M
  lock : μ → Option T
  pc : T → Pc κ μ M

section Sums
variable {κ μ M : Type*} [DecidableEq κ] [AddCommMonoid M]

/-- What a list of additions adds to an entry. -/
def total (xs : List (Addition κ μ M)) (k : κ) : M := (xs.map fun x => if x.entry = k then x.amount else 0).sum

@[simp] theorem total_nil (k : κ) : total ([] : List (Addition κ μ M)) k = 0 := rfl

@[simp] theorem total_cons (x : Addition κ μ M) (xs : List (Addition κ μ M)) (k : κ) :
    total (x :: xs) k = (if x.entry = k then x.amount else 0) + total xs k := rfl

@[simp] theorem total_append (xs ys : List (Addition κ μ M)) (k : κ) :
    total (xs ++ ys) k = total xs k + total ys k := by
  simp [total]

theorem total_flatMap {α : Type*} (f : α → List (Addition κ μ M)) (k : κ) : ∀ l : List α,
    total (l.flatMap f) k = (l.map fun a => total (f a) k).sum
  | [] => rfl
  | a :: l => by rw [List.flatMap_cons, total_append, total_flatMap f k l, List.map_cons, List.sum_cons]

/-- One thread alone. -/
def addAll (xs : List (Addition κ μ M)) (mem : κ → M) : κ → M :=
  xs.foldl (fun mem x => Function.update mem x.entry (mem x.entry + x.amount)) mem

theorem addAll_apply : ∀ (xs : List (Addition κ μ M)) (mem : κ → M) (k : κ), addAll xs mem k = mem k + total xs k
  | [], mem, k => by simp [addAll]
  | x :: xs, mem, k => by
    rw [addAll, List.foldl_cons, ← addAll, addAll_apply xs, total_cons, ← add_assoc, Function.update_apply]
    congr 1
    by_cases hk : k = x.entry
    · subst hk
      simp
    · simp [hk, Ne.symm hk]

end Sums

variable {T κ μ M : Type*} [DecidableEq T] [DecidableEq κ] [DecidableEq μ] [AddCommMonoid M]

/-- A thread goes on. -/
def State.setPc (s : State T κ μ M) (t : T) (pc : Pc κ μ M) : State T κ μ M :=
  { s with pc := Function.update s.pc t pc }

/-- A step of a thread; `none` when it waits or is done. -/
def step (s : State T κ μ M) (t : T) : Option (State T κ μ M) :=
  match s.pc t with
  | .idle [] => none
  | .idle (x :: rest) =>
    match x.mutex with
    | none => some (s.setPc t (.held x rest))
    | some m =>
      if s.lock m = none then some { s.setPc t (.held x rest) with lock := Function.update s.lock m (some t) }
      else none
  | .held x rest => some (s.setPc t (.loaded x rest (s.mem x.entry)))
  | .loaded x rest v =>
    some { s.setPc t (.stored x rest) with mem := Function.update s.mem x.entry (v + x.amount) }
  | .stored x rest => some { s.setPc t (.idle rest) with
      lock := match x.mutex with
        | none => s.lock
        | some m => Function.update s.lock m none }

/-- Before the first step. -/
def start (prog : T → List (Addition κ μ M)) (mem : κ → M) : State T κ μ M :=
  ⟨mem, fun _ => none, fun t => .idle (prog t)⟩

/-- Two threads that add to one entry do so under one mutex. -/
def Disciplined (prog : T → List (Addition κ μ M)) : Prop :=
  ∀ t t', t ≠ t' → ∀ x ∈ prog t, ∀ y ∈ prog t', x.entry = y.entry → ∃ m, x.mutex = some m ∧ y.mutex = some m

/-! ### No addition is lost -/

/-- The addition that a thread is at, between the lock and the release of the lock. -/
def Pc.current : Pc κ μ M → Option (Addition κ μ M)
  | .idle _ => none
  | .held x _ => some x
  | .loaded x _ _ => some x
  | .stored x _ => some x

/-- The additions that are not over. -/
def Pc.todo : Pc κ μ M → List (Addition κ μ M)
  | .idle todo => todo
  | .held x rest => x :: rest
  | .loaded x rest _ => x :: rest
  | .stored x rest => x :: rest

/-- The additions whose sums have not been stored. -/
def Pc.pending : Pc κ μ M → List (Addition κ μ M)
  | .stored _ rest => rest
  | pc => pc.todo

/-- The steps that are left to a thread. -/
def Pc.left : Pc κ μ M → ℕ
  | .idle todo => 4 * todo.length
  | .held _ rest => 4 * rest.length + 3
  | .loaded _ rest _ => 4 * rest.length + 2
  | .stored _ rest => 4 * rest.length + 1

/-- The mutex of the addition that the thread is at. -/
def Pc.mutex (pc : Pc κ μ M) : Option μ := pc.current.bind Addition.mutex

/-- Invariant of the steps. -/
structure Inv [Fintype T] (prog : T → List (Addition κ μ M)) (mem : κ → M) (s : State T κ μ M) : Prop where
  todo : ∀ t, (s.pc t).todo <:+ prog t
  lock : ∀ m t, s.lock m = some t ↔ (s.pc t).mutex = some m
  loaded : ∀ t x rest v, s.pc t = .loaded x rest v → v = s.mem x.entry
  sum : ∀ k, s.mem k + ∑ t, total (s.pc t).pending k = mem k + ∑ t, total (prog t) k

section Steps
variable [Fintype T] {prog : T → List (Addition κ μ M)} {mem : κ → M} {s s' : State T κ μ M} {t : T}

omit [DecidableEq T] [DecidableEq μ]

theorem start_inv : Inv prog mem (start prog mem) := by
  refine ⟨fun t => List.suffix_refl _, fun m t => ?_, ?_, fun k => rfl⟩
  · exact iff_of_false nofun nofun
  · intro t x rest v h
    cases h

omit [DecidableEq κ] [AddCommMonoid M] in
theorem Pc.current_mem {pc : Pc κ μ M} {x : Addition κ μ M} (h : pc.current = some x) : x ∈ pc.todo := by
  cases pc with
  | idle => cases h
  | held y _ => exact Option.some.inj h ▸ List.mem_cons_self ..
  | loaded y _ _ => exact Option.some.inj h ▸ List.mem_cons_self ..
  | stored y _ => exact Option.some.inj h ▸ List.mem_cons_self ..

/-- Two threads are not both at an addition to one entry. -/
theorem Inv.apart (h : Inv prog mem s) (hd : Disciplined prog) {u : T} (hut : u ≠ t) {x y : Addition κ μ M}
    (hx : (s.pc t).current = some x) (hy : (s.pc u).current = some y) : x.entry ≠ y.entry := by
  intro heq
  obtain ⟨m, hxm, hym⟩ := hd t u hut.symm x ((h.todo t).subset (Pc.current_mem hx)) y
    ((h.todo u).subset (Pc.current_mem hy)) heq
  have ht := (h.lock m t).2 (by rw [Pc.mutex, hx]; exact hxm)
  have hu := (h.lock m u).2 (by rw [Pc.mutex, hy]; exact hym)
  exact hut (Option.some.inj (hu.symm.trans ht))

variable [DecidableEq T]

/-- A step in which a thread stores nothing. -/
theorem Inv.move (h : Inv prog mem s) {pc : Pc κ μ M} {lock : μ → Option T} (htodo : pc.todo <:+ (s.pc t).todo)
    (hpending : pc.pending = (s.pc t).pending) (hloaded : ∀ x rest v, pc = .loaded x rest v → v = s.mem x.entry)
    (hlock : ∀ m u, lock m = some u ↔ (Function.update s.pc t pc u).mutex = some m) :
    Inv prog mem { s.setPc t pc with lock := lock } := by
  have hupdate : ∀ {Q : T → Pc κ μ M → Prop}, Q t pc → (∀ u, Q u (s.pc u)) →
      ∀ u, Q u (Function.update s.pc t pc u) := by
    intro Q ht hu u
    by_cases hut : u = t
    · subst hut
      rwa [Function.update_self]
    · rw [Function.update_of_ne hut]
      exact hu u
  refine ⟨?_, hlock, ?_, fun k => ?_⟩
  · exact hupdate (Q := fun u pc => pc.todo <:+ prog u) (htodo.trans (h.todo t)) h.todo
  · exact hupdate (Q := fun _ pc => ∀ x rest v, pc = .loaded x rest v → v = s.mem x.entry) hloaded h.loaded
  · rw [← h.sum k]
    congr 1
    refine Finset.sum_congr rfl fun u _ => ?_
    exact hupdate (Q := fun u pc => total pc.pending k = total (s.pc u).pending k) (by rw [hpending]) (fun _ => rfl) u

/-- The sum is stored: no other thread is at this entry, so that nothing is lost. -/
theorem Inv.store (h : Inv prog mem s) (hd : Disciplined prog) {x : Addition κ μ M} {rest : List (Addition κ μ M)}
    {v : M} (hpc : s.pc t = .loaded x rest v) : Inv prog mem
      { s.setPc t (.stored x rest) with mem := Function.update s.mem x.entry (v + x.amount) } := by
  have hcur : (s.pc t).current = some x := by rw [hpc]; rfl
  refine ⟨fun u => ?_, fun m u => ?_, fun u y ys w hu => ?_, fun k => ?_⟩
  · by_cases hut : u = t
    · subst hut
      simpa [State.setPc, hpc, Pc.todo] using h.todo u
    · simpa [State.setPc, hut] using h.todo u
  · rw [State.setPc, h.lock]
    by_cases hut : u = t
    · subst hut
      simp [hpc, Pc.mutex, Pc.current]
    · simp [hut]
  · simp only [State.setPc] at hu ⊢
    by_cases hut : u = t
    · subst hut
      simp at hu
    · rw [Function.update_of_ne hut] at hu
      have hne := h.apart hd hut hcur (by rw [hu]; rfl)
      rw [Function.update_of_ne hne.symm, h.loaded u y ys w hu]
  · have hv := h.loaded t x rest v hpc
    rw [← h.sum k, ← Finset.add_sum_erase _ _ (Finset.mem_univ t), ← Finset.add_sum_erase _ _ (Finset.mem_univ t)]
    have hothers : ∑ u ∈ Finset.univ.erase t, total (Function.update s.pc t (.stored x rest) u).pending k =
        ∑ u ∈ Finset.univ.erase t, total (s.pc u).pending k := by
      refine Finset.sum_congr rfl fun u hu => ?_
      rw [Function.update_of_ne (Finset.ne_of_mem_erase hu)]
    simp only [State.setPc]
    rw [hothers, Function.update_self, hpc]
    simp only [Pc.pending, Pc.todo, total_cons]
    rw [← add_assoc, ← add_assoc, ← add_assoc, hv, Function.update_apply]
    by_cases hk : k = x.entry
    · subst hk
      simp
    · simp [hk, Ne.symm hk]

variable [DecidableEq μ]

theorem Inv.step (h : Inv prog mem s) (hd : Disciplined prog) (hs : Accumulate.step s t = some s') :
    Inv prog mem s' := by
  have hlock : ∀ {pc : Pc κ μ M}, pc.mutex = (s.pc t).mutex →
      ∀ m u, s.lock m = some u ↔ (Function.update s.pc t pc u).mutex = some m := by
    intro pc hpc m u
    rw [h.lock]
    by_cases hut : u = t
    · subst hut
      rw [Function.update_self, hpc]
    · rw [Function.update_of_ne hut]
  rw [Accumulate.step] at hs
  cases hpc : s.pc t with
  | idle todo =>
    cases todo with
    | nil => simp [hpc] at hs
    | cons x rest =>
      cases hx : x.mutex with
      | none =>
        simp only [hpc, hx, Option.some.injEq] at hs
        subst hs
        refine h.move (by rw [hpc]; exact List.suffix_refl _) (by rw [hpc]; rfl) (by simp) (hlock ?_)
        rw [hpc]
        exact hx
      | some m =>
        simp only [hpc, hx, Option.ite_none_right_eq_some, Option.some.injEq] at hs
        obtain ⟨hfree, rfl⟩ := hs
        refine h.move (by rw [hpc]; exact List.suffix_refl _) (by rw [hpc]; rfl) (by simp) fun m' u => ?_
        by_cases hm : m' = m
        · subst hm
          rw [Function.update_self, Option.some.injEq]
          by_cases hut : u = t
          · subst hut
            simpa [Pc.mutex, Pc.current] using hx
          · rw [Function.update_of_ne hut, ← h.lock, hfree]
            exact iff_of_false (fun heq => hut heq.symm) fun hnone => by cases hnone
        · rw [Function.update_of_ne hm, h.lock]
          by_cases hut : u = t
          · subst hut
            rw [Function.update_self, hpc]
            refine iff_of_false (fun hnone => by cases hnone) fun heq => hm ?_
            exact (Option.some.inj (hx.symm.trans heq)).symm
          · rw [Function.update_of_ne hut]
  | held x rest =>
    simp only [hpc, Option.some.injEq] at hs
    subst hs
    refine h.move (by rw [hpc]; exact List.suffix_refl _) (by rw [hpc]; rfl) (fun y ys w heq => ?_) (hlock ?_)
    · injection heq with hy _ hw
      rw [← hy, hw]
    · rw [hpc]
      rfl
  | loaded x rest v =>
    simp only [hpc, Option.some.injEq] at hs
    subst hs
    exact h.store hd hpc
  | stored x rest =>
    simp only [hpc, Option.some.injEq] at hs
    subst hs
    refine h.move (by rw [hpc]; exact List.suffix_cons ..) (by rw [hpc]; rfl) (by simp) ?_
    cases hx : x.mutex with
    | none =>
      refine hlock ?_
      rw [hpc]
      exact hx.symm
    | some m =>
      have hown : s.lock m = some t := (h.lock m t).2 (by rw [hpc]; exact hx)
      intro m' u
      dsimp only
      by_cases hm : m' = m
      · subst hm
        rw [Function.update_self]
        refine iff_of_false (fun hnone => by cases hnone) fun heq => ?_
        by_cases hut : u = t
        · subst hut
          rw [Function.update_self] at heq
          cases heq
        · rw [Function.update_of_ne hut, ← h.lock, hown] at heq
          exact hut (Option.some.inj heq).symm
      · rw [Function.update_of_ne hm, h.lock]
        by_cases hut : u = t
        · subst hut
          rw [Function.update_self, hpc]
          refine iff_of_false (fun heq => hm ?_) fun hnone => by cases hnone
          exact (Option.some.inj (hx.symm.trans heq)).symm
        · rw [Function.update_of_ne hut]

/-- At the end of a run each entry has all that was added to it. -/
theorem exec_total {ts : List T} (hd : Disciplined prog) (hrun : exec Accumulate.step (start prog mem) ts = some s)
    (hdone : ∀ t, s.pc t = .idle []) (k : κ) : s.mem k = mem k + ∑ t, total (prog t) k := by
  have h : Inv prog mem s := exec_inv (fun _ _ _ h hs => h.step hd hs) start_inv hrun
  have hsum := h.sum k
  simpa [hdone, Pc.pending, Pc.todo] using hsum

/-- While a thread has an addition to do, some thread can take a step. -/
theorem Inv.progress (h : Inv prog mem s) (ht : s.pc t ≠ .idle []) : ∃ u, (Accumulate.step s u).isSome = true := by
  have hbusy : ∀ u, (s.pc u).current.isSome = true → (Accumulate.step s u).isSome = true := by
    intro u hu
    cases hpc : s.pc u with
    | idle todo => rw [hpc] at hu; cases hu
    | held | loaded | stored => simp [Accumulate.step, hpc]
  cases hpc : s.pc t with
  | idle todo =>
    cases todo with
    | nil => exact absurd hpc ht
    | cons x rest =>
      cases hx : x.mutex with
      | none => exact ⟨t, by simp [Accumulate.step, hpc, hx]⟩
      | some m =>
        cases hm : s.lock m with
        | none => exact ⟨t, by simp [Accumulate.step, hpc, hx, hm]⟩
        | some u =>
          -- the holder of the mutex can go on
          obtain ⟨y, hy, -⟩ := Option.bind_eq_some_iff.1 ((h.lock m u).1 hm)
          exact ⟨u, hbusy u (by rw [hy]; rfl)⟩
  | held | loaded | stored => exact ⟨t, hbusy t (by rw [hpc]; rfl)⟩

omit [Fintype T] in
theorem step_left (hs : Accumulate.step s t = some s') :
    ∃ pc, s'.pc = Function.update s.pc t pc ∧ pc.left < (s.pc t).left := by
  rw [Accumulate.step] at hs
  cases hpc : s.pc t with
  | idle todo =>
    cases todo with
    | nil => simp [hpc] at hs
    | cons x rest =>
      have hleft : 4 * rest.length + 3 < 4 * (rest.length + 1) := by omega
      cases hx : x.mutex with
      | none =>
        simp only [hpc, hx, Option.some.injEq] at hs
        exact ⟨.held x rest, hs ▸ rfl, hleft⟩
      | some m =>
        simp only [hpc, hx, Option.ite_none_right_eq_some, Option.some.injEq] at hs
        exact ⟨.held x rest, hs.2 ▸ rfl, hleft⟩
  | held x rest =>
    simp only [hpc, Option.some.injEq] at hs
    exact ⟨.loaded x rest (s.mem x.entry), hs ▸ rfl, Nat.lt_succ_self _⟩
  | loaded x rest v =>
    simp only [hpc, Option.some.injEq] at hs
    exact ⟨.stored x rest, hs ▸ rfl, Nat.lt_succ_self _⟩
  | stored x rest =>
    simp only [hpc, Option.some.injEq] at hs
    exact ⟨.idle rest, hs ▸ rfl, Nat.lt_succ_self _⟩

/-- From every state that is reached the threads can come to their end. -/
theorem Inv.exists_run (h : Inv prog mem s) (hd : Disciplined prog) :
    ∃ ts s', exec Accumulate.step s ts = some s' ∧ ∀ t, s'.pc t = .idle [] := by
  obtain ⟨n, hn⟩ : ∃ n, ∑ t, (s.pc t).left = n := ⟨_, rfl⟩
  induction n using Nat.strong_induction_on generalizing s with
  | _ n ih =>
    by_cases hdone : ∀ t, s.pc t = .idle []
    · exact ⟨[], s, rfl, hdone⟩
    · obtain ⟨t, ht⟩ := not_forall.1 hdone
      obtain ⟨u, hu⟩ := h.progress ht
      obtain ⟨s', hs⟩ := Option.isSome_iff_exists.1 hu
      obtain ⟨pc, hpc, hlt⟩ := step_left hs
      have hsum : ∑ t, (s'.pc t).left < n := by
        rw [← hn, hpc]
        refine Finset.sum_lt_sum (fun v _ => ?_) ⟨u, Finset.mem_univ u, ?_⟩
        · by_cases hvu : v = u
          · subst hvu
            rw [Function.update_self]
            exact hlt.le
          · rw [Function.update_of_ne hvu]
        · rwa [Function.update_self]
      obtain ⟨ts, s'', hrun, hend⟩ := ih _ hsum (h.step hd hs) rfl
      exact ⟨u :: ts, s'', exec_cons_eq_some.2 ⟨s', hs, hrun⟩, hend⟩

end Steps

end Turkey.Accumulate
