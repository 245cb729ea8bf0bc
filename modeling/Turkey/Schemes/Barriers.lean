import Mathlib.Logic.Function.Basic
import Mathlib.Data.Fin.Basic
import Turkey.Schemes.Run

/-! Threads that share a memory and meet at barriers.

    Between two barriers every thread has a program that reads and writes places of the memory one at a time, and
    the accesses of the threads come in any order. What the others write in the same phase may be different from
    run to run. If it makes no difference to any thread, then the phase has only one result: that of the threads
    one after another. -/

namespace Turkey.Barriers
open Turkey.Run

/-- What a thread does up to a barrier. -/
inductive Prog (L : Type) (V : L → Type) (α : Type) where
  | ret (a : α)
  | read (l : L) (k : V l → Prog L V α)
  | write (l : L) (v : V l) (k : Prog L V α)

namespace Prog
variable {L : Type} {V : L → Type} {α β : Type}

/-- One program after another. -/
def bind : Prog L V α → (α → Prog L V β) → Prog L V β
  | ret a, f => f a
  | read l k, f => read l fun v => (k v).bind f
  | write l v k, f => write l v (k.bind f)

instance : Monad (Prog L V) where
  pure := ret
  bind := bind

/-- A program that reads. -/
def get (l : L) : Prog L V (V l) := read l ret

/-- A program that writes. -/
def set (l : L) (v : V l) : Prog L V Unit := write l v (ret ())

/-- What a program returns that has come to its end. -/
def result : Prog L V α → Option α
  | ret a => some a
  | _ => none

variable [DecidableEq L]

/-- The program without other threads: its result and the memory after it. -/
def alone : Prog L V α → (∀ l, V l) → α × (∀ l, V l)
  | ret a, m => (a, m)
  | read l k, m => (k (m l)).alone m
  | write l v k, m => k.alone (Function.update m l v)

/-- The program reads place `l` when it is alone. -/
def Reads : Prog L V α → (∀ l, V l) → L → Prop
  | ret _, _, _ => False
  | read l k, m, l' => l' = l ∨ (k (m l)).Reads m l'
  | write l v k, m, l' => k.Reads (Function.update m l v) l'

/-- The program writes `v` to place `l` when it is alone. -/
def Writes : Prog L V α → (∀ l, V l) → (l : L) → V l → Prop
  | ret _, _, _, _ => False
  | read l k, m, l', v' => (k (m l)).Writes m l' v'
  | write l v k, m, l', v' => (⟨l', v'⟩ : Σ l, V l) = ⟨l, v⟩ ∨ k.Writes (Function.update m l v) l' v'

/-- It makes no difference to the program if it finds at places `l` what `E` says. It does not write there. -/
def Unaffected (E : ∀ l, V l → Prop) : Prog L V α → (∀ l, V l) → Prop
  | ret _, _ => True
  | read l k, m => (∀ v, E l v → k v = k (m l)) ∧ (k (m l)).Unaffected E m
  | write l v k, m => (∀ v', ¬E l v') ∧ k.Unaffected E (Function.update m l v)

omit [DecidableEq L] in
@[simp] theorem pure_eq (a : α) : (pure a : Prog L V α) = ret a := rfl

omit [DecidableEq L] in
@[simp] theorem bind_eq (p : Prog L V α) (f : α → Prog L V β) : p >>= f = p.bind f := rfl

/-! ### Programs in parts -/

@[simp] theorem alone_bind : ∀ (p : Prog L V α) (f : α → Prog L V β) (m : ∀ l, V l),
    (p.bind f).alone m = (f (p.alone m).1).alone (p.alone m).2
  | ret _, _, _ => rfl
  | read l k, f, m => alone_bind (k (m l)) f m
  | write _ _ k, f, _ => alone_bind k f _

@[simp] theorem alone_ret (a : α) (m : ∀ l, V l) : (ret a : Prog L V α).alone m = (a, m) := rfl

@[simp] theorem alone_get (l : L) (m : ∀ l, V l) : (get l : Prog L V (V l)).alone m = (m l, m) := rfl

@[simp] theorem alone_set (l : L) (v : V l) (m : ∀ l, V l) :
    (set l v : Prog L V Unit).alone m = ((), Function.update m l v) := rfl

/-- A loop that does with the memory `e x` what `g` does with `x`, and carries `r x` along. -/
theorem alone_foldlM_eq {ι σ : Type} {f : α → ι → Prog L V α} {e : σ → ∀ l, V l} {r : σ → α} {g : σ → ι → σ} :
    ∀ {is : List ι} {x : σ} {a : α} {m : ∀ l, V l}, a = r x → m = e x →
      (∀ i ∈ is, ∀ x, (f (r x) i).alone (e x) = (r (g x i), e (g x i))) →
      (is.foldlM f a).alone m = (r (is.foldl g x), e (is.foldl g x))
  | [], _, _, _, ha, hm, _ => by
    rw [ha, hm]
    rfl
  | i :: is, x, _, _, ha, hm, h => by
    rw [List.forall_mem_cons] at h
    rw [List.foldlM_cons, bind_eq, alone_bind, ha, hm, h.1 x, List.foldl_cons]
    exact alone_foldlM_eq rfl rfl h.2

theorem reads_bind : ∀ (p : Prog L V α) (f : α → Prog L V β) (m : ∀ l, V l) (l : L),
    (p.bind f).Reads m l ↔ p.Reads m l ∨ (f (p.alone m).1).Reads (p.alone m).2 l
  | ret _, _, _, _ => (iff_of_eq (false_or _)).symm
  | read l' k, f, m, l => by
    rw [bind, Reads, reads_bind (k (m l')) f m l, Reads, or_assoc]
    rfl
  | write _ _ k, f, _, l => reads_bind k f _ l

theorem writes_bind : ∀ (p : Prog L V α) (f : α → Prog L V β) (m : ∀ l, V l) (l : L) (v : V l),
    (p.bind f).Writes m l v ↔ p.Writes m l v ∨ (f (p.alone m).1).Writes (p.alone m).2 l v
  | ret _, _, _, _, _ => (iff_of_eq (false_or _)).symm
  | read l' k, f, m, l, v => writes_bind (k (m l')) f m l v
  | write l' v' k, f, m, l, v => by
    rw [bind, Writes, writes_bind k f _ l v, Writes, or_assoc]
    rfl

@[simp] theorem writes_ret (a : α) (m : ∀ l, V l) (l : L) (v : V l) : (ret a : Prog L V α).Writes m l v ↔
    False := Iff.rfl

@[simp] theorem writes_get (l' : L) (m : ∀ l, V l) (l : L) (v : V l) : (get l' : Prog L V (V l')).Writes m l v ↔
    False :=
  Iff.rfl

@[simp] theorem writes_set (l' : L) (v' : V l') (m : ∀ l, V l) (l : L) (v : V l) :
    (set l' v' : Prog L V Unit).Writes m l v ↔ (⟨l, v⟩ : Σ l, V l) = ⟨l', v'⟩ := by
  rw [set, Writes, Writes, or_false]

/-- What the program does not write stays. -/
theorem alone_of_not_writes : ∀ (p : Prog L V α) (m : ∀ l, V l) {l : L}, (∀ v, ¬p.Writes m l v) →
    (p.alone m).2 l = m l
  | ret _, _, _, _ => rfl
  | read l' k, m, _, h => alone_of_not_writes (k (m l')) m h
  | write l' v' k, m, l, h => by
    have hne : l ≠ l' := by
      rintro rfl
      exact h v' (.inl rfl)
    rw [alone, alone_of_not_writes k _ fun v hv => h v (.inr hv), Function.update_of_ne hne]

theorem Unaffected.not_writes {E : ∀ l, V l → Prop} : ∀ {p : Prog L V α} {m : ∀ l, V l}, p.Unaffected E m →
    ∀ {l v}, p.Writes m l v → ∀ v', ¬E l v'
  | read _ _, _, h, _, _, hw, v' => h.2.not_writes hw v'
  | write _ _ _, _, h, _, _, hw, v' => by
    rcases hw with heq | hw
    · obtain ⟨rfl, -⟩ := Sigma.mk.inj heq
      exact h.1 v'
    · exact h.2.not_writes hw v'

/-! ### Which places a program needs -/

/-- Alone, the program only reads places in `R` and only writes places in `W`. -/
structure Within (R W : L → Prop) (p : Prog L V α) (m : ∀ l, V l) : Prop where
  reads : ∀ l, p.Reads m l → R l
  writes : ∀ l v, p.Writes m l v → W l

variable {R W : L → Prop} {m : ∀ l, V l}

@[simp] theorem within_ret (a : α) : (ret a : Prog L V α).Within R W m ↔ True :=
  iff_true_intro ⟨nofun, nofun⟩

@[simp] theorem within_get {l : L} : (get l : Prog L V (V l)).Within R W m ↔ R l := by
  refine ⟨fun h => h.reads l (.inl rfl), fun h => ⟨fun l' hr => ?_, nofun⟩⟩
  obtain rfl := hr.resolve_right id
  exact h

@[simp] theorem within_set {l : L} {v : V l} : (set l v : Prog L V Unit).Within R W m ↔ W l := by
  refine ⟨fun h => h.writes l v (.inl rfl), fun h => ⟨nofun, fun l' v' hw => ?_⟩⟩
  obtain ⟨rfl, -⟩ := Sigma.mk.inj (hw.resolve_right id)
  exact h

@[simp] theorem within_bind {p : Prog L V α} {f : α → Prog L V β} :
    (p.bind f).Within R W m ↔ p.Within R W m ∧ (f (p.alone m).1).Within R W (p.alone m).2 := by
  constructor
  · refine fun h => ⟨⟨fun l hr => ?_, fun l v hw => ?_⟩, fun l hr => ?_, fun l v hw => ?_⟩
    · exact h.reads l ((reads_bind p f m l).2 (.inl hr))
    · exact h.writes l v ((writes_bind p f m l v).2 (.inl hw))
    · exact h.reads l ((reads_bind p f m l).2 (.inr hr))
    · exact h.writes l v ((writes_bind p f m l v).2 (.inr hw))
  · rintro ⟨h, h'⟩
    refine ⟨fun l hr => ?_, fun l v hw => ?_⟩
    · exact ((reads_bind p f m l).1 hr).elim (h.reads l) (h'.reads l)
    · exact ((writes_bind p f m l v).1 hw).elim (h.writes l v) (h'.writes l v)

theorem Within.ite {P : Prop} [Decidable P] {p q : Prog L V α} (hp : P → p.Within R W m) (hq : ¬P → q.Within R W m) :
    (if P then p else q).Within R W m := by
  split_ifs with h
  · exact hp h
  · exact hq h

theorem Within.mono {W' : L → Prop} {p : Prog L V α} (h : p.Within R W m) (hW : ∀ l, W l → W' l) : p.Within R W' m :=
  ⟨h.reads, fun l v hw => hW l (h.writes l v hw)⟩

theorem Within.frame {p : Prog L V α} (h : p.Within R W m) {l : L} (hl : ¬W l) : (p.alone m).2 l = m l :=
  alone_of_not_writes p m fun v hw => hl (h.writes l v hw)

/-- A loop. All iterations find the same values at the places that are not written. -/
theorem Within.foldlM {ι : Type} {f : α → ι → Prog L V α} {is : List ι} {a : α}
    (h : ∀ i ∈ is, ∀ a m', (∀ l, ¬W l → m' l = m l) → (f a i).Within R W m') : (is.foldlM f a).Within R W m := by
  suffices hloop : ∀ (is : List ι) (a : α) (m' : ∀ l, V l),
      (∀ i ∈ is, ∀ a m', (∀ l, ¬W l → m' l = m l) → (f a i).Within R W m') → (∀ l, ¬W l → m' l = m l) →
        (is.foldlM f a).Within R W m' from hloop is a m h fun _ _ => rfl
  clear h
  intro is
  induction is with
  | nil => exact fun a m' _ _ => (within_ret a).2 trivial
  | cons i is ih =>
    intro a m' h hm
    rw [List.forall_mem_cons] at h
    have hi := h.1 a m' hm
    rw [List.foldlM_cons]
    exact within_bind.2 ⟨hi, ih _ _ h.2 fun l hl => (hi.frame hl).trans (hm l hl)⟩

/-- A loop over different things. An iteration finds the places as they were that no other iteration writes. -/
theorem Within.foldlM_nodup {ι : Type} {f : α → ι → Prog L V α} {is : List ι} {a : α} {W : ι → L → Prop}
    (hnd : is.Nodup)
    (h : ∀ i ∈ is, ∀ a m', (∀ l, (∀ j ∈ is, j ≠ i → ¬W j l) → m' l = m l) → (f a i).Within R (W i) m') :
    (is.foldlM f a).Within R (fun l => ∃ i ∈ is, W i l) m := by
  suffices hloop : ∀ (todo : List ι) (a : α) (m' : ∀ l, V l), (∀ i ∈ todo, i ∈ is) → todo.Nodup →
      (∀ l, (∀ j ∈ is, j ∉ todo → ¬W j l) → m' l = m l) →
        (todo.foldlM f a).Within R (fun l => ∃ i ∈ is, W i l) m' from
    hloop is a m (fun _ hi => hi) hnd fun _ _ => rfl
  intro todo
  induction todo with
  | nil => exact fun a m' _ _ _ => (within_ret a).2 trivial
  | cons i todo ih =>
    intro a m' hsub hnd hm
    rw [List.forall_mem_cons] at hsub
    rw [List.nodup_cons] at hnd
    have hi : (f a i).Within R (W i) m' := by
      refine h i hsub.1 a m' fun l hl => hm l fun j hj hnot => hl j hj ?_
      rintro rfl
      exact hnot List.mem_cons_self
    rw [List.foldlM_cons]
    refine within_bind.2 ⟨⟨hi.reads, fun l v hw => ⟨i, hsub.1, hi.writes l v hw⟩⟩, ih _ _ hsub.2 hnd.2 fun l hl => ?_⟩
    rw [hi.frame (hl i hsub.1 hnd.1)]
    exact hm l fun j hj hnot => hl j hj fun hmem => hnot (List.mem_cons_of_mem _ hmem)

/-- Alone, the program writes place `l`. -/
def Stores (p : Prog L V α) (m : ∀ l, V l) (l : L) : Prop := ∃ v, p.Writes m l v

theorem stores_set (l : L) (v : V l) : (set l v : Prog L V Unit).Stores m l := ⟨v, .inl rfl⟩

theorem Stores.left {p : Prog L V α} {l : L} (h : p.Stores m l) (f : α → Prog L V β) : (p.bind f).Stores m l := by
  obtain ⟨v, hv⟩ := h
  exact ⟨v, (writes_bind p f m l v).2 (.inl hv)⟩

theorem Stores.right {p : Prog L V α} {f : α → Prog L V β} {l : L}
    (h : (f (p.alone m).1).Stores (p.alone m).2 l) : (p.bind f).Stores m l := by
  obtain ⟨v, hv⟩ := h
  exact ⟨v, (writes_bind p f m l v).2 (.inr hv)⟩

/-- What one iteration writes. -/
theorem Stores.foldlM {ι : Type} {f : α → ι → Prog L V α} {is : List ι} {a : α} {l : L}
    (h : ∀ i ∈ is, ∀ a m', (∀ l, ¬W l → m' l = m l) → (f a i).Within R W m') {i : ι} (hi : i ∈ is)
    (hw : ∀ a m', (∀ l, ¬W l → m' l = m l) → (f a i).Stores m' l) : (is.foldlM f a).Stores m l := by
  suffices hloop : ∀ (is : List ι) (a : α) (m' : ∀ l, V l),
      (∀ i ∈ is, ∀ a m', (∀ l, ¬W l → m' l = m l) → (f a i).Within R W m') → (∀ l, ¬W l → m' l = m l) →
        i ∈ is → (is.foldlM f a).Stores m' l from hloop is a m h (fun _ _ => rfl) hi
  clear h hi
  intro is
  induction is with
  | nil => exact fun a m' _ _ hi => absurd hi List.not_mem_nil
  | cons k is ih =>
    intro a m' h hm hi
    rw [List.forall_mem_cons] at h
    rw [List.foldlM_cons]
    rcases List.mem_cons.1 hi with rfl | hi
    · exact (hw a m' hm).left _
    · exact .right (ih _ _ h.2 (fun l hl => ((h.1 a m' hm).frame hl).trans (hm l hl)) hi)

theorem Within.unaffected {E : ∀ l, V l → Prop} : ∀ {p : Prog L V α} {m : ∀ l, V l}, p.Within R W m →
    (∀ l, R l ∨ W l → ∀ v, ¬E l v) → p.Unaffected E m
  | .ret _, _, _, _ => trivial
  | read l _, _, h, hE =>
    ⟨fun v hv => absurd hv (hE l (.inl (h.reads l (.inl rfl))) v),
      Within.unaffected ⟨fun l hr => h.reads l (.inr hr), h.writes⟩ hE⟩
  | write l v _, _, h, hE =>
    ⟨hE l (.inr (h.writes l v (.inl rfl))),
      Within.unaffected ⟨h.reads, fun l v hw => h.writes l v (.inr hw)⟩ hE⟩

end Prog

/-! ### Threads and barriers -/

/-- `body j t` is what thread `t` does in phase `j` with its result of the phase before. -/
structure Team (n : ℕ) (L : Type) (V : L → Type) (α : Type) where
  phases : ℕ
  body : ℕ → Fin n → α → Prog L V α

/-- The threads in a phase, and the places that they have written so far: in which phase, and who. -/
structure Conf (n : ℕ) (L : Type) (V : L → Type) (α : Type) where
  phase : ℕ
  mem : ∀ l, V l
  thread : Fin n → Prog L V α
  log : List (ℕ × Fin n × L)

/-- A thread makes an access, or all threads pass the barrier. -/
inductive Act (n : ℕ) where
  | access (t : Fin n)
  | barrier

variable {n : ℕ} {L : Type} {V : L → Type} {α : Type}

/-- All threads wait at the barrier. -/
def Conf.Arrived (s : Conf n L V α) : Prop := ∀ t, (s.thread t).result.isSome = true

instance (s : Conf n L V α) : Decidable s.Arrived := inferInstanceAs (Decidable (∀ _, _))

variable [DecidableEq L] (c : Team n L V α)

/-- A step of the threads; `none` when it cannot be taken. -/
def Team.step (s : Conf n L V α) : Act n → Option (Conf n L V α)
  | .access t =>
    match s.thread t with
    | .ret _ => none
    | .read l k => some { s with thread := Function.update s.thread t (k (s.mem l)) }
    | .write l v k => some { s with
        mem := Function.update s.mem l v
        thread := Function.update s.thread t k
        log := (s.phase, t, l) :: s.log }
  | .barrier =>
    if s.phase + 1 < c.phases ∧ s.Arrived then some { s with
      phase := s.phase + 1
      thread := fun t => (s.thread t).bind (c.body (s.phase + 1) t) }
    else none

omit [DecidableEq L] in
/-- Before the first step. -/
def Team.start (m : ∀ l, V l) (a : Fin n → α) : Conf n L V α := ⟨0, m, fun t => c.body 0 t (a t), []⟩

omit [DecidableEq L] in
/-- All threads have left the last barrier and are at their end. -/
def Team.Finished (s : Conf n L V α) : Prop := s.phase + 1 = c.phases ∧ s.Arrived

variable {c} {s s' : Conf n L V α}

/-- What an access can be. -/
theorem step_access {t : Fin n} (h : c.step s (.access t) = some s') :
    (∃ l k, s.thread t = .read l k ∧ s' = { s with thread := Function.update s.thread t (k (s.mem l)) }) ∨
    ∃ l v k, s.thread t = .write l v k ∧ s' = { s with
      mem := Function.update s.mem l v
      thread := Function.update s.thread t k
      log := (s.phase, t, l) :: s.log } := by
  rw [Team.step] at h
  cases hp : s.thread t with
  | ret a => simp [hp] at h
  | read l k =>
    rw [hp] at h
    exact .inl ⟨l, k, rfl, (Option.some.inj h).symm⟩
  | write l v k =>
    rw [hp] at h
    exact .inr ⟨l, v, k, rfl, (Option.some.inj h).symm⟩

theorem step_barrier (h : c.step s .barrier = some s') : s.phase + 1 < c.phases ∧ s.Arrived ∧ s' = { s with
    phase := s.phase + 1
    thread := fun t => (s.thread t).bind (c.body (s.phase + 1) t) } := by
  rw [Team.step, Option.ite_none_right_eq_some] at h
  exact ⟨h.1.1, h.1.2, (Option.some.inj h.2).symm⟩

/-- A thread that runs to the barrier while the others do nothing. -/
theorem exec_alone (t : Fin n) : ∀ (p : Prog L V α) (s : Conf n L V α), s.thread t = p →
    ∃ k log, exec c.step s (List.replicate k (.access t)) = some { s with
      mem := (p.alone s.mem).2
      thread := Function.update s.thread t (.ret (p.alone s.mem).1)
      log := log }
  | .ret a, s, hp => by
    refine ⟨0, s.log, ?_⟩
    have hthread : Function.update s.thread t (.ret a) = s.thread := by
      rw [← hp]
      exact Function.update_eq_self t s.thread
    rw [Prog.alone, hthread]
    rfl
  | .read l k, s, hp => by
    obtain ⟨j, log, hrun⟩ := exec_alone t (k (s.mem l))
      { s with thread := Function.update s.thread t (k (s.mem l)) } (Function.update_self ..)
    rw [Function.update_idem] at hrun
    refine ⟨j + 1, log, ?_⟩
    rw [List.replicate_succ, exec_cons_eq_some]
    refine ⟨_, ?_, hrun⟩
    rw [Team.step, hp]
  | .write l v k, s, hp => by
    obtain ⟨j, log, hrun⟩ := exec_alone t k { s with
      mem := Function.update s.mem l v
      thread := Function.update s.thread t k
      log := (s.phase, t, l) :: s.log } (Function.update_self ..)
    rw [Function.update_idem] at hrun
    refine ⟨j + 1, log, ?_⟩
    rw [List.replicate_succ, exec_cons_eq_some]
    refine ⟨_, ?_, hrun⟩
    rw [Team.step, hp]

/-! ### A phase has one result -/

section Phase
variable (p : Fin n → Prog L V α) (m : ∀ l, V l)

/-- What thread `t` may find at a place because of the other threads. -/
def Others (t : Fin n) (l : L) (v : V l) : Prop := ∃ u ≠ t, (p u).Writes m l v

/-- No thread is affected by the others. -/
def Free : Prop := ∀ t, (p t).Unaffected (Others p m t) m

/-- Thread `t` is where it would be alone, and then it would have the memory `view`. -/
structure Position (s : Conf n L V α) (t : Fin n) (view : ∀ l, V l) : Prop where
  alone : (s.thread t).alone view = (p t).alone m
  unaffected : (s.thread t).Unaffected (Others p m t) view
  reads : ∀ l, (s.thread t).Reads view l → (p t).Reads m l
  writes : ∀ l v, (s.thread t).Writes view l v → (p t).Writes m l v
  mem : ∀ l, s.mem l = view l ∨ Others p m t l (s.mem l)
  log : ∀ l v, (p t).Writes m l v → (s.thread t).Writes view l v ∨ (s.phase, t, l) ∈ s.log

/-- Invariant of a phase. -/
structure Reached (s : Conf n L V α) : Prop where
  position : ∀ t, ∃ view, Position p m s t view
  rest : ∀ l, (∀ t v, ¬(p t).Writes m l v) → s.mem l = m l

variable {p m}

theorem Reached.new (hfree : Free p m) (hmem : s.mem = m) (hthread : s.thread = p) : Reached p m s := by
  subst hmem hthread
  exact ⟨fun t => ⟨s.mem, rfl, hfree t, fun _ h => h, fun _ _ h => h, fun _ => .inl rfl, fun _ _ h => .inl h⟩,
    fun _ _ => rfl⟩

/-- A step of another thread. -/
theorem Position.other {t u : Fin n} {view : ∀ l, V l} (h : Position p m s u view) (hphase : s'.phase = s.phase)
    (hthread : s'.thread u = s.thread u) (hmem : ∀ l, s'.mem l = s.mem l ∨ (p t).Writes m l (s'.mem l))
    (hlog : ∀ e ∈ s.log, e ∈ s'.log) (hne : t ≠ u) : Position p m s' u view where
  alone := by rw [hthread, h.alone]
  unaffected := by
    rw [hthread]
    exact h.unaffected
  reads := by
    rw [hthread]
    exact h.reads
  writes := by
    rw [hthread]
    exact h.writes
  mem l := by
    rcases hmem l with heq | hw
    · rw [heq]
      exact h.mem l
    · exact .inr ⟨t, hne, hw⟩
  log l v hw := by
    rw [hthread, hphase]
    exact (h.log l v hw).imp_right (hlog _)

theorem Reached.step {t : Fin n} (h : Reached p m s) (hs : c.step s (.access t) = some s') : Reached p m s' := by
  obtain ⟨view, ht⟩ := h.position t
  rcases step_access hs with ⟨l, k, hp, rfl⟩ | ⟨l, v, k, hp, rfl⟩
  · obtain ⟨halone, hunaff, hreads, hwrites, hmem, hlog⟩ := ht
    rw [hp] at halone hunaff hreads hwrites hlog
    -- the value is the one that the thread would find alone, or makes no difference
    have hk : k (s.mem l) = k (view l) := by
      rcases hmem l with heq | hE
      · rw [heq]
      · exact hunaff.1 _ hE
    refine ⟨fun u => ?_, h.rest⟩
    rcases eq_or_ne t u with rfl | hne
    · refine ⟨view, ?_⟩
      rw [hk]
      refine ⟨?_, ?_, ?_, ?_, hmem, ?_⟩ <;> dsimp only <;> rw [Function.update_self]
      · exact halone
      · exact hunaff.2
      · exact fun l' hr => hreads l' (.inr hr)
      · exact hwrites
      · exact hlog
    · obtain ⟨view', hu⟩ := h.position u
      exact ⟨view', hu.other (t := t) rfl (Function.update_of_ne hne.symm ..) (fun _ => .inl rfl)
        (fun _ he => he) hne⟩
  · obtain ⟨halone, hunaff, hreads, hwrites, hmem, hlog⟩ := ht
    rw [hp] at halone hunaff hreads hwrites hlog
    have hw : (p t).Writes m l v := hwrites l v (.inl rfl)
    have hother : ∀ l', Function.update s.mem l v l' = s.mem l' ∨
        (p t).Writes m l' (Function.update s.mem l v l') := by
      intro l'
      rcases eq_or_ne l' l with rfl | hl
      · rw [Function.update_self]
        exact .inr hw
      · exact .inl (Function.update_of_ne hl ..)
    refine ⟨fun u => ?_, fun l' hl' => ?_⟩
    · rcases eq_or_ne t u with rfl | hne
      · refine ⟨Function.update view l v, ?_, ?_, ?_, ?_, fun l' => ?_, fun l' v' hw' => ?_⟩ <;> dsimp only
        · rw [Function.update_self]
          exact halone
        · rw [Function.update_self]
          exact hunaff.2
        · rw [Function.update_self]
          exact hreads
        · rw [Function.update_self]
          exact fun l' v' hw' => hwrites l' v' (.inr hw')
        · rcases eq_or_ne l' l with rfl | hl
          · rw [Function.update_self, Function.update_self]
            exact .inl rfl
          · rw [Function.update_of_ne hl, Function.update_of_ne hl]
            exact hmem l'
        · rw [Function.update_self]
          rcases hlog l' v' hw' with (heq | hw') | hmem
          · obtain ⟨rfl, -⟩ := Sigma.mk.inj heq
            exact .inr List.mem_cons_self
          · exact .inl hw'
          · exact .inr (List.mem_cons_of_mem _ hmem)
      · obtain ⟨view', hu⟩ := h.position u
        exact ⟨view', hu.other rfl (Function.update_of_ne hne.symm ..) hother
          (fun _ he => List.mem_cons_of_mem _ he) hne⟩
    · exact ((hother l').resolve_right (hl' t _)).trans (h.rest l' hl')

theorem Reached.exec_replicate {t : Fin n} : ∀ {k : ℕ} {s s' : Conf n L V α}, Reached p m s →
    exec c.step s (List.replicate k (.access t)) = some s' → Reached p m s'
  | 0, s, s', h, hrun => Option.some.inj hrun ▸ h
  | k + 1, s, s', h, hrun => by
    rw [List.replicate_succ, exec_cons_eq_some] at hrun
    obtain ⟨s₁, hstep, hrun⟩ := hrun
    exact (h.step hstep).exec_replicate hrun

/-- At the barrier the results are those of the threads alone, and so is what they have written. -/
theorem Reached.arrived (h : Reached p m s) (hfree : Free p m) (hs : s.Arrived) :
    (∀ t, s.thread t = .ret ((p t).alone m).1) ∧ ∀ t l v, (p t).Writes m l v → s.mem l = ((p t).alone m).2 l := by
  have hret : ∀ t, ∃ a, s.thread t = .ret a := by
    intro t
    cases hp : s.thread t with
    | ret a => exact ⟨a, rfl⟩
    | read l k => exact absurd (hs t) (by simp [hp, Prog.result])
    | write l v k => exact absurd (hs t) (by simp [hp, Prog.result])
  refine ⟨fun t => ?_, fun t l v hw => ?_⟩
  · obtain ⟨a, ha⟩ := hret t
    obtain ⟨view, ht⟩ := h.position t
    rw [← ht.alone, ha]
    rfl
  · obtain ⟨a, ha⟩ := hret t
    obtain ⟨view, ht⟩ := h.position t
    rw [← ht.alone, ha]
    exact (ht.mem l).resolve_right ((hfree t).not_writes hw _)

/-- `r` are the results of the threads and `m'` is the memory when all of them have come to the barrier. -/
structure Joined (p : Fin n → Prog L V α) (m : ∀ l, V l) (r : Fin n → α) (m' : ∀ l, V l) : Prop where
  result : ∀ t, ((p t).alone m).1 = r t
  written : ∀ t l v, (p t).Writes m l v → ((p t).alone m).2 l = m' l
  rest : ∀ l, (∀ t v, ¬(p t).Writes m l v) → m l = m' l

/-- The order of the accesses makes no difference. -/
theorem Joined.eq {r : Fin n → α} {m' : ∀ l, V l} (h : Joined p m r m') (hreached : Reached p m s) (hfree : Free p m)
    (hs : s.Arrived) : s.mem = m' ∧ ∀ t, s.thread t = .ret (r t) := by
  obtain ⟨hret, hmem⟩ := hreached.arrived hfree hs
  refine ⟨funext fun l => ?_, fun t => h.result t ▸ hret t⟩
  by_cases hw : ∃ t v, (p t).Writes m l v
  · obtain ⟨t, v, hw⟩ := hw
    exact (hmem t l v hw).trans (h.written t l v hw)
  · push Not at hw
    exact (hreached.rest l hw).trans (h.rest l hw)

/-- When every thread keeps to its places of the memory. -/
theorem Free.of_within {R W : Fin n → L → Prop} (h : ∀ t, (p t).Within (R t) (W t) m)
    (hdisj : ∀ t u l, u ≠ t → W u l → ¬(R t l ∨ W t l)) : Free p m := by
  refine fun t => (h t).unaffected ?_
  rintro l hl v ⟨u, hne, hw⟩
  exact hdisj t u l hne ((h u).writes l v hw) hl

theorem Joined.of_within {R W : Fin n → L → Prop} {r : Fin n → α} {m' : ∀ l, V l}
    (h : ∀ t, (p t).Within (R t) (W t) m) (hresult : ∀ t, ((p t).alone m).1 = r t)
    (hmem : ∀ t l, W t l → ((p t).alone m).2 l = m' l) (hrest : ∀ l, (∀ t, ¬W t l) → m l = m' l) :
    Joined p m r m' := by
  refine ⟨hresult, fun t l v hw => hmem t l ((h t).writes l v hw), fun l hl => ?_⟩
  by_cases hW : ∃ t, W t l
  · obtain ⟨t, hW⟩ := hW
    rw [← hmem t l hW]
    exact ((p t).alone_of_not_writes m (hl t)).symm
  · push Not at hW
    exact hrest l hW

/-- The threads one after another. `S t` is the memory before thread `t`. -/
theorem reached_inTurn {S : ℕ → ∀ l, V l} {r : Fin n → α} (h : ∀ t : Fin n, (p t).alone (S t) = (r t, S (t + 1)))
    (hfree : Free p (S 0)) : ∀ k ≤ n, ∃ s, Reached p (S 0) s ∧ s.mem = S k ∧
      ∀ t : Fin n, s.thread t = if t < k then .ret (r t) else p t
  | 0, _ => ⟨⟨0, S 0, p, []⟩, .new hfree rfl rfl, rfl, fun t => (if_neg (Nat.not_lt_zero t)).symm⟩
  | k + 1, hk => by
    obtain ⟨s, hreached, hmem, hthread⟩ := reached_inTurn h hfree k (Nat.le_of_succ_le hk)
    have hp : s.thread ⟨k, hk⟩ = p ⟨k, hk⟩ := (hthread ⟨k, hk⟩).trans (if_neg (Nat.lt_irrefl k))
    obtain ⟨j, log, hrun⟩ := exec_alone (c := ⟨0, fun _ t _ => p t⟩) ⟨k, hk⟩ _ s hp
    have halone : (p ⟨k, hk⟩).alone s.mem = (r ⟨k, hk⟩, S (k + 1)) := by
      rw [hmem]
      exact h ⟨k, hk⟩
    rw [halone] at hrun
    refine ⟨_, hreached.exec_replicate hrun, rfl, fun t => ?_⟩
    dsimp only
    rcases eq_or_ne t ⟨k, hk⟩ with rfl | hne
    · rw [Function.update_self, if_pos (Nat.lt_succ_self k)]
    · have hval : (t : ℕ) ≠ k := fun heq => hne (Fin.ext heq)
      rw [Function.update_of_ne hne, hthread t]
      exact if_congr ⟨Nat.lt_succ_of_lt, fun hlt => by omega⟩ rfl rfl

/-- The threads one after another do what they do in any other order. -/
theorem Joined.of_inTurn {S : ℕ → ∀ l, V l} {r : Fin n → α} (h : ∀ t : Fin n, (p t).alone (S t) = (r t, S (t + 1)))
    (hfree : Free p (S 0)) : Joined p (S 0) r (S n) := by
  obtain ⟨s, hreached, hmem, hthread⟩ := reached_inTurn h hfree n le_rfl
  have hret : ∀ t, s.thread t = .ret (r t) := fun t => (hthread t).trans (if_pos t.isLt)
  obtain ⟨hret', hmem'⟩ := hreached.arrived hfree fun t => by rw [hret t]; rfl
  refine ⟨fun t => Prog.ret.inj ((hret' t).symm.trans (hret t)), fun t l v hw => ?_, fun l hl => ?_⟩
  · rw [← hmem' t l v hw, hmem]
  · rw [← hreached.rest l hl, hmem]

end Phase

/-! ### From barrier to barrier -/

/-- `M j` is the memory at the start of phase `j`, and `A j` are the results of the threads. -/
structure Team.Plan (c : Team n L V α) (M : ℕ → ∀ l, V l) (A : ℕ → Fin n → α) : Prop where
  free : ∀ j < c.phases, Free (fun t => c.body j t (A j t)) (M j)
  joined : ∀ j < c.phases, Joined (fun t => c.body j t (A j t)) (M j) (A (j + 1)) (M (j + 1))

/-- Invariant of a team with a plan. -/
structure Team.Planned (c : Team n L V α) (M : ℕ → ∀ l, V l) (A : ℕ → Fin n → α) (s : Conf n L V α) : Prop where
  lt : s.phase < c.phases
  reached : Reached (fun t => c.body s.phase t (A s.phase t)) (M s.phase) s
  earlier : ∀ j < s.phase, ∀ t l v, (c.body j t (A j t)).Writes (M j) l v → (j, t, l) ∈ s.log

variable {M : ℕ → ∀ l, V l} {A : ℕ → Fin n → α}

theorem Team.Plan.start (h : c.Plan M A) (hpos : 0 < c.phases) : c.Planned M A (c.start (M 0) (A 0)) :=
  ⟨hpos, .new (h.free 0 hpos) rfl rfl, nofun⟩

theorem Team.Plan.arrived (h : c.Plan M A) (hs : c.Planned M A s) (harrived : s.Arrived) :
    s.mem = M (s.phase + 1) ∧ ∀ t, s.thread t = .ret (A (s.phase + 1) t) :=
  (h.joined s.phase hs.lt).eq hs.reached (h.free s.phase hs.lt) harrived

theorem Team.Plan.step (h : c.Plan M A) (hs : c.Planned M A s) {a : Act n} (hstep : c.step s a = some s') :
    c.Planned M A s' := by
  cases a with
  | access t =>
    have hreached := hs.reached.step hstep
    rcases step_access hstep with ⟨l, k, -, rfl⟩ | ⟨l, v, k, -, rfl⟩
    · exact ⟨hs.lt, hreached, hs.earlier⟩
    · exact ⟨hs.lt, hreached, fun j hj u l' v' hw => List.mem_cons_of_mem _ (hs.earlier j hj u l' v' hw)⟩
  | barrier =>
    obtain ⟨hlt, harrived, rfl⟩ := step_barrier hstep
    obtain ⟨hmem, hret⟩ := h.arrived hs harrived
    refine ⟨hlt, .new (h.free _ hlt) hmem (funext fun t => ?_), fun j hj t l v hw => ?_⟩
    · dsimp only
      rw [hret t]
      rfl
    · rcases Nat.lt_succ_iff_lt_or_eq.1 hj with hj | rfl
      · exact hs.earlier j hj t l v hw
      · obtain ⟨view, ht⟩ := hs.reached.position t
        have hdone := ht.log l v hw
        rw [hret t] at hdone
        exact hdone.resolve_left id

theorem Team.Plan.exec (h : c.Plan M A) (hpos : 0 < c.phases) {as : List (Act n)}
    (hrun : exec c.step (c.start (M 0) (A 0)) as = some s) : c.Planned M A s :=
  exec_inv (fun _ _ _ hs hstep => h.step hs hstep) (h.start hpos) hrun

/-- Whatever the order of the accesses, the threads end with the results and the memory of the plan. -/
theorem Team.Plan.finished (h : c.Plan M A) (hs : c.Planned M A s) (hend : c.Finished s) :
    s.mem = M c.phases ∧ ∀ t, s.thread t = .ret (A c.phases t) := by
  rw [← hend.1]
  exact h.arrived hs hend.2

/-- A thread reads only what it would read alone. -/
theorem Team.Planned.reads (hs : c.Planned M A s) {t : Fin n} {l : L} {k : V l → Prog L V α}
    (hread : s.thread t = .read l k) : (c.body s.phase t (A s.phase t)).Reads (M s.phase) l := by
  obtain ⟨view, ht⟩ := hs.reached.position t
  refine ht.reads l ?_
  rw [hread]
  exact .inl rfl

/-! ### No thread waits forever -/

/-- The threads can always get to the barrier. -/
theorem exists_arrived (s : Conf n L V α) : ∃ as s', exec c.step s as = some s' ∧ s'.phase = s.phase ∧
    s'.Arrived := by
  suffices h : ∀ k ≤ n, ∃ as s', exec c.step s as = some s' ∧ s'.phase = s.phase ∧
      ∀ t : Fin n, t < k → (s'.thread t).result.isSome = true by
    obtain ⟨as, s', hrun, hphase, hret⟩ := h n le_rfl
    exact ⟨as, s', hrun, hphase, fun t => hret t t.isLt⟩
  intro k
  induction k with
  | zero => exact fun _ => ⟨[], s, rfl, rfl, fun t ht => absurd ht (Nat.not_lt_zero t)⟩
  | succ k ih =>
    intro hk
    obtain ⟨as, s₁, hrun, hphase, hret⟩ := ih (Nat.le_of_succ_le hk)
    obtain ⟨j, log, hrun'⟩ := exec_alone (c := c) ⟨k, hk⟩ _ s₁ rfl
    have hall : exec c.step s (as ++ List.replicate j (.access ⟨k, hk⟩)) =
        exec c.step s₁ (List.replicate j (.access ⟨k, hk⟩)) := by rw [exec_append, hrun, Option.bind_some]
    refine ⟨_, _, hall.trans hrun', hphase, fun t ht => ?_⟩
    dsimp only
    rcases eq_or_ne t ⟨k, hk⟩ with rfl | hne
    · rw [Function.update_self]
      rfl
    · have hval : (t : ℕ) ≠ k := fun heq => hne (Fin.ext heq)
      rw [Function.update_of_ne hne]
      exact hret t (by omega)

/-- A run can always be continued to its end. -/
theorem exists_finished {s : Conf n L V α} (hs : s.phase < c.phases) :
    ∃ as s', exec c.step s as = some s' ∧ c.Finished s' := by
  obtain ⟨as, s₁, hrun, hphase, harrived⟩ := exists_arrived (c := c) s
  by_cases hlast : s.phase + 1 = c.phases
  · exact ⟨as, s₁, hrun, hphase ▸ hlast, harrived⟩
  · have hlt : s₁.phase + 1 < c.phases := by omega
    obtain ⟨as', s', hrun', hend⟩ := exists_finished (s := { s₁ with
      phase := s₁.phase + 1
      thread := fun t => (s₁.thread t).bind (c.body (s₁.phase + 1) t) }) hlt
    refine ⟨as ++ .barrier :: as', s', ?_, hend⟩
    rw [exec_append, hrun, Option.bind_some, exec_cons_eq_some]
    exact ⟨_, if_pos ⟨hlt, harrived⟩, hrun'⟩
termination_by c.phases - s.phase

end Turkey.Barriers
