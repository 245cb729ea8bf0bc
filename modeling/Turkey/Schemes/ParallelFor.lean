import Mathlib.Algebra.BigOperators.Group.Finset.Piecewise
import Mathlib.Algebra.BigOperators.Group.List.Basic
import Mathlib.Data.List.Induction
import Mathlib.Data.List.Nodup
import Mathlib.Data.List.Range
import Mathlib.Logic.Function.Basic

/-! A loop over `num` places that is divided among `nproc` threads: thread `pid` has a block of neighbouring
    places, and the last thread has the remainder as well. An iteration is a thread and a place. The threads
    do their iterations in any order among each other, so that a run of the loop is some permutation of the
    iterations. -/

namespace Turkey.ParallelFor

/-- A loop over `num` places by `nproc` threads. -/
structure Blocks where
  num : ℕ
  nproc : ℕ
  pos : 0 < nproc

namespace Blocks
variable (b : Blocks)

/-- Where the block of a thread begins. -/
def k1 (pid : ℕ) : ℕ := b.num / b.nproc * pid

/-- Where the block of a thread ends; the last one takes what is left over. -/
def k2 (pid : ℕ) : ℕ := if pid = b.nproc - 1 then b.num else b.k1 pid + b.num / b.nproc

/-- The places of a thread. -/
def block (pid : ℕ) : List ℕ := List.range' (b.k1 pid) (b.k2 pid - b.k1 pid)

/-- All places, each with its thread. -/
def iterations : List (ℕ × ℕ) := (List.range b.nproc).flatMap fun pid => (b.block pid).map (Prod.mk pid)

/-- The same places, all for one thread. -/
def serial : Blocks := ⟨b.num, 1, Nat.one_pos⟩

/-- An order in which the iterations may happen. -/
structure Order where
  run : List (ℕ × ℕ)
  perm : run.Perm b.iterations

/-- One thread after the other. -/
def Order.byThread : b.Order := ⟨b.iterations, .refl _⟩

theorem blocks_eq : ∀ m < b.nproc, (List.range m).flatMap b.block = List.range (b.k1 m)
  | 0, _ => rfl
  | m + 1, h => by
    have hm : m ≠ b.nproc - 1 := by omega
    have next : b.k1 (m + 1) = b.k1 m + b.num / b.nproc := Nat.mul_succ ..
    rw [List.range_succ, List.flatMap_append, blocks_eq m (by omega), next, List.range_add]
    simp [block, k2, hm, List.range'_eq_map_range]

theorem map_snd_iterations : b.iterations.map Prod.snd = List.range b.num := by
  obtain ⟨m, hm⟩ := Nat.exists_eq_succ_of_ne_zero b.pos.ne'
  have last : b.block m = List.range' (b.k1 m) (b.num - b.k1 m) := by simp [block, k2, hm]
  have le : b.k1 m ≤ b.num := by
    calc b.num / b.nproc * m ≤ b.num / b.nproc * b.nproc := Nat.mul_le_mul_left _ (by omega)
      _ ≤ b.num := Nat.div_mul_le_self ..
  have places : b.iterations.map Prod.snd = (List.range b.nproc).flatMap b.block := by
    simp [iterations, List.map_flatMap, Function.comp_def]
  rw [places, hm, List.range_succ, List.flatMap_append, b.blocks_eq m (by omega), List.flatMap_singleton, last,
    List.range'_eq_map_range, ← List.range_add, Nat.add_sub_cancel' le]

variable {b}

theorem mem_block {pid i : ℕ} : i ∈ b.block pid ↔ b.k1 pid ≤ i ∧ i < b.k2 pid := by
  rw [block, List.mem_range'_1]
  omega

theorem mem_iterations {q : ℕ × ℕ} : q ∈ b.iterations ↔ q.1 < b.nproc ∧ q.2 ∈ b.block q.1 := by
  rw [iterations, List.mem_flatMap]
  constructor
  · rintro ⟨pid, hpid, hq⟩
    obtain ⟨i, hi, rfl⟩ := List.mem_map.1 hq
    exact ⟨List.mem_range.1 hpid, hi⟩
  · rintro ⟨hpid, hi⟩
    exact ⟨q.1, List.mem_range.2 hpid, List.mem_map.2 ⟨q.2, hi, rfl⟩⟩

theorem lt_num {pid i : ℕ} (hpid : pid < b.nproc) (hi : i ∈ b.block pid) : i < b.num := by
  have hmem := List.mem_map_of_mem (f := Prod.snd) (mem_iterations.2 (show (pid, i).1 < b.nproc ∧ _ from ⟨hpid, hi⟩))
  rwa [b.map_snd_iterations, List.mem_range] at hmem

theorem k1_le_k2 {pid : ℕ} (hpid : pid < b.nproc) : b.k1 pid ≤ b.k2 pid := by
  rw [k2]
  split_ifs
  · calc b.num / b.nproc * pid ≤ b.num / b.nproc * b.nproc := Nat.mul_le_mul_left _ hpid.le
      _ ≤ b.num := Nat.div_mul_le_self ..
  · exact Nat.le_add_right ..

/-- Every place is in the block of one thread. -/
theorem exists_block {i : ℕ} (hi : i < b.num) : ∃ pid < b.nproc, i ∈ b.block pid := by
  rw [← List.mem_range, ← b.map_snd_iterations] at hi
  obtain ⟨q, hq, rfl⟩ := List.mem_map.1 hi
  exact ⟨q.1, mem_iterations.1 hq⟩

theorem block_inj {p q i : ℕ} (hp : p < b.nproc) (hq : q < b.nproc) (hi : i ∈ b.block p) (hi' : i ∈ b.block q) :
    p = q := by
  have hnd : (b.iterations.map Prod.snd).Nodup := by
    rw [b.map_snd_iterations]
    exact List.nodup_range
  have heq := List.inj_on_of_nodup_map hnd (mem_iterations.2 (show (p, i).1 < b.nproc ∧ _ from ⟨hp, hi⟩))
    (mem_iterations.2 (show (q, i).1 < b.nproc ∧ _ from ⟨hq, hi'⟩)) rfl
  exact congrArg Prod.fst heq

/-- The share of a thread in the iterations of the first threads. -/
theorem sum_share {M : Type*} [AddCommMonoid M] (b : Blocks) (pid : ℕ) (f : ℕ × ℕ → M) : ∀ m : ℕ,
    (((List.range m).flatMap fun p => (b.block p).map (Prod.mk p)).map fun q => if q.1 = pid then f q else 0).sum =
      if pid < m then ((b.block pid).map fun i => f (pid, i)).sum else 0
  | 0 => by simp
  | m + 1 => by
    rw [List.range_succ, List.flatMap_append, List.map_append, List.sum_append, sum_share b pid f m,
      List.flatMap_singleton, List.map_map]
    rcases Nat.lt_trichotomy pid m with hlt | rfl | hlt
    · have hne : m ≠ pid := by omega
      simp [hlt, Nat.lt_succ_of_lt hlt, hne, Function.comp_def]
    · simp [Function.comp_def]
    · have hne : m ≠ pid := by omega
      have hle : ¬pid < m + 1 := by omega
      simp [hle, Nat.lt_asymm hlt, hne, Function.comp_def]

variable (o : b.Order)

theorem Order.perm_range : (o.run.map Prod.snd).Perm (List.range b.num) := by
  rw [← b.map_snd_iterations]
  exact o.perm.map _

theorem Order.nodup : (o.run.map Prod.snd).Nodup := o.perm_range.nodup_iff.2 List.nodup_range

theorem Order.mem_iff {i : ℕ} : i ∈ o.run.map Prod.snd ↔ i < b.num := by
  rw [o.perm_range.mem_iff, List.mem_range]

theorem Order.fst_lt {q : ℕ × ℕ} (h : q ∈ o.run) : q.1 < b.nproc := by
  obtain ⟨pid, hpid, hq⟩ := List.mem_flatMap.1 (o.perm.mem_iff.1 h)
  obtain ⟨i, -, rfl⟩ := List.mem_map.1 hq
  exact List.mem_range.1 hpid

theorem Order.mem_of_mem (o' : b.Order) {q : ℕ × ℕ} (h : q ∈ o.run) : q ∈ o'.run :=
  (o.perm.trans o'.perm.symm).mem_iff.1 h

/-- What the iterations add up to does not depend on the thread or the order. -/
theorem Order.sum_snd {M : Type*} [AddCommMonoid M] (f : ℕ → M) :
    (o.run.map fun q => f q.2).sum = ∑ i ∈ Finset.range b.num, f i := by
  have places : (o.run.map fun q => f q.2) = (o.run.map Prod.snd).map f := by rw [List.map_map]; rfl
  rw [places, (o.perm_range.map f).sum_eq]
  exact (Multiset.sum_coe _).symm

/-- The share of a thread. -/
theorem Order.sum_thread {M : Type*} [AddCommMonoid M] {pid : ℕ} (hpid : pid < b.nproc) (f : ℕ × ℕ → M) :
    (o.run.map fun q => if q.1 = pid then f q else 0).sum = ((b.block pid).map fun i => f (pid, i)).sum := by
  rw [(o.perm.map _).sum_eq, iterations, sum_share, if_pos hpid]

/-- The shares of the threads add up to the whole. -/
theorem Order.sum_threads {M : Type*} [AddCommMonoid M] (f : ℕ × ℕ → M) :
    ∑ pid ∈ Finset.range b.nproc, (o.run.map fun q => if q.1 = pid then f q else 0).sum = (o.run.map f).sum := by
  have shares : ∀ l : List (ℕ × ℕ), (∀ q ∈ l, q.1 < b.nproc) →
      ∑ pid ∈ Finset.range b.nproc, (l.map fun q => if q.1 = pid then f q else 0).sum = (l.map f).sum := by
    intro l hl
    induction l with
    | nil => simp
    | cons q l ih =>
      rw [List.forall_mem_cons] at hl
      simp only [List.map_cons, List.sum_cons, Finset.sum_add_distrib, ih hl.2, Finset.sum_ite_eq,
        Finset.mem_range, hl.1, if_true]
  exact shares o.run fun q => o.fst_lt

end Blocks

/-! ### Loops -/

/-- The invariant of a loop speaks of the iterations that are done. -/
theorem foldl_inv {α β : Type*} {f : β → α → β} {I : List α → β → Prop} {b : β} (new : I [] b)
    (step : ∀ seen a b, I seen b → I (seen ++ [a]) (f b a)) (l : List α) : I l (l.foldl f b) := by
  induction l using List.reverseRecOn with
  | nil => exact new
  | append_singleton l a ih =>
    rw [List.foldl_append]
    exact step l a _ ih

theorem foldl_add {M : Type*} [AddCommMonoid M] (f : ℕ → M) (z : M) : ∀ n,
    (List.range n).foldl (fun a p => a + f p) z = z + ∑ p ∈ Finset.range n, f p
  | 0 => by simp
  | n + 1 => by
    rw [List.range_succ, List.foldl_append, foldl_add f z n, Finset.sum_range_succ, ← add_assoc]
    rfl

/-- A loop that replaces one entry of an array in every iteration. -/
def forEach {α κ β : Type*} [DecidableEq κ] (key : α → κ) (g : α → β → β) (l : List α) (w : κ → β) : κ → β :=
  l.foldl (fun w a => Function.update w (key a) (g a (w (key a)))) w

section ForEach
variable {α κ β : Type*} [DecidableEq κ] {key : α → κ} {g : α → β → β} {l : List α} {w : κ → β}

theorem forEach_of_notMem {k : κ} (h : k ∉ l.map key) : forEach key g l w k = w k := by
  induction l generalizing w with
  | nil => rfl
  | cons a l ih =>
    rw [List.map_cons, List.mem_cons, not_or] at h
    rw [forEach, List.foldl_cons]
    exact (ih h.2).trans (Function.update_of_ne h.1 ..)

theorem forEach_of_mem (nodup : (l.map key).Nodup) {a : α} (h : a ∈ l) :
    forEach key g l w (key a) = g a (w (key a)) := by
  induction l generalizing w with
  | nil => cases h
  | cons a' l ih =>
    rw [List.map_cons, List.nodup_cons] at nodup
    rw [forEach, List.foldl_cons]
    rcases List.mem_cons.1 h with rfl | h
    · exact (forEach_of_notMem nodup.1).trans (Function.update_self ..)
    · have other : key a ≠ key a' := fun heq => nodup.1 (heq ▸ List.mem_map_of_mem h)
      refine (ih nodup.2 h).trans ?_
      rw [Function.update_of_ne other]

end ForEach

end Turkey.ParallelFor
