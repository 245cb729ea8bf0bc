import Mathlib.Algebra.BigOperators.Group.Finset.Sigma
import Mathlib.Data.Finset.Card
import Mathlib.Data.List.Range
import Mathlib.Data.List.Nodup
import Mathlib.Order.Interval.Finset.Nat
import Mathlib.Order.Monotone.Basic

/-! Places that are divided among workers. Each worker has the places from its `beg` up to its `stop`.
    The places `0 .. total-1` are partitioned when the parts are disjoint and nothing is left out; this is
    so when the parts lie between the cuts of a rising sequence from 0 to `total`. The workers
    take their places in any order among each other, so that a run is a permutation of what they do. -/

namespace Turkey.WorkSplit

/-- Workers, and the ends of their parts. -/
structure Split where
  workers : ℕ
  beg : ℕ → ℕ
  stop : ℕ → ℕ

namespace Split
variable (w : Split)

/-- The part of a worker. -/
def part (t : ℕ) : Finset ℕ := Finset.Ico (w.beg t) (w.stop t)

/-- The loop of a worker. -/
def loop (t : ℕ) : List ℕ := List.range' (w.beg t) (w.stop t - w.beg t)

/-- What all workers do. -/
def iterations : List ℕ := (List.range w.workers).flatMap w.loop

/-- The parts are disjoint, and make up the whole. -/
structure Partition (total : ℕ) : Prop where
  disjoint : ∀ t < w.workers, ∀ u < w.workers, t ≠ u → Disjoint (w.part t) (w.part u)
  union : (Finset.range w.workers).biUnion w.part = Finset.range total

/-- No worker has two places more than another one. -/
def Balanced : Prop :=
  ∀ t < w.workers, ∀ u < w.workers, (w.part t).card ≤ (w.part u).card + 1

variable {w}

theorem mem_loop {t i : ℕ} : i ∈ w.loop t ↔ i ∈ w.part t := by
  rw [loop, part, List.mem_range'_1, Finset.mem_Ico]
  omega

theorem mem_iterations {i : ℕ} : i ∈ w.iterations ↔ i ∈ (Finset.range w.workers).biUnion w.part := by
  simp [iterations, mem_loop]

/-- Between the cuts of a rising sequence nothing is lost or taken twice. -/
theorem partition_of_cuts {total : ℕ} {cut : ℕ → ℕ} (mono : Monotone cut) (first : cut 0 = 0)
    (last : cut w.workers = total) (hbeg : ∀ t < w.workers, w.beg t = cut t)
    (hstop : ∀ t < w.workers, w.stop t = cut (t + 1)) : w.Partition total := by
  have hpart : ∀ t < w.workers, w.part t = Finset.Ico (cut t) (cut (t + 1)) := fun t ht => by
    rw [part, hbeg t ht, hstop t ht]
  have hunion : ∀ n ≤ w.workers, (Finset.range n).biUnion w.part = Finset.range (cut n) := by
    intro n hn
    induction n with
    | zero => simp [first]
    | succ n ih =>
      rw [Finset.range_add_one, Finset.biUnion_insert, ih (by omega), hpart n (by omega)]
      ext i
      have := mono (Nat.le_add_right n 1)
      simp only [Finset.mem_union, Finset.mem_Ico, Finset.mem_range]
      omega
  have hapart : ∀ t < w.workers, ∀ u < w.workers, t < u → Disjoint (w.part t) (w.part u) := by
    intro t ht u hu htu
    rw [hpart t ht, hpart u hu, Finset.disjoint_left]
    intro i hi hi'
    have := mono (show t + 1 ≤ u from htu)
    rw [Finset.mem_Ico] at hi hi'
    omega
  refine ⟨fun t ht u hu hne => ?_, last ▸ hunion _ le_rfl⟩
  rcases Nat.lt_or_gt_of_ne hne with hlt | hlt
  · exact hapart t ht u hu hlt
  · exact (hapart u hu t ht hlt).symm

/-- The parts of a partition have as many places as there are. -/
theorem Partition.sum_card {total : ℕ} (h : w.Partition total) :
    ∑ t ∈ Finset.range w.workers, (w.part t).card = total := by
  rw [← Finset.card_biUnion, h.union, Finset.card_range]
  intro t ht u hu hne
  exact h.disjoint t (Finset.mem_range.1 ht) u (Finset.mem_range.1 hu) hne

theorem Partition.nodup {total : ℕ} (h : w.Partition total) : w.iterations.Nodup := by
  refine List.nodup_flatMap.2 ⟨fun t _ => List.nodup_range', ?_⟩
  refine List.nodup_range.imp_of_mem fun ht hu hne => ?_
  intro i hi hi'
  exact Finset.disjoint_left.1 (h.disjoint _ (List.mem_range.1 ht) _ (List.mem_range.1 hu) hne)
    (mem_loop.1 hi) (mem_loop.1 hi')

/-- Over all workers every place is taken once. -/
theorem Partition.perm {total : ℕ} (h : w.Partition total) : w.iterations.Perm (List.range total) := by
  refine (List.perm_ext_iff_of_nodup h.nodup List.nodup_range).2 fun i => ?_
  rw [mem_iterations, h.union, Finset.mem_range, List.mem_range]

end Split

end Turkey.WorkSplit
