import Mathlib.Algebra.Order.Ring.Nat
import Mathlib.Data.List.Flatten
import Mathlib.Data.Multiset.Bind
import Turkey.Schemes.ParallelFor
import Turkey.Schemes.WorkSplit

/-! The loops of the three blackscholes programs over the options. `main_turkey` and `main_equi` divide the options
    into chunks, `main_pthread` among its threads; all three give every part the same number of options,
    which is rounded down. `main_pthread` keeps its threads in a table, which it also uses to wait for them.
    `main_turkey` and `main_pthread` first copy the options into five arrays in one buffer; `main_equi` has none.

    The price is a parameter: it is a function of the option. `main_equi` prices one and the same option over
    and over and stores nothing; there an entry says whether the price has been computed. -/

namespace Turkey.Blackscholes
open Turkey.WorkSplit

inductive Program where
  | turkey
  | equi
  | pthread
  deriving DecidableEq

def kNumWorkChunks : ℕ := 1024

/-- `MAX_THREADS` -/
def maxThreads : ℕ := 128

/-- `NUM_RUNS` -/
def numRuns : ℕ := 100

/-- The number of chunks, or of threads, once `main` has reduced it. -/
def Program.workers (numOptions nThreads : ℕ) : Program → ℕ
  | .turkey => if kNumWorkChunks > numOptions then numOptions else kNumWorkChunks
  | .equi => min numOptions kNumWorkChunks
  | .pthread => if nThreads > numOptions then numOptions else nThreads

/-- `start` in `bs_thread` -/
def start (numOptions workers tid : ℕ) : ℕ := tid * (numOptions / workers)

/-- `end` in `bs_thread` -/
def Program.stop (numOptions workers tid : ℕ) : Program → ℕ
  | .equi => min numOptions (start numOptions workers tid + numOptions / workers)
  | _ => start numOptions workers tid + numOptions / workers

def Program.split (p : Program) (numOptions nThreads : ℕ) : Split where
  workers := p.workers numOptions nThreads
  beg := start numOptions (p.workers numOptions nThreads)
  stop := fun tid => p.stop numOptions (p.workers numOptions nThreads) tid

/-- What `bs_thread` evaluates, over all chunks or threads: in each of the runs the options of the part. -/
def evaluations (w : Split) : List (ℕ × ℕ) :=
  (List.range w.workers).flatMap fun tid => (List.range numRuns).flatMap fun j => (w.loop tid).map (Prod.mk j)

/-- The prices after some evaluations. -/
def prices {F : Type} (price : ℕ → F) (run : List (ℕ × ℕ)) : ℕ → Option F :=
  run.foldl (fun prices q => Function.update prices q.2 (some (price q.2))) fun _ => none

/-! ### The table of threads -/

/-- The search in `_M4_threadsTableAllocated`; `MAX_THREADS` when nothing is free. -/
def freeSlot (allocated : List Bool) : ℕ := allocated.findIdx fun a => !a

/-- The table once the first `n` threads are there; `none` when one has been put behind its end. -/
def createThreads : ℕ → Option (List Bool)
  | 0 => some (List.replicate maxThreads false)
  | n + 1 => (createThreads n).bind fun allocated =>
    if freeSlot allocated < maxThreads then some (allocated.set (freeSlot allocated) true) else none

/-- All parts have been worked off when the output is written. The pools wait for all chunks; `main_pthread` waits
    for the threads before the first free slot. -/
def Program.Joins (numOptions nThreads : ℕ) : Program → Prop
  | .pthread => ∃ allocated, createThreads (Program.pthread.workers numOptions nThreads) = some allocated ∧
      freeSlot allocated = Program.pthread.workers numOptions nThreads
  | _ => True

theorem freeSlot_replicate (n m : ℕ) : freeSlot (List.replicate n true ++ List.replicate m false) = n := by
  induction n with
  | zero => cases m <;> simp [freeSlot, List.replicate_succ, List.findIdx_cons]
  | succ n ih =>
    rw [freeSlot] at ih ⊢
    simp [List.replicate_succ, List.findIdx_cons, ih]

theorem createThreads_of_le : ∀ {n : ℕ}, n ≤ maxThreads →
    createThreads n = some (List.replicate n true ++ List.replicate (maxThreads - n) false)
  | 0, _ => rfl
  | n + 1, h => by
    obtain ⟨m, hm⟩ : ∃ m, maxThreads - n = m + 1 := ⟨maxThreads - n - 1, by omega⟩
    have hm' : maxThreads - (n + 1) = m := by omega
    rw [createThreads, createThreads_of_le (by omega), Option.bind_some, freeSlot_replicate,
      if_pos (show n < maxThreads from h), hm, hm']
    rw [List.set_append_right _ _ (by simp), List.length_replicate, Nat.sub_self, List.replicate_succ,
      List.set_cons_zero, List.replicate_succ', List.append_assoc, List.singleton_append]

theorem createThreads_of_gt {n : ℕ} (h : maxThreads < n) : createThreads n = none := by
  induction n, h using Nat.le_induction with
  | base =>
    rw [createThreads, createThreads_of_le le_rfl, Option.bind_some, freeSlot_replicate, if_neg (lt_irrefl _)]
  | succ n _ ih => rw [createThreads, ih, Option.bind_none]

theorem joins_iff (p : Program) (numOptions nThreads : ℕ) :
    p.Joins numOptions nThreads ↔ (p = .pthread → p.workers numOptions nThreads ≤ maxThreads) := by
  cases p with
  | turkey => simp [Program.Joins]
  | equi => simp [Program.Joins]
  | pthread =>
    simp only [Program.Joins, forall_const]
    constructor
    · rintro ⟨allocated, hcreate, -⟩
      by_contra hgt
      rw [createThreads_of_gt (not_le.1 hgt)] at hcreate
      cases hcreate
    · intro hle
      exact ⟨_, createThreads_of_le hle, freeSlot_replicate ..⟩

/-! ### The buffer of the options -/

/-- `PAD` -/
def pad : ℕ := 256

/-- The bytes that are asked for: `5 * numOptions` is an `int`, and the rest of the product and the sum are `size_t`. -/
def bufferBytes (numOptions : ℕ) : ℕ :=
  (((5 * numOptions : ℤ).bmod (2 ^ 32) * 4 + (pad : ℤ)) % 2 ^ 64).toNat

/-- `malloc`, which never hands out more than `PTRDIFF_MAX` bytes, can give the buffer, and the five arrays behind the
    padding fit into it. -/
def Program.Buffered (numOptions : ℕ) : Program → Prop
  | .equi => True
  | _ => bufferBytes numOptions < 2 ^ 63 ∧ pad + 5 * numOptions * 4 ≤ bufferBytes numOptions

theorem bufferBytes_iff (numOptions : ℕ) : bufferBytes numOptions < 2 ^ 63 ∧
    pad + 5 * numOptions * 4 ≤ bufferBytes numOptions ↔ 5 * numOptions < 2 ^ 31 := by
  have hle := Int.le_bmod (x := 5 * numOptions) (m := 2 ^ 32) (by omega)
  have hlt := Int.bmod_lt (x := 5 * numOptions) (m := 2 ^ 32) (by omega)
  unfold bufferBytes pad
  rw [Nat.cast_ofNat]
  constructor
  · rintro ⟨hmax, hfits⟩
    omega
  · intro hsmall
    rw [Int.bmod_eq_of_le (by omega) (by omega), Int.emod_eq_of_lt (by omega) (by omega)]
    omega

theorem buffered_iff (p : Program) (numOptions : ℕ) :
    p.Buffered numOptions ↔ (p ≠ .equi → 5 * numOptions < 2 ^ 31) := by
  cases p with
  | equi => simp [Program.Buffered]
  | turkey => simpa [Program.Buffered] using bufferBytes_iff numOptions
  | pthread => simpa [Program.Buffered] using bufferBytes_iff numOptions

/-! ### The parts -/

variable {p : Program} {numOptions nThreads : ℕ}

/-- The bound of `main_equi` is never needed. -/
theorem stop_eq {t : ℕ} (ht : t < p.workers numOptions nThreads) :
    (p.split numOptions nThreads).stop t = (t + 1) * (numOptions / p.workers numOptions nThreads) := by
  have hle : (t + 1) * (numOptions / p.workers numOptions nThreads) ≤ numOptions :=
    calc (t + 1) * (numOptions / p.workers numOptions nThreads)
        ≤ p.workers numOptions nThreads * (numOptions / p.workers numOptions nThreads) := Nat.mul_le_mul_right _ ht
      _ ≤ numOptions := Nat.mul_div_le ..
  rw [Nat.succ_mul] at hle ⊢
  cases p with
  | equi => exact min_eq_right hle
  | _ => rfl

theorem partition_iff : (p.split numOptions nThreads).Partition numOptions ↔
    p.workers numOptions nThreads ∣ numOptions := by
  constructor
  · intro h
    have hcard : ∀ t ∈ Finset.range (p.workers numOptions nThreads), ((p.split numOptions nThreads).part t).card =
        numOptions / p.workers numOptions nThreads := fun t ht => by
      rw [Split.part, Nat.card_Ico, stop_eq (Finset.mem_range.1 ht), Nat.succ_mul]
      exact Nat.add_sub_cancel_left ..
    have hsum := h.sum_card
    exact ⟨_, (hsum.symm.trans (Finset.sum_const_nat hcard)).trans (congrArg (· * _) (Finset.card_range _))⟩
  · intro h
    have mono : Monotone fun t => t * (numOptions / p.workers numOptions nThreads) :=
      fun _ _ hle => Nat.mul_le_mul_right _ hle
    exact Split.partition_of_cuts mono (Nat.zero_mul _) (Nat.mul_div_cancel' h) (fun _ _ => rfl) fun t ht =>
      stop_eq ht

/-! ### The evaluations -/

theorem evaluations_perm (w : Split) : (evaluations w).Perm
    ((List.range numRuns).flatMap fun j => w.iterations.map (Prod.mk j)) := by
  have hbind := Multiset.bind_bind (↑(List.range w.workers) : Multiset ℕ) (↑(List.range numRuns) : Multiset ℕ)
    (f := fun tid j => (↑((w.loop tid).map (Prod.mk j)) : Multiset (ℕ × ℕ)))
  simp only [Multiset.coe_bind] at hbind
  simpa only [evaluations, Split.iterations, List.map_flatMap] using Multiset.coe_eq_coe.1 hbind

theorem prices_eq {F : Type} (price : ℕ → F) (run : List (ℕ × ℕ)) (i : ℕ) :
    prices price run i = if i ∈ run.map Prod.snd then some (price i) else none := by
  refine ParallelFor.foldl_inv (β := ℕ → Option F)
    (f := fun prices q => Function.update prices q.2 (some (price q.2)))
    (I := fun seen (prices : ℕ → Option F) => ∀ i, prices i = if i ∈ seen.map Prod.snd then some (price i) else none)
    (fun i => rfl) (fun seen q prices ih i => ?_) run i
  rcases eq_or_ne i q.2 with rfl | hne
  · rw [Function.update_self, if_pos (by simp)]
  · have hmem : i ∈ (seen ++ [q]).map Prod.snd ↔ i ∈ seen.map Prod.snd := by simp [hne]
    rw [Function.update_of_ne hne, ih]
    simp only [hmem]

/-- The options are in the buffer, each one is priced once in each of the runs, and all prices are there when the
    output is written. -/
structure PricedOnce (p : Program) (numOptions nThreads : ℕ) : Prop where
  buffered : p.Buffered numOptions
  partition : (p.split numOptions nThreads).Partition numOptions
  joins : p.Joins numOptions nThreads
  once : ∀ j i, (evaluations (p.split numOptions nThreads)).count (j, i) =
    if j < numRuns ∧ i < numOptions then 1 else 0
  all : ∀ (F : Type) (price : ℕ → F) (run : List (ℕ × ℕ)), run.Perm (evaluations (p.split numOptions nThreads)) →
    ∀ i < numOptions, prices price run i = some (price i)

theorem evaluations_of_partition {w : Split} (h : w.Partition numOptions) :
    (evaluations w).Perm (List.range numRuns ×ˢ List.range numOptions) :=
  (evaluations_perm w).trans (List.Perm.flatMap_left _ fun j _ => h.perm.map (Prod.mk j))

theorem mem_evaluations {w : Split} (h : w.Partition numOptions) {j i : ℕ} :
    (j, i) ∈ evaluations w ↔ j < numRuns ∧ i < numOptions := by
  rw [(evaluations_of_partition h).mem_iff, List.mem_product, List.mem_range, List.mem_range]

theorem pricedOnce_of_partition (h : (p.split numOptions nThreads).Partition numOptions)
    (hjoins : p.Joins numOptions nThreads) (hbuffered : p.Buffered numOptions) :
    PricedOnce p numOptions nThreads := by
  refine ⟨hbuffered, h, hjoins, fun j i => ?_, fun F price run hrun i hi => ?_⟩
  · have hnodup := (evaluations_of_partition h).nodup_iff.2 (List.nodup_range.product List.nodup_range)
    split_ifs with hmem
    · exact List.count_eq_one_of_mem hnodup ((mem_evaluations h).2 hmem)
    · exact List.count_eq_zero_of_not_mem fun hcount => hmem ((mem_evaluations h).1 hcount)
  · rw [prices_eq, if_pos]
    exact List.mem_map.2 ⟨(0, i), hrun.mem_iff.2 ((mem_evaluations h).2 ⟨by decide, hi⟩), rfl⟩

/-- CORRECT: every option is priced once if and only if the number of chunks or threads divides that of the options,
    the threads of `main_pthread` have room in its table, and the size of the buffer is not cut off. -/
theorem pricedOnce_iff (p : Program) (numOptions nThreads : ℕ) :
    PricedOnce p numOptions nThreads ↔ p.workers numOptions nThreads ∣ numOptions ∧
      (p = .pthread → p.workers numOptions nThreads ≤ maxThreads) ∧ (p ≠ .equi → 5 * numOptions < 2 ^ 31) := by
  rw [← partition_iff, ← joins_iff, ← buffered_iff]
  constructor
  · intro h
    exact ⟨h.partition, h.joins, h.buffered⟩
  · rintro ⟨h, hjoins, hbuffered⟩
    exact pricedOnce_of_partition h hjoins hbuffered

/-- With one option more than there are chunks the last one is not priced, and three threads leave out the last
    of ten options. -/
theorem last_not_priced : ¬PricedOnce .turkey 1025 8 ∧ ¬PricedOnce .equi 1025 8 ∧ ¬PricedOnce .pthread 10 3 := by
  refine ⟨fun h => ?_, fun h => ?_, fun h => ?_⟩
  · exact absurd (partition_iff.1 h.partition) (by decide)
  · exact absurd (partition_iff.1 h.partition) (by decide)
  · exact absurd (partition_iff.1 h.partition) (by decide)

end Turkey.Blackscholes
