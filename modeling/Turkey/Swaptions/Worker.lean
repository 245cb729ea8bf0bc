import Mathlib.Algebra.Order.Ring.Nat
import Mathlib.Data.Int.Basic
import Mathlib.Logic.Function.Basic
import Mathlib.Tactic.Ring
import Turkey.Schemes.WorkSplit

/-! The threads of swaptions (`HJM_Securities.cpp`). Each one computes from its number which swaptions are its
    own: the first `nSwaptions % nThreads` threads have one swaption more than the others, and the last thread
    goes to the end. The number of threads is what the thread pool says (`updatePoolSize`, a parameter), also when
    there are fewer swaptions than threads. The table of the threads is as large as the command line says.

    The simulation itself is a parameter: it is a function of the swaption and of a seed, which is that of the run
    plus the index of the swaption. -/

namespace Turkey.Swaptions
open Turkey.WorkSplit

/-! ### The parts of the threads -/

/-- `beg` and `end` in `worker`. -/
def bounds (nSwaptions nThreads tid : ℕ) : ℕ × ℕ :=
  let (beg, stop) :=
    if tid < nSwaptions % nThreads then
      let chunksize := nSwaptions / nThreads + 1
      (tid * chunksize, (tid + 1) * chunksize)
    else
      let chunksize := nSwaptions / nThreads
      let offsetThread := nSwaptions % nThreads
      let offset := offsetThread * (chunksize + 1)
      (offset + (tid - offsetThread) * chunksize, offset + (tid - offsetThread + 1) * chunksize)
  (beg, if tid = nThreads - 1 then nSwaptions else stop)

def split (nSwaptions nThreads : ℕ) : Split where
  workers := nThreads
  beg := fun tid => (bounds nSwaptions nThreads tid).1
  stop := fun tid => (bounds nSwaptions nThreads tid).2

/-- Where the part of thread `t` begins. -/
def cut (nSwaptions nThreads t : ℕ) : ℕ := t * (nSwaptions / nThreads) + min t (nSwaptions % nThreads)

variable {nSwaptions nThreads : ℕ}

theorem cut_mono : Monotone (cut nSwaptions nThreads) := fun _ _ h =>
  Nat.add_le_add (Nat.mul_le_mul_right _ h) (min_le_min_right _ h)

theorem cut_nThreads (h : 1 ≤ nThreads) : cut nSwaptions nThreads nThreads = nSwaptions := by
  rw [cut, min_eq_right (Nat.mod_lt _ h).le]
  exact Nat.div_add_mod ..

theorem cut_of_le {t : ℕ} (h : t ≤ nSwaptions % nThreads) :
    cut nSwaptions nThreads t = t * (nSwaptions / nThreads + 1) := by
  rw [cut, min_eq_left h, Nat.mul_succ]

theorem cut_of_ge {t : ℕ} (h : nSwaptions % nThreads ≤ t) : cut nSwaptions nThreads t =
    nSwaptions % nThreads * (nSwaptions / nThreads + 1) + (t - nSwaptions % nThreads) * (nSwaptions / nThreads) := by
  obtain ⟨d, rfl⟩ := Nat.exists_eq_add_of_le h
  rw [cut, min_eq_right h, Nat.add_sub_cancel_left]
  ring

theorem beg_eq (t : ℕ) : (split nSwaptions nThreads).beg t = cut nSwaptions nThreads t := by
  simp only [split, bounds]
  split_ifs with hlt
  · exact (cut_of_le hlt.le).symm
  · exact (cut_of_ge (not_lt.1 hlt)).symm

/-- The two formulas meet, and the rule for the last thread changes nothing. -/
theorem stop_eq {t : ℕ} (h : 1 ≤ nThreads) (ht : t < nThreads) :
    (split nSwaptions nThreads).stop t = cut nSwaptions nThreads (t + 1) := by
  simp only [split, bounds]
  split_ifs with hlast hlt
  · obtain rfl : t + 1 = nThreads := by omega
    exact (cut_nThreads h).symm
  · exact (cut_of_le hlt).symm
  · rw [cut_of_ge (by omega : nSwaptions % nThreads ≤ t + 1), Nat.sub_add_comm (not_lt.1 hlt)]

theorem split_partition (h : 1 ≤ nThreads) : (split nSwaptions nThreads).Partition nSwaptions :=
  Split.partition_of_cuts cut_mono (by simp [cut]) (cut_nThreads h) (fun t _ => beg_eq t) fun _ ht => stop_eq h ht

theorem split_balanced (h : 1 ≤ nThreads) : (split nSwaptions nThreads).Balanced := by
  have hcard : ∀ t < nThreads, nSwaptions / nThreads ≤ ((split nSwaptions nThreads).part t).card ∧
      ((split nSwaptions nThreads).part t).card ≤ nSwaptions / nThreads + 1 := by
    intro t ht
    have hnext : (t + 1) * (nSwaptions / nThreads) = t * (nSwaptions / nThreads) + nSwaptions / nThreads :=
      Nat.succ_mul ..
    rw [Split.part, Nat.card_Ico, beg_eq, stop_eq h ht, cut, cut]
    generalize nSwaptions / nThreads = q at hnext ⊢
    omega
  intro t ht u hu
  exact (hcard t ht).2.trans (Nat.succ_le_succ (hcard u hu).1)

/-! ### The prices -/

/-- What the simulation is told about a swaption. -/
structure Terms (F : Type*) where
  dStrike : F
  dCompounding : F
  dMaturity : F
  dTenor : F
  dPaymentInterval : F
  iN : ℤ
  iFactors : ℤ
  dYears : F
  pdYield : List F
  ppdFactors : List (List F)

/-- `parm` -/
structure Parm (F : Type*) extends Terms F where
  dSimSwaptionMeanPrice : F
  dSimSwaptionStdError : F

/-- `HJM_Swaption_Blocking` with a seed: `iSuccess` and `pdSwaptionPrice`. -/
abbrev Pricer (F : Type*) := Terms F → ℤ → ℤ × F × F

variable {F : Type*} (price : Pricer F) (swaptionSeed : ℤ)

/-- The body of the loop of `worker`; `none` is a failed assertion, which ends the program. -/
def body (swaptions : ℕ → Parm F) (i : ℕ) : Option (ℕ → Parm F) :=
  let (iSuccess, mean, error) := price (swaptions i).toTerms (swaptionSeed + i)
  if iSuccess = 1 then
    some (Function.update swaptions i
      { swaptions i with dSimSwaptionMeanPrice := mean, dSimSwaptionStdError := error })
  else none

/-- A swaption with the price that its index gives it. -/
def priced (swaptions : ℕ → Parm F) (i : ℕ) : Parm F :=
  { swaptions i with
    dSimSwaptionMeanPrice := (price (swaptions i).toTerms (swaptionSeed + i)).2.1
    dSimSwaptionStdError := (price (swaptions i).toTerms (swaptionSeed + i)).2.2 }

def Success (swaptions : ℕ → Parm F) (i : ℕ) : Prop := (price (swaptions i).toTerms (swaptionSeed + i)).1 = 1

variable {price swaptionSeed} {swaptions : ℕ → Parm F}

theorem body_of_success {i : ℕ} (h : Success price swaptionSeed swaptions i) :
    body price swaptionSeed swaptions i = some (Function.update swaptions i
      (priced price swaptionSeed swaptions i)) :=
  if_pos h

theorem body_of_failure {i : ℕ} (h : ¬Success price swaptionSeed swaptions i) :
    body price swaptionSeed swaptions i = none :=
  if_neg h

/-- A price that is stored does not change the others. -/
theorem success_update {i j : ℕ} (hne : j ≠ i) (x : Parm F) :
    Success price swaptionSeed (Function.update swaptions i x) j ↔ Success price swaptionSeed swaptions j := by
  rw [Success, Success, Function.update_of_ne hne]

theorem priced_update {i j : ℕ} (hne : j ≠ i) (x : Parm F) :
    priced price swaptionSeed (Function.update swaptions i x) j = priced price swaptionSeed swaptions j := by
  rw [priced, priced, Function.update_of_ne hne]

/-- What a run leaves, in whatever order it takes the swaptions. -/
theorem foldlM_body : ∀ {l : List ℕ} {swaptions : ℕ → Parm F}, l.Nodup →
    (∀ i ∈ l, Success price swaptionSeed swaptions i) → l.foldlM (body price swaptionSeed) swaptions =
      some fun i => if i ∈ l then priced price swaptionSeed swaptions i else swaptions i
  | [], _, _, _ => by simp
  | i :: l, swaptions, nodup, success => by
    rw [List.nodup_cons] at nodup
    rw [List.forall_mem_cons] at success
    have hne : ∀ j ∈ l, j ≠ i := fun j hj heq => nodup.1 (heq ▸ hj)
    rw [List.foldlM_cons, body_of_success success.1]
    refine (foldlM_body nodup.2 fun j hj => (success_update (hne j hj) _).2 (success.2 j hj)).trans ?_
    congr 1
    funext j
    by_cases hj : j ∈ l
    · simp [hj, priced_update (hne j hj)]
    · rcases eq_or_ne j i with rfl | hji
      · simp [hj]
      · simp [hj, hji]

theorem foldlM_body_none : ∀ {l : List ℕ} {swaptions : ℕ → Parm F}, l.Nodup →
    (¬∀ i ∈ l, Success price swaptionSeed swaptions i) → l.foldlM (body price swaptionSeed) swaptions = none
  | [], _, _, failure => absurd (by simp) failure
  | i :: l, swaptions, nodup, failure => by
    rw [List.nodup_cons] at nodup
    rw [List.forall_mem_cons, not_and] at failure
    rw [List.foldlM_cons]
    by_cases success : Success price swaptionSeed swaptions i
    · rw [body_of_success success]
      refine foldlM_body_none nodup.2 fun all => failure success fun j hj => ?_
      have hne : j ≠ i := fun heq => nodup.1 (heq ▸ hj)
      exact (success_update hne _).1 (all j hj)
    · rw [body_of_failure success]
      rfl

/-- Whatever the number of the threads and the order in which they proceed, every swaption gets the price that its
    index gives it. -/
theorem prices_of_split (h : 1 ≤ nThreads) (price : Pricer F) (swaptionSeed : ℤ) (swaptions : ℕ → Parm F)
    {run : List ℕ} (hrun : run.Perm (split nSwaptions nThreads).iterations) :
    ((∀ i < nSwaptions, Success price swaptionSeed swaptions i) → run.foldlM (body price swaptionSeed) swaptions =
      some fun i => if i < nSwaptions then priced price swaptionSeed swaptions i else swaptions i) ∧
    ((¬∀ i < nSwaptions, Success price swaptionSeed swaptions i) →
      run.foldlM (body price swaptionSeed) swaptions = none) := by
  have perm : run.Perm (List.range nSwaptions) := hrun.trans (split_partition h).perm
  have nodup : run.Nodup := perm.nodup_iff.2 List.nodup_range
  have mem : ∀ i, i ∈ run ↔ i < nSwaptions := fun i => perm.mem_iff.trans List.mem_range
  constructor
  · intro success
    refine (foldlM_body nodup fun i hi => success i ((mem i).1 hi)).trans ?_
    simp only [mem]
  · intro failure
    exact foldlM_body_none nodup fun all => failure fun i hi => all i ((mem i).2 hi)

/-! ### The table of the threads -/

/-- `MAX_THREAD` -/
def maxThread : ℕ := 1024

/-- What `main` checks of the command line. -/
def Accepted (nSwaptions nThreads : ℕ) : Prop := nThreads ≤ nSwaptions ∧ 1 ≤ nThreads ∧ nThreads ≤ maxThread

/-- `pthread_create(&threads[i], ..)`, in a table with so many entries; `none` when there is no entry `i`. -/
def createThread (room : ℕ) (threads : ℕ → Option ℕ) (i : ℕ) : Option (ℕ → Option ℕ) :=
  if i < room then some (Function.update threads i (some i)) else none

/-- The table once all threads have been created. -/
def createThreads (room poolSize : ℕ) : Option (ℕ → Option ℕ) :=
  (List.range poolSize).foldlM (createThread room) fun _ => none

/-- The threads that `main` waits for. -/
def joinThreads (poolSize : ℕ) (threads : ℕ → Option ℕ) : List (Option ℕ) := (List.range poolSize).map threads

theorem createThreads_succ (room n : ℕ) : createThreads room (n + 1) =
    (createThreads room n).bind fun threads => createThread room threads n := by
  rw [createThreads, List.range_succ, List.foldlM_append]
  simp only [List.foldlM_cons, List.foldlM_nil, bind_pure]
  rfl

theorem createThreads_of_le {room : ℕ} : ∀ {n : ℕ}, n ≤ room →
    createThreads room n = some fun i => if i < n then some i else none
  | 0, _ => by simp [createThreads]
  | n + 1, h => by
    rw [createThreads_succ, createThreads_of_le (by omega), Option.bind_some, createThread, if_pos (by omega)]
    congr 1
    funext i
    rcases Nat.lt_trichotomy i n with hlt | rfl | hgt
    · rw [Function.update_of_ne hlt.ne, if_pos hlt, if_pos (by omega)]
    · rw [Function.update_self, if_pos (Nat.lt_succ_self i)]
    · rw [Function.update_of_ne hgt.ne', if_neg (by omega), if_neg (by omega)]

theorem createThreads_of_gt {room n : ℕ} (h : room < n) : createThreads room n = none := by
  induction n, h using Nat.le_induction with
  | base => rw [createThreads_succ, createThreads_of_le le_rfl, Option.bind_some, createThread, if_neg (lt_irrefl _)]
  | succ n _ ih => rw [createThreads_succ, ih, Option.bind_none]

/-- With more threads than swaptions, the table is always too small. -/
theorem createThreads_of_few {poolSize : ℕ} (h : Accepted nSwaptions nThreads) (hfew : nSwaptions < poolSize) :
    createThreads nThreads poolSize = none :=
  createThreads_of_gt (h.1.trans_lt hfew)

/-! ### The run of `main` -/

/-- The threads are in the table and are waited for, their parts are a balanced partition of the swaptions, and every
    swaption gets the price that its index gives it, whatever the order in which the threads proceed. -/
structure PricedByIndex (F : Type*) (nSwaptions nThreads poolSize : ℕ) : Prop where
  joined : ∃ threads, createThreads nThreads poolSize = some threads ∧
    joinThreads poolSize threads = (List.range poolSize).map some
  partition : (split nSwaptions poolSize).Partition nSwaptions
  balanced : (split nSwaptions poolSize).Balanced
  prices : ∀ (price : Pricer F) (swaptionSeed : ℤ) (swaptions : ℕ → Parm F) (run : List ℕ),
    run.Perm (split nSwaptions poolSize).iterations →
    ((∀ i < nSwaptions, Success price swaptionSeed swaptions i) → run.foldlM (body price swaptionSeed) swaptions =
      some fun i => if i < nSwaptions then priced price swaptionSeed swaptions i else swaptions i) ∧
    ((¬∀ i < nSwaptions, Success price swaptionSeed swaptions i) →
      run.foldlM (body price swaptionSeed) swaptions = none)

/-- CORRECT: the threads price all swaptions, in balanced parts and independently of their number, if and only if the
    thread pool asks for no more of them than the command line. -/
theorem pricedByIndex_iff {poolSize : ℕ} (h : 1 ≤ poolSize) :
    PricedByIndex F nSwaptions nThreads poolSize ↔ poolSize ≤ nThreads := by
  constructor
  · rintro ⟨⟨threads, hcreate, -⟩, -⟩
    by_contra hgt
    rw [createThreads_of_gt (not_le.1 hgt)] at hcreate
    cases hcreate
  · intro hle
    refine ⟨⟨_, createThreads_of_le hle, ?_⟩, split_partition h, split_balanced h,
      fun price seed swaptions run hrun => prices_of_split h price seed swaptions hrun⟩
    exact List.map_congr_left fun i hi => if_pos (List.mem_range.1 hi)

/-- Three threads instead of four, for ten swaptions. -/
theorem pricedByIndex_three : PricedByIndex ℤ 10 4 3 := (pricedByIndex_iff (by decide)).2 (by decide)

/-- The thread pool says two threads, where the command line says one. -/
theorem not_pricedByIndex : Accepted 1 1 ∧ ¬PricedByIndex ℤ 1 1 2 := by
  refine ⟨⟨le_rfl, le_rfl, by decide⟩, ?_⟩
  rintro ⟨⟨threads, hcreate, -⟩, -⟩
  rw [createThreads_of_gt (by decide)] at hcreate
  cases hcreate

end Turkey.Swaptions
