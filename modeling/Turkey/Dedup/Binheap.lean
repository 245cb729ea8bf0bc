import Mathlib.Algebra.BigOperators.Group.Finset.Basic
import Mathlib.Algebra.BigOperators.Intervals
import Mathlib.Algebra.Order.Group.Multiset
import Turkey.Schemes.HeapOrder

/-! `binheap.c`: the priority queues in which `Reorder` keeps the chunks of one coarse chunk that have
    arrived too early. A heap is an array of chunk pointers, ordered by `l2num`; position 0 holds
    `NULL`, which stops the loop of `Insert` at the root. Positions are natural numbers here; in the source
    they are numbers of type `int`, which is large enough for 2 ^ 30 elements. `PriorityQueue` has the
    operations with this, and with the memory of the array. -/

namespace Turkey.Binheap
open Turkey.HeapOrder
variable {χ : Type*} (l2num : χ → ℕ)

/-- `HeapStruct`; `none` is a `NULL` pointer. -/
structure Heap (χ : Type*) where
  capacity : ℕ
  size : ℕ
  elements : ℕ → Option χ

/-- `MinPQSize` -/
def minPQSize : ℕ := 16

/-- `Initialize`: `none` when the requested capacity is too small. -/
def heapInitialize (initCapacity : ℕ) : Option (Heap χ) :=
  if initCapacity < minPQSize then none else some ⟨initCapacity, 0, fun _ => none⟩

/-- The loop of `Insert` from position `i` on, and the store of `x` after it. -/
def percolateUp (x : χ) (elements : ℕ → Option χ) : ℕ → (ℕ → Option χ)
  | 0 => Function.update elements 0 (some x)
  | i + 1 =>
    match elements ((i + 1) / 2) with
    | none => Function.update elements (i + 1) (some x)
    | some y =>
      if l2num x < l2num y then
        percolateUp x (Function.update elements (i + 1) (some y)) ((i + 1) / 2)
      else Function.update elements (i + 1) (some x)
  decreasing_by omega

/-- `Insert` -/
def insert (x : χ) (h : Heap χ) : Heap χ :=
  -- a full heap is given twice the capacity
  let capacity := if h.size = h.capacity then 2 * h.capacity else h.capacity
  if h.size = 0 then ⟨capacity, 1, Function.update h.elements 1 (some x)⟩
  else ⟨capacity, h.size + 1, percolateUp l2num x h.elements (h.size + 1)⟩

/-- `a->sequence.l2num < b->sequence.l2num` -/
def less : Option χ → Option χ → Bool
  | some a, some b => l2num a < l2num b
  | _, _ => false

/-- The child that the loop of `DeleteMin` looks at. -/
def smallerChild (size : ℕ) (elements : ℕ → Option χ) (i : ℕ) : ℕ :=
  if 2 * i ≠ size ∧ less l2num (elements (2 * i + 1)) (elements (2 * i)) then 2 * i + 1 else 2 * i

theorem smallerChild_cases (size : ℕ) (elements : ℕ → Option χ) (i : ℕ) :
    smallerChild l2num size elements i = 2 * i ∨ smallerChild l2num size elements i = 2 * i + 1 := by
  unfold smallerChild
  split
  · exact .inr rfl
  · exact .inl rfl

/-- The loop of `DeleteMin` from position `i` on, and the store of the last element after it. -/
def percolateDown (last : χ) (size : ℕ) (elements : ℕ → Option χ) (i : ℕ) : ℕ → Option χ :=
  if 0 < i ∧ 2 * i ≤ size then
    let child := smallerChild l2num size elements i
    if less l2num (elements child) (some last) then
      percolateDown last size (Function.update elements i (elements child)) child
    else Function.update elements i (some last)
  else Function.update elements i (some last)
  termination_by size - i
  decreasing_by
    rcases smallerChild_cases l2num size elements i with h | h <;> rw [h] <;> omega

/-- The least element and the heap without it; `none` when the heap is empty. -/
def deleteMin (h : Heap χ) : Option (χ × Heap χ) :=
  if h.size = 0 then none
  else match h.elements 1, h.elements h.size with
    | some min, some last => some (min, { h with
        size := h.size - 1
        elements := percolateDown l2num last (h.size - 1) h.elements 1 })
    | _, _ => none

/-- `FindMin`; a heap without elements has none. -/
def findMin (h : Heap χ) : Option χ := if h.size = 0 then none else h.elements 1

/-- `IsEmpty` -/
def isEmpty (h : Heap χ) : Bool := h.size = 0

/-! ### What a heap holds -/

/-- The elements at positions 1 to `n`. -/
def held (n : ℕ) (elements : ℕ → Option χ) : Multiset χ :=
  ∑ i ∈ Finset.Icc 1 n, (elements i).elim 0 fun x => {x}

/-- The elements of a heap. -/
def contents (h : Heap χ) : Multiset χ := held h.size h.elements

/-- The key at a position. -/
def key (elements : ℕ → Option χ) (i : ℕ) : ℕ := (elements i).elim 0 l2num

/-- Positions 1 to `n` hold elements, position 0 does not, and the elements are in heap order. -/
structure Filled (n : ℕ) (elements : ℕ → Option χ) : Prop where
  sentinel : elements 0 = none
  filled : ∀ i, 1 ≤ i → i ≤ n → ∃ x, elements i = some x
  ordered : Ordered n (key l2num elements)

/-- What every operation keeps. -/
structure Valid (h : Heap χ) : Prop extends Filled l2num h.size h.elements where
  bounded : h.size ≤ h.capacity
  capacity_pos : 0 < h.capacity

theorem key_update (elements : ℕ → Option χ) (i : ℕ) (x : χ) :
    key l2num (Function.update elements i (some x)) =
      Function.update (key l2num elements) i (l2num x) := by
  funext j
  by_cases hij : j = i
  · subst hij; simp [key]
  · simp [key, Function.update_of_ne hij]

theorem key_eq {elements : ℕ → Option χ} {i : ℕ} {x : χ} (h : elements i = some x) :
    key l2num elements i = l2num x := by
  simp [key, h]

/-- Moving the element at `j` into a hole at `i` leaves the hole at `j`. -/
theorem held_move {n i j : ℕ} (elements : ℕ → Option χ) (v : Option χ) (hij : i ≠ j)
    (hi : i ∈ Finset.Icc 1 n) (hj : j ∈ Finset.Icc 1 n) :
    held n (Function.update (Function.update elements i (elements j)) j v) =
      held n (Function.update elements i v) := by
  have hswap : Function.update (Function.update elements i (elements j)) j v =
      Function.update elements i v ∘ Equiv.swap i j := by
    funext k
    by_cases hki : k = i
    · subst hki
      simp [Function.update_of_ne hij, Function.update_of_ne hij.symm]
    · by_cases hkj : k = j
      · subst hkj; simp
      · simp [Function.update_of_ne hki, Function.update_of_ne hkj, Equiv.swap_apply_of_ne_of_ne hki hkj]
  rw [hswap]
  refine Equiv.Perm.sum_comp (Equiv.swap i j) (Finset.Icc 1 n)
    (fun k => (Function.update elements i v k).elim (0 : Multiset χ) fun x => {x}) ?_
  intro k hk
  by_contra hne
  have hki : k ≠ i := fun he => hne (he ▸ hi)
  have hkj : k ≠ j := fun he => hne (he ▸ hj)
  exact hk (Equiv.swap_apply_of_ne_of_ne hki hkj)

/-- An array with a hole at `i` only. -/
structure Holed (n : ℕ) (elements : ℕ → Option χ) (i : ℕ) : Prop where
  pos : 1 ≤ i
  le : i ≤ n
  sentinel : elements 0 = none
  filled : ∀ j, 1 ≤ j → j ≤ n → j ≠ i → ∃ y, elements j = some y

theorem Holed.place {n i : ℕ} {elements : ℕ → Option χ} (h : Holed n elements i) {x : χ}
    (hord : Ordered n (Function.update (key l2num elements) i (l2num x))) :
    Filled l2num n (Function.update elements i (some x)) := by
  refine ⟨?_, fun j hj hjn => ?_, by rwa [key_update]⟩
  · rw [Function.update_of_ne (by have := h.pos; omega)]
    exact h.sentinel
  · by_cases hji : j = i
    · exact ⟨x, by rw [hji, Function.update_self]⟩
    · rw [Function.update_of_ne hji]
      exact h.filled j hj hjn hji

/-- The hole moves when the element at another position is moved into it. -/
theorem Holed.move {n i j : ℕ} {elements : ℕ → Option χ} (h : Holed n elements i) {y : χ} (hj : 1 ≤ j)
    (hjn : j ≤ n) : Holed n (Function.update elements i (some y)) j := by
  refine ⟨hj, hjn, ?_, fun k hk hkn _ => ?_⟩
  · rw [Function.update_of_ne (by have := h.pos; omega)]
    exact h.sentinel
  · by_cases hki : k = i
    · exact ⟨y, by rw [hki, Function.update_self]⟩
    · rw [Function.update_of_ne hki]
      exact h.filled k hk hkn hki

/-! ### Insert -/

theorem percolateUp_filled {n : ℕ} (x : χ) (elements : ℕ → Option χ) (i : ℕ) (h : Holed n elements i)
    (hrise : Rising n (key l2num elements) i (l2num x)) :
    Filled l2num n (percolateUp l2num x elements i) ∧
      held n (percolateUp l2num x elements i) = held n (Function.update elements i (some x)) := by
  induction i using Nat.strongRecOn generalizing elements with
  | _ i ih =>
    have hle := h.le
    obtain ⟨i, rfl⟩ : ∃ k, i = k + 1 := ⟨i - 1, by have := h.pos; omega⟩
    unfold percolateUp
    cases hpar : elements ((i + 1) / 2) with
    | none =>
      -- only the sentinel is `NULL`: this is the root
      refine ⟨h.place l2num (hrise.place fun h2 => ?_), rfl⟩
      obtain ⟨y, hy⟩ := h.filled ((i + 1) / 2) (by omega) (by omega) (by omega)
      rw [hpar] at hy
      cases hy
    | some y =>
      have hp1 : 1 ≤ (i + 1) / 2 := by
        by_contra h0
        rw [show (i + 1) / 2 = 0 by omega, h.sentinel] at hpar
        cases hpar
      simp only
      split
      · rename_i hlt
        have hup := hrise.up (by omega) hle (by rw [key_eq l2num hpar]; exact hlt.le)
        rw [key_eq l2num hpar, ← key_update] at hup
        obtain ⟨hf, hh⟩ := ih ((i + 1) / 2) (by omega) _ (h.move hp1 (by omega)) hup
        refine ⟨hf, hh.trans ?_⟩
        rw [← hpar]
        exact held_move elements (some x) (by omega) (by simp; omega) (by simp; omega)
      · rename_i hnlt
        exact ⟨h.place l2num (hrise.place fun _ => by rw [key_eq l2num hpar]; omega), rfl⟩

theorem held_succ (n : ℕ) (elements : ℕ → Option χ) (x : χ) :
    held (n + 1) (Function.update elements (n + 1) (some x)) = x ::ₘ held n elements := by
  unfold held
  rw [Finset.sum_Icc_succ_top (by omega : 1 ≤ n + 1), Function.update_self, add_comm]
  refine congrArg₂ (· + ·) rfl (Finset.sum_congr rfl fun i hi => ?_)
  rw [Function.update_of_ne (by have := (Finset.mem_Icc.mp hi).2; omega)]

theorem heapInitialize_valid {c : ℕ} {h : Heap χ} (hi : heapInitialize c = some h) :
    Valid l2num h ∧ contents h = 0 := by
  unfold heapInitialize at hi
  split at hi
  · cases hi
  · rename_i hc
    cases hi
    refine ⟨⟨⟨rfl, fun i h1 h0 => ?_, fun i h2 h0 => ?_⟩, Nat.zero_le _, ?_⟩, rfl⟩
    · simp only at h0; omega
    · simp only at h0; omega
    · unfold minPQSize at hc; simp only; omega

theorem insert_valid (x : χ) (h : Heap χ) (hv : Valid l2num h) :
    Valid l2num (insert l2num x h) ∧ contents (insert l2num x h) = x ::ₘ contents h := by
  obtain ⟨⟨hsent, hfill, hord⟩, hb, hc⟩ := hv
  have hhole : Holed (h.size + 1) h.elements (h.size + 1) :=
    ⟨by omega, le_rfl, hsent, fun j hj hjn hne => hfill j hj (by omega)⟩
  have hrise : Rising (h.size + 1) (key l2num h.elements) (h.size + 1) (l2num x) :=
    ⟨fun i h2 hn hne _ => hord i h2 (by omega), fun _ c hc hcn => by omega, fun c hc hcn => by omega⟩
  have hcap : h.size + 1 ≤ if h.size = h.capacity then 2 * h.capacity else h.capacity := by
    split <;> omega
  have hpos := Nat.lt_of_lt_of_le (Nat.succ_pos _) hcap
  unfold insert
  simp only
  generalize (if h.size = h.capacity then 2 * h.capacity else h.capacity) = cap at hcap hpos ⊢
  by_cases h0 : h.size = 0
  · rw [if_pos h0]
    rw [h0, zero_add] at hhole hrise hcap
    refine ⟨⟨hhole.place l2num (hrise.place fun h2 => by omega), hcap, hpos⟩, ?_⟩
    have hcons := held_succ 0 h.elements x
    rw [zero_add] at hcons
    unfold contents
    rw [h0]
    exact hcons
  · rw [if_neg h0]
    obtain ⟨hf, hh⟩ := percolateUp_filled l2num x h.elements (h.size + 1) hhole hrise
    exact ⟨⟨hf, hcap, hpos⟩, hh.trans (held_succ h.size h.elements x)⟩

/-! ### DeleteMin -/

theorem less_iff {elements : ℕ → Option χ} {i j : ℕ} {x y : χ} (hx : elements i = some x)
    (hy : elements j = some y) : less l2num (elements i) (elements j) = true ↔
      key l2num elements i < key l2num elements j := by
  simp [less, key, hx, hy]

/-- The child that is looked at has the least key of the children. -/
theorem smallerChild_le {n i : ℕ} {elements : ℕ → Option χ} (h1 : 1 ≤ i) (h2 : 2 * i ≤ n)
    (h : Holed n elements i) : smallerChild l2num n elements i ≤ n ∧
      ∀ c, c / 2 = i → c ≤ n → key l2num elements (smallerChild l2num n elements i) ≤
        key l2num elements c := by
  obtain ⟨x, hx⟩ := h.filled (2 * i) (by omega) h2 (by omega)
  unfold smallerChild
  by_cases hn : 2 * i = n
  · rw [if_neg (by simp [hn])]
    refine ⟨h2, fun c hc hcn => ?_⟩
    rw [show c = 2 * i by omega]
  · obtain ⟨y, hy⟩ := h.filled (2 * i + 1) (by omega) (by omega) (by omega)
    have hiff := less_iff l2num hy hx
    by_cases hlt : key l2num elements (2 * i + 1) < key l2num elements (2 * i)
    · rw [if_pos ⟨hn, hiff.mpr hlt⟩]
      refine ⟨by omega, fun c hc hcn => ?_⟩
      rcases (by omega : c = 2 * i ∨ c = 2 * i + 1) with rfl | rfl
      · exact hlt.le
      · exact le_rfl
    · rw [if_neg fun hand => hlt (hiff.mp hand.2)]
      refine ⟨h2, fun c hc hcn => ?_⟩
      rcases (by omega : c = 2 * i ∨ c = 2 * i + 1) with rfl | rfl
      · exact le_rfl
      · exact not_lt.mp hlt

theorem percolateDown_filled {n : ℕ} (x : χ) (elements : ℕ → Option χ) (i : ℕ) (h : Holed n elements i)
    (hsink : Sinking n (key l2num elements) i (l2num x)) :
    Filled l2num n (percolateDown l2num x n elements i) ∧
      held n (percolateDown l2num x n elements i) = held n (Function.update elements i (some x)) := by
  induction hm : n - i using Nat.strongRecOn generalizing elements i with
  | _ m ih =>
    have h1 := h.pos
    unfold percolateDown
    by_cases h2 : 2 * i ≤ n
    · rw [if_pos ⟨h1, h2⟩]
      obtain ⟨hcn, hmin⟩ := smallerChild_le l2num h1 h2 h
      have hchild := smallerChild_cases l2num n elements i
      generalize smallerChild l2num n elements i = child at hcn hmin hchild ⊢
      simp only
      obtain ⟨y, hy⟩ := h.filled child (by omega) hcn (by omega)
      have hless : less l2num (elements child) (some x) = true ↔ l2num y < l2num x := by
        simp [less, hy]
      by_cases hlt : l2num y < l2num x
      · rw [if_pos (hless.mpr hlt), hy]
        have hdown := hsink.down h1 (by omega) hcn hmin (by rw [key_eq l2num hy]; exact hlt.le)
        rw [key_eq l2num hy, ← key_update] at hdown
        obtain ⟨hf, hh⟩ := ih (n - child) (by omega) _ child (h.move (by omega) hcn) hdown rfl
        refine ⟨hf, hh.trans ?_⟩
        rw [← hy]
        exact held_move elements (some x) (by omega) (by simp; omega) (by simp; omega)
      · rw [if_neg fun hl => hlt (hless.mp hl)]
        refine ⟨h.place l2num (hsink.place fun c hc hcn' => ?_), rfl⟩
        have := hmin c hc hcn'
        rw [key_eq l2num hy] at this
        omega
    · rw [if_neg fun hand => h2 hand.2]
      exact ⟨h.place l2num (hsink.place fun c hc hcn => by omega), rfl⟩

/-- Without its first element, and with the last one in its place, the array holds all but the first. -/
theorem held_first {n : ℕ} {elements : ℕ → Option χ} {min last : χ} (hn : 1 ≤ n)
    (hmin : elements 1 = some min) (hlast : elements (n + 1) = some last) :
    min ::ₘ held n (Function.update elements 1 (some last)) = held (n + 1) elements := by
  have hmove := held_move (n := n + 1) elements (some min) (by omega : (1 : ℕ) ≠ n + 1) (by simp) (by simp)
  rw [hlast, held_succ, ← hmin, Function.update_eq_self] at hmove
  exact hmove

theorem findMin_eq_none {h : Heap χ} (hv : Valid l2num h) : findMin h = none ↔ h.size = 0 := by
  unfold findMin
  split
  · simp_all
  · rename_i h0
    obtain ⟨x, hx⟩ := hv.filled 1 le_rfl (by omega)
    simp [hx, h0]

theorem mem_contents {h : Heap χ} {x : χ} :
    x ∈ contents h ↔ ∃ i, 1 ≤ i ∧ i ≤ h.size ∧ h.elements i = some x := by
  unfold contents held
  rw [Multiset.mem_sum]
  constructor
  · rintro ⟨i, hi, hx⟩
    obtain ⟨h1, hn⟩ := Finset.mem_Icc.mp hi
    cases hy : h.elements i with
    | none => simp [hy] at hx
    | some y => exact ⟨i, h1, hn, by simpa [hy, eq_comm] using hx⟩
  · rintro ⟨i, h1, hn, hx⟩
    exact ⟨i, Finset.mem_Icc.mpr ⟨h1, hn⟩, by simp [hx]⟩

theorem size_eq_zero_iff {h : Heap χ} (hv : Valid l2num h) : h.size = 0 ↔ contents h = 0 := by
  constructor
  · intro h0
    unfold contents
    rw [h0]
    rfl
  · intro hc
    by_contra h0
    obtain ⟨x, hx⟩ := hv.filled 1 le_rfl (Nat.one_le_iff_ne_zero.mpr h0)
    have hmem : x ∈ contents h := mem_contents.mpr ⟨1, le_rfl, Nat.one_le_iff_ne_zero.mpr h0, hx⟩
    simp [hc] at hmem

/-- `FindMin` returns an element with the least `l2num`. -/
theorem findMin_le {h : Heap χ} (hv : Valid l2num h) {x : χ} (hx : findMin h = some x) :
    x ∈ contents h ∧ ∀ y ∈ contents h, l2num x ≤ l2num y := by
  unfold findMin at hx
  split at hx
  · cases hx
  · rename_i h0
    refine ⟨mem_contents.mpr ⟨1, le_rfl, Nat.one_le_iff_ne_zero.mpr h0, hx⟩, fun y hy => ?_⟩
    obtain ⟨i, h1, hn, hy⟩ := mem_contents.mp hy
    have hroot := hv.ordered.root_le i h1 hn
    rwa [key_eq l2num hx, key_eq l2num hy] at hroot

/-- `DeleteMin` removes what `FindMin` returns. -/
theorem deleteMin_valid {h : Heap χ} (hv : Valid l2num h) {x : χ} (hx : findMin h = some x) :
    ∃ h', deleteMin l2num h = some (x, h') ∧ Valid l2num h' ∧ x ::ₘ contents h' = contents h := by
  obtain ⟨capacity, size, elements⟩ := h
  obtain ⟨⟨hsent, hfill, hord⟩, hb, hpos⟩ := hv
  unfold findMin at hx
  split at hx
  · cases hx
  rename_i h0
  simp only at h0 hx hsent hfill hord hb
  obtain ⟨n, rfl⟩ : ∃ n, size = n + 1 := ⟨size - 1, by omega⟩
  obtain ⟨last, hlast⟩ := hfill (n + 1) (by omega) le_rfl
  refine ⟨⟨capacity, n, percolateDown l2num last n elements 1⟩, ?_, ?_⟩
  · simp [deleteMin, hx, hlast]
  · by_cases hn : n = 0
    · -- the only element
      subst hn
      refine ⟨⟨⟨?_, fun i h1 hi => ?_, fun i h2 hi => ?_⟩, Nat.zero_le _, hpos⟩, ?_⟩
      · simp [percolateDown, hsent]
      · simp only at hi; omega
      · simp only at hi; omega
      · simp [contents, held, hx]
    · have hhole : Holed n elements 1 :=
        ⟨le_rfl, by omega, hsent, fun j hj hjn _ => hfill j hj (by omega)⟩
      have hsink : Sinking n (key l2num elements) 1 (l2num last) :=
        ⟨fun i h2 hin _ _ => hord i h2 (by omega), fun h2 => by omega, fun h2 => by omega⟩
      obtain ⟨hf, hh⟩ := percolateDown_filled l2num last elements 1 hhole hsink
      refine ⟨⟨hf, by simp only; omega, hpos⟩, ?_⟩
      unfold contents
      simp only
      rw [hh]
      exact held_first (by omega) hx hlast

end Turkey.Binheap
