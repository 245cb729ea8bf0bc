import Turkey.Dedup.Binheap
import Turkey.Dedup.Rabin
import Turkey.Schemes.Objects

/-! Sequences of operations on a priority queue (`binheap.c`), with the memory that the array has. Every access is
    checked: it is undefined, `none`, outside of the allocated slots, and so is looking at the element
    behind a `NULL` pointer. The operations then do what those of a `Heap` do, as long as the positions that
    `DeleteMin` computes are numbers of type `int`.

    `Capacity` is an `int` that is doubled when the array is full. Whether `malloc` and `realloc` find memory is up to
    the system, but they never hand out more than `PTRDIFF_MAX` bytes; without memory, and when the least
    element of an empty queue is asked for, the program ends. -/

namespace Turkey.Binheap
open Turkey.Rabin Turkey.Objects
variable {χ : Type} (l2num : χ → ℕ)

/-- `HeapStruct` with the number of slots that `Elements` has room for. -/
structure HeapStruct (χ : Type) where
  capacity : ℤ
  size : ℕ
  elements : ℕ → Option χ
  slots : ℕ

def HeapStruct.toHeap (h : HeapStruct χ) : Heap χ := ⟨h.capacity.toNat, h.size, h.elements⟩

/-- The bytes that are asked for when the array should have this capacity, and a slot more. -/
def bytes (capacity : ℤ) : ℕ := toSize (int32 (capacity + 1)) * 8 % 2 ^ 64

/-- `PTRDIFF_MAX` -/
def ptrdiffMax : ℕ := 2 ^ 63 - 1

section Memory
variable (slots : ℕ) (elements : ℕ → Option χ)

def load (i : ℕ) : Option (Option χ) := if i < slots then some (elements i) else none

def store (i : ℕ) (x : Option χ) : Option (ℕ → Option χ) :=
  if i < slots then some (Function.update elements i x) else none

/-- `Elements[i]->sequence.l2num` -/
def l2numAt (i : ℕ) : Option ℕ := (load slots elements i).bind fun x => x.map l2num

end Memory

/-- The loop of `Insert`, see `percolateUp`. -/
def percolateUpIn (slots : ℕ) (x : χ) (elements : ℕ → Option χ) : ℕ → Option (ℕ → Option χ)
  | 0 => none
  | i + 1 => (load slots elements ((i + 1) / 2)).bind fun parent =>
    match parent with
    | none => store slots elements (i + 1) (some x)
    | some y =>
      if l2num y > l2num x then
        (store slots elements (i + 1) (some y)).bind fun elements => percolateUpIn slots x elements ((i + 1) / 2)
      else store slots elements (i + 1) (some x)
  decreasing_by omega

/-- The child that the loop of `DeleteMin` looks at, see `smallerChild`; `2 * i` is an `int` here. -/
def smallerChildIn (slots size : ℕ) (elements : ℕ → Option χ) (i : ℕ) : Option ℕ :=
  if 2 * i = size then some (2 * i)
  else (l2numAt l2num slots elements (2 * i + 1)).bind fun right =>
    (l2numAt l2num slots elements (2 * i)).map fun left => if right < left then 2 * i + 1 else 2 * i

theorem smallerChildIn_cases {slots size i child : ℕ} {elements : ℕ → Option χ}
    (h : smallerChildIn l2num slots size elements i = some child) : child = 2 * i ∨ child = 2 * i + 1 := by
  rw [smallerChildIn] at h
  split_ifs at h with heq
  · exact .inl (Option.some.inj h).symm
  · obtain ⟨right, -, h⟩ := Option.bind_eq_some_iff.1 h
    obtain ⟨left, -, rfl⟩ := Option.map_eq_some_iff.1 h
    split_ifs
    · exact .inr rfl
    · exact .inl rfl

/-- The loop of `DeleteMin`, see `percolateDown`. -/
def percolateDownIn (slots : ℕ) (last : χ) (size : ℕ) (elements : ℕ → Option χ) (i : ℕ) : Option (ℕ → Option χ) :=
  -- `i * 2` overflows: it is negative and so not above `Size`, and `Elements[Child + 1]` is before the array
  if 2 ^ 31 ≤ 2 * i then none
  else if _h : 0 < i ∧ 2 * i ≤ size then
    match _hchild : smallerChildIn l2num slots size elements i with
    | none => none
    | some child => (l2numAt l2num slots elements child).bind fun key =>
      if l2num last > key then
        (load slots elements child).bind fun x => (store slots elements i x).bind fun elements =>
          percolateDownIn slots last size elements child
      else store slots elements i (some last)
  else store slots elements i (some last)
  termination_by size - i
  decreasing_by
    rcases smallerChildIn_cases l2num _hchild with rfl | rfl <;> omega

/-- `IsFull`, and what `Insert` does about it; `none` when there is no memory. -/
def grow (alloc : ℕ → Bool) (h : HeapStruct χ) : Option (HeapStruct χ) :=
  if (h.size : ℤ) = h.capacity then
    let capacity := int32 (2 * h.capacity)
    if alloc (bytes capacity) then some { h with capacity := capacity, slots := bytes capacity / 8 } else none
  else some h

def insertIn (x : χ) (h : HeapStruct χ) : Option (HeapStruct χ) :=
  if h.size = 0 then (store h.slots h.elements 1 (some x)).map fun elements =>
    { h with size := 1, elements := elements }
  else (percolateUpIn l2num h.slots x h.elements (h.size + 1)).map fun elements =>
    { h with size := h.size + 1, elements := elements }

/-- `DeleteMin` when the queue is not empty. -/
def deleteMinIn (h : HeapStruct χ) : Option (Option χ × HeapStruct χ) :=
  (load h.slots h.elements 1).bind fun minElement => (load h.slots h.elements h.size).bind fun lastElement =>
    lastElement.bind fun last => (percolateDownIn l2num h.slots last (h.size - 1) h.elements 1).map fun elements =>
      (minElement, { h with size := h.size - 1, elements := elements })

def findMinIn (h : HeapStruct χ) : Option (Option χ) :=
  if h.size = 0 then some none else load h.slots h.elements 1

inductive QueueOp (χ : Type) where
  | insert (x : χ)
  | deleteMin
  | findMin

inductive QueueReply (χ : Type) where
  | inserted
  | element (x : Option χ)
  | exited

/-- An operation on the queue, or on nothing when the program has ended. -/
def step (alloc : ℕ → Bool) : Option (HeapStruct χ) → QueueOp χ → Option (QueueReply χ × Option (HeapStruct χ))
  | none, _ => some (.exited, none)
  | some h, .insert x =>
    match grow alloc h with
    | none => some (.exited, none)
    | some h => (insertIn l2num x h).map fun h => (.inserted, some h)
  | some h, .deleteMin =>
    if h.size = 0 then some (.exited, none)
    else (deleteMinIn l2num h).map fun (x, h) => (.element x, some h)
  | some h, .findMin => (findMinIn h).map fun x => (.element x, some h)

/-! ### What a priority queue does -/

/-- An element with the least `l2num`. -/
def Least (m : Multiset χ) (x : χ) : Prop := x ∈ m ∧ ∀ y ∈ m, l2num x ≤ l2num y

/-- What an operation does to the elements that are stored. The program may end when the least element of
    none is asked for, and when there is no memory for twice as many elements. -/
def Does (alloc : ℕ → Bool) : Option (Multiset χ) → QueueOp χ → QueueReply χ → Option (Multiset χ) → Prop
  | none, _, r, m' => r = .exited ∧ m' = none
  | some m, .insert x, r, m' => r = .inserted ∧ m' = some (x ::ₘ m) ∨
      alloc (bytes (int32 (2 * m.card))) = false ∧ r = .exited ∧ m' = none
  | some m, .deleteMin, r, m' => m = 0 ∧ r = .exited ∧ m' = none ∨
      ∃ x rest, Least l2num m x ∧ m = x ::ₘ rest ∧ r = .element (some x) ∧ m' = some rest
  | some m, .findMin, r, m' => m' = some m ∧
      (m = 0 ∧ r = .element none ∨ ∃ x, Least l2num m x ∧ r = .element (some x))

/-! ### The way down -/

/-- Where the way from position `i` to the smaller child, and on from there, is after so many levels. -/
def descent (size : ℕ) (elements : ℕ → Option χ) : ℕ → ℕ → ℕ
  | i, 0 => i
  | i, k + 1 => descent size elements (smallerChild l2num size elements i) k

/-- On the way of the last element down from the root, no element at a position that cannot be doubled in an `int` is
    less. -/
def Doublable (h : HeapStruct χ) : Prop := ∀ k, 2 ^ 30 ≤ descent l2num (h.size - 1) h.elements 1 k →
  descent l2num (h.size - 1) h.elements 1 k < h.size →
  key l2num h.elements h.size ≤ key l2num h.elements (descent l2num (h.size - 1) h.elements 1 k)

/-- The condition on the operations: a `DeleteMin` has no position to double that is too large for it. -/
def InRange : Option (HeapStruct χ) → QueueOp χ → Prop
  | some h, .deleteMin => Doublable l2num h
  | _, _ => True

theorem le_descent (size : ℕ) (elements : ℕ → Option χ) (i k : ℕ) : i ≤ descent l2num size elements i k := by
  induction k generalizing i with
  | zero => exact le_rfl
  | succ k ih =>
    have hcases := smallerChild_cases l2num size elements i
    exact le_trans (by omega) (ih (smallerChild l2num size elements i))

/-- In a heap the keys do not decrease on the way down. -/
theorem key_descent_le {n size : ℕ} {elements : ℕ → Option χ} (hord : HeapOrder.Ordered n (key l2num elements)) :
    ∀ {j k i : ℕ}, 1 ≤ i → j ≤ k → descent l2num size elements i k ≤ n →
      key l2num elements (descent l2num size elements i j) ≤ key l2num elements (descent l2num size elements i k)
  | 0, 0, i, _, _, _ => le_rfl
  | 0, k + 1, i, hi, _, hn => by
    have hcases := smallerChild_cases l2num size elements i
    have hle := le_descent l2num size elements (smallerChild l2num size elements i) k
    have hparent := hord (smallerChild l2num size elements i) (by omega) (hle.trans hn)
    rw [show smallerChild l2num size elements i / 2 = i by omega] at hparent
    exact hparent.trans (key_descent_le hord (i := smallerChild l2num size elements i) (by omega) (Nat.zero_le k) hn)
  | j + 1, k + 1, i, hi, hjk, hn => by
    have hcases := smallerChild_cases l2num size elements i
    exact key_descent_le hord (i := smallerChild l2num size elements i) (by omega) (Nat.le_of_lt_succ hjk) hn

/-! ### The accesses are in the array -/

section Accesses
variable {l2num} {slots n : ℕ} {elements : ℕ → Option χ}

theorem load_eq {i : ℕ} (h : i < slots) : load slots elements i = some (elements i) := if_pos h

theorem store_eq {i : ℕ} (h : i < slots) (x : Option χ) :
    store slots elements i x = some (Function.update elements i x) := if_pos h

theorem l2numAt_eq {i : ℕ} {x : χ} (h : i < slots) (hx : elements i = some x) :
    l2numAt l2num slots elements i = some (l2num x) := by
  rw [l2numAt, load_eq h, Option.bind_some, hx, Option.map_some]

theorem percolateUpIn_eq (x : χ) : ∀ {i : ℕ} {elements : ℕ → Option χ}, 1 ≤ i → i < slots → elements 0 = none →
    percolateUpIn l2num slots x elements i = some (percolateUp l2num x elements i) := by
  intro i
  induction i using Nat.strongRecOn with
  | _ i ih =>
    intro elements hpos hi hsentinel
    obtain ⟨i, rfl⟩ := Nat.exists_eq_add_of_le' hpos
    rw [percolateUpIn, load_eq (by omega), Option.bind_some, percolateUp]
    cases hparent : elements ((i + 1) / 2) with
    | none => exact store_eq hi _
    | some y =>
      have hne : (i + 1) / 2 ≠ 0 := fun hzero => by simp [hzero, hsentinel] at hparent
      simp only [gt_iff_lt]
      split_ifs with hlt
      · rw [store_eq hi, Option.bind_some]
        refine ih ((i + 1) / 2) (by omega) (by omega) (by omega) ?_
        rwa [Function.update_of_ne (by omega)]
      · exact store_eq hi _

theorem smallerChildIn_eq {i : ℕ} (hn : n < slots) (h1 : 1 ≤ i) (h2 : 2 * i ≤ n) (h : Holed n elements i) :
    smallerChildIn l2num slots n elements i = some (smallerChild l2num n elements i) := by
  rw [smallerChildIn, smallerChild]
  by_cases heq : 2 * i = n
  · simp [heq]
  · obtain ⟨x, hx⟩ := h.filled (2 * i) (by omega) h2 (by omega)
    obtain ⟨y, hy⟩ := h.filled (2 * i + 1) (by omega) (by omega) (by omega)
    rw [if_neg heq, l2numAt_eq (by omega) hy, l2numAt_eq (by omega) hx]
    simp [less, hx, hy, heq]

/-- The elements on the way down from `i` are the same when the hole at `i` has been filled. -/
theorem descent_update {i j : ℕ} (x : Option χ) (hj : i < j) (k : ℕ) :
    descent l2num n (Function.update elements i x) j k = descent l2num n elements j k := by
  induction k generalizing j with
  | zero => rfl
  | succ k ih =>
    have hcases := smallerChild_cases l2num n elements j
    have hchild : smallerChild l2num n (Function.update elements i x) j = smallerChild l2num n elements j := by
      rw [smallerChild, smallerChild, Function.update_of_ne (by omega), Function.update_of_ne (by omega)]
    rw [descent, descent, hchild]
    exact ih (by omega)

theorem key_descent_update {i j : ℕ} (x : Option χ) (hj : i < j) (k : ℕ) :
    key l2num (Function.update elements i x) (descent l2num n (Function.update elements i x) j k) =
      key l2num elements (descent l2num n elements j k) := by
  have hle := le_descent l2num n elements j k
  rw [descent_update x hj, key, key, Function.update_of_ne (by omega)]

/-- The hole stays at positions below 2 ^ 30. -/
theorem percolateDownIn_eq (last : χ) (hn : n < slots) : ∀ {i : ℕ} {elements : ℕ → Option χ}, Holed n elements i →
    i < 2 ^ 30 → (∀ k, 2 ^ 30 ≤ descent l2num n elements i k → descent l2num n elements i k ≤ n →
      l2num last ≤ key l2num elements (descent l2num n elements i k)) →
    percolateDownIn l2num slots last n elements i = some (percolateDown l2num last n elements i) := by
  intro i
  induction hm : n - i using Nat.strongRecOn generalizing i with
  | _ m ih =>
    intro elements h hlow hdeep
    have hpos := h.pos
    have hle := h.le
    unfold percolateDownIn percolateDown
    rw [if_neg (by omega)]
    by_cases h2 : 2 * i ≤ n
    · rw [dif_pos ⟨hpos, h2⟩, if_pos ⟨hpos, h2⟩]
      obtain ⟨hcn, -⟩ := smallerChild_le l2num hpos h2 h
      have hcases := smallerChild_cases l2num n elements i
      have hchild : smallerChildIn l2num slots n elements i = some (smallerChild l2num n elements i) :=
        smallerChildIn_eq hn hpos h2 h
      obtain ⟨y, hy⟩ := h.filled (smallerChild l2num n elements i) (by omega) hcn (by omega)
      split
      · rename_i hnone
        rw [hchild] at hnone
        cases hnone
      · rename_i child hsome
        obtain rfl := Option.some.inj (hchild.symm.trans hsome)
        have hless : less l2num (some y) (some last) = decide (l2num y < l2num last) := rfl
        rw [l2numAt_eq (by omega) hy, Option.bind_some, load_eq (by omega), Option.bind_some, store_eq (by omega),
          Option.bind_some]
        simp only [hless, hy, gt_iff_lt, decide_eq_true_eq]
        split_ifs with hlt
        · refine ih _ (by omega) rfl (h.move (by omega) hcn) ?_ fun k hk hkn => ?_
          · by_contra hge
            have hlast := hdeep 1 (not_lt.1 hge) hcn
            rw [show descent l2num n elements i 1 = smallerChild l2num n elements i from rfl, key_eq l2num hy] at hlast
            omega
          · rw [key_descent_update _ (by omega)]
            rw [descent_update _ (by omega)] at hk hkn
            exact hdeep (k + 1) hk hkn
        · exact store_eq (by omega) _
    · rw [dif_neg fun hand => h2 hand.2, if_neg fun hand => h2 hand.2]
      exact store_eq (by omega) _

/-- The hole sinks to a position that cannot be doubled. -/
theorem percolateDownIn_eq_none (last : χ) (hn : n < slots) : ∀ (k : ℕ) {i : ℕ} {elements : ℕ → Option χ},
    Holed n elements i → 2 ^ 30 ≤ descent l2num n elements i k → descent l2num n elements i k ≤ n →
    (∀ j, 1 ≤ j → j ≤ k → key l2num elements (descent l2num n elements i j) < l2num last) →
    percolateDownIn l2num slots last n elements i = none
  | 0, i, elements, _, hdeep, _, _ => by
    have hi : 2 ^ 30 ≤ i := hdeep
    rw [percolateDownIn, if_pos (by omega)]
  | k + 1, i, elements, h, hdeep, hkn, hless => by
    have hpos := h.pos
    have hcases := smallerChild_cases l2num n elements i
    have hle : smallerChild l2num n elements i ≤ n := (le_descent l2num n elements _ k).trans hkn
    have hchild : smallerChildIn l2num slots n elements i = some (smallerChild l2num n elements i) :=
      smallerChildIn_eq hn hpos (by omega) h
    obtain ⟨y, hy⟩ := h.filled (smallerChild l2num n elements i) (by omega) hle (by omega)
    have hlt : l2num y < l2num last := by
      have hone := hless 1 le_rfl (by omega)
      rwa [show descent l2num n elements i 1 = smallerChild l2num n elements i from rfl, key_eq l2num hy] at hone
    rw [percolateDownIn]
    split_ifs with hover hloop
    · rfl
    · split
      · rfl
      · rename_i child hsome
        obtain rfl := Option.some.inj (hchild.symm.trans hsome)
        rw [l2numAt_eq (by omega) hy, Option.bind_some, if_pos hlt, load_eq (by omega), Option.bind_some,
          store_eq (by omega), Option.bind_some]
        refine percolateDownIn_eq_none last hn k (hy ▸ h.move (by omega) hle) ?_ ?_ fun j hj hjk => ?_
        · rwa [descent_update _ (by omega)]
        · rwa [descent_update _ (by omega)]
        · rw [key_descent_update _ (by omega)]
          exact hless (j + 1) (by omega) (by omega)
    · omega

end Accesses

/-! ### The invariant -/

/-- The queue is a heap, and its array has a slot more than its capacity. -/
structure Allocated (h : HeapStruct χ) : Prop where
  valid : Valid l2num h.toHeap
  nonneg : 0 ≤ h.capacity
  lt : h.capacity + 1 < 2 ^ 31
  slots : (h.slots : ℤ) = h.capacity + 1

/-- What the queue holds. -/
def Stores (h : Option (HeapStruct χ)) (m : Option (Multiset χ)) : Prop :=
  match h, m with
  | none, none => True
  | some h, some m => Allocated l2num h ∧ contents h.toHeap = m
  | _, _ => False

theorem bytes_of_lt {capacity : ℤ} (h0 : 0 ≤ capacity) (h : capacity + 1 < 2 ^ 31) :
    (bytes capacity : ℤ) = 8 * (capacity + 1) := by
  obtain ⟨n, rfl⟩ := Int.eq_ofNat_of_zero_le h0
  have hint : int32 ((n : ℤ) + 1) = (n + 1 : ℕ) := int32_of_lt (n := n + 1) (by omega)
  have hsize := toSize_of_nonneg (z := (n + 1 : ℕ)) (by omega) (by omega)
  rw [bytes, hint]
  omega

/-- A capacity that does not fit into an `int` asks for more than there can be. -/
theorem bytes_of_ge {capacity : ℤ} (h0 : 0 ≤ capacity) (hlt : capacity < 2 ^ 31) (h : 2 ^ 31 ≤ 2 * capacity) :
    ptrdiffMax < bytes (int32 (2 * capacity)) := by
  have hwrap : int32 (2 * capacity) = 2 * capacity - 2 ^ 32 := by
    rw [int32, Int.bmod_def]
    split_ifs <;> omega
  have hnext : int32 (2 * capacity - 2 ^ 32 + 1) = 2 * capacity - 2 ^ 32 + 1 := by
    rw [int32, Int.bmod_def]
    split_ifs <;> omega
  rw [hwrap, bytes, hnext, toSize, ptrdiffMax]
  omega

section Operations
variable {l2num} {alloc : ℕ → Bool}

theorem card_contents {h : Heap χ} (hv : Valid l2num h) : (contents h).card = h.size := by
  have hone : ∀ i ∈ Finset.Icc 1 h.size, ((h.elements i).elim (0 : Multiset χ) fun x => {x}).card = 1 := by
    intro i hi
    obtain ⟨x, hx⟩ := hv.filled i (Finset.mem_Icc.1 hi).1 (Finset.mem_Icc.1 hi).2
    rw [hx]
    rfl
  rw [contents, held, Multiset.card_sum, Finset.sum_congr rfl hone]
  simp

/-- The array is large enough for one element more, or there is no memory. -/
theorem grow_allocated (halloc : ∀ n, alloc n = true → n ≤ ptrdiffMax) {h : HeapStruct χ} (hh : Allocated l2num h) :
    (∃ h', grow alloc h = some h' ∧ h'.size = h.size ∧ h'.elements = h.elements ∧ (h.size : ℤ) < h'.capacity ∧
      h'.capacity + 1 < 2 ^ 31 ∧ (h'.slots : ℤ) = h'.capacity + 1 ∧
      h'.toHeap.capacity = if h.toHeap.size = h.toHeap.capacity then 2 * h.toHeap.capacity else h.toHeap.capacity) ∨
    (h.size : ℤ) = h.capacity ∧ alloc (bytes (int32 (2 * h.capacity))) = false ∧ grow alloc h = none := by
  have hnonneg := hh.nonneg
  have hlt := hh.lt
  have hbounded : h.size ≤ h.capacity.toNat := hh.valid.bounded
  have hpos : 0 < h.capacity.toNat := hh.valid.capacity_pos
  have hslots := hh.slots
  by_cases hfull : (h.size : ℤ) = h.capacity
  · cases hmem : alloc (bytes (int32 (2 * h.capacity))) with
    | false => exact .inr ⟨hfull, rfl, by simp [grow, hfull, hmem]⟩
    | true =>
      have hsmall : 2 * h.capacity < 2 ^ 31 := by
        by_contra hge
        have hmax := bytes_of_ge hnonneg (by omega) (not_lt.1 hge)
        have := halloc _ hmem
        omega
      have hint : int32 (2 * h.capacity) = 2 * h.capacity := by
        rw [int32, Int.bmod_def]
        split_ifs <;> omega
      rw [hint] at hmem
      have hbytes : (bytes (2 * h.capacity) : ℤ) = 8 * (2 * h.capacity + 1) := bytes_of_lt (by omega) (by omega)
      refine .inl ⟨{ h with capacity := 2 * h.capacity, slots := bytes (2 * h.capacity) / 8 }, ?_, rfl, rfl, ?_,
        ?_, ?_, ?_⟩
      · simp [grow, hfull, hint, hmem]
      · dsimp only
        omega
      · dsimp only
        omega
      · dsimp only
        omega
      · have hfull' : h.toHeap.size = h.toHeap.capacity := by
          show h.size = h.capacity.toNat
          omega
        rw [if_pos hfull']
        show (2 * h.capacity).toNat = 2 * h.capacity.toNat
        omega
  · have hfull' : h.toHeap.size ≠ h.toHeap.capacity := by
      show h.size ≠ h.capacity.toNat
      omega
    refine .inl ⟨h, if_neg hfull, rfl, rfl, by omega, hlt, hslots, ?_⟩
    rw [if_neg hfull']

theorem insertIn_eq {h h' : HeapStruct χ} (hh : Allocated l2num h) (x : χ) (hsize : h'.size = h.size)
    (helements : h'.elements = h.elements) (hroom : (h.size : ℤ) < h'.capacity)
    (hslots : (h'.slots : ℤ) = h'.capacity + 1) (hcapacity : h'.toHeap.capacity =
      if h.toHeap.size = h.toHeap.capacity then 2 * h.toHeap.capacity else h.toHeap.capacity) :
    ∃ t, insertIn l2num x h' = some t ∧ t.toHeap = insert l2num x h.toHeap ∧ t.capacity = h'.capacity ∧
      t.slots = h'.slots := by
  have hsentinel : h.elements 0 = none := hh.valid.sentinel
  by_cases hzero : h.size = 0
  · refine ⟨{ h' with size := 1, elements := Function.update h.elements 1 (some x) }, ?_, ?_, rfl, rfl⟩
    · rw [insertIn, hsize, if_pos hzero, helements, store_eq (by omega), Option.map_some]
    · rw [insert, if_pos (show h.toHeap.size = 0 from hzero), ← hcapacity]
      rfl
  · refine ⟨{ h' with size := h.size + 1, elements := percolateUp l2num x h.elements (h.size + 1) }, ?_, ?_, rfl, rfl⟩
    · rw [insertIn, hsize, if_neg hzero, helements, percolateUpIn_eq x (by omega) (by omega) hsentinel,
        Option.map_some]
    · rw [insert, if_neg (show ¬h.toHeap.size = 0 from hzero), ← hcapacity]
      rfl

/-- Without the least element the root is free. -/
theorem Allocated.holed {h : HeapStruct χ} (hh : Allocated l2num h) (hmany : 1 < h.size) :
    Holed (h.size - 1) h.elements 1 :=
  ⟨le_rfl, by omega, hh.valid.sentinel, fun j hj hjn _ => hh.valid.filled j hj (show j ≤ h.size by omega)⟩

theorem Allocated.size_lt {h : HeapStruct χ} (hh : Allocated l2num h) : h.size < h.slots := by
  have hslots := hh.slots
  have hnonneg := hh.nonneg
  have hbounded : h.size ≤ h.capacity.toNat := hh.valid.bounded
  omega

/-- The least and the last element are read, and the last one sinks. -/
theorem deleteMinIn_of_last {h : HeapStruct χ} (hh : Allocated l2num h) (hpos : 1 ≤ h.size) {last : χ}
    (hlast : h.elements h.size = some last) : deleteMinIn l2num h =
      (percolateDownIn l2num h.slots last (h.size - 1) h.elements 1).map fun elements =>
        (h.elements 1, { h with size := h.size - 1, elements := elements }) := by
  have hslots := hh.size_lt
  rw [deleteMinIn, load_eq (by omega), Option.bind_some, load_eq hslots, Option.bind_some, hlast, Option.bind_some]

theorem deleteMinIn_eq {h : HeapStruct χ} (hh : Allocated l2num h) (hne : h.size ≠ 0) (hdeep : Doublable l2num h) :
    ∃ x t, findMin h.toHeap = some x ∧ deleteMinIn l2num h = some (some x, t) ∧
      deleteMin l2num h.toHeap = some (x, t.toHeap) ∧ t.capacity = h.capacity ∧ t.slots = h.slots := by
  have hslots := hh.size_lt
  have hfilled : ∀ i, 1 ≤ i → i ≤ h.size → ∃ x, h.elements i = some x := hh.valid.filled
  obtain ⟨x, hx⟩ := hfilled 1 le_rfl (by omega)
  obtain ⟨last, hlast⟩ := hfilled h.size (by omega) le_rfl
  have hdown : percolateDownIn l2num h.slots last (h.size - 1) h.elements 1 =
      some (percolateDown l2num last (h.size - 1) h.elements 1) := by
    rcases Nat.lt_or_ge 1 h.size with hmany | hone
    · refine percolateDownIn_eq last (by omega) (hh.holed hmany) (by omega) fun k hk hkn => ?_
      rw [← key_eq l2num hlast]
      exact hdeep k hk (by omega)
    · -- the only element: the loop is not entered
      unfold percolateDownIn percolateDown
      rw [if_neg (by omega), dif_neg (by omega), if_neg (by omega), store_eq (by omega)]
  refine ⟨x, { h with size := h.size - 1, elements := percolateDown l2num last (h.size - 1) h.elements 1 },
    ?_, ?_, ?_, rfl, rfl⟩
  · rw [findMin, if_neg (show ¬h.toHeap.size = 0 from hne)]
    exact hx
  · rw [deleteMinIn_of_last hh (by omega) hlast, hdown, Option.map_some, hx]
  · rw [deleteMin, if_neg (show ¬h.toHeap.size = 0 from hne)]
    simp only [HeapStruct.toHeap, hx, hlast]

/-- A position that is too large is doubled. -/
theorem deleteMinIn_eq_none {h : HeapStruct χ} (hh : Allocated l2num h) (hdeep : ¬Doublable l2num h) :
    h.size ≠ 0 ∧ deleteMinIn l2num h = none := by
  rw [Doublable] at hdeep
  push Not at hdeep
  obtain ⟨k, hk, hkn, hless⟩ := hdeep
  have hone := le_descent l2num (h.size - 1) h.elements 1 k
  have hslots := hh.size_lt
  obtain ⟨last, hlast⟩ : ∃ last, h.elements h.size = some last :=
    hh.valid.filled h.size (show 1 ≤ h.size by omega) le_rfl
  rw [key_eq l2num hlast] at hless
  have hroom : h.size - 1 < h.slots := by omega
  have hdown := percolateDownIn_eq_none last hroom k (hh.holed (by omega)) hk (by omega) fun j _ hjk =>
    (key_descent_le l2num hh.valid.ordered le_rfl hjk hkn.le).trans_lt hless
  exact ⟨by omega, by rw [deleteMinIn_of_last hh (by omega) hlast, hdown, Option.map_none]⟩

theorem findMinIn_eq {h : HeapStruct χ} (hh : Allocated l2num h) (hne : h.size ≠ 0) :
    ∃ x, findMin h.toHeap = some x ∧ findMinIn h = some (some x) := by
  have hslots := hh.size_lt
  obtain ⟨x, hx⟩ : ∃ x, h.elements 1 = some x := hh.valid.filled 1 le_rfl (show 1 ≤ h.size by omega)
  refine ⟨x, ?_, ?_⟩
  · rw [findMin, if_neg (show ¬h.toHeap.size = 0 from hne)]
    exact hx
  · rw [findMinIn, if_neg hne, load_eq (by omega), hx]

/-- Every operation in range stays in the array and does what it does on the stored elements. -/
theorem step_does (halloc : ∀ n, alloc n = true → n ≤ ptrdiffMax) : ∀ (s : Option (HeapStruct χ))
    (t : Option (Multiset χ)) (op : QueueOp χ), Stores l2num s t → InRange l2num s op →
      ∃ r s' t', step l2num alloc s op = some (r, s') ∧ Does l2num alloc t op r t' ∧ Stores l2num s' t' := by
  rintro (_ | h) (_ | m) op hR hG
  · exact ⟨.exited, none, none, rfl, ⟨rfl, rfl⟩, trivial⟩
  · exact hR.elim
  · exact hR.elim
  obtain ⟨hh, rfl⟩ := hR
  cases op with
  | insert x =>
    rcases grow_allocated halloc hh with ⟨h', hgrow, hsize, helements, hroom, hlt, hslots, hcapacity⟩ |
      ⟨hfull, hmem, hgrow⟩
    · obtain ⟨t, hinsert, heap, hcap, hslot⟩ := insertIn_eq hh x hsize helements hroom hslots hcapacity
      obtain ⟨hvalid, hcontents⟩ := insert_valid l2num x h.toHeap hh.valid
      refine ⟨.inserted, some t, some (x ::ₘ contents h.toHeap), by simp [step, hgrow, hinsert],
        .inl ⟨rfl, rfl⟩, ⟨?_, ?_, ?_, ?_⟩, ?_⟩
      · rwa [heap]
      · omega
      · omega
      · rw [hslot, hcap, hslots]
      · rw [heap, hcontents]
    · refine ⟨.exited, none, none, by simp [step, hgrow], .inr ⟨?_, rfl, rfl⟩, trivial⟩
      have hcard : ((contents h.toHeap).card : ℤ) = h.capacity := by
        rw [card_contents hh.valid]
        exact hfull
      rwa [hcard]
  | deleteMin =>
    by_cases hzero : h.size = 0
    · have hempty := (size_eq_zero_iff l2num hh.valid).1 hzero
      exact ⟨.exited, none, none, if_pos hzero, .inl ⟨hempty, rfl, rfl⟩, trivial⟩
    · obtain ⟨x, t, hmin, hdelete, hheap, hcap, hslot⟩ := deleteMinIn_eq hh hzero hG
      obtain ⟨h', hdelete', hvalid, hcontents⟩ := deleteMin_valid l2num hh.valid hmin
      obtain ⟨-, rfl⟩ := Prod.mk.inj (Option.some.inj (hheap.symm.trans hdelete'))
      refine ⟨.element (some x), some t, some (contents t.toHeap), ?_, .inr ⟨x, contents t.toHeap,
        findMin_le l2num hh.valid hmin, hcontents.symm, rfl, rfl⟩, ⟨hvalid, ?_, ?_, ?_⟩, rfl⟩
      · rw [step, if_neg hzero, hdelete]
        rfl
      · exact hcap ▸ hh.nonneg
      · exact hcap ▸ hh.lt
      · rw [hslot, hcap, hh.slots]
  | findMin =>
    by_cases hzero : h.size = 0
    · have hempty := (size_eq_zero_iff l2num hh.valid).1 hzero
      exact ⟨.element none, some h, some (contents h.toHeap), by simp [step, findMinIn, hzero],
        ⟨rfl, .inl ⟨hempty, rfl⟩⟩, hh, rfl⟩
    · obtain ⟨x, hmin, hfind⟩ := findMinIn_eq hh hzero
      exact ⟨.element (some x), some h, some (contents h.toHeap), by simp [step, hfind],
        ⟨rfl, .inr ⟨x, findMin_le l2num hh.valid hmin, rfl⟩⟩, hh, rfl⟩

theorem step_undefined : ∀ (s : Option (HeapStruct χ)) (t : Option (Multiset χ)) (op : QueueOp χ), Stores l2num s t →
    ¬InRange l2num s op → step l2num alloc s op = none
  | some h, some m, .deleteMin, hR, hG => by
    obtain ⟨hzero, hdelete⟩ := deleteMinIn_eq_none hR.1 hG
    rw [step, if_neg hzero, hdelete, Option.map_none]
  | some _, none, .deleteMin, hR, _ => hR.elim
  | some _, _, .insert _, _, hG => absurd trivial hG
  | some _, _, .findMin, _, hG => absurd trivial hG
  | none, _, _, _, hG => absurd trivial hG

theorem step_refines (halloc : ∀ n, alloc n = true → n ≤ ptrdiffMax) :
    RefinesIff (step l2num alloc) (InRange l2num) (Does l2num alloc) (Stores l2num) :=
  ⟨step_does halloc, step_undefined⟩

end Operations

/-- The number of elements that are stored. -/
def stored (m : Option (Multiset χ)) : ℕ := m.elim 0 Multiset.card

/-- A queue with room for 2 ^ 30 + 1 elements, in which `k` elements 0 are. -/
def zeros (k : ℕ) : HeapStruct ℕ := ⟨2 ^ 30 + 1, k, fun i => if 1 ≤ i ∧ i ≤ k then some 0 else none, 2 ^ 30 + 2⟩

end Turkey.Binheap
