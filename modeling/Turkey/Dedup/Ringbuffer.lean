import Turkey.Dedup.Rabin
import Turkey.Schemes.Circular
import Turkey.Schemes.Objects

/-! `ringbuffer_t` (`queue.h`), on which the queues between the stages of dedup rest. One slot more is allocated
    than the buffer can hold elements. `head`, where the next element goes, and `tail`, where the oldest one is,
    are of type `int`, while `size` and the arithmetic of the tests are `size_t`: `int32` and `toSize` are the
    conversions of a 64-bit machine.

    A pointer is an element, or `none` for `NULL`; only elements are inserted, for `NULL` says that there are
    none. An operation is undefined, `none`, when it leaves the array or divides by zero. -/

namespace Turkey.Queues
open Turkey.Rabin Turkey.Objects Turkey.Circular
variable {α : Type}

/-- `ringbuffer_t`; `slots` is the number of pointers that `data` has room for. -/
structure Ringbuffer (α : Type) where
  head : ℤ
  tail : ℤ
  data : ℕ → Option α
  size : ℕ
  slots : ℕ

/-- `ringbuffer_init` when `malloc` has succeeded. -/
def ringbufferInit (size : ℕ) : Ringbuffer α where
  head := 0
  tail := 0
  data := fun _ => none
  size := (size + 1) % 2 ^ 64
  slots := 8 * ((size + 1) % 2 ^ 64) % 2 ^ 64 / 8

/-- `ringbuffer_isEmpty` -/
def isEmpty (buf : Ringbuffer α) : Bool := buf.tail = buf.head

/-- `ringbuffer_isFull`; a buffer of size 0 divides by zero. -/
def isFull (buf : Ringbuffer α) : Option Bool :=
  if buf.size = 0 then none
  else some (toSize buf.head = (toSize (int32 (buf.tail - 1)) + buf.size) % 2 ^ 64 % buf.size)

/-- The slot with an index of type `int`. -/
def slot (buf : Ringbuffer α) (i : ℤ) : Option ℕ := if 0 ≤ i ∧ i < buf.slots then some i.toNat else none

/-- `ringbuffer_remove` -/
def ringbufferRemove (buf : Ringbuffer α) : Option (Option α × Ringbuffer α) :=
  if isEmpty buf then some (none, buf)
  else (slot buf buf.tail).map fun i =>
    let tail := int32 (buf.tail + 1)
    (buf.data i, { buf with tail := if toSize tail ≥ buf.size then 0 else tail })

/-- `ringbuffer_peek` -/
def ringbufferPeek (buf : Ringbuffer α) : Option (Option α) :=
  if isEmpty buf then some none else (slot buf buf.tail).map buf.data

/-- `ringbuffer_insert` -/
def ringbufferInsert (ptr : α) (buf : Ringbuffer α) : Option (ℤ × Ringbuffer α) :=
  (isFull buf).bind fun full =>
    if full then some (-1, buf)
    else (slot buf buf.head).map fun i =>
      let head := int32 (buf.head + 1)
      (0, { buf with
        data := Function.update buf.data i (some ptr)
        head := if toSize head = buf.size then 0 else head })

/-- The operations on a buffer. -/
inductive Op (α : Type) where
  | insert (ptr : α)
  | remove
  | peek
  | isEmpty
  | isFull

/-- What an operation returns. -/
inductive Reply (α : Type) where
  | code (rv : ℤ)
  | pointer (ptr : Option α)
  | flag (b : Bool)

/-- An operation; `none` when it is undefined. -/
def step (buf : Ringbuffer α) : Op α → Option (Reply α × Ringbuffer α)
  | .insert ptr => (ringbufferInsert ptr buf).map fun (rv, buf) => (.code rv, buf)
  | .remove => (ringbufferRemove buf).map fun (ptr, buf) => (.pointer ptr, buf)
  | .peek => (ringbufferPeek buf).map fun ptr => (.pointer ptr, buf)
  | .isEmpty => some (.flag (isEmpty buf), buf)
  | .isFull => (isFull buf).map fun b => (.flag b, buf)

/-! ### A first-in-first-out list with a capacity -/

/-- A list that is never longer than the capacity. -/
structure Fifo (α : Type) (capacity : ℕ) where
  elements : List α
  le : elements.length ≤ capacity

variable {capacity : ℕ}

/-- Nothing is in it. -/
def Fifo.empty : Fifo α capacity := ⟨[], Nat.zero_le _⟩

/-- Behind the last element, if there is room. -/
def Fifo.push (q : Fifo α capacity) (ptr : α) : Fifo α capacity :=
  if h : q.elements.length < capacity then
    ⟨q.elements ++ [ptr], by rw [List.length_append, List.length_singleton]; exact h⟩
  else q

/-- Without the first element. -/
def Fifo.pop (q : Fifo α capacity) : Fifo α capacity := ⟨q.elements.tail, by
  rw [List.length_tail]
  exact (Nat.sub_le ..).trans q.le⟩

/-- What a bounded list does, and its reply. -/
def Fifo.step (q : Fifo α capacity) : Op α → Reply α × Fifo α capacity
  | .insert ptr => (.code (if q.elements.length < capacity then 0 else -1), q.push ptr)
  | .remove => (.pointer q.elements.head?, q.pop)
  | .peek => (.pointer q.elements.head?, q)
  | .isEmpty => (.flag q.elements.isEmpty, q)
  | .isFull => (.flag (q.elements.length = capacity), q)

/-- The operation of the queue, as a relation. -/
def Fifo.Does (q : Fifo α capacity) (a : Op α) (r : Reply α) (q' : Fifo α capacity) : Prop := q.step a = (r, q')

/-- The indices lie in the array. -/
def InArray (buf : Ringbuffer α) : Prop :=
  (0 ≤ buf.head ∧ buf.head < buf.slots) ∧ 0 ≤ buf.tail ∧ buf.tail < buf.slots

/-- Nothing that is done to a new buffer is undefined, the replies are those of a list of this capacity, and the
    indices lie in the array afterwards. -/
def Behaves (α : Type) (size : ℕ) : Prop :=
  ∀ ops : List (Op α), ∃ replies buf, run step (ringbufferInit size) ops = some (replies, buf) ∧ InArray buf ∧
    ∃ q : Fifo α size, Allowed Fifo.Does Fifo.empty ops replies q

/-! ### Buffers whose size is an int -/

/-- The buffer holds the list, from slot `start` on. -/
structure Represents (buf : Ringbuffer α) (start : ℕ) (q : Fifo α capacity) : Prop where
  size : buf.size = capacity + 1
  slots : buf.slots = capacity + 1
  tail : buf.tail = start
  head : buf.head = finish (capacity + 1) start q.elements
  holds : Holds (capacity + 1) buf.data start q.elements

theorem toSize_natCast {n : ℕ} (h : n < 2 ^ 31) : toSize n = n := by
  have := toSize_of_nonneg (z := n) (by omega) (by omega)
  omega

theorem int32_succ {n : ℕ} (h : n + 1 < 2 ^ 31) : int32 ((n : ℤ) + 1) = (n + 1 : ℕ) := int32_of_lt h

/-- The test for a full buffer looks at the slot before the oldest element. -/
theorem slot_before {m start : ℕ} (hm : m < 2 ^ 31) (hstart : start < m) :
    (toSize (int32 ((start : ℤ) - 1)) + m) % 2 ^ 64 % m = (start + (m - 1)) % m := by
  rcases Nat.eq_zero_or_pos start with rfl | hpos
  · have hlast : toSize (int32 (((0 : ℕ) : ℤ) - 1)) = 2 ^ 64 - 1 := by decide
    rw [hlast]
    congr 1
    omega
  · obtain ⟨k, rfl⟩ := Nat.exists_eq_succ_of_ne_zero hpos.ne'
    have hprev : ((k + 1 : ℕ) : ℤ) - 1 = k := by omega
    rw [hprev, int32_of_lt (by omega), toSize_natCast (by omega)]
    congr 1
    omega

namespace Represents
variable {buf : Ringbuffer α} {start : ℕ} {q : Fifo α capacity}

theorem isEmpty_eq (h : Represents buf start q) : isEmpty buf = q.elements.isEmpty := by
  rw [isEmpty, h.tail, h.head, Bool.eq_iff_iff, decide_eq_true_iff, Nat.cast_inj, h.holds.eq_finish_iff,
    List.isEmpty_iff]

theorem isFull_eq (h : Represents buf start q) (small : capacity + 1 < 2 ^ 31) :
    isFull buf = some (decide (q.elements.length = capacity)) := by
  have hhead : toSize buf.head = finish (capacity + 1) start q.elements := by
    rw [h.head]
    exact toSize_natCast (h.holds.finish_lt.trans small)
  rw [isFull, if_neg (by rw [h.size]; omega), hhead, h.tail, h.size, slot_before small h.holds.start_lt]
  simp only [h.holds.finish_eq_iff, Nat.add_right_cancel_iff]

theorem slot_tail (h : Represents buf start q) : slot buf buf.tail = some start := by
  have hlt := h.holds.start_lt
  rw [slot, h.tail, h.slots, if_pos (by omega), Int.toNat_natCast]

theorem slot_head (h : Represents buf start q) :
    slot buf buf.head = some (finish (capacity + 1) start q.elements) := by
  have hlt := h.holds.finish_lt
  rw [slot, h.head, h.slots, if_pos (by omega), Int.toNat_natCast]

theorem inArray (h : Represents buf start q) : InArray buf := by
  have hhead := h.holds.finish_lt
  have htail := h.holds.start_lt
  rw [InArray, h.head, h.tail, h.slots]
  omega

theorem insert (h : Represents buf start q) (small : capacity + 1 < 2 ^ 31) (ptr : α) :
    ∃ buf', ringbufferInsert ptr buf = some (if q.elements.length < capacity then 0 else -1, buf') ∧
      Represents buf' start (q.push ptr) := by
  have hle := q.le
  rw [ringbufferInsert, h.isFull_eq small, Option.bind_some]
  by_cases hfull : q.elements.length = capacity
  · refine ⟨buf, ?_, ?_⟩
    · simp [hfull]
    · rwa [Fifo.push, dif_neg (by omega)]
  · have hroom : q.elements.length < capacity := by omega
    obtain ⟨hholds, hfinish⟩ := h.holds.concat (Nat.succ_lt_succ hroom) ptr
    have hlt := h.holds.finish_lt
    have hnext : (if toSize (int32 (buf.head + 1)) = buf.size then 0 else int32 (buf.head + 1)) =
        ((finish (capacity + 1) start q.elements + 1) % (capacity + 1) : ℕ) := by
      rw [h.head, int32_succ (by omega), toSize_natCast (by omega), h.size, succ_mod hlt]
      split_ifs <;> rfl
    refine ⟨{ buf with
      data := Function.update buf.data (finish (capacity + 1) start q.elements) (some ptr)
      head := ((finish (capacity + 1) start q.elements + 1) % (capacity + 1) : ℕ) }, ?_, ?_⟩
    · simp only [hfull, decide_false, Bool.false_eq_true, if_false, h.slot_head, Option.map_some, hnext, hroom,
        if_true]
    · rw [Fifo.push, dif_pos hroom]
      exact ⟨h.size, h.slots, h.tail, congrArg _ hfinish.symm, hholds⟩

theorem remove (h : Represents buf start q) (small : capacity + 1 < 2 ^ 31) :
    ∃ buf' start', ringbufferRemove buf = some (q.elements.head?, buf') ∧ Represents buf' start' q.pop := by
  rw [ringbufferRemove, h.isEmpty_eq]
  by_cases hnil : q.elements = []
  · have hpop : q.pop = q := by
      obtain ⟨elements, hle⟩ := q
      subst hnil
      rfl
    refine ⟨buf, start, ?_, by rwa [hpop]⟩
    simp [hnil]
  · obtain ⟨hholds, hfinish⟩ := h.holds.tail hnil
    have hlt := h.holds.start_lt
    have hnext : (if toSize (int32 (buf.tail + 1)) ≥ buf.size then 0 else int32 (buf.tail + 1)) =
        ((start + 1) % (capacity + 1) : ℕ) := by
      rw [h.tail, int32_succ (by omega), toSize_natCast (by omega), h.size, succ_mod hlt]
      have hiff : start + 1 ≥ capacity + 1 ↔ start + 1 = capacity + 1 := by omega
      simp only [hiff]
      split_ifs <;> rfl
    refine ⟨{ buf with tail := ((start + 1) % (capacity + 1) : ℕ) }, (start + 1) % (capacity + 1), ?_, ?_⟩
    · simp only [List.isEmpty_iff, hnil, if_false, h.slot_tail, Option.map_some, hnext, h.holds.head hnil]
    · exact ⟨h.size, h.slots, rfl, h.head.trans (congrArg _ hfinish.symm), hholds⟩

theorem peek (h : Represents buf start q) : ringbufferPeek buf = some q.elements.head? := by
  rw [ringbufferPeek, h.isEmpty_eq]
  by_cases hnil : q.elements = []
  · simp [hnil]
  · simp only [List.isEmpty_iff, hnil, if_false, h.slot_tail, Option.map_some, h.holds.head hnil]

end Represents

/-- Every operation does what it does on the list. -/
theorem step_refines (small : capacity + 1 < 2 ^ 31) :
    Refines step Fifo.Does fun (buf : Ringbuffer α) (q : Fifo α capacity) => ∃ start, Represents buf start q := by
  rintro buf q op ⟨start, h⟩
  cases op with
  | insert ptr =>
    obtain ⟨buf', hinsert, h'⟩ := h.insert small ptr
    exact ⟨_, buf', q.push ptr, by rw [step, hinsert]; rfl, rfl, start, h'⟩
  | remove =>
    obtain ⟨buf', start', hremove, h'⟩ := h.remove small
    exact ⟨_, buf', q.pop, by rw [step, hremove]; rfl, rfl, start', h'⟩
  | peek => exact ⟨_, buf, q, by rw [step, h.peek]; rfl, rfl, start, h⟩
  | isEmpty => exact ⟨_, buf, q, rfl, by rw [Fifo.Does, Fifo.step, h.isEmpty_eq], start, h⟩
  | isFull => exact ⟨_, buf, q, by rw [step, h.isFull_eq small]; rfl, rfl, start, h⟩

theorem init_represents (small : capacity + 1 < 2 ^ 31) :
    Represents (ringbufferInit capacity : Ringbuffer α) 0 (Fifo.empty : Fifo α capacity) := by
  have hsize : (capacity + 1) % 2 ^ 64 = capacity + 1 := Nat.mod_eq_of_lt (by omega)
  have hslots : 8 * (capacity + 1) % 2 ^ 64 / 8 = capacity + 1 := by omega
  refine ⟨hsize, ?_, rfl, ?_, Holds.nil (Nat.succ_pos _)⟩
  · simp only [ringbufferInit, hsize, hslots]
  · simp [ringbufferInit, finish, Fifo.empty]

theorem behaves_of_small (small : capacity + 1 < 2 ^ 31) : Behaves α capacity := by
  intro ops
  obtain ⟨replies, buf, q, hrun, hallowed, start, h⟩ := (step_refines small).run ops ⟨0, init_represents small⟩
  exact ⟨replies, buf, hrun, h.inArray, q, hallowed⟩

/-! ### Larger buffers -/

/-- `n` elements are put in, one is taken out, and two more are put in. -/
def overflow (ptr : α) : List (Op α) :=
  List.replicate (2 ^ 31 - 1) (.insert ptr) ++ [.remove, .insert ptr, .insert ptr]

/-- The end of the buffer is behind the largest `int`. -/
structure Far (buf : Ringbuffer α) (head tail : ℤ) : Prop where
  head : buf.head = head
  tail : buf.tail = tail
  size : 2 ^ 31 ≤ buf.size
  size_lt : buf.size < 2 ^ 64

namespace Far
variable {buf buf' : Ringbuffer α} {head tail : ℤ} {ptr : α} {r : Reply α}

theorem isFull_eq (h : Far buf head tail) : isFull buf =
    some (decide (toSize head = (toSize (int32 (tail - 1)) + buf.size) % 2 ^ 64 % buf.size)) := by
  have hsize := h.size
  rw [isFull, if_neg (by omega), h.head, h.tail]

/-- The new element goes to the slot at `head`. -/
theorem insert (h : Far buf head tail) (hinsert : step buf (.insert ptr) = some (r, buf'))
    (hnot : toSize head ≠ (toSize (int32 (tail - 1)) + buf.size) % 2 ^ 64 % buf.size) : 0 ≤ head ∧
      Far buf' (if toSize (int32 (head + 1)) = buf.size then 0 else int32 (head + 1)) tail ∧
        buf'.size = buf.size := by
  rw [step, Option.map_eq_some_iff] at hinsert
  obtain ⟨⟨rv, s⟩, hinsert, heq⟩ := hinsert
  obtain ⟨-, rfl⟩ := Prod.mk.inj heq
  rw [ringbufferInsert, h.isFull_eq, Option.bind_some, decide_eq_false hnot, if_neg (by simp), slot,
    h.head] at hinsert
  split_ifs at hinsert with hslot
  · obtain ⟨-, rfl⟩ := Prod.mk.inj (Option.some.inj hinsert)
    exact ⟨hslot.1, ⟨rfl, h.tail, h.size, h.size_lt⟩, rfl⟩
  · cases hinsert

/-- An insertion that takes the buffer for full. -/
theorem insert_full (h : Far buf head tail) (hinsert : step buf (.insert ptr) = some (r, buf'))
    (hfull : toSize head = (toSize (int32 (tail - 1)) + buf.size) % 2 ^ 64 % buf.size) : r = .code (-1) := by
  rw [step, Option.map_eq_some_iff] at hinsert
  obtain ⟨⟨rv, s⟩, hinsert, heq⟩ := hinsert
  obtain ⟨rfl, -⟩ := Prod.mk.inj heq
  rw [ringbufferInsert, h.isFull_eq, Option.bind_some, decide_eq_true hfull, if_pos rfl] at hinsert
  obtain ⟨rfl, -⟩ := Prod.mk.inj (Option.some.inj hinsert)
  rfl

theorem remove (h : Far buf head 0) (hne : head ≠ 0) (hremove : step buf .remove = some (r, buf')) :
    Far buf' head 1 ∧ buf'.size = buf.size := by
  rw [step, Option.map_eq_some_iff] at hremove
  obtain ⟨⟨rv, s⟩, hremove, heq⟩ := hremove
  obtain ⟨-, rfl⟩ := Prod.mk.inj heq
  have hsize := h.size
  have hone : toSize (int32 (0 + 1)) = 1 := by decide
  rw [ringbufferRemove, isEmpty, h.head, h.tail, decide_eq_false hne.symm, if_neg (by simp), slot] at hremove
  split_ifs at hremove with hslot
  · obtain ⟨-, rfl⟩ := Prod.mk.inj (Option.some.inj hremove)
    refine ⟨⟨rfl, ?_, h.size, h.size_lt⟩, rfl⟩
    rw [hone, if_neg (by omega)]
    rfl
  · cases hremove

/-- The new buffer is filled up to the largest `int`. -/
theorem fill : ∀ {k : ℕ} {rs : List (Reply α)} {buf' : Ringbuffer α}, k < 2 ^ 31 → Far buf 0 0 →
    run step buf (List.replicate k (.insert ptr)) = some (rs, buf') → Far buf' k 0 ∧ buf'.size = buf.size
  | 0, rs, buf', _, h, hrun => by
    obtain ⟨-, rfl⟩ := Prod.mk.inj (Option.some.inj hrun)
    exact ⟨h, rfl⟩
  | k + 1, rs, buf', hk, h, hrun => by
    rw [List.replicate_succ'] at hrun
    obtain ⟨rs₁, mid, rs₂, last, hmid, hlast, heq⟩ := run_append hrun
    obtain ⟨-, rfl⟩ := Prod.mk.inj heq
    obtain ⟨hfar, hsame⟩ := fill (by omega) h hmid
    obtain ⟨r, s, rs₃, t, hs, ht, heq⟩ := run_cons.1 hlast
    obtain ⟨-, rfl⟩ := Prod.mk.inj heq
    obtain ⟨-, rfl⟩ := Prod.mk.inj (Option.some.inj ht)
    have hsize := hfar.size
    have hlt := hfar.size_lt
    have hprev : toSize (int32 ((0 : ℤ) - 1)) = 2 ^ 64 - 1 := by decide
    have hnot : toSize (k : ℤ) ≠ (toSize (int32 ((0 : ℤ) - 1)) + mid.size) % 2 ^ 64 % mid.size := by
      have hwrap : (2 ^ 64 - 1 + mid.size) % 2 ^ 64 = mid.size - 1 := by omega
      rw [toSize_natCast (by omega), hprev, hwrap, Nat.mod_eq_of_lt (by omega)]
      omega
    obtain ⟨-, hfar', hsame'⟩ := hfar.insert hs hnot
    rw [int32_succ (by omega), toSize_natCast (by omega), if_neg (by omega)] at hfar'
    exact ⟨hfar', hsame'.trans hsame⟩

end Far

theorem Fifo.length_fill {ptr : α} : ∀ {k : ℕ} {rs : List (Reply α)} {q q' : Fifo α capacity},
    q.elements.length + k ≤ capacity → Allowed Fifo.Does q (List.replicate k (.insert ptr)) rs q' →
      q'.elements.length = q.elements.length + k
  | 0, [], q, q', _, h => by
    obtain rfl : q = q' := h
    rfl
  | k + 1, r :: rs, q, q', hle, ⟨u, hu, h⟩ => by
    obtain ⟨-, rfl⟩ := Prod.mk.inj hu
    have hpush : (q.push ptr).elements.length = q.elements.length + 1 := by
      rw [Fifo.push, dif_pos (by omega), List.length_append, List.length_singleton]
    rw [length_fill (by omega) h]
    omega
  | 0, _ :: _, _, _, _, h => h.elim
  | _ + 1, [], _, _, _, h => h.elim

/-- On the list the last element goes in when there is room for one more. -/
theorem Fifo.last_reply {ptr : α} (hroom : 2 ^ 31 ≤ capacity) {rs : List (Reply α)} {q : Fifo α capacity}
    (h : Allowed Fifo.Does Fifo.empty (overflow ptr) rs q) : rs.getLast? = some (.code 0) := by
  obtain ⟨rs₁, rs₂, u, rfl, hfill, hrest⟩ := Allowed.append h
  have hlen := Fifo.length_fill (q := Fifo.empty) (by simp [Fifo.empty]; omega) hfill
  match rs₂, hrest with
  | [r₁, r₂, r₃], ⟨u₁, h₁, u₂, h₂, u₃, h₃, _⟩ =>
    obtain ⟨-, rfl⟩ := Prod.mk.inj h₁
    obtain ⟨-, rfl⟩ := Prod.mk.inj h₂
    obtain ⟨rfl, -⟩ := Prod.mk.inj h₃
    have hpop : u.pop.elements.length < capacity := by
      simp only [Fifo.pop, List.length_tail, hlen, Fifo.empty, List.length_nil]
      omega
    have hpush : (u.pop.push ptr).elements.length < capacity := by
      rw [Fifo.push, dif_pos hpop]
      simp only [List.length_append, List.length_singleton, Fifo.pop, List.length_tail, hlen, Fifo.empty,
        List.length_nil]
      omega
    simp [hpush]

theorem not_behaves (ptr : α) {size : ℕ} (hlarge : 2 ^ 31 ≤ size + 1) (hlt : size < 2 ^ 64) : ¬Behaves α size := by
  intro h
  rcases Nat.eq_or_lt_of_le (show size + 1 ≤ 2 ^ 64 from hlt) with hwrap | hsize
  · -- the number of slots is zero
    obtain ⟨replies, buf, hrun, -⟩ := h [.insert ptr]
    obtain ⟨r, s, rs, t, hs, -⟩ := run_cons.1 hrun
    have hzero : isFull (ringbufferInit size : Ringbuffer α) = none := if_pos (by simp [ringbufferInit, hwrap])
    simp [step, ringbufferInsert, hzero] at hs
  · obtain ⟨replies, buf, hrun, -, q, hallowed⟩ := h (overflow ptr)
    have hnew : (ringbufferInit size : Ringbuffer α).size = size + 1 := Nat.mod_eq_of_lt hsize
    have hstart : Far (ringbufferInit size : Ringbuffer α) 0 0 :=
      ⟨rfl, rfl, by rwa [hnew], by rwa [hnew]⟩
    obtain ⟨rs₁, full, rs₂, t, hfill, hrest, heq⟩ := run_append hrun
    obtain ⟨rfl, -⟩ := Prod.mk.inj heq
    obtain ⟨hfull, hsame⟩ := hstart.fill (by decide) hfill
    obtain ⟨r₁, b₁, rs₃, t₁, h₁, hrest₁, heq₁⟩ := run_cons.1 hrest
    obtain ⟨r₂, b₂, rs₄, t₂, h₂, hrest₂, heq₂⟩ := run_cons.1 hrest₁
    obtain ⟨r₃, b₃, rs₅, t₃, h₃, hend, heq₃⟩ := run_cons.1 hrest₂
    obtain ⟨rfl, -⟩ := Prod.mk.inj (Option.some.inj hend)
    obtain ⟨rfl, -⟩ := Prod.mk.inj heq₃
    obtain ⟨rfl, -⟩ := Prod.mk.inj heq₂
    obtain ⟨rfl, -⟩ := Prod.mk.inj heq₁
    obtain ⟨hfar₁, hsame₁⟩ := hfull.remove (by decide) h₁
    have hbehind : ∀ m : ℕ, 0 < m → m < 2 ^ 64 → (toSize (int32 ((1 : ℤ) - 1)) + m) % 2 ^ 64 % m = 0 := by
      intro m hm hm'
      have hzero : toSize (int32 ((1 : ℤ) - 1)) = 0 := by decide
      rw [hzero, Nat.zero_add, Nat.mod_eq_of_lt hm', Nat.mod_self]
    have hpos₁ : 0 < b₁.size := by have := hfar₁.size; omega
    obtain ⟨-, hfar₂, hsame₂⟩ := hfar₁.insert h₂ (by
      rw [hbehind _ hpos₁ hfar₁.size_lt]
      decide)
    have hpos₂ : 0 < b₂.size := by have := hfar₂.size; omega
    split_ifs at hfar₂ with hend
    · -- `head` is negative, but as a `size_t` it is the size
      have hlast := hfar₂.insert_full h₃ (by
        rw [hbehind _ hpos₂ hfar₂.size_lt]
        decide)
      have hbig : toSize (int32 (((2 ^ 31 - 1 : ℕ) : ℤ) + 1)) = 2 ^ 64 - 2 ^ 31 := by decide
      have hreply := Fifo.last_reply (by omega) hallowed
      rw [hlast] at hreply
      simp at hreply
    · have hneg := (hfar₂.insert h₃ (by
        rw [hbehind _ hpos₂ hfar₂.size_lt]
        decide)).1
      exact absurd hneg (by decide)

/-- CORRECT: a ring buffer is a first-in-first-out list with a capacity if and only if its size and the slot that
    is never used fit into an `int`. -/
theorem behaves_iff [Inhabited α] {size : ℕ} (hlt : size < 2 ^ 64) :
    Behaves α size ↔ size + 1 < 2 ^ 31 := by
  constructor
  · intro h
    by_contra hlarge
    exact not_behaves default (not_lt.1 hlarge) hlt h
  · exact behaves_of_small

/-- The queues of the encoder. -/
theorem behaves_iff_queue : 2 ^ 20 < 2 ^ 64 ∧ (Behaves ℕ (2 ^ 20) ↔ 2 ^ 20 + 1 < 2 ^ 31) :=
  ⟨by decide, behaves_iff (by decide)⟩

/-- The last slot is at the largest `int`. -/
theorem behaves_not_at_int_max : ¬Behaves ℕ (2 ^ 31 - 1) := not_behaves 0 (by decide) (by decide)

end Turkey.Queues
