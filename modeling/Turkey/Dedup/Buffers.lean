import Mathlib.Algebra.Order.BigOperators.Group.Multiset
import Turkey.Dedup.TwoLevel

/-! The buffers of the two cutting stages. A state holds a multiset of buffers, whoever has them. It is
    sound if the counter of every block is the number of its buffers, no buffer is empty, and the bytes
    in the buffers and those not read yet are not more than the file. The last two say that a block has
    fewer buffers than its counter can count: every split makes a piece with at least a byte, and there
    are no other copies. So the assertions about counters hold whoever splits and frees in between. -/

namespace Turkey.TwoLevel
open Turkey.Rabin
open Turkey.Mpmc (queueSize writeSentinel)

variable {h : Mcbs} {m : Mbuffer} {B : Multiset Mbuffer} {N unread : ℕ}

/-! ### Counters -/

/-- The counter of every block is the number of its buffers. -/
structure Counted (h : Mcbs) (B : Multiset Mbuffer) : Prop where
  counter : ∀ b, (h.i b).toNat = B.countP fun m => m.mcb = b
  fresh : ∀ m ∈ B, m.mcb < h.next

theorem countP_cons_mcb (m : Mbuffer) (B : Multiset Mbuffer) (b : ℕ) :
    (m ::ₘ B).countP (fun x => x.mcb = b) = B.countP (fun x => x.mcb = b) + if b = m.mcb then 1 else 0 := by
  rw [Multiset.countP_cons]
  simp only [eq_comm]

theorem Counted.create (hI : Counted h B) (hm : m.mcb = h.next) : Counted h.create (m ::ₘ B) where
  counter b := by
    have hnew : B.countP (fun x => x.mcb = h.next) = 0 :=
      Multiset.countP_eq_zero.mpr fun x hx => (hI.fresh x hx).ne
    rw [countP_cons_mcb, hm]
    rcases eq_or_ne b h.next with rfl | hb
    · simp [Mcbs.create, hnew]
    · simp [Mcbs.create, hb, hI.counter]
  fresh x hx := by
    rcases Multiset.mem_cons.mp hx with rfl | hx
    · exact hm ▸ Nat.lt_succ_self _
    · exact Nat.lt_succ_of_lt (hI.fresh x hx)

/-- The assertion `m->mcb->i>=1`. -/
theorem Counted.one_le (hI : Counted h (m ::ₘ B)) : 1 ≤ h.i m.mcb := by
  rw [UInt32.le_iff_toNat_le, hI.counter, countP_cons_mcb, if_pos rfl]
  exact Nat.le_add_left 1 _

theorem Counted.free (hI : Counted h (m ::ₘ B)) : Counted (h.free m) B where
  counter b := by
    have hb := hI.counter b
    rw [countP_cons_mcb] at hb
    rcases eq_or_ne b m.mcb with rfl | hne
    · simp only [Mcbs.free, Function.update_self]
      rw [UInt32.toNat_sub_of_le _ _ hI.one_le, hb, if_pos rfl]
      rfl
    · simp only [Mcbs.free, Function.update_of_ne hne]
      rw [hb, if_neg hne, Nat.add_zero]
  fresh x hx := hI.fresh x (Multiset.mem_cons_of_mem hx)

theorem Counted.split (hI : Counted h (m ::ₘ B)) (hroom : B.card + 2 < 2 ^ 32) (k : ℕ) :
    Counted (h.split m) (m.take k ::ₘ m.drop k ::ₘ B) where
  counter b := by
    have hb := hI.counter b
    have hle := Multiset.countP_le_card (fun x : Mbuffer => x.mcb = b) B
    rw [countP_cons_mcb] at hb
    simp only [countP_cons_mcb, Mbuffer.take, Mbuffer.drop]
    rcases eq_or_ne b m.mcb with rfl | hne
    · rw [if_pos rfl] at hb
      simp only [Mcbs.split, Function.update_self, UInt32.toNat_add, hb, if_pos]
      exact Nat.mod_eq_of_lt (by simp only [UInt32.toNat_one]; omega)
    · simp only [Mcbs.split, Function.update_of_ne hne, hb, if_neg hne]
  fresh x hx := by
    have hm := hI.fresh m (Multiset.mem_cons_self m B)
    rcases Multiset.mem_cons.mp hx with rfl | hx
    · exact hm
    · rcases Multiset.mem_cons.mp hx with rfl | hx
      · exact hm
      · exact hI.fresh x (Multiset.mem_cons_of_mem hx)

/-! ### Bytes -/

/-- The number of bytes in the buffers. -/
def size (B : Multiset Mbuffer) : ℕ := (B.map fun m => m.data.length).sum

@[simp] theorem size_cons (m : Mbuffer) (B : Multiset Mbuffer) : size (m ::ₘ B) = m.data.length + size B := by
  rw [size, Multiset.map_cons, Multiset.sum_cons, size]

/-- What holds of the buffers of a state: `N` is the length of the file. -/
structure Sound (N : ℕ) (h : Mcbs) (B : Multiset Mbuffer) (unread : ℕ) : Prop extends Counted h B where
  filled : ∀ m ∈ B, m.data ≠ []
  bytes : size B + unread ≤ N

theorem Sound.of_eq {C : Multiset Mbuffer} (hI : Sound N h B unread) (heq : B = C) : Sound N h C unread :=
  heq ▸ hI

theorem Sound.card_le (hI : Sound N h B unread) : B.card ≤ N := by
  have hone : ∀ x ∈ B.map fun m => m.data.length, 1 ≤ x := by
    intro x hx
    obtain ⟨m, hm, rfl⟩ := Multiset.mem_map.mp hx
    exact List.length_pos_iff.mpr (hI.filled m hm)
  have hsum := Multiset.card_nsmul_le_sum hone
  rw [Multiset.card_map, smul_eq_mul, Nat.mul_one] at hsum
  exact hsum.trans ((Nat.le_add_right (size B) unread).trans hI.bytes)

theorem Sound.length_le (hI : Sound N h (m ::ₘ B) unread) : m.data ≠ [] ∧ m.data.length ≤ N := by
  have hbytes := hI.bytes
  rw [size_cons] at hbytes
  exact ⟨hI.filled m (Multiset.mem_cons_self m B), by omega⟩

theorem Sound.free (hI : Sound N h (m ::ₘ B) unread) : Sound N (h.free m) B unread where
  toCounted := hI.toCounted.free
  filled x hx := hI.filled x (Multiset.mem_cons_of_mem hx)
  bytes := by
    have hbytes := hI.bytes
    rw [size_cons] at hbytes
    omega

/-- A split inside a buffer succeeds. -/
theorem Sound.split (hI : Sound N h (m ::ₘ B) unread) (hN : N < 2 ^ 31) {k : ℕ} (hpos : 0 < k)
    (hlt : k < m.data.length) : mbufferSplit h m k = some (h.split m, m.take k, m.drop k) ∧
      Sound N (h.split m) (m.take k ::ₘ m.drop k ::ₘ B) unread := by
  have hcard := hI.card_le
  rw [Multiset.card_cons] at hcard
  refine ⟨if_pos ⟨hpos, hlt, hI.one_le⟩, hI.toCounted.split (by omega) k, fun x hx => ?_, ?_⟩
  · rcases Multiset.mem_cons.mp hx with rfl | hx
    · rw [Mbuffer.take, ne_eq, List.take_eq_nil_iff]
      exact fun h => h.elim hpos.ne' (List.length_pos_iff.mp (by omega))
    · rcases Multiset.mem_cons.mp hx with rfl | hx
      · rw [Mbuffer.drop, ne_eq, List.drop_eq_nil_iff]
        omega
      · exact hI.filled x (Multiset.mem_cons_of_mem hx)
  · have hbytes := hI.bytes
    rw [size_cons] at hbytes
    simp only [size_cons, Mbuffer.take, Mbuffer.drop, List.length_take, List.length_drop]
    omega

/-! ### Who has buffers -/

/-- The buffers of these chunks. -/
def buffersOf (cs : List Chunk) : Multiset Mbuffer := cs.map Chunk.uncompressed

@[simp] theorem buffersOf_nil : buffersOf [] = 0 := rfl

@[simp] theorem buffersOf_cons (c : Chunk) (cs : List Chunk) :
    buffersOf (c :: cs) = c.uncompressed ::ₘ buffersOf cs := rfl

@[simp] theorem buffersOf_append (cs ds : List Chunk) : buffersOf (cs ++ ds) = buffersOf cs + buffersOf ds := by
  rw [buffersOf, List.map_append, ← Multiset.coe_add, buffersOf, buffersOf]

/-- The buffers of the chunks in a queue. -/
def queued (queue : List (Option Chunk)) : Multiset Mbuffer := buffersOf queue.reduceOption

@[simp] theorem queued_nil : queued [] = 0 := rfl

@[simp] theorem queued_cons_none (queue : List (Option Chunk)) : queued (none :: queue) = queued queue := by
  rw [queued, List.reduceOption_cons_of_none, queued]

@[simp] theorem queued_cons_some (c : Chunk) (queue : List (Option Chunk)) :
    queued (some c :: queue) = c.uncompressed ::ₘ queued queue := by
  rw [queued, List.reduceOption_cons_of_some, buffersOf_cons, queued]

theorem reduceOption_snoc (queue : List (Option Chunk)) (x : Option Chunk) :
    (queue ++ [x]).reduceOption = queue.reduceOption ++ x.toList := by
  rw [← List.reduceOption_concat, List.concat_eq_append]

@[simp] theorem queued_concat (queue : List (Option Chunk)) (x : Option Chunk) :
    queued (queue ++ [x]) = queued queue + buffersOf x.toList := by
  rw [queued, reduceOption_snoc, buffersOf_append, queued]

theorem reduceOption_writeSentinel (queue : List (Option Chunk)) :
    (writeSentinel queueSize queue).1.reduceOption = queue.reduceOption := by
  by_cases hlt : queue.length < queueSize
  · rw [Mpmc.writeSentinel_of_lt hlt, reduceOption_snoc, Option.toList_none, List.append_nil]
  · rw [Mpmc.writeSentinel_of_not_lt hlt]

@[simp] theorem queued_writeSentinel (queue : List (Option Chunk)) :
    queued (writeSentinel queueSize queue).1 = queued queue := by
  rw [queued, reduceOption_writeSentinel, queued]

/-- The chunk that `Fragment` works on. -/
def FragmentPc.held : FragmentPc → List Chunk
  | .read temp => temp.toList
  | .split chunk => [chunk]
  | .enqueue _ next => next.held
  | .drain | .terminate | .done | .failed => []

/-- The buffers that `Fragment` has. -/
def FragmentThread.buffers (f : FragmentThread) : Multiset Mbuffer := buffersOf (f.pc.held ++ f.send)

/-- The chunk that a worker works on. -/
def WorkerPc.held : WorkerPc → List Chunk
  | .refine chunk _ => [chunk]
  | .enqueue _ next => next.held
  | .fetch | .dequeue _ | .rewrite _ | .drain | .terminate | .done | .failed => []

/-- The buffers that a worker has. -/
def Worker.buffers (w : Worker) : Multiset Mbuffer := buffersOf (w.recv ++ w.pc.held ++ w.send)

/-! ### A new block -/

theorem leftOver_ne_nil {temp : Option Chunk} (hI : Sound N h (buffersOf temp.toList + B) unread) :
    leftOver temp = [] ↔ temp = none := by
  rcases temp with - | t
  · exact iff_of_true rfl rfl
  · refine iff_of_false (hI.filled t.uncompressed ?_) (Option.some_ne_none t)
    rw [Option.toList_some, buffersOf_cons, Multiset.cons_add]
    exact Multiset.mem_cons_self ..

/-- What is left over moves to a new block together with the bytes that were read. Nobody else has a
    buffer of that block. -/
theorem Sound.beginChunk {temp : Option Chunk} {block : Bytes} (anchorcount : UInt32)
    (hI : Sound N h (buffersOf temp.toList + B) unread) (hblock : block.length ≤ unread)
    (hne : leftOver temp ++ block ≠ []) :
    Sound N (beginChunk h anchorcount temp).2.2 (⟨h.next, 0, leftOver temp ++ block⟩ ::ₘ B)
      (unread - block.length) ∧ (beginChunk h anchorcount temp).2.2.i h.next = 1 := by
  have hfilled : ∀ x ∈ (⟨h.next, 0, leftOver temp ++ block⟩ ::ₘ B : Multiset Mbuffer), x.data ≠ [] := by
    intro x hx
    rcases Multiset.mem_cons.mp hx with rfl | hx
    · exact hne
    · exact hI.filled x (Multiset.mem_add.mpr (.inr hx))
  have hbytes := hI.bytes
  rcases temp with - | t
  · rw [Option.toList_none, buffersOf_nil, zero_add] at hI hbytes
    refine ⟨⟨hI.toCounted.create rfl, hfilled, ?_⟩, Function.update_self ..⟩
    rw [size_cons]
    simp only [leftOver, Option.elim_none, List.nil_append]
    omega
  · rw [Option.toList_some, buffersOf_cons, buffersOf_nil, Multiset.cons_add, zero_add] at hI hbytes
    have ht : 0 < t.data.length := List.length_pos_iff.mpr (hI.filled _ (Multiset.mem_cons_self ..))
    have hmcb : h.next ≠ t.uncompressed.mcb := (hI.fresh _ (Multiset.mem_cons_self ..)).ne'
    have hcreate := hI.toCounted.create (m := ⟨h.next, 0, leftOver (some t) ++ block⟩) rfl
    rw [Multiset.cons_swap] at hcreate
    simp only [TwoLevel.beginChunk, if_pos ht]
    refine ⟨⟨hcreate.free, hfilled, ?_⟩, ?_⟩
    · rw [size_cons] at hbytes ⊢
      simp only [leftOver, Option.elim_some, Chunk.data, List.length_append]
      omega
    · simp only [Mcbs.free, Mcbs.create, Function.update_of_ne hmcb, Function.update_self]

/-- At the end of an input that leaves nothing over, the new block is given back. -/
theorem Sound.endInput (hI : Sound N h B unread) (anchorcount : UInt32) :
    Sound N ((TwoLevel.beginChunk h anchorcount none).2.2.free ⟨h.next, 0, []⟩) B unread where
  toCounted := (hI.toCounted.create (m := ⟨h.next, 0, []⟩) rfl).free
  filled := hI.filled
  bytes := hI.bytes

/-- `mbuffer_realloc` succeeds on a buffer that has its block for itself. -/
theorem mbufferRealloc_new {b : ℕ} {data : Bytes} (hi : h.i b = 1) (hne : data ≠ []) :
    mbufferRealloc h ⟨b, 0, data⟩ data.length = some 0 := by
  rw [mbufferRealloc, if_pos (List.length_pos_iff.mpr hne), if_neg (by rw [hi]; decide), if_neg (by simp)]

end Turkey.TwoLevel
