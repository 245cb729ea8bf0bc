import Mathlib.Tactic.Abel
import Turkey.Dedup.Buffers

/-! What one step of `Fragment` and of a `FragmentRefine` worker keeps, whatever the other threads do in
    between. The chunks that a thread has written, those in its send buffer and those it has still to
    make are together what the rule of its cutter makes of the whole input, numbered from zero. What is
    left over from a block keeps its number, and the next number is the one after it, so the number
    that a remainder of a split gets is the right one also when it is left over again. -/

namespace Turkey.TwoLevel
open Turkey.Rabin Turkey.Fragment Turkey.Segmentation
open Turkey.Mpmc (queueSize maxPerFetch itemPerInsert anchorDataPerInsert writeSentinel)

/-! ### Numbers -/

/-- The pieces of the input, numbered from `k` on. -/
def number : UInt32 → List Bytes → List (UInt32 × Bytes)
  | _, [] => []
  | k, d :: ds => (k, d) :: number (k + 1) ds

def Chunk.coarse (c : Chunk) : UInt32 × Bytes := (c.l1num, c.data)

/-- What a fine chunk says. -/
structure Piece where
  l1num : UInt32
  l2num : UInt32
  isLastL2Chunk : Bool
  data : Bytes
  deriving DecidableEq

def Chunk.piece (c : Chunk) : Piece := ⟨c.l1num, c.l2num, c.isLastL2Chunk, c.data⟩

/-- The pieces of a coarse chunk, numbered from `k` on. -/
def rowFrom (l1num : UInt32) : UInt32 → List Bytes → List Piece
  | _, [] => []
  | k, d :: ds => ⟨l1num, k, ds.isEmpty, d⟩ :: rowFrom l1num (k + 1) ds

/-- The fine chunks of a coarse chunk. -/
def Chunk.row (c : Chunk) : List Piece := rowFrom c.l1num 0 (greedy serialRule c.data)

/-! ### The send buffer -/

theorem insert_of_lt {num : ℕ} {send : List Chunk} (hlt : send.length < num) (c : Chunk) :
    insert num send c = some (send ++ [c], decide (send.length + 1 = num)) := if_pos hlt

theorem nextWrite_cases (num i : ℕ) (send : List Chunk) (queue : List (Option Chunk)) :
    (∃ c rest, send = c :: rest ∧ i < num ∧ nextWrite num i send queue = some (c, rest)) ∨
      (nextWrite num i send queue = none ∧ (send = [] ∨ num ≤ i ∨ queueSize ≤ queue.length)) := by
  rcases send with - | ⟨c, rest⟩
  · exact .inr ⟨rfl, .inl rfl⟩
  · by_cases hgo : i < num ∧ queue.length < queueSize
    · exact .inl ⟨c, rest, rfl, hgo.1, if_pos hgo⟩
    · exact .inr ⟨if_neg hgo, .inr (by omega)⟩

/-! ### `Fragment` -/

/-- The chunks that are not in the send buffer yet. -/
def FragmentPc.pending (count : UInt32) (input : Bytes) : FragmentPc → List (UInt32 × Bytes)
  | .read none => number count (greedy anchorRule input)
  | .read (some t) => number t.l1num (greedy anchorRule (t.data ++ input))
  | .split c => number c.l1num (greedy anchorRule (c.data ++ input))
  | .enqueue _ next => next.pending count input
  | .drain | .terminate | .done | .failed => []

/-- Where a call of `enqueue_from_ringbuffer` goes on. -/
def FragmentPc.Resumes : FragmentPc → Prop
  | .split _ | .drain => True
  | _ => False

/-- The send buffer holds a chunk only up to the call that is made for it; the next number is the one
    after that of the chunk at hand; and what is left over has no place for a split. -/
def FragmentPc.Ok (count : UInt32) (send : List Chunk) : FragmentPc → Prop
  | .read none => send = []
  | .read (some t) => send = [] ∧ count = t.l1num + 1 ∧ anchorRule.cut t.data = none
  | .split c => send = [] ∧ count = c.l1num + 1
  | .enqueue i next => (if i = 0 then send.length = 1 else send = []) ∧ next.Resumes ∧ next.Ok count []
  | .drain => send.length ≤ 1
  | .terminate | .done => send = []
  | .failed => False

structure FragmentThread.Good (input : Bytes) (f : FragmentThread) : Prop where
  ok : f.pc.Ok f.anchorcount f.send
  numbered : (f.sent ++ f.send).map Chunk.coarse ++ f.pc.pending f.anchorcount f.input =
    number 0 (greedy anchorRule input)

/-- What a step writes to `queue_refine`. -/
inductive FragmentThread.Writes (f f' : FragmentThread) (queue queue' : List (Option Chunk)) : Prop
  | nothing : queue' = queue → f'.sent = f.sent → f'.pc ≠ .done → Writes f f' queue queue'
  | chunk (c : Chunk) : queue' = queue ++ [some c] → f'.sent = f.sent ++ [c] → f'.pc ≠ .done →
      Writes f f' queue queue'
  | sentinel : queue' = (writeSentinel queueSize queue).1 → f'.sent = f.sent → f'.pc = .done →
      Writes f f' queue queue'

/-- A step that is as it should be: `R` are the buffers of all others. -/
def FragmentThread.Steps (input : Bytes) (R : Multiset Mbuffer) (f : FragmentThread)
    (queue : List (Option Chunk)) (x : FragmentThread × Mcbs × List (Option Chunk)) : Prop :=
  x.1.Good input ∧ Sound input.length x.2.1 (x.1.buffers + queued x.2.2 + R) x.1.input.length ∧
    f.Writes x.1 queue x.2.2

section Fragment
variable {r : Reading} {input : Bytes} {f : FragmentThread} {h : Mcbs} {queue : List (Option Chunk)}
  {x : FragmentThread × Mcbs × List (Option Chunk)} {R : Multiset Mbuffer}
  (hlen : input.length < 2 ^ 31) (hI : f.Good input)
  (hS : Sound input.length h (f.buffers + queued queue + R) f.input.length)
include hlen hI hS

theorem fragment_read {temp : Option Chunk} (hpc : f.pc = .read temp)
    (hs : fragmentStep r f h queue = some x) : f.Steps input R queue x := by
  obtain ⟨hok, hnum⟩ := hI
  have hsend : f.send = [] := by
    rw [hpc] at hok
    rcases temp with - | t
    · exact hok
    · exact hok.1
  have hS : Sound input.length h (buffersOf temp.toList + (queued queue + R)) f.input.length := by
    simpa [FragmentThread.buffers, hpc, FragmentPc.held, hsend, add_assoc] using hS
  -- the chunks still to be made are those of what is left over and what is not read yet
  have hpending : f.pc.pending f.anchorcount f.input =
      number (beginChunk h f.anchorcount temp).1 (greedy anchorRule (leftOver temp ++ f.input)) := by
    rw [hpc]
    rcases temp with - | t
    · rfl
    · have ht : t.data ≠ [] := fun hnil => absurd ((leftOver_ne_nil hS).mp hnil) (Option.some_ne_none t)
      simp only [FragmentPc.pending, beginChunk, if_pos (List.length_pos_iff.mpr ht)]
      rfl
  have hcount : (beginChunk h f.anchorcount temp).2.1 = (beginChunk h f.anchorcount temp).1 + 1 := by
    rw [hpc] at hok
    rcases temp with - | t
    · rfl
    · have ht : t.data ≠ [] := fun hnil => absurd ((leftOver_ne_nil hS).mp hnil) (Option.some_ne_none t)
      simp only [beginChunk, if_pos (List.length_pos_iff.mpr ht)]
      exact hok.2.1
  have hleft : (leftOver temp).length ≤ input.length := by
    rcases temp with - | t
    · exact Nat.zero_le _
    · rw [Option.toList_some, buffersOf_cons, Multiset.cons_add] at hS
      exact hS.length_le.2
  have hsize : ¬maxbuf + (leftOver temp).length > ssizeMax := by
    unfold maxbuf ssizeMax
    omega
  obtain ⟨hblock, hrest⟩ := r.block_spec maxbuf f.calls f.input
  simp only [fragmentStep, hpc, if_neg hsize, hblock, hrest] at hs
  by_cases hnil : leftOver temp ++ f.input.take maxbuf = []
  · -- nothing is left over and nothing was read
    obtain ⟨hover, htake⟩ := List.append_eq_nil_iff.mp hnil
    obtain rfl := (leftOver_ne_nil hS).mp hover
    have hinput : f.input = [] := (List.take_eq_nil_iff.mp htake).resolve_left (by decide)
    rw [if_pos hnil] at hs
    cases hs
    refine ⟨⟨?_, ?_⟩, ?_, .nothing rfl rfl (by simp)⟩
    · simp only [FragmentPc.Ok, hsend, List.length_nil, Nat.zero_le]
    · rw [hpending, hinput] at hnum
      simpa [FragmentPc.pending, leftOver, greedy_nil, number] using hnum
    · rw [hnil]
      simpa [FragmentThread.buffers, FragmentPc.held, hsend, hinput, Chunk.new] using
        hS.endInput f.anchorcount
  obtain ⟨hsound, hi⟩ := hS.beginChunk f.anchorcount (List.length_take_le' maxbuf f.input) hnil
  have hunread : f.input.length - (f.input.take maxbuf).length = (f.input.drop maxbuf).length := by
    rw [List.length_take, List.length_drop]
    omega
  rw [hunread] at hsound
  rw [if_neg hnil, if_neg (fun hfails => hfails.2 (mbufferRealloc_new hi hnil))] at hs
  by_cases hend : f.input.take maxbuf = []
  · -- the end of the file: what is left over is the last chunk
    have hinput : f.input = [] := (List.take_eq_nil_iff.mp hend).resolve_left (by decide)
    rw [if_pos hend, insert_of_lt (by rw [hsend]; decide)] at hs
    cases hs
    refine ⟨⟨?_, ?_⟩, ?_, .nothing rfl rfl (by simp)⟩
    · simp [FragmentPc.Ok, hsend]
    · rw [hpending, hinput, List.append_nil] at hnum
      rw [hend, List.append_nil] at hnil
      have hcut : anchorRule.cut (leftOver temp) = none := by
        rw [hpc] at hok
        rcases temp with - | t
        · exact absurd rfl hnil
        · exact hok.2.2
      rw [greedy_none hcut hnil] at hnum
      simpa [FragmentPc.pending, hend, Chunk.coarse, Chunk.new, Chunk.data, number] using hnum
    · simpa [FragmentThread.buffers, FragmentPc.held, hsend, Chunk.new] using hsound
  · rw [if_neg hend] at hs
    cases hs
    refine ⟨⟨⟨hsend, hcount⟩, ?_⟩, ?_, .nothing rfl rfl (by simp)⟩
    · rw [hpending] at hnum
      simpa [FragmentPc.pending, Chunk.new, Chunk.data] using hnum
    · simpa [FragmentThread.buffers, FragmentPc.held, hsend, Chunk.new] using hsound

theorem fragment_split {chunk : Chunk} (hpc : f.pc = .split chunk)
    (hs : fragmentStep r f h queue = some x) : f.Steps input R queue x := by
  obtain ⟨hok, hnum⟩ := hI
  rw [hpc] at hok hnum
  obtain ⟨hsend, hcount⟩ := hok
  have hS : Sound input.length h (chunk.uncompressed ::ₘ (queued queue + R)) f.input.length := by
    simpa [FragmentThread.buffers, hpc, FragmentPc.held, hsend] using hS
  obtain ⟨hne, hle⟩ := hS.length_le
  have hfind := follows_anchor chunk.data hne (hle.trans_lt hlen)
  simp only [fragmentStep, hpc, hfind] at hs
  rcases hcut : anchorRule.cut chunk.data with - | place
  · simp only [hcut, Found.of] at hs
    cases hs
    refine ⟨⟨⟨hsend, hcount, hcut⟩, hnum⟩, ?_, .nothing rfl rfl fun hdone => by cases hdone⟩
    simpa [FragmentThread.buffers, FragmentPc.held, hsend] using hS
  · -- the remainder gets the next number
    obtain ⟨hpos, hlt⟩ := anchorRule.inside hcut
    obtain ⟨hsplit, hsound⟩ := hS.split hlen hpos hlt
    have hempty : f.send.length < anchorDataPerInsert := by rw [hsend]; decide
    have hins := insert_of_lt hempty { chunk with uncompressed := chunk.uncompressed.take place }
    simp only [hcut, Found.of, hsplit, hins] at hs
    cases hs
    simp only [hsend, List.nil_append]
    refine ⟨⟨⟨rfl, trivial, rfl, rfl⟩, ?_⟩, ?_, .nothing rfl rfl fun hdone => by cases hdone⟩
    · rw [hsend, FragmentPc.pending, greedy_cut hcut] at hnum
      simpa [FragmentPc.pending, number, Chunk.coarse, Chunk.new, Chunk.data, Mbuffer.take, Mbuffer.drop,
        hcount, anchorDataPerInsert] using hnum
    · simpa [FragmentThread.buffers, FragmentPc.held, Chunk.new, Multiset.cons_swap, anchorDataPerInsert]
        using hsound

omit hlen in
theorem fragment_enqueue (hroom : queue.length < queueSize) {i : ℕ} {next : FragmentPc}
    (hpc : f.pc = .enqueue i next) (hs : fragmentStep r f h queue = some x) : f.Steps input R queue x := by
  obtain ⟨hok, hnum⟩ := hI
  rw [hpc] at hok hnum
  obtain ⟨hsend, hresumes, hnext⟩ := hok
  simp only [fragmentStep, hpc] at hs
  by_cases hi : i = 0
  · -- the only write of the call
    subst hi
    obtain ⟨c, hc⟩ := List.length_eq_one_iff.mp (by simpa using hsend)
    have hwrite : nextWrite anchorDataPerInsert 0 f.send queue = some (c, []) := by
      rw [hc]
      exact if_pos ⟨by decide, hroom⟩
    rw [hwrite] at hs
    cases hs
    refine ⟨⟨⟨rfl, hresumes, hnext⟩, ?_⟩, ?_, .chunk c rfl rfl nofun⟩
    · simpa [FragmentPc.pending, hc] using hnum
    · simpa [FragmentThread.buffers, hpc, FragmentPc.held, hc, add_assoc, add_comm, add_left_comm] using hS
  · rw [if_neg hi] at hsend
    have hwrite : nextWrite anchorDataPerInsert i f.send queue = none := by rw [hsend, nextWrite]
    rw [hwrite, if_neg hi] at hs
    cases hs
    refine ⟨⟨by rwa [hsend], by simpa [FragmentPc.pending] using hnum⟩, ?_, .nothing rfl rfl ?_⟩
    · simpa [FragmentThread.buffers, hpc, FragmentPc.held] using hS
    · rintro rfl
      exact hresumes

/-- Every step of `Fragment` while `queue_refine` has room. -/
theorem fragment_step (hroom : queue.length < queueSize) (hs : fragmentStep r f h queue = some x) :
    f.Steps input R queue x := by
  rcases hpc : f.pc with temp | chunk | ⟨i, next⟩ | - | - | - | -
  · exact fragment_read hlen hI hS hpc hs
  · exact fragment_split hlen hI hS hpc hs
  · exact fragment_enqueue hI hS hroom hpc hs
  · obtain ⟨hok, hnum⟩ := hI
    rw [hpc] at hok hnum
    simp only [fragmentStep, hpc] at hs
    by_cases hsend : f.send = []
    · rw [if_pos hsend] at hs
      cases hs
      refine ⟨⟨hsend, hnum⟩, ?_, .nothing rfl rfl nofun⟩
      simpa [FragmentThread.buffers, hpc, FragmentPc.held] using hS
    · have hone : f.send.length = 1 := le_antisymm hok (List.length_pos_iff.mpr hsend)
      rw [if_neg hsend] at hs
      cases hs
      refine ⟨⟨⟨hone, trivial, Nat.zero_le 1⟩, hnum⟩, ?_, .nothing rfl rfl nofun⟩
      simpa [FragmentThread.buffers, hpc, FragmentPc.held] using hS
  · obtain ⟨hok, hnum⟩ := hI
    rw [hpc] at hok hnum
    simp only [fragmentStep, hpc] at hs
    cases hs
    refine ⟨⟨hok, hnum⟩, ?_, .sentinel rfl rfl rfl⟩
    simpa [FragmentThread.buffers, hpc, FragmentPc.held] using hS
  all_goals simp [fragmentStep, hpc] at hs

end Fragment

/-! ### `FragmentRefine` -/

/-- The fine chunks of the chunk at hand that are not in the send buffer yet. -/
def WorkerPc.pending : WorkerPc → List Piece
  | .refine c k => rowFrom c.l1num k (greedy serialRule c.data)
  | .enqueue _ next => next.pending
  | .fetch | .dequeue _ | .rewrite _ | .drain | .terminate | .done | .failed => []

def WorkerPc.Resumes : WorkerPc → Prop
  | .fetch | .refine _ _ | .drain => True
  | _ => False

/-- The worker has read a sentinel. -/
def WorkerPc.Left : WorkerPc → Prop
  | .rewrite _ | .drain | .terminate | .done => True
  | .enqueue _ next => next.Left
  | .fetch | .dequeue _ | .refine _ _ | .failed => False

/-- Outside of a call the send buffer has room, and a call begins with something to send. -/
def WorkerPc.Ok (send : List Chunk) : WorkerPc → Prop
  | .fetch | .dequeue _ | .rewrite _ | .refine _ _ | .drain => send.length < itemPerInsert
  | .enqueue i next => (i = 0 → send ≠ []) ∧ send.length + i ≤ itemPerInsert ∧ next.Resumes
  | .terminate | .done => send = []
  | .failed => False

theorem WorkerPc.Resumes.ok {send : List Chunk} {pc : WorkerPc} (h : pc.Resumes)
    (hlt : send.length < itemPerInsert) : pc.Ok send := by
  cases pc with
  | fetch | refine | drain => exact hlt
  | _ => exact h.elim

structure Worker.Good (w : Worker) : Prop where
  ok : w.pc.Ok w.send
  rows : (w.sent ++ w.send).map Chunk.piece ++ w.pc.pending = w.processed.flatMap Chunk.row

/-- What a step takes from `queue_refine` and from the receive buffer. -/
inductive Worker.Takes (w w' : Worker) (refine refine' : List (Option Chunk)) : Prop
  | nothing : refine' = refine → w'.recv = w.recv → w'.processed = w.processed → (w'.pc.Left → w.pc.Left) →
      Takes w w' refine refine'
  | process (c : Chunk) : refine' = refine → w.recv = c :: w'.recv → w'.processed = w.processed ++ [c] →
      ¬w'.pc.Left → Takes w w' refine refine'
  | chunk (c : Chunk) : refine = some c :: refine' → w'.recv = w.recv ++ [c] → w'.processed = w.processed →
      ¬w'.pc.Left → Takes w w' refine refine'
  | sentinel (i : ℕ) : refine = none :: refine' → w'.recv = w.recv → w'.processed = w.processed →
      w.pc = .dequeue i → i < maxPerFetch → w.recv.length < maxPerFetch → Takes w w' refine refine'
  | rewrite : refine' = (writeSentinel queueSize refine).1 → w'.recv = w.recv → w'.processed = w.processed →
      w.pc.Left → Takes w w' refine refine'

/-- A step that is as it should be: `R` are the buffers of all others. -/
def Worker.Steps (N : ℕ) (R : Multiset Mbuffer) (unread : ℕ) (w : Worker) (refine : List (Option Chunk))
    (x : Worker × Mcbs × List (Option Chunk) × List (Option Chunk)) : Prop :=
  x.1.Good ∧ Sound N x.2.1 (x.1.buffers + queued x.2.2.1 + queued x.2.2.2 + R) unread ∧
    w.Takes x.1 refine x.2.2.1

theorem emit_spec {w : Worker} (hlt : w.send.length < itemPerInsert) (c : Chunk) (next : WorkerPc)
    (hnext : next.Resumes) : ∃ pc, emit w c next = { w with send := w.send ++ [c], pc := pc } ∧
      pc.Ok (w.send ++ [c]) ∧ pc.pending = next.pending ∧ pc.held = next.held ∧ (pc.Left ↔ next.Left) := by
  have hlength : (w.send ++ [c]).length = w.send.length + 1 := by simp
  simp only [emit, insert_of_lt hlt]
  by_cases hfull : w.send.length + 1 = itemPerInsert
  · rw [if_pos (decide_eq_true hfull)]
    refine ⟨_, rfl, ⟨fun _ => by simp, ?_, hnext⟩, rfl, rfl, .rfl⟩
    rw [hlength, Nat.add_zero, hfull]
  · rw [if_neg (by simpa using hfull)]
    exact ⟨_, rfl, hnext.ok (by omega), rfl, rfl, .rfl⟩

section Worker
variable {N unread : ℕ} {w : Worker} {h : Mcbs} {refine deduplicate : List (Option Chunk)}
  {x : Worker × Mcbs × List (Option Chunk) × List (Option Chunk)} {R : Multiset Mbuffer}
  (hN : N < 2 ^ 31) (hI : w.Good)
  (hS : Sound N h (w.buffers + queued refine + queued deduplicate + R) unread)
include hI hS

include hN in
theorem worker_refine {chunk : Chunk} {chcount : UInt32} (hpc : w.pc = .refine chunk chcount)
    (hs : workerStep w h refine deduplicate = some x) : w.Steps N R unread refine x := by
  obtain ⟨hok, hrows⟩ := hI
  rw [hpc] at hok hrows
  have hS : Sound N h (chunk.uncompressed ::ₘ (buffersOf w.recv + buffersOf w.send + queued refine +
      queued deduplicate + R)) unread := by
    simpa [Worker.buffers, hpc, WorkerPc.held, add_assoc] using hS
  obtain ⟨hne, hle⟩ := hS.length_le
  have hfind := follows_refine chunk.data hne (hle.trans_lt hN)
  simp only [workerStep, hpc, hfind] at hs
  rcases hcut : serialRule.cut chunk.data with - | place
  · -- the last fine chunk
    obtain ⟨pc, hemit, hok', hpending, hheld, hleft⟩ :=
      emit_spec hok { chunk with l2num := chcount, isLastL2Chunk := true } .fetch trivial
    simp only [hcut, Found.of, refineChunk, hemit] at hs
    cases hs
    refine ⟨⟨hok', ?_⟩, ?_, .nothing rfl rfl rfl fun hl => (hleft.mp hl).elim⟩
    · rw [WorkerPc.pending, greedy_none hcut hne] at hrows
      simpa [hpending, WorkerPc.pending, rowFrom, Chunk.piece, Chunk.data] using hrows
    · simpa [Worker.buffers, hheld, WorkerPc.held, add_assoc, add_comm, add_left_comm] using hS
  · obtain ⟨hpos, hlt⟩ := serialRule.inside hcut
    obtain ⟨hsplit, hsound⟩ := hS.split hN hpos hlt
    obtain ⟨pc, hemit, hok', hpending, hheld, hleft⟩ :=
      emit_spec hok ⟨chunk.l1num, chcount, false, chunk.uncompressed.take place⟩
        (.refine (.new chunk.l1num (chunk.uncompressed.drop place)) (chcount + 1)) trivial
    simp only [hcut, Found.of, refineChunk, hsplit, hemit] at hs
    cases hs
    refine ⟨⟨hok', ?_⟩, ?_, .nothing rfl rfl rfl fun hl => (hleft.mp hl).elim⟩
    · have hmore : (greedy serialRule (chunk.data.drop place)).isEmpty = false :=
        List.isEmpty_eq_false_iff.mpr (greedy_ne_nil (drop_ne_nil hcut))
      rw [WorkerPc.pending, greedy_some hcut, rowFrom, hmore] at hrows
      simpa [hpending, WorkerPc.pending, Chunk.piece, Chunk.new, Chunk.data, Mbuffer.take, Mbuffer.drop]
        using hrows
    · refine hsound.of_eq ?_
      simp only [Worker.buffers, hheld, WorkerPc.held, Chunk.new, buffersOf_append, buffersOf_cons,
        buffersOf_nil, ← Multiset.singleton_add]
      abel

theorem worker_enqueue (hroom : ∀ next, w.pc = .enqueue 0 next → deduplicate.length < queueSize) {i : ℕ}
    {next : WorkerPc} (hpc : w.pc = .enqueue i next) (hs : workerStep w h refine deduplicate = some x) :
    w.Steps N R unread refine x := by
  obtain ⟨hok, hrows⟩ := hI
  rw [hpc] at hok hrows
  obtain ⟨hsend, hlength, hnext⟩ := hok
  simp only [workerStep, hpc] at hs
  rcases nextWrite_cases itemPerInsert i w.send deduplicate with ⟨c, rest, hc, hi, hwrite⟩ | ⟨hwrite, hstops⟩
  · rw [hwrite] at hs
    cases hs
    rw [hc, List.length_cons] at hlength
    refine ⟨⟨⟨nofun, by dsimp only; omega, hnext⟩, ?_⟩, ?_, .nothing rfl rfl rfl fun hl => ?_⟩
    · simpa [WorkerPc.pending, hc] using hrows
    · simpa [Worker.buffers, hpc, WorkerPc.held, hc, add_assoc, add_comm, add_left_comm] using hS
    · rw [hpc]
      exact hl
  · -- the call returns `i`, and it has sent something
    have hi : i ≠ 0 := by
      rintro rfl
      rcases hstops with hnil | hle | hfull
      · exact hsend rfl hnil
      · exact absurd hle (by decide)
      · exact absurd (hroom next hpc) (by omega)
    rw [hwrite, if_neg hi] at hs
    cases hs
    refine ⟨⟨hnext.ok (by dsimp only; omega), hrows⟩, ?_, .nothing rfl rfl rfl fun hl => ?_⟩
    · simpa [Worker.buffers, hpc, WorkerPc.held] using hS
    · rw [hpc]
      exact hl

/-- Every step of a worker that does not begin a call on a full queue. -/
theorem worker_step (hN : N < 2 ^ 31)
    (hroom : ∀ next, w.pc = .enqueue 0 next → deduplicate.length < queueSize)
    (hs : workerStep w h refine deduplicate = some x) : w.Steps N R unread refine x := by
  have hI' := hI
  obtain ⟨hok, hrows⟩ := hI'
  rcases hpc : w.pc with - | i | k | ⟨chunk, chcount⟩ | ⟨i, next⟩ | - | - | - | -
  case refine => exact worker_refine hN hI hS hpc hs
  case enqueue => exact worker_enqueue hI hS hroom hpc hs
  all_goals
    rw [hpc] at hok hrows
    simp only [workerStep, hpc] at hs
  case fetch =>
    rcases hrecv : w.recv with - | ⟨c, recv⟩
    · rw [hrecv] at hs
      cases hs
      refine ⟨⟨hok, hrows⟩, ?_, .nothing rfl hrecv.symm rfl (fun hl => hl.elim)⟩
      simpa [Worker.buffers, hpc, WorkerPc.held, hrecv] using hS
    · rw [hrecv] at hs
      cases hs
      refine ⟨⟨hok, ?_⟩, ?_, .process c rfl hrecv rfl id⟩
      · rw [WorkerPc.pending, List.append_nil] at hrows
        simp only [WorkerPc.pending, List.flatMap_append, List.flatMap_singleton, hrows]
        rfl
      · simpa [Worker.buffers, hpc, WorkerPc.held, hrecv, add_assoc, add_comm, add_left_comm] using hS
  case dequeue =>
    by_cases hgo : i < maxPerFetch ∧ w.recv.length < maxPerFetch
    · rw [if_pos hgo] at hs
      rcases hq : refine with - | ⟨- | c, rest⟩
      · rw [hq] at hs
        cases hs
        refine ⟨⟨hok, hrows⟩, ?_, .nothing rfl rfl rfl (fun hl => hl.elim)⟩
        simpa [Worker.buffers, hpc, WorkerPc.held, hq] using hS
      · rw [hq] at hs
        cases hs
        refine ⟨⟨hok, hrows⟩, ?_, .sentinel i rfl rfl rfl hpc hgo.1 hgo.2⟩
        simpa [Worker.buffers, hpc, WorkerPc.held, hq] using hS
      · rw [hq] at hs
        cases hs
        refine ⟨⟨hok, hrows⟩, ?_, .chunk c rfl rfl rfl id⟩
        simpa [Worker.buffers, hpc, WorkerPc.held, hq, add_assoc, add_comm, add_left_comm] using hS
    · rw [if_neg hgo] at hs
      cases hs
      refine ⟨⟨hok, hrows⟩, ?_, .nothing rfl rfl rfl (fun hl => hl.elim)⟩
      simpa [Worker.buffers, hpc, WorkerPc.held] using hS
  case rewrite =>
    have hpc' : (if k = 0 then WorkerPc.drain else .rewrite (k - 1)).Ok w.send ∧
        (if k = 0 then WorkerPc.drain else .rewrite (k - 1)).pending = [] ∧
        (if k = 0 then WorkerPc.drain else .rewrite (k - 1)).held = [] := by
      split
      · exact ⟨hok, rfl, rfl⟩
      · exact ⟨hok, rfl, rfl⟩
    cases hs
    refine ⟨⟨hpc'.1, ?_⟩, ?_, .rewrite rfl rfl rfl ?_⟩
    · simpa [hpc'.2.1, WorkerPc.pending] using hrows
    · simpa [Worker.buffers, hpc, WorkerPc.held, hpc'.2.2] using hS
    · rw [hpc]
      trivial
  case drain =>
    by_cases hsend : w.send = []
    · rw [if_pos hsend] at hs
      cases hs
      refine ⟨⟨hsend, hrows⟩, ?_, .nothing rfl rfl rfl fun _ => ?_⟩
      · simpa [Worker.buffers, hpc, WorkerPc.held] using hS
      · rw [hpc]
        trivial
    · rw [if_neg hsend] at hs
      cases hs
      refine ⟨⟨⟨fun _ => hsend, Nat.le_of_lt hok, trivial⟩, hrows⟩, ?_, .nothing rfl rfl rfl fun _ => ?_⟩
      · simpa [Worker.buffers, hpc, WorkerPc.held] using hS
      · rw [hpc]
        trivial
  case terminate =>
    cases hs
    refine ⟨⟨hok, hrows⟩, ?_, .nothing rfl rfl rfl fun _ => ?_⟩
    · simpa [Worker.buffers, hpc, WorkerPc.held] using hS
    · rw [hpc]
      trivial
  case done | failed => cases hs

end Worker

end Turkey.TwoLevel
