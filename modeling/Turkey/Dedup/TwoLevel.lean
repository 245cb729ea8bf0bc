import Mathlib.Data.List.ReduceOption
import Turkey.Dedup.Greedy
import Turkey.Dedup.Sentinel

/-! The two stages of the Turkey port that cut the input, and the queues behind them
    (`turkey/encoder.cpp`). `Fragment` fills blocks, cuts coarse chunks off them and numbers them;
    what is left over goes to the front of the next block and keeps its number. The `FragmentRefine`
    workers cut the coarse chunks they take from `queue_refine` into fine chunks for
    `queue_deduplicate`. The stages behind that queue only read it and free the buffers of chunks.

        Fragment --queue_refine--> FragmentRefine, ..., FragmentRefine --queue_deduplicate--> ...

    All pieces of a block share its reference counter, whichever thread holds them. An action lets one
    thread take its next step, so a list of actions is an interleaving. A step is an iteration of an
    inner loop, or one operation on a queue: what it does besides touches one counter, or a buffer that
    no other thread has. There is memory for all buffers and reading does not fail. -/

namespace Turkey.TwoLevel
open Turkey.Rabin Turkey.Fragment
open Turkey.Mpmc (queueSize maxPerFetch itemPerInsert anchorDataPerInsert writeSentinel)

/-! ### Buffers -/

/-- `mbuffer_t`: the number of the control block, the place where the buffer begins in the memory of
    the block, and its bytes. Nobody writes to a block once a piece of it was sent. -/
structure Mbuffer where
  mcb : ℕ
  ptr : ℕ
  data : Bytes
  deriving DecidableEq

/-- The counters of the control blocks; `next` is the first number not used for a block. -/
structure Mcbs where
  i : ℕ → UInt32
  next : ℕ

/-- `mbuffer_create` -/
def Mcbs.create (h : Mcbs) : Mcbs := ⟨Function.update h.i h.next 1, h.next + 1⟩

/-- `mbuffer_free` -/
def Mcbs.free (h : Mcbs) (m : Mbuffer) : Mcbs :=
  ⟨Function.update h.i m.mcb (h.i m.mcb - 1), h.next⟩

/-- The counter after `mbuffer_split`. -/
def Mcbs.split (h : Mcbs) (m : Mbuffer) : Mcbs :=
  ⟨Function.update h.i m.mcb (h.i m.mcb + 1), h.next⟩

def Mbuffer.take (m : Mbuffer) (split : ℕ) : Mbuffer := ⟨m.mcb, m.ptr, m.data.take split⟩

def Mbuffer.drop (m : Mbuffer) (split : ℕ) : Mbuffer := ⟨m.mcb, m.ptr + split, m.data.drop split⟩

/-- `mbuffer_split`: the counters and the two parts, unless an assertion fails. -/
def mbufferSplit (h : Mcbs) (m : Mbuffer) (split : ℕ) : Option (Mcbs × Mbuffer × Mbuffer) :=
  if 0 < split ∧ split < m.data.length ∧ 1 ≤ h.i m.mcb then some (h.split m, m.take split, m.drop split)
  else none

/-- The return value of `mbuffer_realloc`, unless its assertion fails. The block begins at place 0. -/
def mbufferRealloc (h : Mcbs) (m : Mbuffer) (size : ℕ) : Option ℤ :=
  if 0 < size then
    if 1 < h.i m.mcb then some (-1)
    else if m.ptr ≠ 0 then some (-1)
    else some 0
  else none

/-- `chunk_t`. Up to `FragmentRefine` the fields `l2num` and `isLastL2Chunk` are not set. -/
structure Chunk where
  l1num : UInt32
  l2num : UInt32
  isLastL2Chunk : Bool
  uncompressed : Mbuffer
  deriving DecidableEq

/-- A chunk as `Fragment` makes it. -/
def Chunk.new (l1num : UInt32) (uncompressed : Mbuffer) : Chunk := ⟨l1num, 0, false, uncompressed⟩

def Chunk.data (c : Chunk) : Bytes := c.uncompressed.data

/-! ### Send buffers -/

/-- `ringbuffer_insert` into a send buffer with `num` places, and whether it is full then. `none`: the
    call does not return 0, as the caller asserts. -/
def insert (num : ℕ) (send : List Chunk) (chunk : Chunk) : Option (List Chunk × Bool) :=
  if send.length < num then some (send ++ [chunk], send.length + 1 = num) else none

/-- The next write of `enqueue_from_ringbuffer`, whose loop index is `i`: the chunk that is written and
    the others. `none`: the call returns `i`. -/
def nextWrite (num i : ℕ) (send : List Chunk) (queue : List (Option Chunk)) : Option (Chunk × List Chunk) :=
  match send with
  | [] => none
  | c :: send => if i < num ∧ queue.length < queueSize then some (c, send) else none

/-! ### `Fragment` -/

/-- Where `Fragment` stands: at the head of its loop over the input, with what is left over; at the head
    of the loop that splits a chunk; inside `enqueue_from_ringbuffer`, from which it goes on to `next`
    if `r >= 1`; at the head of the drain loop, at `terminate_queue`, or at its end. `failed` is a
    failed assertion or an exit. -/
inductive FragmentPc where
  | read (temp : Option Chunk)
  | split (chunk : Chunk)
  | enqueue (i : ℕ) (next : FragmentPc)
  | drain
  | terminate
  | done
  | failed
  deriving DecidableEq

/-- `input` is not read yet, `calls` is the number of calls of `read`, `sent` are the chunks written to
    `queue_refine`, in that order. -/
structure FragmentThread where
  input : Bytes
  calls : ℕ
  anchorcount : UInt32
  send : List Chunk
  sent : List Chunk
  pc : FragmentPc
  deriving DecidableEq

/-- The number of the chunk that an iteration begins with, the next number, and the counters: what is
    left over is copied into the new buffer and freed. -/
def beginChunk (h : Mcbs) (anchorcount : UInt32) (temp : Option Chunk) : UInt32 × UInt32 × Mcbs :=
  match temp with
  | some t =>
    if 0 < t.data.length then (t.l1num, anchorcount, h.create.free t.uncompressed)
    else (anchorcount, anchorcount + 1, h.create)
  | none => (anchorcount, anchorcount + 1, h.create)

def leftOver (temp : Option Chunk) : Bytes := temp.elim [] Chunk.data

/-- The next step of `Fragment`: its state, the counters and `queue_refine`. -/
def fragmentStep (r : Reading) (f : FragmentThread) (h : Mcbs) (queue : List (Option Chunk)) :
    Option (FragmentThread × Mcbs × List (Option Chunk)) :=
  match f.pc with
  | .read temp =>
    if maxbuf + (leftOver temp).length > ssizeMax then some ({ f with pc := .failed }, h, queue)
    else
      let start := beginChunk h f.anchorcount temp
      let next := r.block maxbuf f.calls f.input
      let data := leftOver temp ++ next.1
      let chunk := Chunk.new start.1 ⟨h.next, 0, data⟩
      let f' := { f with input := next.2.1, calls := next.2.2, anchorcount := start.2.1 }
      if data = [] then some ({ f' with pc := .drain }, start.2.2.free chunk.uncompressed, queue)
      else if data.length < maxbuf + (leftOver temp).length ∧
          mbufferRealloc start.2.2 chunk.uncompressed data.length ≠ some 0 then
        some ({ f' with pc := .failed }, start.2.2, queue)
      else if next.1 = [] then
        -- the end of the file: the send buffer is emptied behind the loop
        match insert anchorDataPerInsert f.send chunk with
        | none => some ({ f' with pc := .failed }, start.2.2, queue)
        | some (send, _) => some ({ f' with send := send, pc := .drain }, start.2.2, queue)
      else some ({ f' with pc := .split chunk }, start.2.2, queue)
  | .split chunk =>
    match findAnchor chunk.data with
    | .failed => some ({ f with pc := .failed }, h, queue)
    | .whole => some ({ f with pc := .read (some chunk) }, h, queue)
    | .split place =>
      match mbufferSplit h chunk.uncompressed place with
      | none => some ({ f with pc := .failed }, h, queue)
      | some (h, m1, m2) =>
        let temp := Chunk.new f.anchorcount m2
        match insert anchorDataPerInsert f.send { chunk with uncompressed := m1 } with
        | none => some ({ f with pc := .failed }, h, queue)
        | some (send, full) =>
          some ({ f with
              anchorcount := f.anchorcount + 1, send := send,
              pc := if full then .enqueue 0 (.split temp) else .split temp }, h, queue)
  | .enqueue i next =>
    match nextWrite anchorDataPerInsert i f.send queue with
    | none => some ({ f with pc := if i = 0 then .failed else next }, h, queue)
    | some (c, send) =>
      some ({ f with send := send, sent := f.sent ++ [c], pc := .enqueue (i + 1) next }, h, queue ++ [some c])
  | .drain => some ({ f with pc := if f.send = [] then .terminate else .enqueue 0 .drain }, h, queue)
  | .terminate => some ({ f with pc := .done }, h, (writeSentinel queueSize queue).1)
  | .done | .failed => none

/-! ### `FragmentRefine` -/

/-- Where a worker stands: at the head of its loop; inside `dequeue_to_ringbuffer`, or with `k + 1`
    sentinels still to write before it leaves the loop; at the head of the loop that splits a chunk; and
    then as in `Fragment`. -/
inductive WorkerPc where
  | fetch
  | dequeue (i : ℕ)
  | rewrite (k : ℕ)
  | refine (chunk : Chunk) (chcount : UInt32)
  | enqueue (i : ℕ) (next : WorkerPc)
  | drain
  | terminate
  | done
  | failed
  deriving DecidableEq

/-- `processed` are the chunks taken from `recv_buf`, `sent` those written to `queue_deduplicate`. -/
structure Worker where
  recv : List Chunk
  processed : List Chunk
  send : List Chunk
  sent : List Chunk
  pc : WorkerPc
  deriving DecidableEq

/-- A fine chunk goes into the send buffer, and a full buffer is enqueued at once. -/
def emit (w : Worker) (chunk : Chunk) (next : WorkerPc) : Worker :=
  match insert itemPerInsert w.send chunk with
  | none => { w with pc := .failed }
  | some (send, full) => { w with send := send, pc := if full then .enqueue 0 next else next }

/-- One iteration of the loop that splits a chunk, with what `rabinseg` has found. -/
def refineChunk (w : Worker) (h : Mcbs) (chunk : Chunk) (chcount : UInt32) : Found → Worker × Mcbs
  | .failed => ({ w with pc := .failed }, h)
  | .whole => (emit w { chunk with l2num := chcount, isLastL2Chunk := true } .fetch, h)
  | .split place =>
    match mbufferSplit h chunk.uncompressed place with
    | none => ({ w with pc := .failed }, h)
    | some (h, m1, m2) =>
      (emit w ⟨chunk.l1num, chcount, false, m1⟩ (.refine (.new chunk.l1num m2) (chcount + 1)), h)

/-- The next step of a worker: its state, the counters, `queue_refine` and `queue_deduplicate`. -/
def workerStep (w : Worker) (h : Mcbs) (refine deduplicate : List (Option Chunk)) :
    Option (Worker × Mcbs × List (Option Chunk) × List (Option Chunk)) :=
  match w.pc with
  | .fetch =>
    match w.recv with
    | [] => some ({ w with pc := .dequeue 0 }, h, refine, deduplicate)
    | c :: recv =>
      some ({ w with recv := recv, processed := w.processed ++ [c], pc := .refine c 0 }, h, refine, deduplicate)
  | .dequeue i =>
    if i < maxPerFetch ∧ w.recv.length < maxPerFetch then
      match refine with
      | [] => some ({ w with pc := .fetch }, h, [], deduplicate)
      | none :: refine => some ({ w with pc := .rewrite 1 }, h, refine, deduplicate)
      | some c :: refine =>
        some ({ w with recv := w.recv ++ [c], pc := .dequeue (i + 1) }, h, refine, deduplicate)
    else some ({ w with pc := .fetch }, h, refine, deduplicate)
  | .rewrite k =>
    some ({ w with pc := if k = 0 then .drain else .rewrite (k - 1) }, h, (writeSentinel queueSize refine).1,
      deduplicate)
  | .refine chunk chcount =>
    let y := refineChunk w h chunk chcount (findRefine chunk.data)
    some (y.1, y.2, refine, deduplicate)
  | .enqueue i next =>
    match nextWrite itemPerInsert i w.send deduplicate with
    | none => some ({ w with pc := if i = 0 then .failed else next }, h, refine, deduplicate)
    | some (c, send) =>
      some ({ w with send := send, sent := w.sent ++ [c], pc := .enqueue (i + 1) next }, h, refine,
        deduplicate ++ [some c])
  | .drain =>
    some ({ w with pc := if w.send = [] then .terminate else .enqueue 0 .drain }, h, refine, deduplicate)
  | .terminate => some ({ w with pc := .done }, h, refine, (writeSentinel queueSize deduplicate).1)
  | .done | .failed => none

/-! ### The system -/

/-- `held` are the chunks read by the stages behind `queue_deduplicate` whose buffers they have not freed. -/
structure State (n : ℕ) where
  mcbs : Mcbs
  fragment : FragmentThread
  refine : List (Option Chunk)
  worker : Fin n → Worker
  deduplicate : List (Option Chunk)
  held : List Chunk

/-- Before the first step. -/
def State.new (n : ℕ) (input : Bytes) : State n where
  mcbs := ⟨fun _ => 0, 0⟩
  fragment := ⟨input, 0, 0, [], [], .read none⟩
  refine := []
  worker _ := ⟨[], [], [], [], .fetch⟩
  deduplicate := []
  held := []

/-- The thread that takes its next step, or what the stages behind do: they read `queue_deduplicate`,
    write a sentinel back, or free the buffer of one of their chunks. -/
inductive Action (n : ℕ) where
  | fragment
  | worker (k : Fin n)
  | read
  | sentinel
  | free (j : ℕ)
  deriving DecidableEq

variable {n : ℕ}

def step (r : Reading) (s : State n) : Action n → Option (State n)
  | .fragment =>
    (fragmentStep r s.fragment s.mcbs s.refine).map fun (f, h, refine) =>
      { s with mcbs := h, fragment := f, refine := refine }
  | .worker k =>
    (workerStep (s.worker k) s.mcbs s.refine s.deduplicate).map fun (w, h, refine, deduplicate) =>
      { s with
        mcbs := h, refine := refine, worker := Function.update s.worker k w, deduplicate := deduplicate }
  | .read =>
    match s.deduplicate with
    | [] => none
    | none :: queue => some { s with deduplicate := queue }
    | some c :: queue => some { s with deduplicate := queue, held := c :: s.held }
  | .sentinel => some { s with deduplicate := (writeSentinel queueSize s.deduplicate).1 }
  | .free j =>
    s.held[j]?.map fun c => { s with mcbs := s.mcbs.free c.uncompressed, held := s.held.eraseIdx j }

end Turkey.TwoLevel
