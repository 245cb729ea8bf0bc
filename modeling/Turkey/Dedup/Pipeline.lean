import Mathlib.Data.Fintype.Prod
import Turkey.Dedup.Archive
import Turkey.Dedup.InSequence

/-! The pthread encoder: one `Fragment` thread, `nthreads` threads each of `FragmentRefine`, `Deduplicate`
    and `Compress`, one `Reorder` thread, and the bounded queues between them (`queue.c`). Up to
    `MAX_THREADS_PER_QUEUE` threads of a pool share a queue. A queue is terminated when all of its
    `nProducers` producers have called `queue_terminate`; `Deduplicate` and `Compress` both fill
    `reorder_que`, and only `Compress` terminates it.

    A queue operation is one step, under the mutex of the queue; a thread that waits in it has no step.
    So are `sub_Deduplicate`, `sub_Compress` and `write_chunk_to_file`, which hold the lock of a hash
    bucket or of a chunk. Coarse and fine chunks are both `chunk_t`: of a coarse chunk only `l1num` is
    set. The plan says into how many fine chunks each coarse chunk is split. -/

namespace Turkey.Pipeline
open Turkey.Run
open Turkey.Reorder (Chunk Core Plan)
open Turkey.Archive (Table Record subDeduplicate subCompress writeChunkToFile)
open Turkey.SearchTree (treeFindMin)

/-- `ITEM_PER_FETCH` and `CHUNK_ANCHOR_PER_FETCH` -/
def itemPerFetch : ℕ := 20

/-- `ITEM_PER_INSERT` and `CHUNK_ANCHOR_PER_INSERT` -/
def itemPerInsert : ℕ := 20

/-- `MAX_PER_FETCH` -/
def maxPerFetch : ℕ := 10000

/-- `ANCHOR_DATA_PER_INSERT` -/
def anchorDataPerInsert : ℕ := 1

/-- `MAX_THREADS_PER_QUEUE` -/
def maxThreadsPerQueue : ℕ := 4

/-! ### Queues -/

/-- `queue_t`; the capacity is a parameter of the operations. -/
structure Queue where
  buf : List Chunk
  nProducers : ℕ
  nTerminated : ℕ

/-- What a call of `queue_dequeue` does: an assertion fails, it waits, it returns -1, or it moves. -/
inductive Dequeued where
  | failed
  | wait
  | closed
  | moved (items : List Chunk) (que : Queue)

/-- What a call of `queue_enqueue` does; `left` stays in the buffer of the caller. -/
inductive Enqueued where
  | failed
  | wait
  | moved (left : List Chunk) (que : Queue)

/-- A call with an empty buffer of size `limit`. The assertion is that of `queue_isTerminated`. -/
def queueDequeue (limit : ℕ) (q : Queue) : Dequeued :=
  if q.buf = [] then
    if q.nTerminated < q.nProducers then .wait
    else if q.nTerminated = q.nProducers then .closed
    else .failed
  else .moved (q.buf.take limit) { q with buf := q.buf.drop limit }

/-- A call with the buffer `buf` of size `limit`. It fails when all producers have terminated. -/
def queueEnqueue (size limit : ℕ) (q : Queue) (buf : List Chunk) : Enqueued :=
  if q.nTerminated < q.nProducers then
    if q.buf.length < size then
      let n := min limit (size - q.buf.length)
      .moved (buf.drop n) { q with buf := q.buf ++ buf.take n }
    else .wait
  else .failed

/-- `none` when the assertion `nTerminated <= nProducers` fails. -/
def queueTerminate (q : Queue) : Option Queue :=
  if q.nTerminated + 1 ≤ q.nProducers then some { q with nTerminated := q.nTerminated + 1 } else none

/-! ### The set-up in `Encode` -/

/-- `conf->nthreads` and `QUEUE_SIZE`. `Encode` keeps the handles of a stage's threads in an array of `MAX_THREADS`, so
    it can start 1024 of them; the stages themselves work with any number, and so do they here. -/
structure Config where
  nthreads : ℕ
  queueSize : ℕ
  nthreads_pos : 0 < nthreads
  queueSize_large : itemPerInsert ≤ queueSize

namespace Config
variable (c : Config)

/-- The number of queues between two stages; a last one takes the threads that are left over. -/
def nqueues : ℕ :=
  c.nthreads / maxThreadsPerQueue + if c.nthreads % maxThreadsPerQueue ≠ 0 then 1 else 0

/-- The number of threads that a queue has on one side. -/
def threadsPerQueue (i : ℕ) : ℕ :=
  if i < c.nqueues - 1 ∨ c.nthreads % maxThreadsPerQueue = 0 then maxThreadsPerQueue
  else c.nthreads % maxThreadsPerQueue

theorem nqueues_pos : 0 < c.nqueues := by
  have := c.nthreads_pos
  unfold nqueues maxThreadsPerQueue
  split <;> omega

theorem div_lt_nqueues {tid : ℕ} (h : tid < c.nthreads) : tid / maxThreadsPerQueue < c.nqueues := by
  unfold nqueues maxThreadsPerQueue
  split <;> omega

/-- The queues a thread of a pool works on. -/
def qid (tid : Fin c.nthreads) : Fin c.nqueues :=
  ⟨tid / maxThreadsPerQueue, c.div_lt_nqueues tid.isLt⟩

/-- Where `Fragment` starts. -/
def firstQid : Fin c.nqueues := ⟨0, c.nqueues_pos⟩

/-- `(qid+1) % args->nqueues` -/
def nextQid (q : Fin c.nqueues) : Fin c.nqueues := ⟨(q + 1) % c.nqueues, Nat.mod_lt _ c.nqueues_pos⟩

end Config

/-- The four arrays of queues, by the stage that reads them. -/
inductive Que where
  | refine
  | deduplicate
  | compress
  | reorder
  deriving DecidableEq

instance : Fintype Que := ⟨{.refine, .deduplicate, .compress, .reorder}, by rintro ⟨⟩ <;> simp⟩

/-- The three thread pools. -/
inductive Pool where
  | FragmentRefine
  | Deduplicate
  | Compress
  deriving DecidableEq

instance : Fintype Pool := ⟨{.FragmentRefine, .Deduplicate, .Compress}, by rintro ⟨⟩ <;> simp⟩

namespace Pool

/-- The queue that the threads of a pool read. -/
def input : Pool → Que
  | FragmentRefine => .refine
  | Deduplicate => .deduplicate
  | Compress => .compress

/-- The queues that have a send buffer, in the order in which these are drained. -/
def outputs : Pool → List Que
  | FragmentRefine => [.deduplicate]
  | Deduplicate => [.compress, .reorder]
  | Compress => [.reorder]

/-- The queue that a thread terminates at its end. -/
def terminates : Pool → Que
  | FragmentRefine => .deduplicate
  | Deduplicate => .compress
  | Compress => .reorder

/-- The most a thread takes from its queue in one call. -/
def perFetch : Pool → ℕ
  | FragmentRefine => maxPerFetch
  | Deduplicate => itemPerFetch
  | Compress => itemPerFetch

end Pool

/-! ### Threads -/

/-- Where `Fragment` stands. -/
inductive FragmentPc where
  | split
  | enqueue
  | drain
  | terminate (i : ℕ)
  | done
  deriving DecidableEq

/-- `todo` are the coarse chunks that have not been put into `sendBuf` yet. -/
structure FragmentThread (c : Config) where
  todo : List Chunk
  sendBuf : List Chunk
  qid : Fin c.nqueues
  pc : FragmentPc

/-- Where a thread of a pool stands: it looks for the next chunk, or has pieces of one to send, or sends a full
    buffer, or what is left in its buffers; then it terminates its queues. -/
inductive WorkerPc where
  | fetch
  | emit
  | enqueue (f : Que)
  | drain (fs : List Que)
  | done
  deriving DecidableEq

/-- A thread of a pool. `work` are the chunks it has made of the one in hand, each with the queue it is
    for, and `send` are its send buffers. -/
structure Worker where
  recv : List Chunk
  work : List (Que × Chunk)
  send : Que → List Chunk
  pc : WorkerPc

/-- `fetch i`: `i` queues have been found closed in the loop over the queues. -/
inductive ReorderPc where
  | fetch (i : ℕ)
  | take
  | write (x : Chunk)
  | flush
  | flushWrite (x : Chunk)
  | done
  deriving DecidableEq

/-- `out` is the archive; `received` and `written` are the chunks taken from `recv_buf` and passed to
    `write_chunk_to_file` so far. -/
structure ReorderThread (c : Config) (D κ : Type*) where
  qid : Fin c.nqueues
  recv : List Chunk
  core : Core
  pc : ReorderPc
  received : List Chunk
  written : List Chunk
  out : List (Record D κ)

/-- Why the process has stopped. -/
inductive Crash where
  /-- `assert(!queue_isTerminated(que))` in `queue_enqueue` -/
  | enqueueTerminated
  /-- `assert(que->nTerminated <= que->nProducers)` -/
  | overTerminated
  /-- `assert(r==0)` behind `ringbuffer_insert` -/
  | sendBufFull
  /-- `assert(r>=1)` behind `queue_enqueue` -/
  | nothingSent
  /-- `assert(chunk->header.state == CHUNK_STATE_UNCOMPRESSED)` -/
  | notUncompressed
  /-- an assertion or an access out of bounds at `chunks_per_anchor` -/
  | chunksPerAnchor
  /-- a failure inside the cache of `Reorder` -/
  | cache
  /-- "L1 sequence number mismatch" or "L2 sequence number mismatch" -/
  | sequence
  deriving DecidableEq

/-- The queues, the threads, the table of `Deduplicate` and the records of the archive. `crash` is the first failed
    assertion or undefined step. -/
structure State (c : Config) (D κ : Type*) where
  que : Que × Fin c.nqueues → Queue
  fragment : FragmentThread c
  worker : Pool × Fin c.nthreads → Worker
  reorder : ReorderThread c D κ
  table : Table Chunk D κ
  crash : Option Crash

/-- The threads of the program. -/
inductive Thread (c : Config) where
  | fragment
  | worker (k : Pool × Fin c.nthreads)
  | reorder
  deriving DecidableEq

variable {c : Config} {D κ : Type*}

/-- `queue_init` -/
def Queue.init (nProducers : ℕ) : Queue := ⟨[], nProducers, 0⟩

/-- A coarse chunk: its other fields are not set yet. -/
def coarseChunk (l : ℕ) : Chunk := ⟨l, 0, false⟩

/-- Before the first step: the queues are empty, and every thread is at the beginning of its code. -/
def State.new (c : Config) (p : Plan) : State c D κ where
  que k := match k.1 with
    | .refine => Queue.init 1
    | _ => Queue.init (c.threadsPerQueue k.2)
  fragment := ⟨(List.range p.coarse).map coarseChunk, [], c.firstQid, .split⟩
  worker _ := ⟨[], [], fun _ => [], .fetch⟩
  reorder := ⟨c.firstQid, [], Core.new, .fetch 0, [], [], []⟩
  table := Table.new
  crash := none

namespace State

/-- A queue with its new value. -/
def setQue (s : State c D κ) (k : Que × Fin c.nqueues) (q : Queue) : State c D κ :=
  { s with que := Function.update s.que k q }

/-- A thread of a pool with its new values. -/
def setWorker (s : State c D κ) (k : Pool × Fin c.nthreads) (w : Worker) : State c D κ :=
  { s with worker := Function.update s.worker k w }

/-- The program stops. -/
def fail (s : State c D κ) (e : Crash) : State c D κ := { s with crash := some e }

end State

/-! ### `Fragment` -/

/-- The call of `queue_enqueue` on the queue whose turn it is. -/
def fragmentEnqueue (s : State c D κ) (pc : FragmentPc) : Option (State c D κ) :=
  let t := s.fragment
  match queueEnqueue c.queueSize anchorDataPerInsert (s.que (.refine, t.qid)) t.sendBuf with
  | .failed => some (s.fail .enqueueTerminated)
  | .wait => none
  | .moved left q =>
    if left.length < t.sendBuf.length then
      some { s.setQue (.refine, t.qid) q with
        fragment := { t with sendBuf := left, qid := c.nextQid t.qid, pc := pc } }
    else some (s.fail .nothingSent)

/-- A step of `Fragment`; `none` when it waits or has returned. -/
def fragmentStep (s : State c D κ) : Option (State c D κ) :=
  let t := s.fragment
  match t.pc with
  | .split =>
    match t.todo with
    | [] => some { s with fragment := { t with pc := .drain } }
    | x :: todo =>
      if t.sendBuf.length < anchorDataPerInsert then
        let pc := if t.sendBuf.length + 1 = anchorDataPerInsert then FragmentPc.enqueue else .split
        some { s with fragment := { t with todo := todo, sendBuf := t.sendBuf ++ [x], pc := pc } }
      else some (s.fail .sendBufFull)
  | .enqueue => fragmentEnqueue s .split
  | .drain =>
    if t.sendBuf = [] then some { s with fragment := { t with pc := .terminate 0 } }
    else fragmentEnqueue s .drain
  | .terminate i =>
    if h : i < c.nqueues then
      match queueTerminate (s.que (.refine, ⟨i, h⟩)) with
      | none => some (s.fail .overTerminated)
      | some q =>
        some { s.setQue (.refine, ⟨i, h⟩) q with fragment := { t with pc := .terminate (i + 1) } }
    else some { s with fragment := { t with pc := .done } }
  | .done => none

/-! ### `FragmentRefine`, `Deduplicate` and `Compress` -/

section Workers
variable [DecidableEq D] (p : Plan) (digest : Chunk → D) (packed : Chunk → κ)

/-- What a thread does with one chunk: the chunks it sends on, and the table afterwards. -/
def Pool.process (t : Table Chunk D κ) (x : Chunk) :
    Pool → Option (List (Que × Chunk) × Table Chunk D κ)
  | .FragmentRefine => some ((p.row x.l1num 0).map fun y => (.deduplicate, y), t)
  | .Deduplicate =>
    let (isDuplicate, t) := subDeduplicate digest t x
    some ([(if isDuplicate then .reorder else .compress, x)], t)
  | .Compress => (subCompress packed t x).map fun t => ([(.reorder, x)], t)

omit [DecidableEq D] in
/-- The call of `queue_enqueue` with the send buffer for `f`. -/
def workerEnqueue (s : State c D κ) (k : Pool × Fin c.nthreads) (f : Que) (pc : WorkerPc) :
    Option (State c D κ) :=
  let w := s.worker k
  match queueEnqueue c.queueSize itemPerInsert (s.que (f, c.qid k.2)) (w.send f) with
  | .failed => some (s.fail .enqueueTerminated)
  | .wait => none
  | .moved left q =>
    if left.length < (w.send f).length then
      some ((s.setQue (f, c.qid k.2) q).setWorker k
        { w with send := Function.update w.send f left, pc := pc })
    else some (s.fail .nothingSent)

/-- A step of a thread of a pool; `none` when it waits or has returned. -/
def workerStep (s : State c D κ) (k : Pool × Fin c.nthreads) : Option (State c D κ) :=
  let w := s.worker k
  match w.pc with
  | .fetch =>
    match w.recv with
    | [] =>
      match queueDequeue k.1.perFetch (s.que (k.1.input, c.qid k.2)) with
      | .failed => some (s.fail .overTerminated)
      | .wait => none
      | .closed => some (s.setWorker k { w with pc := .drain k.1.outputs })
      | .moved items q =>
        some ((s.setQue (k.1.input, c.qid k.2) q).setWorker k { w with recv := items })
    | x :: recv =>
      match k.1.process p digest packed s.table x with
      | none => some (s.fail .notUncompressed)
      | some (work, table) =>
        some ({ s with table := table }.setWorker k { w with recv := recv, work := work, pc := .emit })
  | .emit =>
    match w.work with
    | [] => some (s.setWorker k { w with pc := .fetch })
    | (f, x) :: work =>
      if (w.send f).length < itemPerInsert then
        let pc := if (w.send f).length + 1 = itemPerInsert then WorkerPc.enqueue f else .emit
        some (s.setWorker k
          { w with work := work, send := Function.update w.send f (w.send f ++ [x]), pc := pc })
      else some (s.fail .sendBufFull)
  | .enqueue f => workerEnqueue s k f .emit
  | .drain (f :: fs) =>
    if w.send f = [] then some (s.setWorker k { w with pc := .drain fs })
    else workerEnqueue s k f (.drain (f :: fs))
  | .drain [] =>
    match queueTerminate (s.que (k.1.terminates, c.qid k.2)) with
    | none => some (s.fail .overTerminated)
    | some q =>
      some ((s.setQue (k.1.terminates, c.qid k.2) q).setWorker k { w with pc := .done })
  | .done => none

/-! ### `Reorder` -/

/-- Where the loop goes on behind the chunk in hand. -/
def afterChunk (recv : List Chunk) : ReorderPc := if recv = [] then .fetch 0 else .take

/-- A step of `Reorder`; `none` when it waits or has returned. -/
def reorderStep (s : State c D κ) : Option (State c D κ) :=
  let t := s.reorder
  match t.pc with
  | .fetch i =>
    if i < c.nqueues then
      match queueDequeue itemPerFetch (s.que (.reorder, t.qid)) with
      | .failed => some (s.fail .overTerminated)
      | .wait => none
      | .closed => some { s with reorder := { t with qid := c.nextQid t.qid, pc := .fetch (i + 1) } }
      | .moved items q => some { s.setQue (.reorder, t.qid) q with
          reorder := { t with qid := c.nextQid t.qid, recv := items, pc := .take } }
    else some { s with reorder := { t with pc := .flush } }
  | .take =>
    match t.recv with
    | [] => some { s with reorder := { t with pc := .flush } }
    | x :: recv =>
      match t.core.note x with
      | none => some (s.fail .chunksPerAnchor)
      | some core =>
        let t := { t with recv := recv, received := t.received ++ [x] }
        if x.sequence = core.next then some { s with reorder := { t with core := core, pc := .write x } }
        else match core.cache x with
          | none => some (s.fail .cache)
          | some core => some { s with reorder := { t with core := core, pc := afterChunk recv } }
  | .write x =>
    (writeChunkToFile digest s.table x).map fun (record, table) =>
      match t.core.advance with
      | none => s.fail .chunksPerAnchor
      | some core =>
        match core.takeNext with
        | none => s.fail .cache
        | some (core, next) =>
          let pc := match next with
            | none => afterChunk t.recv
            | some y => .write y
          { s with table := table, reorder := { t with
            core := core, pc := pc, written := t.written ++ [x], out := t.out ++ [record] } }
  | .flush =>
    match treeFindMin t.core.pmin t.core.tree with
    | none => some { s with reorder := { t with pc := .done } }
    | some _ =>
      match t.core.takeNext with
      | none => some (s.fail .cache)
      | some (_, none) => some (s.fail .sequence)
      | some (core, some x) => some { s with reorder := { t with core := core, pc := .flushWrite x } }
  | .flushWrite x =>
    (writeChunkToFile digest s.table x).map fun (record, table) =>
      match t.core.advance with
      | none => s.fail .chunksPerAnchor
      | some core =>
        { s with table := table, reorder := { t with
          core := core, pc := .flush, written := t.written ++ [x], out := t.out ++ [record] } }
  | .done => none

/-- One step of a thread; `none` when it waits or has returned, or the process has stopped. -/
def step (s : State c D κ) : Thread c → Option (State c D κ)
  | t => if s.crash = none then match t with
      | .fragment => fragmentStep s
      | .worker k => workerStep p digest packed s k
      | .reorder => reorderStep digest s
    else none

end Workers

/-- The thread has returned. -/
def State.Finished (s : State c D κ) : Thread c → Prop
  | .fragment => s.fragment.pc = .done
  | .worker k => (s.worker k).pc = .done
  | .reorder => s.reorder.pc = .done

instance (s : State c D κ) : DecidablePred s.Finished
  | .fragment => inferInstanceAs (Decidable (_ = _))
  | .worker _ => inferInstanceAs (Decidable (_ = _))
  | .reorder => inferInstanceAs (Decidable (_ = _))

theorem forall_thread {P : Thread c → Prop} :
    (∀ t, P t) ↔ P .fragment ∧ (∀ k, P (.worker k)) ∧ P .reorder := by
  constructor
  · intro h
    exact ⟨h _, fun k => h _, h _⟩
  · rintro ⟨h1, h2, h3⟩ (_ | k | _)
    · exact h1
    · exact h2 k
    · exact h3

instance (P : Thread c → Prop) [DecidablePred P] : Decidable (∀ t, P t) :=
  decidable_of_iff' _ forall_thread

end Turkey.Pipeline
