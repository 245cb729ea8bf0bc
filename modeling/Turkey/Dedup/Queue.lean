import Turkey.Dedup.Moves
import Turkey.Dedup.Ringbuffer
import Turkey.Schemes.Conditions
import Turkey.Schemes.Tally

/-! `queue.c` with its mutex and its two condition variables, and the threads at the two ends of one queue.

    A sender is a thread that fills a queue: it puts its chunks into a send buffer, calls `queue_enqueue` when the
    buffer is full, drains it at the end and calls `queue_terminate`. A receiver fetches chunks into a receive buffer
    until `queue_dequeue` returns -1. The code that a thread runs between two calls of the pthread library, while it
    has the mutex, is one step.

    `Link` is the same link of the pipeline with every queue operation in one step. -/

namespace Turkey.QueueLink
open Turkey.Conditions
open Turkey.Queues (Ringbuffer ringbufferInit ringbufferInsert ringbufferRemove isEmpty isFull)
open Turkey.Reorder (Chunk)
open Turkey.Pipeline (queueDequeue queueEnqueue queueTerminate Dequeued Enqueued)

/-- The size of the queue, and the sizes of the buffers at its two ends, which are also the limits of the calls. -/
structure Limits where
  size : ℕ
  perInsert : ℕ
  perFetch : ℕ
  size_pos : 0 < size
  perInsert_pos : 0 < perInsert
  perFetch_pos : 0 < perFetch
  size_small : size + 1 < 2 ^ 31
  perInsert_small : perInsert + 1 < 2 ^ 31
  perFetch_small : perFetch + 1 < 2 ^ 31

/-! ### The functions, without the calls of the pthread library -/

/-- `queue_t` -/
structure SyncQueue where
  buf : Ringbuffer Chunk
  nProducers : ℕ
  nTerminated : ℕ

/-- `none` when the assertion fails. -/
def queueIsTerminated (que : SyncQueue) : Option Bool :=
  if que.nTerminated ≤ que.nProducers then some (que.nTerminated = que.nProducers) else none

/-- One turn of the loops: `ringbuffer_remove`, `assert(temp!=NULL)`, `ringbuffer_insert`, `assert(rv==0)`. -/
def moveItem (source target : Ringbuffer Chunk) : Option (Ringbuffer Chunk × Ringbuffer Chunk) :=
  (ringbufferRemove source).bind fun (temp, source) => temp.bind fun temp =>
    (ringbufferInsert temp target).bind fun (rv, target) => if rv = 0 then some (source, target) else none

/-- The loops, from `i` on: they go on as long as `more` says, for `n` turns at most. -/
def moveItems (more : Ringbuffer Chunk → Ringbuffer Chunk → Option Bool) :
    ℕ → ℕ → Ringbuffer Chunk → Ringbuffer Chunk → Option (ℕ × Ringbuffer Chunk × Ringbuffer Chunk)
  | 0, i, source, target => some (i, source, target)
  | n + 1, i, source, target => (more source target).bind fun more' =>
    if more' then
      (moveItem source target).bind fun (source, target) => moveItems more n (i + 1) source target
    else some (i, source, target)

/-- `!ringbuffer_isEmpty(&que->buf) && !ringbuffer_isFull(buf)` -/
def moreToDequeue (que buf : Ringbuffer Chunk) : Option Bool :=
  if isEmpty que then some false else (isFull buf).map not

/-- `!ringbuffer_isFull(&que->buf) && !ringbuffer_isEmpty(buf)` -/
def moreToEnqueue (buf que : Ringbuffer Chunk) : Option Bool :=
  (isFull que).map fun full => !full && !isEmpty buf

/-! ### The threads -/

/-- `notEmpty` and `notFull` -/
inductive Cond where
  | notEmpty
  | notFull
  deriving DecidableEq

/-- Where a thread is in `queue_enqueue` or `queue_dequeue`; `i` is the number of elements it has moved. -/
inductive Stage where
  | lock
  | test
  | wait
  | signal (i : ℕ)
  | unlock (i : ℕ)
  | back (i : ℕ)

inductive Closing where
  | lock
  | count
  | broadcast
  | unlock

/-- `todo` are the chunks that have not been put into the send buffer yet. -/
structure Sender where
  todo : List Chunk
  buf : Ringbuffer Chunk

/-- `got` are the chunks taken out of the receive buffer, in this order. -/
structure Receiver where
  buf : Ringbuffer Chunk
  got : List Chunk

/-- A place in the code with the variables of the thread. An assertion that fails leads to `failed`. -/
inductive Pc where
  | fill (d : Sender)
  | drain (d : Sender)
  | enqueue (draining : Bool) (k : Stage) (d : Sender)
  | check (draining : Bool) (d : Sender)
  | terminate (k : Closing)
  | sent
  | fetch (r : Receiver)
  | dequeue (k : Stage) (r : Receiver)
  | take (r : Receiver)
  | closed (r : Receiver)
  | received (got : List Chunk)
  | failed (locked : Bool)

/-- The head of the main loop of a sender. -/
def fill (d : Sender) : Pc :=
  match d.todo with
  | [] => .drain d
  | x :: todo =>
    match ringbufferInsert x d.buf with
    | some (0, buf) =>
      match isFull buf with
      | some full => if full then .enqueue false .lock ⟨todo, buf⟩ else .fill ⟨todo, buf⟩
      | none => .failed false
    | _ => .failed false

/-- `assert(!queue_isTerminated(que))` -/
def enqueueCheck (draining : Bool) (d : Sender) (que : SyncQueue) : Pc :=
  if queueIsTerminated que = some false then .enqueue draining .test d else .failed true

/-- From the loop of `queue_enqueue` on, up to the next call of the pthread library. -/
def enqueueTest (l : Limits) (draining : Bool) (d : Sender) (que : SyncQueue) : SyncQueue × Pc :=
  match isFull que.buf with
  | none => (que, .failed true)
  | some true => (que, .enqueue draining .wait d)
  | some false =>
    match moveItems moreToEnqueue l.perInsert 0 d.buf que.buf with
    | none => (que, .failed true)
    | some (i, buf, queBuf) =>
      ({ que with buf := queBuf }, .enqueue draining (if 0 < i then .signal i else .unlock i) ⟨d.todo, buf⟩)

/-- `assert(r>=1)` -/
def enqueueBack (draining : Bool) (i : ℕ) (d : Sender) : Pc :=
  if 1 ≤ i then if draining then .drain d else .fill d else .failed false

def terminateCount (que : SyncQueue) : SyncQueue × Pc :=
  let que := { que with nTerminated := que.nTerminated + 1 }
  match queueIsTerminated que with
  | none => (que, .failed true)
  | some all => (que, .terminate (if all then .broadcast else .unlock))

/-- From the loop of `queue_dequeue` on, up to the next call of the pthread library. -/
def dequeueTest (l : Limits) (r : Receiver) (que : SyncQueue) : SyncQueue × Pc :=
  if isEmpty que.buf then
    match queueIsTerminated que with
    | none => (que, .failed true)
    | some false => (que, .dequeue .wait r)
    | some true => (que, .closed r)
  else
    match moveItems moreToDequeue l.perFetch 0 que.buf r.buf with
    | none => (que, .failed true)
    | some (i, queBuf, buf) => ({ que with buf := queBuf }, .dequeue (if 0 < i then .signal i else .unlock i) ⟨buf, r.got⟩)

/-- `chunk = ringbuffer_remove(&recv_buf)`, and `assert(chunk!=NULL)`. -/
def take (r : Receiver) : Pc :=
  match ringbufferRemove r.buf with
  | some (some x, buf) => .fetch ⟨buf, r.got ++ [x]⟩
  | _ => .failed false

/-- A step that uses the variables of the thread only. -/
def alone (p : Pc) : Op SyncQueue Pc Cond := .access fun que => (que, p)

/-- What a thread does at a place of its code. -/
def op (l : Limits) : Pc → Op SyncQueue Pc Cond
  | .fill d => alone (fill d)
  | .drain d => alone (if isEmpty d.buf then .terminate .lock else .enqueue true .lock d)
  | .enqueue draining .lock d => .lock (.check draining d)
  | .check draining d => .access fun que => (que, enqueueCheck draining d que)
  | .enqueue draining .test d => .access (enqueueTest l draining d)
  | .enqueue draining .wait d => .wait .notFull (.enqueue draining .test d)
  | .enqueue draining (.signal i) d => .signal .notEmpty (.enqueue draining (.unlock i) d)
  | .enqueue draining (.unlock i) d => .unlock (.enqueue draining (.back i) d)
  | .enqueue draining (.back i) d => alone (enqueueBack draining i d)
  | .terminate .lock => .lock (.terminate .count)
  | .terminate .count => .access terminateCount
  | .terminate .broadcast => .broadcast .notEmpty (.terminate .unlock)
  | .terminate .unlock => .unlock .sent
  | .sent => .stop
  | .fetch r => alone (if isEmpty r.buf then .dequeue .lock r else .take r)
  | .dequeue .lock r => .lock (.dequeue .test r)
  | .dequeue .test r => .access (dequeueTest l r)
  | .dequeue .wait r => .wait .notEmpty (.dequeue .test r)
  | .dequeue (.signal i) r => .signal .notFull (.dequeue (.unlock i) r)
  | .dequeue (.unlock i) r => .unlock (.dequeue (.back i) r)
  | .dequeue (.back _) r => alone (.take r)
  | .take r => alone (take r)
  | .closed r => .unlock (.received r.got)
  | .received _ => .stop
  | .failed locked => alone (.failed locked)

/-- The places at which a thread has the mutex. -/
def holds : Pc → Bool
  | .enqueue _ k _ => match k with
    | .lock | .back _ => false
    | _ => true
  | .check _ _ => true
  | .dequeue k _ => match k with
    | .lock | .back _ => false
    | _ => true
  | .terminate k => match k with
    | .lock => false
    | _ => true
  | .closed _ => true
  | .failed locked => locked
  | _ => false

variable {senders receivers : ℕ}

/-- The threads at the two ends. -/
abbrev Tid (senders receivers : ℕ) := Fin senders ⊕ Fin receivers

abbrev Threads (senders receivers : ℕ) := Sys (Tid senders receivers) SyncQueue Pc Cond

/-- All threads are about to start, and `queue_init` has been called for these senders. -/
def start (l : Limits) (todo : Fin senders → List Chunk) : Threads senders receivers where
  mem := ⟨ringbufferInit l.size, senders, 0⟩
  thread
    | .inl i => ⟨.fill ⟨todo i, ringbufferInit l.perInsert⟩, .running⟩
    | .inr _ => ⟨.fetch ⟨ringbufferInit l.perFetch, []⟩, .running⟩
  holder := none

/-! ### The same link with operations that are one step -/

inductive Place where
  | fill (todo send : List Chunk)
  | drain (send : List Chunk)
  | enqueue (draining : Bool) (todo send : List Chunk)
  | terminate
  | sent
  | fetch (recv got : List Chunk)
  | received (got : List Chunk)
  | failed

structure Link (senders receivers : ℕ) where
  que : Pipeline.Queue
  thread : Tid senders receivers → Place

def Link.goto (e : Link senders receivers) (t : Tid senders receivers) (x : Place) : Link senders receivers :=
  { e with thread := Function.update e.thread t x }

def Link.start (todo : Fin senders → List Chunk) : Link senders receivers where
  que := Pipeline.Queue.init senders
  thread
    | .inl i => .fill (todo i) []
    | .inr _ => .fetch [] []

/-- What one step does to the queue and to the thread; `none` when the thread waits or has come to its end. -/
def Place.step (l : Limits) (que : Pipeline.Queue) : Place → Option (Pipeline.Queue × Place)
  | .fill [] send => some (que, .drain send)
  | .fill (x :: todo) send =>
    if send.length < l.perInsert then
      some (que, if send.length + 1 = l.perInsert then .enqueue false todo (send ++ [x]) else .fill todo (send ++ [x]))
    else some (que, .failed)
  | .drain send => some (que, if send = [] then .terminate else .enqueue true [] send)
  | .enqueue draining todo send =>
    match queueEnqueue l.size l.perInsert que send with
    | .failed => some (que, .failed)
    | .wait => none
    | .moved left que =>
      some (que, if left.length < send.length then if draining then .drain left else .fill todo left else .failed)
  | .terminate =>
    match queueTerminate que with
    | none => some (que, .failed)
    | some que => some (que, .sent)
  | .sent => none
  | .fetch [] got =>
    match queueDequeue l.perFetch que with
    | .failed => some (que, .failed)
    | .wait => none
    | .closed => some (que, .received got)
    | .moved items que => some (que, .fetch items got)
  | .fetch (x :: recv) got => some (que, .fetch recv (got ++ [x]))
  | .received _ => none
  | .failed => none

def Link.step (l : Limits) (e : Link senders receivers) (t : Tid senders receivers) : Option (Link senders receivers) :=
  ((e.thread t).step l e.que).map fun (que, x) => { e with que := que }.goto t x

end Turkey.QueueLink
