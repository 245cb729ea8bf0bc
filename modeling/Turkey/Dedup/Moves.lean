import Turkey.Dedup.Pipeline

/-! What a step of the pipeline can do. Each kind of thread has one relation that lists its moves, one
    that lists the assertions that can fail, and one that says when it has no step: it has returned, it
    waits on an empty queue that is not terminated, on a full queue, or (`Reorder`) on a chunk that is
    not compressed. The invariants and the search for deadlocks use these and never unfold a step. -/

namespace Turkey.Pipeline
open Turkey.Run
open Turkey.Reorder (Chunk Core Plan)
open Turkey.Archive (Table Record subDeduplicate subCompress writeChunkToFile)
open Turkey.SearchTree (treeFindMin)

variable {c : Config} {D κ : Type*}

/-! ### Queue operations -/

/-- `queue_dequeue` waits. -/
def Queue.Starved (q : Queue) : Prop := q.buf = [] ∧ q.nTerminated < q.nProducers

/-- `queue_enqueue` waits. -/
def Queue.Full (size : ℕ) (q : Queue) : Prop := size ≤ q.buf.length ∧ q.nTerminated < q.nProducers

/-- The queue is empty and no more chunks will come. -/
def Queue.Closed (q : Queue) : Prop := q.buf = [] ∧ q.nTerminated = q.nProducers

/-- The queue without the chunks that `queue_dequeue` moves. -/
def Queue.pop (q : Queue) (n : ℕ) : Queue := { q with buf := q.buf.drop n }

/-- The queue with the first `n` chunks of a send buffer. -/
def Queue.push (q : Queue) (buf : List Chunk) (n : ℕ) : Queue := { q with buf := q.buf ++ buf.take n }

/-- One more producer has terminated the queue. -/
def Queue.close (q : Queue) : Queue := { q with nTerminated := q.nTerminated + 1 }

theorem queueDequeue_cases (limit : ℕ) (q : Queue) :
    (queueDequeue limit q = .wait ∧ q.Starved) ∨ (queueDequeue limit q = .closed ∧ q.Closed) ∨
      (queueDequeue limit q = .failed ∧ q.nProducers < q.nTerminated) ∨
      (queueDequeue limit q = .moved (q.buf.take limit) (q.pop limit) ∧ q.buf ≠ []) := by
  unfold queueDequeue
  split
  · rename_i hbuf
    split
    · exact .inl ⟨rfl, hbuf, ‹_›⟩
    · split
      · exact .inr (.inl ⟨rfl, hbuf, ‹_›⟩)
      · exact .inr (.inr (.inl ⟨rfl, by omega⟩))
  · exact .inr (.inr (.inr ⟨rfl, ‹_›⟩))

theorem queueEnqueue_cases (size limit : ℕ) (q : Queue) (buf : List Chunk) :
    (queueEnqueue size limit q buf = .wait ∧ q.Full size) ∨
      (queueEnqueue size limit q buf = .failed ∧ q.nProducers ≤ q.nTerminated) ∨
      (q.nTerminated < q.nProducers ∧ q.buf.length < size ∧ ∃ n, n = min limit (size - q.buf.length) ∧
        queueEnqueue size limit q buf = .moved (buf.drop n) (q.push buf n)) := by
  unfold queueEnqueue
  split
  · split
    · exact .inr (.inr ⟨‹_›, ‹_›, _, rfl, rfl⟩)
    · exact .inl ⟨rfl, by omega, ‹_›⟩
  · exact .inr (.inl ⟨rfl, by omega⟩)

theorem queueTerminate_cases (q : Queue) :
    (queueTerminate q = none ∧ q.nProducers < q.nTerminated + 1) ∨
      (queueTerminate q = some q.close ∧ q.nTerminated < q.nProducers) := by
  unfold queueTerminate
  split
  · exact .inr ⟨rfl, by omega⟩
  · exact .inl ⟨rfl, by omega⟩

/-! ### `Fragment` -/

/-- At a call of `queue_enqueue`, with the place where the thread goes on. -/
def FragmentThread.Sending (t : FragmentThread c) (pc : FragmentPc) : Prop :=
  t.pc = .enqueue ∧ pc = .split ∨ t.pc = .drain ∧ t.sendBuf ≠ [] ∧ pc = .drain

/-- What a step of `Fragment` does that goes well. -/
inductive FragmentMove (s : State c D κ) : State c D κ → Prop
  | insert (x : Chunk) (todo : List Chunk) (hpc : s.fragment.pc = .split)
      (htodo : s.fragment.todo = x :: todo) (hroom : s.fragment.sendBuf = []) :
      FragmentMove s { s with fragment := { s.fragment with todo := todo, sendBuf := [x], pc := .enqueue } }
  | finish (hpc : s.fragment.pc = .split) (htodo : s.fragment.todo = []) :
      FragmentMove s { s with fragment := { s.fragment with pc := .drain } }
  | send (pc : FragmentPc) (n : ℕ) (hpc : s.fragment.Sending pc) (hn : 0 < n)
      (hopen : (s.que (.refine, s.fragment.qid)).nTerminated < (s.que (.refine, s.fragment.qid)).nProducers) :
      FragmentMove s { s.setQue (.refine, s.fragment.qid)
          ((s.que (.refine, s.fragment.qid)).push s.fragment.sendBuf n) with
        fragment := { s.fragment with
          sendBuf := s.fragment.sendBuf.drop n, qid := c.nextQid s.fragment.qid, pc := pc } }
  | drained (hpc : s.fragment.pc = .drain) (hsend : s.fragment.sendBuf = []) :
      FragmentMove s { s with fragment := { s.fragment with pc := .terminate 0 } }
  | terminate (i : Fin c.nqueues) (hpc : s.fragment.pc = .terminate i)
      (hopen : (s.que (.refine, i)).nTerminated < (s.que (.refine, i)).nProducers) :
      FragmentMove s { s.setQue (.refine, i) (s.que (.refine, i)).close with
        fragment := { s.fragment with pc := .terminate (i + 1) } }
  | done (i : ℕ) (hpc : s.fragment.pc = .terminate i) (hi : c.nqueues ≤ i) :
      FragmentMove s { s with fragment := { s.fragment with pc := .done } }

/-- How a step of `Fragment` fails. -/
inductive FragmentFault (s : State c D κ) : Crash → Prop
  | insert (hpc : s.fragment.pc = .split) (hfull : s.fragment.sendBuf ≠ []) : FragmentFault s .sendBufFull
  | enqueue (pc : FragmentPc) (hpc : s.fragment.Sending pc)
      (hclosed : (s.que (.refine, s.fragment.qid)).nProducers ≤ (s.que (.refine, s.fragment.qid)).nTerminated) :
      FragmentFault s .enqueueTerminated
  | send (pc : FragmentPc) (hpc : s.fragment.Sending pc) (hsend : s.fragment.sendBuf = []) :
      FragmentFault s .nothingSent
  | terminate (i : Fin c.nqueues) (hpc : s.fragment.pc = .terminate i)
      (hclosed : (s.que (.refine, i)).nProducers < (s.que (.refine, i)).nTerminated + 1) :
      FragmentFault s .overTerminated

/-- Why `Fragment` takes no step. -/
inductive FragmentIdle (s : State c D κ) : Prop
  | done (hpc : s.fragment.pc = .done)
  | full (pc : FragmentPc) (hpc : s.fragment.Sending pc)
      (hfull : (s.que (.refine, s.fragment.qid)).Full c.queueSize)

/-- A step does one of the moves, or an assertion fails, or the thread has none. -/
inductive Outcome (s : State c D κ) (move : State c D κ → Prop) (fault : Crash → Prop) (idle : Prop) :
    Option (State c D κ) → Prop
  | idle (h : idle) : Outcome s move fault idle none
  | move (s' : State c D κ) (h : move s') : Outcome s move fault idle (some s')
  | fault (e : Crash) (h : fault e) : Outcome s move fault idle (some (s.fail e))

theorem fragmentEnqueue_outcome {s : State c D κ} {pc : FragmentPc} (hpc : s.fragment.Sending pc) :
    Outcome s (FragmentMove s) (FragmentFault s) (FragmentIdle s) (fragmentEnqueue s pc) := by
  unfold fragmentEnqueue
  rcases queueEnqueue_cases c.queueSize anchorDataPerInsert (s.que (.refine, s.fragment.qid))
    s.fragment.sendBuf with ⟨h, hfull⟩ | ⟨h, hclosed⟩ | ⟨hopen, hroom, n, hn, h⟩
  · simp only [h]
    exact .idle (.full pc hpc hfull)
  · simp only [h]
    exact .fault _ (.enqueue pc hpc hclosed)
  · have hpos : 0 < n := by simp only [anchorDataPerInsert] at hn; omega
    simp only [h]
    split
    · exact .move _ (.send pc n hpc hpos hopen)
    · rename_i hlen
      refine .fault _ (.send pc hpc ?_)
      rw [List.length_drop] at hlen
      exact List.length_eq_zero_iff.mp (by omega)

theorem fragmentStep_outcome (s : State c D κ) :
    Outcome s (FragmentMove s) (FragmentFault s) (FragmentIdle s) (fragmentStep s) := by
  simp only [fragmentStep]
  cases hpc : s.fragment.pc with
  | split =>
    cases htodo : s.fragment.todo with
    | nil => exact .move _ (by simpa only [htodo] using FragmentMove.finish hpc htodo)
    | cons x todo =>
      by_cases hnil : s.fragment.sendBuf = []
      · have hmove := FragmentMove.insert x todo hpc htodo hnil
        simp only [hnil, anchorDataPerInsert, List.length_nil, zero_add, Nat.lt_one_iff, if_true,
          List.nil_append]
        exact .move _ hmove
      · have hlen : ¬s.fragment.sendBuf.length < anchorDataPerInsert := by
          have := List.length_pos_iff.mpr hnil
          simp only [anchorDataPerInsert]
          omega
        simp only [if_neg hlen]
        exact .fault _ (.insert hpc hnil)
  | enqueue => exact fragmentEnqueue_outcome (.inl ⟨hpc, rfl⟩)
  | drain =>
    simp only
    split
    · exact .move _ (.drained hpc ‹_›)
    · exact fragmentEnqueue_outcome (.inr ⟨hpc, ‹_›, rfl⟩)
  | terminate i =>
    simp only
    split
    · rename_i hi
      rcases queueTerminate_cases (s.que (.refine, ⟨i, hi⟩)) with ⟨h, hclosed⟩ | ⟨h, hopen⟩
      · simp only [h]
        exact .fault _ (.terminate ⟨i, hi⟩ hpc hclosed)
      · simp only [h]
        exact .move _ (.terminate ⟨i, hi⟩ hpc hopen)
    · exact .move _ (.done i hpc (by omega))
  | done => exact .idle (.done hpc)

/-! ### The pools -/

/-- At a call of `queue_enqueue` with the send buffer for `f`. -/
def Worker.Sending (w : Worker) (f : Que) (pc : WorkerPc) : Prop :=
  w.pc = .enqueue f ∧ pc = .emit ∨ ∃ fs, w.pc = .drain (f :: fs) ∧ w.send f ≠ [] ∧ pc = .drain (f :: fs)

section Workers
variable [DecidableEq D] (p : Plan) (digest : Chunk → D) (packed : Chunk → κ)

/-- What a step of a thread of a pool does that goes well. -/
inductive WorkerMove (s : State c D κ) (k : Pool × Fin c.nthreads) : State c D κ → Prop
  | fetch (hpc : (s.worker k).pc = .fetch) (hrecv : (s.worker k).recv = [])
      (hbuf : (s.que (k.1.input, c.qid k.2)).buf ≠ []) :
      WorkerMove s k ((s.setQue (k.1.input, c.qid k.2)
          ((s.que (k.1.input, c.qid k.2)).pop k.1.perFetch)).setWorker k
        { s.worker k with recv := (s.que (k.1.input, c.qid k.2)).buf.take k.1.perFetch })
  | close (hpc : (s.worker k).pc = .fetch) (hrecv : (s.worker k).recv = [])
      (hclosed : (s.que (k.1.input, c.qid k.2)).Closed) :
      WorkerMove s k (s.setWorker k { s.worker k with pc := .drain k.1.outputs })
  | process (x : Chunk) (recv : List Chunk) (work : List (Que × Chunk)) (table : Table Chunk D κ)
      (hpc : (s.worker k).pc = .fetch) (hrecv : (s.worker k).recv = x :: recv)
      (hproc : k.1.process p digest packed s.table x = some (work, table)) :
      WorkerMove s k ({ s with table := table }.setWorker k
        { s.worker k with recv := recv, work := work, pc := .emit })
  | rest (hpc : (s.worker k).pc = .emit) (hwork : (s.worker k).work = []) :
      WorkerMove s k (s.setWorker k { s.worker k with pc := .fetch })
  | emit (f : Que) (x : Chunk) (work : List (Que × Chunk)) (hpc : (s.worker k).pc = .emit)
      (hwork : (s.worker k).work = (f, x) :: work) (hroom : ((s.worker k).send f).length < itemPerInsert) :
      WorkerMove s k (s.setWorker k { s.worker k with
        work := work
        send := Function.update (s.worker k).send f ((s.worker k).send f ++ [x])
        pc := if ((s.worker k).send f).length + 1 = itemPerInsert then .enqueue f else .emit })
  | send (f : Que) (pc : WorkerPc) (n : ℕ) (hpc : (s.worker k).Sending f pc) (hn : 0 < n)
      (hsend : (s.worker k).send f ≠ [])
      (hopen : (s.que (f, c.qid k.2)).nTerminated < (s.que (f, c.qid k.2)).nProducers) :
      WorkerMove s k ((s.setQue (f, c.qid k.2)
          ((s.que (f, c.qid k.2)).push ((s.worker k).send f) n)).setWorker k
        { s.worker k with
          send := Function.update (s.worker k).send f (((s.worker k).send f).drop n), pc := pc })
  | skip (f : Que) (fs : List Que) (hpc : (s.worker k).pc = .drain (f :: fs))
      (hsend : (s.worker k).send f = []) :
      WorkerMove s k (s.setWorker k { s.worker k with pc := .drain fs })
  | terminate (hpc : (s.worker k).pc = .drain [])
      (hopen : (s.que (k.1.terminates, c.qid k.2)).nTerminated <
        (s.que (k.1.terminates, c.qid k.2)).nProducers) :
      WorkerMove s k ((s.setQue (k.1.terminates, c.qid k.2)
          (s.que (k.1.terminates, c.qid k.2)).close).setWorker k { s.worker k with pc := .done })

/-- How a step of a thread of a pool fails. -/
inductive WorkerFault (s : State c D κ) (k : Pool × Fin c.nthreads) : Crash → Prop
  | fetch (hpc : (s.worker k).pc = .fetch)
      (hclosed : (s.que (k.1.input, c.qid k.2)).nProducers < (s.que (k.1.input, c.qid k.2)).nTerminated) :
      WorkerFault s k .overTerminated
  | process (x : Chunk) (recv : List Chunk) (hpc : (s.worker k).pc = .fetch)
      (hrecv : (s.worker k).recv = x :: recv) (hproc : k.1.process p digest packed s.table x = none) :
      WorkerFault s k .notUncompressed
  | emit (f : Que) (x : Chunk) (work : List (Que × Chunk)) (hpc : (s.worker k).pc = .emit)
      (hwork : (s.worker k).work = (f, x) :: work) (hfull : itemPerInsert ≤ ((s.worker k).send f).length) :
      WorkerFault s k .sendBufFull
  | enqueue (f : Que) (pc : WorkerPc) (hpc : (s.worker k).Sending f pc)
      (hclosed : (s.que (f, c.qid k.2)).nProducers ≤ (s.que (f, c.qid k.2)).nTerminated) :
      WorkerFault s k .enqueueTerminated
  | send (f : Que) (pc : WorkerPc) (hpc : (s.worker k).Sending f pc) (hsend : (s.worker k).send f = []) :
      WorkerFault s k .nothingSent
  | terminate (hpc : (s.worker k).pc = .drain [])
      (hclosed : (s.que (k.1.terminates, c.qid k.2)).nProducers <
        (s.que (k.1.terminates, c.qid k.2)).nTerminated + 1) : WorkerFault s k .overTerminated

/-- Why a thread of a pool takes no step. -/
inductive WorkerIdle (s : State c D κ) (k : Pool × Fin c.nthreads) : Prop
  | done (hpc : (s.worker k).pc = .done)
  | starved (hpc : (s.worker k).pc = .fetch) (hrecv : (s.worker k).recv = [])
      (hque : (s.que (k.1.input, c.qid k.2)).Starved)
  | full (f : Que) (pc : WorkerPc) (hpc : (s.worker k).Sending f pc)
      (hfull : (s.que (f, c.qid k.2)).Full c.queueSize)

theorem workerEnqueue_outcome {s : State c D κ} {k : Pool × Fin c.nthreads} {f : Que} {pc : WorkerPc}
    (hpc : (s.worker k).Sending f pc) :
    Outcome s (WorkerMove p digest packed s k) (WorkerFault p digest packed s k) (WorkerIdle s k)
      (workerEnqueue s k f pc) := by
  unfold workerEnqueue
  rcases queueEnqueue_cases c.queueSize itemPerInsert (s.que (f, c.qid k.2)) ((s.worker k).send f)
    with ⟨h, hfull⟩ | ⟨h, hclosed⟩ | ⟨hopen, hroom, n, hn, h⟩
  · simp only [h]
    exact .idle (.full f pc hpc hfull)
  · simp only [h]
    exact .fault _ (.enqueue f pc hpc hclosed)
  · have hpos : 0 < n := by simp only [itemPerInsert] at hn; omega
    simp only [h]
    split
    · rename_i hlen
      refine .move _ (.send f pc n hpc hpos (fun hnil => ?_) hopen)
      simp [hnil] at hlen
    · rename_i hlen
      refine .fault _ (.send f pc hpc ?_)
      rw [List.length_drop] at hlen
      exact List.length_eq_zero_iff.mp (by omega)

theorem workerStep_outcome (s : State c D κ) (k : Pool × Fin c.nthreads) :
    Outcome s (WorkerMove p digest packed s k) (WorkerFault p digest packed s k) (WorkerIdle s k)
      (workerStep p digest packed s k) := by
  simp only [workerStep]
  cases hpc : (s.worker k).pc with
  | fetch =>
    cases hrecv : (s.worker k).recv with
    | nil =>
      rcases queueDequeue_cases k.1.perFetch (s.que (k.1.input, c.qid k.2))
        with ⟨h, hque⟩ | ⟨h, hque⟩ | ⟨h, hque⟩ | ⟨h, hque⟩ <;> simp only [h]
      · exact .idle (.starved hpc hrecv hque)
      · exact .move _ (hrecv ▸ .close hpc hrecv hque)
      · exact .fault _ (.fetch hpc hque)
      · exact .move _ (by simpa only [hpc] using WorkerMove.fetch hpc hrecv hque)
    | cons x recv =>
      simp only
      cases hproc : k.1.process p digest packed s.table x with
      | none => exact .fault _ (.process x recv hpc hrecv hproc)
      | some r => exact .move _ (.process x recv r.1 r.2 hpc hrecv hproc)
  | emit =>
    cases hwork : (s.worker k).work with
    | nil => exact .move _ (by simpa only [hwork] using WorkerMove.rest hpc hwork)
    | cons y work =>
      simp only
      split
      · exact .move _ (.emit y.1 y.2 work hpc hwork ‹_›)
      · exact .fault _ (.emit y.1 y.2 work hpc hwork (by omega))
  | enqueue f => exact workerEnqueue_outcome p digest packed (.inl ⟨hpc, rfl⟩)
  | drain fs =>
    cases fs with
    | nil =>
      simp only
      rcases queueTerminate_cases (s.que (k.1.terminates, c.qid k.2)) with ⟨h, hclosed⟩ | ⟨h, hopen⟩
      · simp only [h]
        exact .fault _ (.terminate hpc hclosed)
      · simp only [h]
        exact .move _ (.terminate hpc hopen)
    | cons f fs =>
      simp only
      split
      · exact .move _ (.skip f fs hpc ‹_›)
      · exact workerEnqueue_outcome p digest packed (.inr ⟨fs, hpc, ‹_›, rfl⟩)
  | done => exact .idle (.done hpc)

/-! ### `Reorder` -/

/-- What a step of `Reorder` does that goes well. -/
inductive ReorderMove (s : State c D κ) : State c D κ → Prop
  | fetch (i : ℕ) (hpc : s.reorder.pc = .fetch i) (hbuf : (s.que (.reorder, s.reorder.qid)).buf ≠ []) :
      ReorderMove s { s.setQue (.reorder, s.reorder.qid)
          ((s.que (.reorder, s.reorder.qid)).pop itemPerFetch) with
        reorder := { s.reorder with
          qid := c.nextQid s.reorder.qid
          recv := (s.que (.reorder, s.reorder.qid)).buf.take itemPerFetch
          pc := .take } }
  | closed (i : ℕ) (hpc : s.reorder.pc = .fetch i) (hi : i < c.nqueues)
      (hclosed : (s.que (.reorder, s.reorder.qid)).Closed) :
      ReorderMove s { s with
        reorder := { s.reorder with qid := c.nextQid s.reorder.qid, pc := .fetch (i + 1) } }
  | exhausted (i : ℕ) (hpc : s.reorder.pc = .fetch i) (hi : c.nqueues ≤ i) :
      ReorderMove s { s with reorder := { s.reorder with pc := .flush } }
  | nothing (hpc : s.reorder.pc = .take) (hrecv : s.reorder.recv = []) :
      ReorderMove s { s with reorder := { s.reorder with pc := .flush } }
  | next (x : Chunk) (recv : List Chunk) (core : Core) (hpc : s.reorder.pc = .take)
      (hrecv : s.reorder.recv = x :: recv) (hnote : s.reorder.core.note x = some core)
      (hnext : x.sequence = core.next) :
      ReorderMove s { s with reorder := { s.reorder with
        recv := recv, received := s.reorder.received ++ [x], core := core, pc := .write x } }
  | hold (x : Chunk) (recv : List Chunk) (core core' : Core) (hpc : s.reorder.pc = .take)
      (hrecv : s.reorder.recv = x :: recv) (hnote : s.reorder.core.note x = some core)
      (hnext : x.sequence ≠ core.next) (hcache : core.cache x = some core') :
      ReorderMove s { s with reorder := { s.reorder with
        recv := recv, received := s.reorder.received ++ [x], core := core', pc := afterChunk recv } }
  | write (x : Chunk) (record : Record D κ) (table : Table Chunk D κ) (core core' : Core)
      (next : Option Chunk) (hpc : s.reorder.pc = .write x)
      (hwrite : writeChunkToFile digest s.table x = some (record, table))
      (hadv : s.reorder.core.advance = some core) (htake : core.takeNext = some (core', next)) :
      ReorderMove s { s with table := table, reorder := { s.reorder with
        core := core'
        pc := next.elim (afterChunk s.reorder.recv) .write
        written := s.reorder.written ++ [x]
        out := s.reorder.out ++ [record] } }
  | done (hpc : s.reorder.pc = .flush)
      (hmin : treeFindMin s.reorder.core.pmin s.reorder.core.tree = none) :
      ReorderMove s { s with reorder := { s.reorder with pc := .done } }
  | pick (x : Chunk) (core : Core) (hpc : s.reorder.pc = .flush)
      (htake : s.reorder.core.takeNext = some (core, some x)) :
      ReorderMove s { s with reorder := { s.reorder with core := core, pc := .flushWrite x } }
  | flush (x : Chunk) (record : Record D κ) (table : Table Chunk D κ) (core : Core)
      (hpc : s.reorder.pc = .flushWrite x)
      (hwrite : writeChunkToFile digest s.table x = some (record, table))
      (hadv : s.reorder.core.advance = some core) :
      ReorderMove s { s with table := table, reorder := { s.reorder with
        core := core
        pc := .flush
        written := s.reorder.written ++ [x]
        out := s.reorder.out ++ [record] } }

/-- How a step of `Reorder` fails. -/
inductive ReorderFault (s : State c D κ) : Crash → Prop
  | fetch (i : ℕ) (hpc : s.reorder.pc = .fetch i) (hclosed :
      (s.que (.reorder, s.reorder.qid)).nProducers < (s.que (.reorder, s.reorder.qid)).nTerminated) :
      ReorderFault s .overTerminated
  | note (x : Chunk) (recv : List Chunk) (hpc : s.reorder.pc = .take) (hrecv : s.reorder.recv = x :: recv)
      (hnote : s.reorder.core.note x = none) : ReorderFault s .chunksPerAnchor
  | cache (x : Chunk) (recv : List Chunk) (core : Core) (hpc : s.reorder.pc = .take)
      (hrecv : s.reorder.recv = x :: recv) (hnote : s.reorder.core.note x = some core)
      (hcache : core.cache x = none) : ReorderFault s .cache
  | advance (x : Chunk) (hpc : s.reorder.pc = .write x ∨ s.reorder.pc = .flushWrite x)
      (hadv : s.reorder.core.advance = none) : ReorderFault s .chunksPerAnchor
  | takeNext (x : Chunk) (core : Core) (hpc : s.reorder.pc = .write x)
      (hadv : s.reorder.core.advance = some core) (htake : core.takeNext = none) : ReorderFault s .cache
  | pick (hpc : s.reorder.pc = .flush) (htake : s.reorder.core.takeNext = none) : ReorderFault s .cache
  | mismatch (core : Core) (hpc : s.reorder.pc = .flush)
      (hmin : treeFindMin s.reorder.core.pmin s.reorder.core.tree ≠ none)
      (htake : s.reorder.core.takeNext = some (core, none)) : ReorderFault s .sequence

/-- Why `Reorder` takes no step. -/
inductive ReorderIdle (s : State c D κ) : Prop
  | done (hpc : s.reorder.pc = .done)
  | starved (i : ℕ) (hpc : s.reorder.pc = .fetch i) (hi : i < c.nqueues)
      (hque : (s.que (.reorder, s.reorder.qid)).Starved)
  | uncompressed (x : Chunk) (hpc : s.reorder.pc = .write x ∨ s.reorder.pc = .flushWrite x)
      (hstate : (s.table.chunk (s.table.original x)).state = .UNCOMPRESSED)

omit [DecidableEq D] in
theorem writeChunkToFile_eq_none {t : Table Chunk D κ} {x : Chunk}
    (h : writeChunkToFile digest t x = none) : (t.chunk (t.original x)).state = .UNCOMPRESSED := by
  unfold writeChunkToFile at h
  split at h
  · assumption
  · cases h
  · cases h

omit [DecidableEq D] in
theorem reorderStep_outcome (s : State c D κ) :
    Outcome s (ReorderMove digest s) (ReorderFault s) (ReorderIdle s) (reorderStep digest s) := by
  simp only [reorderStep]
  cases hpc : s.reorder.pc with
  | fetch i =>
    simp only
    split
    · rename_i hi
      rcases queueDequeue_cases itemPerFetch (s.que (.reorder, s.reorder.qid))
        with ⟨h, hque⟩ | ⟨h, hque⟩ | ⟨h, hque⟩ | ⟨h, hque⟩ <;> simp only [h]
      · exact .idle (.starved i hpc hi hque)
      · exact .move _ (.closed i hpc hi hque)
      · exact .fault _ (.fetch i hpc hque)
      · exact .move _ (.fetch i hpc hque)
    · exact .move _ (.exhausted i hpc (by omega))
  | take =>
    cases hrecv : s.reorder.recv with
    | nil => exact .move _ (by simpa only [hrecv] using ReorderMove.nothing hpc hrecv)
    | cons x recv =>
      simp only
      cases hnote : s.reorder.core.note x with
      | none => exact .fault _ (.note x recv hpc hrecv hnote)
      | some core =>
        simp only
        split
        · exact .move _ (.next x recv core hpc hrecv hnote ‹_›)
        · cases hcache : core.cache x with
          | none => exact .fault _ (.cache x recv core hpc hrecv hnote hcache)
          | some core' => exact .move _ (.hold x recv core core' hpc hrecv hnote ‹_› hcache)
  | write x =>
    simp only
    cases hwrite : writeChunkToFile digest s.table x with
    | none => exact .idle (.uncompressed x (.inl hpc) (writeChunkToFile_eq_none digest hwrite))
    | some r =>
      obtain ⟨record, table⟩ := r
      simp only [Option.map_some]
      cases hadv : s.reorder.core.advance with
      | none => exact .fault _ (.advance x (.inl hpc) hadv)
      | some core =>
        simp only
        cases htake : core.takeNext with
        | none => exact .fault _ (.takeNext x core hpc hadv htake)
        | some r =>
          obtain ⟨core', next⟩ := r
          have hmove := ReorderMove.write x record table core core' next hpc hwrite hadv htake
          cases next with
          | none => exact .move _ hmove
          | some y => exact .move _ hmove
  | flush =>
    simp only
    cases hmin : treeFindMin s.reorder.core.pmin s.reorder.core.tree with
    | none => exact .move _ (.done hpc hmin)
    | some kq =>
      simp only
      cases htake : s.reorder.core.takeNext with
      | none => exact .fault _ (.pick hpc htake)
      | some r =>
        obtain ⟨core, next⟩ := r
        cases next with
        | none => exact .fault _ (.mismatch core hpc (by rw [hmin]; exact nofun) htake)
        | some x => exact .move _ (.pick x core hpc htake)
  | flushWrite x =>
    simp only
    cases hwrite : writeChunkToFile digest s.table x with
    | none => exact .idle (.uncompressed x (.inr hpc) (writeChunkToFile_eq_none digest hwrite))
    | some r =>
      obtain ⟨record, table⟩ := r
      simp only [Option.map_some]
      cases hadv : s.reorder.core.advance with
      | none => exact .fault _ (.advance x (.inr hpc) hadv)
      | some core => exact .move _ (.flush x record table core hpc hwrite hadv)
  | done => exact .idle (.done hpc)

/-! ### The system -/

/-- The moves of all threads. -/
def Move (s : State c D κ) : Thread c → State c D κ → Prop
  | .fragment => FragmentMove s
  | .worker k => WorkerMove p digest packed s k
  | .reorder => ReorderMove digest s

/-- How a step of a thread fails. -/
def Fault (s : State c D κ) : Thread c → Crash → Prop
  | .fragment => FragmentFault s
  | .worker k => WorkerFault p digest packed s k
  | .reorder => ReorderFault s

/-- Why a thread takes no step. -/
def Idle (s : State c D κ) : Thread c → Prop
  | .fragment => FragmentIdle s
  | .worker k => WorkerIdle s k
  | .reorder => ReorderIdle s

theorem step_outcome {s : State c D κ} (hs : s.crash = none) (t : Thread c) :
    Outcome s (Move p digest packed s t) (Fault p digest packed s t) (Idle s t)
      (step p digest packed s t) := by
  unfold step
  rw [if_pos hs]
  cases t with
  | fragment => exact fragmentStep_outcome s
  | worker k => exact workerStep_outcome p digest packed s k
  | reorder => exact reorderStep_outcome digest s

/-- A step of a run: the process has not stopped before it. -/
theorem step_cases {s s' : State c D κ} {t : Thread c} (h : step p digest packed s t = some s') :
    s.crash = none ∧ (Move p digest packed s t s' ∨ ∃ e, Fault p digest packed s t e ∧ s' = s.fail e) := by
  have hs : s.crash = none := by
    by_contra hs
    unfold step at h
    rw [if_neg hs] at h
    cases h
  have hout := step_outcome p digest packed hs t
  rw [h] at hout
  cases hout with
  | move _ hm => exact ⟨hs, .inl hm⟩
  | fault e hf => exact ⟨hs, .inr ⟨e, hf, rfl⟩⟩

end Workers

end Turkey.Pipeline
