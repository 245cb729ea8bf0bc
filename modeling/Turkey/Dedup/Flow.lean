import Mathlib.Algebra.Order.BigOperators.Group.Multiset
import Mathlib.Data.Multiset.Bind
import Turkey.Dedup.Lanes
import Turkey.Schemes.Tally

/-! Where the chunks are. Each chunk between `Fragment` and `Reorder` is bound for one queue: it is in a
    send buffer for it, in the queue itself, or in the receive buffer of a thread that reads it. Moving a
    chunk along does not change what it is bound for; `FragmentRefine`, `Deduplicate` and `Compress`
    replace one chunk by those they make of it, and `Reorder` takes one out. So the fine chunks that are
    under way and those that `Reorder` has received always make up the file. -/

namespace Turkey.Pipeline
open Turkey.Run
open Turkey.Reorder (Chunk Core Plan)
open Turkey.Archive (Table Record)

variable {c : Config} {D κ : Type*}

/-- The chunks of a buffer that are bound for queue `f`. -/
def tag (f : Que) (xs : List Chunk) : Multiset (Que × Chunk) := xs.map (Prod.mk f)

@[simp] theorem tag_nil (f : Que) : tag f [] = 0 := rfl

@[simp] theorem tag_append (f : Que) (xs ys : List Chunk) : tag f (xs ++ ys) = tag f xs + tag f ys := by
  simp [tag]

theorem tag_cons (f : Que) (x : Chunk) (xs : List Chunk) : tag f (x :: xs) = {(f, x)} + tag f xs := rfl

theorem tag_take_drop (f : Que) (xs : List Chunk) (n : ℕ) :
    tag f (xs.take n) + tag f (xs.drop n) = tag f xs := by
  rw [← tag_append, List.take_append_drop]

/-- The chunks that a thread of a pool has, each with the queue it belongs to next. -/
def Worker.holding (P : Pool) (w : Worker) : Multiset (Que × Chunk) :=
  w.work + ∑ f, tag f (w.send f) + tag P.input w.recv

/-- The chunks that `Fragment` has. -/
def FragmentThread.holding (t : FragmentThread c) : Multiset (Que × Chunk) :=
  tag .refine t.todo + tag .refine t.sendBuf

/-- All chunks that have not been taken by `Reorder`. -/
def State.inFlight (s : State c D κ) : Multiset (Que × Chunk) :=
  ∑ l, tag l.1 (s.que l).buf + ∑ k, (s.worker k).holding k.1 + s.fragment.holding +
    tag .reorder s.reorder.recv

section Moves
variable {s s' : State c D κ}

theorem inFlight_setQue (s : State c D κ) (l : Que × Fin c.nqueues) (q : Queue) :
    (s.setQue l q).inFlight + tag l.1 (s.que l).buf = s.inFlight + tag l.1 q.buf := by
  have hsum := Tally.sum_update (fun l q => tag l.1 (Queue.buf q)) s.que l q
  ext y
  replace hsum := congrArg (Multiset.count y) hsum
  simp only [State.inFlight, State.setQue, Multiset.count_add] at hsum ⊢
  omega

theorem inFlight_setWorker (s : State c D κ) (k : Pool × Fin c.nthreads) (w : Worker) :
    (s.setWorker k w).inFlight + (s.worker k).holding k.1 = s.inFlight + w.holding k.1 := by
  have hsum := Tally.sum_update (fun k w => Worker.holding k.1 w) s.worker k w
  ext y
  replace hsum := congrArg (Multiset.count y) hsum
  simp only [State.inFlight, State.setWorker, Multiset.count_add] at hsum ⊢
  omega

theorem holding_send (P : Pool) (w : Worker) (f : Que) (xs : List Chunk) (pc : WorkerPc) :
    Worker.holding P { w with send := Function.update w.send f xs, pc := pc } + tag f (w.send f) =
      w.holding P + tag f xs := by
  have hsum := Tally.sum_update tag w.send f xs
  ext y
  replace hsum := congrArg (Multiset.count y) hsum
  simp only [Worker.holding, Multiset.count_add] at hsum ⊢
  omega

theorem inFlight_fragment (h : FragmentMove s s') : s'.inFlight = s.inFlight := by
  cases h with
  | insert x todo hpc htodo hroom =>
    simp only [State.inFlight, FragmentThread.holding, htodo, hroom, tag_cons, tag_nil, add_zero,
      add_comm (tag .refine todo)]
  | finish => rfl
  | send pc n hpc hn hopen =>
    have hque := inFlight_setQue s (.refine, s.fragment.qid)
      ((s.que (.refine, s.fragment.qid)).push s.fragment.sendBuf n)
    have hsplit := tag_take_drop .refine s.fragment.sendBuf n
    ext y
    replace hque := congrArg (Multiset.count y) hque
    replace hsplit := congrArg (Multiset.count y) hsplit
    simp only [State.inFlight, State.setQue, FragmentThread.holding, Queue.push, tag_append,
      Multiset.count_add] at hque hsplit ⊢
    omega
  | drained => rfl
  | terminate i hpc hopen =>
    have hque := inFlight_setQue s (.refine, i) (s.que (.refine, i)).close
    exact add_right_cancel hque
  | done => rfl

/-- Putting one chunk of `work` into a send buffer. -/
theorem holding_emit (P : Pool) (w : Worker) {f : Que} {x : Chunk} {work : List (Que × Chunk)}
    (hwork : w.work = (f, x) :: work) (pc : WorkerPc) :
    Worker.holding P { w with work := work, send := Function.update w.send f (w.send f ++ [x]), pc := pc } =
      w.holding P := by
  have hsend := holding_send P { w with work := work } f (w.send f ++ [x]) pc
  ext y
  replace hsend := congrArg (Multiset.count y) hsend
  simp only [Worker.holding, hwork, tag_append, tag_cons, tag_nil, add_zero, ← Multiset.cons_coe,
    ← Multiset.singleton_add, Multiset.count_add] at hsend ⊢
  omega

section Workers
variable [DecidableEq D] {p : Plan} {digest : Chunk → D} {packed : Chunk → κ}

/-- Only the kernels change what is under way. -/
theorem inFlight_worker {k : Pool × Fin c.nthreads} (hw : (s.worker k).Tidy k.1)
    (h : WorkerMove p digest packed s k s') :
    (s'.inFlight = s.inFlight ∧ s'.table = s.table) ∨
      ∃ x work, k.1.process p digest packed s.table x = some (work, s'.table) ∧
        s'.inFlight + {(k.1.input, x)} = s.inFlight + (work : Multiset (Que × Chunk)) := by
  cases h with
  | fetch hpc hrecv hbuf =>
    have hque := inFlight_setQue s (k.1.input, c.qid k.2)
      ((s.que (k.1.input, c.qid k.2)).pop k.1.perFetch)
    have hworker := inFlight_setWorker (s.setQue (k.1.input, c.qid k.2)
      ((s.que (k.1.input, c.qid k.2)).pop k.1.perFetch)) k
      { s.worker k with recv := (s.que (k.1.input, c.qid k.2)).buf.take k.1.perFetch }
    have hsplit := tag_take_drop k.1.input (s.que (k.1.input, c.qid k.2)).buf k.1.perFetch
    refine .inl ⟨?_, rfl⟩
    ext y
    replace hque := congrArg (Multiset.count y) hque
    replace hworker := congrArg (Multiset.count y) hworker
    replace hsplit := congrArg (Multiset.count y) hsplit
    simp only [Worker.holding, State.setQue, Queue.pop, hrecv, tag_nil, add_zero,
      Multiset.count_add] at hque hworker hsplit ⊢
    omega
  | close => exact .inl ⟨add_right_cancel (inFlight_setWorker s k _), rfl⟩
  | process x recv work table hpc hrecv hproc =>
    have hworker := inFlight_setWorker { s with table := table } k
      { s.worker k with recv := recv, work := work, pc := .emit }
    have hidle : (s.worker k).work = [] := by
      have hat := hw.atPc
      rw [Worker.AtPc, hpc] at hat
      exact hat.1
    refine .inr ⟨x, work, hproc, ?_⟩
    ext y
    replace hworker := congrArg (Multiset.count y) hworker
    simp only [Worker.holding, hrecv, hidle, tag_cons, Multiset.coe_nil, zero_add,
      Multiset.count_add] at hworker ⊢
    have hsame : Multiset.count y { s with table := table }.inFlight = Multiset.count y s.inFlight := rfl
    omega
  | rest => exact .inl ⟨add_right_cancel (inFlight_setWorker s k _), rfl⟩
  | emit f x work hpc hwork hroom =>
    have hworker := inFlight_setWorker s k { s.worker k with
      work := work
      send := Function.update (s.worker k).send f ((s.worker k).send f ++ [x])
      pc := if ((s.worker k).send f).length + 1 = itemPerInsert then .enqueue f else .emit }
    rw [holding_emit k.1 (s.worker k) hwork] at hworker
    exact .inl ⟨add_right_cancel hworker, rfl⟩
  | send f pc n hpc hn hsend hopen =>
    have hque := inFlight_setQue s (f, c.qid k.2)
      ((s.que (f, c.qid k.2)).push ((s.worker k).send f) n)
    have hworker := inFlight_setWorker (s.setQue (f, c.qid k.2)
      ((s.que (f, c.qid k.2)).push ((s.worker k).send f) n)) k { s.worker k with
        send := Function.update (s.worker k).send f (((s.worker k).send f).drop n), pc := pc }
    have hhold := holding_send k.1 (s.worker k) f (((s.worker k).send f).drop n) pc
    have hsplit := tag_take_drop f ((s.worker k).send f) n
    refine .inl ⟨?_, rfl⟩
    ext y
    replace hque := congrArg (Multiset.count y) hque
    replace hworker := congrArg (Multiset.count y) hworker
    replace hhold := congrArg (Multiset.count y) hhold
    replace hsplit := congrArg (Multiset.count y) hsplit
    simp only [State.setQue, Queue.push, tag_append, Multiset.count_add] at hque hworker hhold hsplit ⊢
    omega
  | skip => exact .inl ⟨add_right_cancel (inFlight_setWorker s k _), rfl⟩
  | terminate hpc hopen =>
    refine .inl ⟨?_, rfl⟩
    have hque := inFlight_setQue s (k.1.terminates, c.qid k.2)
      (s.que (k.1.terminates, c.qid k.2)).close
    have hworker := inFlight_setWorker (s.setQue (k.1.terminates, c.qid k.2)
      (s.que (k.1.terminates, c.qid k.2)).close) k { s.worker k with pc := .done }
    exact (add_right_cancel hworker).trans (add_right_cancel hque)

end Workers

/-- `Reorder` takes chunks out, one by one. -/
theorem inFlight_reorder {digest : Chunk → D} (hat : ReorderAtPc s) (h : ReorderMove digest s s') :
    (s'.inFlight = s.inFlight ∧ s'.reorder.received = s.reorder.received) ∨
      ∃ x, s.inFlight = {(.reorder, x)} + s'.inFlight ∧
        s'.reorder.received = s.reorder.received ++ [x] := by
  have htake : ∀ {x : Chunk} {recv : List Chunk} {r : ReorderThread c D κ}, s.reorder.recv = x :: recv →
      r.recv = recv → s.inFlight = {(.reorder, x)} + ({ s with reorder := r } : State c D κ).inFlight := by
    intro x recv r hrecv hr
    simp only [State.inFlight, hrecv, hr, tag_cons]
    exact add_left_comm _ _ _
  cases h with
  | fetch i hpc hbuf =>
    rw [ReorderAtPc, hpc] at hat
    have hque := inFlight_setQue s (.reorder, s.reorder.qid)
      ((s.que (.reorder, s.reorder.qid)).pop itemPerFetch)
    have hsplit := tag_take_drop .reorder (s.que (.reorder, s.reorder.qid)).buf itemPerFetch
    refine .inl ⟨?_, rfl⟩
    ext y
    replace hque := congrArg (Multiset.count y) hque
    replace hsplit := congrArg (Multiset.count y) hsplit
    simp only [State.inFlight, State.setQue, Queue.pop, hat.1, tag_nil, add_zero,
      Multiset.count_add] at hque hsplit ⊢
    omega
  | closed => exact .inl ⟨rfl, rfl⟩
  | exhausted => exact .inl ⟨rfl, rfl⟩
  | nothing => exact .inl ⟨rfl, rfl⟩
  | next x recv core hpc hrecv hnote hnext => exact .inr ⟨x, htake hrecv rfl, rfl⟩
  | hold x recv core core' hpc hrecv hnote hnext hcache => exact .inr ⟨x, htake hrecv rfl, rfl⟩
  | write => exact .inl ⟨rfl, rfl⟩
  | done => exact .inl ⟨rfl, rfl⟩
  | pick => exact .inl ⟨rfl, rfl⟩
  | flush => exact .inl ⟨rfl, rfl⟩

end Moves

/-! ### Nothing is lost and nothing is added -/

/-- The fine chunks that a chunk under way stands for. -/
def fineChunks (p : Plan) : Que × Chunk → Multiset Chunk
  | (.refine, x) => p.row x.l1num 0
  | (_, x) => {x}

/-- The fine chunks that are under way and those that `Reorder` has received make up the file. -/
def Conserved (p : Plan) (s : State c D κ) : Prop :=
  s.inFlight.bind (fineChunks p) + s.reorder.received = p.file

theorem inFlight_new (p : Plan) : (State.new c p : State c D κ).inFlight =
    tag .refine ((List.range p.coarse).map coarseChunk) := by
  have hque : ∀ l : Que × Fin c.nqueues, tag l.1 ((State.new c p : State c D κ).que l).buf = 0 := by
    rintro ⟨f, q⟩
    cases f <;> rfl
  have hworker : ∀ k : Pool × Fin c.nthreads,
      Worker.holding k.1 ((State.new c p : State c D κ).worker k) = 0 := by
    intro k
    simp [Worker.holding, State.new]
  simp only [State.inFlight, hque, hworker, Finset.sum_const_zero, zero_add]
  simp [State.new, FragmentThread.holding]

theorem conserved_new (p : Plan) : Conserved p (State.new c p : State c D κ) := by
  unfold Conserved
  rw [inFlight_new]
  have hrow : ∀ l, (fineChunks p (.refine, coarseChunk l)) =
      (((List.range (p.fine l)).map (p.chunk l) : List Chunk) : Multiset Chunk) := by
    intro l
    simp only [fineChunks, coarseChunk, Plan.row, Nat.sub_zero, List.range_eq_range']
  simp only [tag, List.map_map, State.new, Multiset.coe_nil, add_zero, Plan.file]
  rw [← Multiset.map_coe, Multiset.bind_map, ← Multiset.coe_bind]
  exact Multiset.bind_congr fun l _ => hrow l

section Conserved
variable [DecidableEq D] {p : Plan} {digest : Chunk → D} {packed : Chunk → κ} {s s' : State c D κ}

/-- A kernel makes of a chunk what the chunk stands for. -/
theorem process_fineChunks {P : Pool} {t table : Table Chunk D κ} {x : Chunk}
    {work : List (Que × Chunk)} (h : P.process p digest packed t x = some (work, table)) :
    (work : Multiset (Que × Chunk)).bind (fineChunks p) = fineChunks p (P.input, x) := by
  cases P with
  | FragmentRefine =>
    simp only [Pool.process, Option.some.injEq, Prod.mk.injEq] at h
    obtain ⟨rfl, -⟩ := h
    rw [← Multiset.map_coe, Multiset.bind_map]
    exact Multiset.bind_singleton _ _ |>.trans (Multiset.map_id _)
  | Deduplicate =>
    simp only [Pool.process, Option.some.injEq, Prod.mk.injEq] at h
    obtain ⟨rfl, -⟩ := h
    rw [Multiset.coe_singleton, Multiset.singleton_bind]
    split <;> rfl
  | Compress =>
    simp only [Pool.process, Option.map_eq_some_iff, Prod.mk.injEq] at h
    obtain ⟨t', -, rfl, -⟩ := h
    rw [Multiset.coe_singleton, Multiset.singleton_bind]
    rfl

theorem conserved_move {t : Thread c} (h : Conserved p s) (ho : Orderly s)
    (hm : Move p digest packed s t s') : Conserved p s' := by
  unfold Conserved at h ⊢
  cases t with
  | fragment =>
    have hreorder : s'.reorder = s.reorder := by cases hm <;> rfl
    rw [inFlight_fragment hm, hreorder, h]
  | worker k =>
    have hreorder : s'.reorder = s.reorder := by cases hm <;> rfl
    rw [hreorder, ← h, add_left_inj]
    rcases inFlight_worker (ho.tidy k) hm with ⟨hsame, -⟩ | ⟨x, work, hproc, hflow⟩
    · rw [hsame]
    · have hbind := congrArg (Multiset.bind · (fineChunks p)) hflow
      simp only [Multiset.add_bind, Multiset.singleton_bind, process_fineChunks hproc] at hbind
      exact add_right_cancel hbind
  | reorder =>
    rcases inFlight_reorder ho.reorder hm with ⟨hsame, hrecv⟩ | ⟨x, hflow, hrecv⟩
    · rw [hsame, hrecv, h]
    · rw [hflow, Multiset.add_bind, Multiset.singleton_bind] at h
      rw [hrecv, ← h, ← Multiset.coe_add, add_comm (fineChunks p _), add_assoc, add_comm (fineChunks p _)]
      rfl

theorem conserved_exec {ts : List (Thread c)}
    (hs : exec (step p digest packed) (State.new c p) ts = some s) : Conserved p s := by
  refine (exec_inv (I := fun s => Orderly s ∧ Conserved p s) ?_ ⟨orderly_new p, conserved_new p⟩ hs).2
  rintro s t s' ⟨ho, h⟩ hstep
  refine ⟨orderly_step ho hstep, ?_⟩
  obtain ⟨-, hm | ⟨e, -, rfl⟩⟩ := step_cases p digest packed hstep
  · exact conserved_move h ho hm
  · exact h

/-! ### When the reorder queues are closed -/

omit [DecidableEq D] in
/-- A thread that has returned has emptied its queue and its buffers. -/
theorem Orderly.returned (h : Orderly s) {k : Pool × Fin c.nthreads} (hk : (s.worker k).pc = .done) :
    (s.worker k).holding k.1 = 0 ∧ (s.que (k.1.input, c.qid k.2)).Closed := by
  have hat := (h.tidy k).atPc
  rw [Worker.AtPc, hk] at hat
  refine ⟨?_, h.counted.leaving k (.inl hk)⟩
  simp [Worker.holding, hat.1, hat.2.1, hat.2.2]

/-- Every queue is used by some thread of each pool. -/
theorem exists_qid (q : Fin c.nqueues) : ∃ i, c.qid i = q := by
  have hq := q.isLt
  have hlt : 4 * (q : ℕ) < c.nthreads := by
    unfold Config.nqueues maxThreadsPerQueue at hq
    split at hq <;> omega
  exact ⟨⟨4 * q, hlt⟩, Fin.ext (by change 4 * (q : ℕ) / 4 = q; omega)⟩

omit [DecidableEq D] in
/-- Behind closed reorder queues every thread of the pools has returned: the queues are closed one stage
    after the other. -/
theorem Orderly.all_returned (h : Orderly s) (hclosed : ∀ q, (s.que (.reorder, q)).Closed)
    (k : Pool × Fin c.nthreads) : (s.worker k).pc = .done := by
  obtain ⟨P, i⟩ := k
  have hcompress := h.counted.done_of_terminated (P := .Compress) (hclosed (c.qid i)).2
  have hdedup := h.counted.done_of_terminated (P := .Deduplicate) (h.returned hcompress).2.2
  have hrefine := h.counted.done_of_terminated (P := .FragmentRefine) (h.returned hdedup).2.2
  cases P with
  | FragmentRefine => exact hrefine
  | Deduplicate => exact hdedup
  | Compress => exact hcompress

omit [DecidableEq D] in
/-- Closed refine queues have been terminated by `Fragment`, which has then sent everything. -/
theorem Orderly.fragment_holding (h : Orderly s) (hclosed : ∀ q, (s.que (.refine, q)).Closed) :
    s.fragment.holding = 0 := by
  have hterm := (hclosed c.firstQid).2
  rw [h.counted.anchors, h.counted.anchored] at hterm
  have hat := h.fragment
  unfold FragmentThread.AtPc at hat
  unfold FragmentThread.closedUpTo at hterm
  cases hpc : s.fragment.pc with
  | terminate i =>
    rw [hpc] at hat
    simp [FragmentThread.holding, hat.1, hat.2.1]
  | done =>
    rw [hpc] at hat
    simp [FragmentThread.holding, hat.1, hat.2]
  | split => simp [hpc] at hterm
  | enqueue => simp [hpc] at hterm
  | drain => simp [hpc] at hterm

omit [DecidableEq D] in
/-- Nothing is under way behind closed reorder queues. -/
theorem Orderly.inFlight_eq_zero (h : Orderly s) (hclosed : ∀ q, (s.que (.reorder, q)).Closed)
    (hrecv : s.reorder.recv = []) : s.inFlight = 0 := by
  have hdone := h.all_returned hclosed
  have hque : ∀ l, (s.que l).Closed := by
    rintro ⟨f, q⟩
    obtain ⟨i, rfl⟩ := exists_qid q
    cases f with
    | refine => exact (h.returned (hdone (.FragmentRefine, i))).2
    | deduplicate => exact (h.returned (hdone (.Deduplicate, i))).2
    | compress => exact (h.returned (hdone (.Compress, i))).2
    | reorder => exact hclosed _
  simp only [State.inFlight, (hque _).1, tag_nil, (h.returned (hdone _)).1, hrecv,
    h.fragment_holding fun q => hque _, Finset.sum_const_zero, add_zero]

omit [DecidableEq D] in
theorem Orderly.closed_of_done (h : Orderly s) (hpc : s.reorder.pc = .done) :
    s.reorder.recv = [] ∧ ∀ q, (s.que (.reorder, q)).Closed := by
  have hat := h.reorder
  rwa [ReorderAtPc, hpc] at hat

/-- CORRECT: in every run no assertion about a terminated queue fails, the queues that threads use exist
    and count the threads that terminate them, and when all threads have returned `Reorder` has received
    each fine chunk of the file exactly once. -/
theorem chunks_received_once (c : Config) (p : Plan) (digest : Chunk → D) (packed : Chunk → κ)
    (ts : List (Thread c)) (s : State c D κ)
    (hs : exec (step p digest packed) (State.new c p) ts = some s) :
    s.crash ≠ some .enqueueTerminated ∧ s.crash ≠ some .overTerminated ∧
    (∀ l, (s.que l).nTerminated ≤ (s.que l).nProducers) ∧
    (∀ tid < c.nthreads, tid / maxThreadsPerQueue < c.nqueues) ∧
    (∀ q, (s.que (.refine, q)).nProducers = 1) ∧
    (∀ (P : Pool) (q : Fin c.nqueues), (s.que (P.terminates, q)).nProducers =
      (Finset.univ.filter fun tid : Fin c.nthreads => (tid : ℕ) / maxThreadsPerQueue = q).card) ∧
    ((∀ t, s.Finished t) → s.reorder.received.Perm p.file ∧ s.reorder.received.Nodup) := by
  have ho := orderly_exec hs
  refine ⟨fun h => ?_, fun h => ?_, ho.counted.bounded, fun _ => c.div_lt_nqueues, ho.counted.anchors,
    fun P q => ?_, fun hall => ?_⟩
  · cases ho.crash _ h
  · cases ho.crash _ h
  · rw [ho.counted.producers, Config.tids]
    refine congrArg Finset.card (Finset.filter_congr fun tid _ => ?_)
    exact Fin.ext_iff
  · have hcons := conserved_exec hs
    obtain ⟨hrecv, hclosed⟩ := ho.closed_of_done (hall .reorder)
    rw [Conserved, ho.inFlight_eq_zero hclosed hrecv, Multiset.zero_bind, zero_add] at hcons
    have hperm := Multiset.coe_eq_coe.mp hcons
    exact ⟨hperm, hperm.nodup_iff.mpr p.file_nodup⟩

/-- Five threads in each pool, so that the second queue is used by one thread of each; two coarse chunks
    with three fine chunks of the same data. -/
theorem chunks_received_once_five :
    let c : Config := ⟨5, 20, by decide, by decide⟩
    let p : Plan := ⟨2, fun l => 2 - l, fun l h => by omega⟩
    let w (P : Pool) (i : Fin 5) (n : ℕ) : List (Thread c) := List.replicate n (.worker (P, i))
    let ts : List (Thread c) := List.replicate 9 .fragment ++
      (w .FragmentRefine 0 9 ++ w .FragmentRefine 1 3 ++ w .FragmentRefine 2 3 ++ w .FragmentRefine 3 3 ++
        w .FragmentRefine 4 8) ++
      (w .Deduplicate 0 13 ++ w .Deduplicate 1 4 ++ w .Deduplicate 2 4 ++ w .Deduplicate 3 4 ++
        w .Deduplicate 4 9) ++
      (w .Compress 0 8 ++ w .Compress 1 3 ++ w .Compress 2 3 ++ w .Compress 3 3 ++ w .Compress 4 3) ++
      List.replicate 12 .reorder
    ∃ s, exec (step p (fun _ => 7) (fun x => x.l1num)) (State.new c p : State c ℕ ℕ) ts = some s ∧
      (∀ t, s.Finished t) ∧ s.reorder.received.Perm p.file ∧ s.reorder.received.Nodup := by
  intro c p w ts
  obtain ⟨s, hs, hall⟩ : ∃ s ∈ exec (step p (fun _ => 7) fun x => x.l1num) (State.new c p : State c ℕ ℕ) ts,
      ∀ t, s.Finished t := by
    decide +kernel +revert
  exact ⟨s, hs, hall, (chunks_received_once c p _ _ ts s hs).2.2.2.2.2.2 hall⟩

end Conserved

end Turkey.Pipeline
