import Turkey.Dedup.Simulation

/-! The `Reorder` stage of the pthread encoder by itself. It reads the reorder queues in turn and waits on
    an empty one until a chunk comes or its producers have terminated. Here the other stages are whatever
    supplies these queues: the chunks of a complete set come in any order, each into the queue that has
    it in its share of the set, and the last producer of a queue terminates once its share has come. -/

namespace Turkey.Pipeline
open Turkey.Run
open Turkey.Reorder (Chunk Core Plan InSeq Writing Roomy)
open Turkey.Archive (Table Record writeChunkToFile)

variable {c : Config} {D κ : Type*}

/-- The stage and its queues, and the chunks that have not come yet. -/
structure Feed (c : Config) (D κ : Type*) where
  state : State c D κ
  pending : List Chunk

inductive Supply (c : Config) where
  | arrive (x : Chunk)
  | terminate (q : Fin c.nqueues)
  | reorder

/-- No other stage has anything to do. -/
def emptyPlan : Plan := ⟨0, fun _ => 0, nofun⟩

/-- `table` is what the other stages have made of the chunks. -/
def Feed.new (c : Config) (p : Plan) (table : Table Chunk D κ) : Feed c D κ :=
  ⟨{ State.new c emptyPlan with table := table }, p.file⟩

/-- The data of every chunk has come or has been written: `write_chunk_to_file` does not wait. -/
def Ready (table : Table Chunk D κ) : Prop := ∀ x, (table.chunk x).state ≠ .UNCOMPRESSED

/-- `share` says which queue a chunk comes into. -/
def feedStep (share : Chunk → Fin c.nqueues) (digest : Chunk → D) (s : Feed c D κ) :
    Supply c → Option (Feed c D κ)
  | .arrive x =>
    let q := s.state.que (.reorder, share x)
    if x ∈ s.pending ∧ q.buf.length < c.queueSize ∧ q.nTerminated < q.nProducers then
      some ⟨s.state.setQue (.reorder, share x) (q.push [x] 1), s.pending.erase x⟩
    else none
  | .terminate i =>
    let q := s.state.que (.reorder, i)
    if q.nTerminated + 1 < q.nProducers ∨ ∀ x ∈ s.pending, share x ≠ i then
      (queueTerminate q).map fun q => { s with state := s.state.setQue (.reorder, i) q }
    else none
  | .reorder =>
    if s.state.crash = none then (reorderStep digest s.state).map fun state => { s with state := state }
    else none

/-! ### What is in the queues -/

/-- The chunks in the reorder queues. -/
def State.queued (s : State c D κ) : Multiset Chunk := ∑ q, ((s.que (.reorder, q)).buf : Multiset Chunk)

/-- The calls of `queue_terminate` that are still to come. -/
def State.producing (s : State c D κ) : ℕ :=
  ∑ q, ((s.que (.reorder, q)).nProducers - (s.que (.reorder, q)).nTerminated)

section Queues
variable {M : Type*} [AddCommMonoid M]

theorem sum_setQue (F : Queue → M) (s : State c D κ) (i : Fin c.nqueues) (q : Queue) :
    ∑ k, F ((s.setQue (.reorder, i) q).que (.reorder, k)) + F (s.que (.reorder, i)) =
      ∑ k, F (s.que (.reorder, k)) + F q := by
  have hinj : Function.Injective (Prod.mk Que.reorder : Fin c.nqueues → _) := Prod.mk_right_injective _
  have hupdate := Function.update_comp_eq_of_injective s.que hinj i q
  have hsum := Tally.sum_update (fun _ => F) (s.que ∘ Prod.mk Que.reorder) i q
  rw [← hupdate] at hsum
  exact hsum

end Queues

/-- A move of `Reorder` takes the chunks from the queue it reads to the receive buffer, and from there to
    those it has received. -/
theorem reorder_account {digest : Chunk → D} {s s' : State c D κ} (hat : ReorderAtPc s)
    (h : ReorderMove digest s s') :
    s'.queued + s'.reorder.recv + s'.reorder.received = s.queued + s.reorder.recv + s.reorder.received := by
  cases h with
  | fetch i hpc hbuf =>
    rw [ReorderAtPc, hpc] at hat
    have hsum := sum_setQue (fun q => (q.buf : Multiset Chunk)) s s.reorder.qid
      ((s.que (.reorder, s.reorder.qid)).pop itemPerFetch)
    have hsplit : ((s.que (.reorder, s.reorder.qid)).buf.take itemPerFetch : Multiset Chunk) +
        (s.que (.reorder, s.reorder.qid)).buf.drop itemPerFetch = (s.que (.reorder, s.reorder.qid)).buf := by
      rw [Multiset.coe_add, List.take_append_drop]
    ext y
    replace hsum := congrArg (Multiset.count y) hsum
    replace hsplit := congrArg (Multiset.count y) hsplit
    simp only [State.queued, State.setQue, Queue.pop, hat.1, Multiset.count_add, Multiset.coe_nil,
      Multiset.count_zero] at hsum hsplit ⊢
    omega
  | closed => rfl
  | exhausted => rfl
  | nothing => rfl
  | next x recv core hpc hrecv hnote hnext =>
    simp only [State.queued, hrecv, coe_concat, ← Multiset.cons_coe, Multiset.add_cons, Multiset.cons_add]
  | hold x recv core core' hpc hrecv hnote hnext hcache =>
    simp only [State.queued, hrecv, coe_concat, ← Multiset.cons_coe, Multiset.add_cons, Multiset.cons_add]
  | write => rfl
  | done => rfl
  | pick => rfl
  | flush => rfl

/-! ### The invariant -/

/-- The chunks are pending, in a queue, in the receive buffer or received; a queue whose producers have
    all terminated has got its share; and `Reorder` writes what it has received in sequence. -/
structure Fed (p : Plan) (share : Chunk → Fin c.nqueues) (s : Feed c D κ) : Prop where
  atPc : ReorderAtPc s.state
  inOrder : InOrder p s.state.reorder
  roomy : Roomy s.state.reorder.received s.state.reorder.core
  conserved : (s.pending : Multiset Chunk) +
    (s.state.queued + s.state.reorder.recv + s.state.reorder.received) = p.file
  terminated : ∀ q, (s.state.que (.reorder, q)).nTerminated ≤ (s.state.que (.reorder, q)).nProducers
  supplied : ∀ q, (s.state.que (.reorder, q)).nTerminated = (s.state.que (.reorder, q)).nProducers →
    ∀ x ∈ s.pending, share x ≠ q
  crash : s.state.crash = none

section Fed
variable {p : Plan} {share : Chunk → Fin c.nqueues} {digest : Chunk → D} {table : Table Chunk D κ}
  {s s' : Feed c D κ}

theorem threadsPerQueue_pos (i : ℕ) : 0 < c.threadsPerQueue i := by
  unfold Config.threadsPerQueue maxThreadsPerQueue
  split <;> omega

theorem fed_new : Fed p share (Feed.new c p table) where
  atPc := ⟨rfl, fun _ ⟨j, hj, _⟩ => absurd hj (Nat.not_lt_zero j)⟩
  inOrder := ⟨0, Reorder.inSeq_new p⟩
  roomy := ⟨le_rfl, nofun⟩
  conserved := by
    have hqueued : (Feed.new c p table).state.queued = 0 :=
      Finset.sum_eq_zero fun q _ => rfl
    rw [hqueued]
    exact add_zero _
  terminated _ := Nat.zero_le _
  supplied q h := absurd h (threadsPerQueue_pos q).ne
  crash := rfl

/-- What `Reorder` has in its buffer continues what it has received. -/
theorem Fed.recv_le (h : Fed p share s) (x : Chunk) (hx : x ∈ s.state.reorder.recv) :
    x ::ₘ (s.state.reorder.received : Multiset Chunk) ≤ p.file := by
  rw [← h.conserved, ← Multiset.singleton_add]
  refine le_trans (add_le_add_left ?_ _) (Multiset.le_add_left _ _)
  exact le_trans (Multiset.singleton_le.mpr hx) (Multiset.le_add_left _ _)

/-- Behind the main loop everything has come and has been written, and the tree is empty. -/
theorem Fed.flushed (h : Fed p share s)
    (hpc : s.state.reorder.pc = .flush ∨ s.state.reorder.pc = .done) :
    s.state.reorder.written = p.file ∧ s.state.reorder.core.pmin = none ∧
      s.state.reorder.core.tree = .nil := by
  have hat := h.atPc
  have hord := h.inOrder
  obtain ⟨⟨hrecv, hclosed⟩, cached, hseq⟩ :
      (s.state.reorder.recv = [] ∧ ∀ q, (s.state.que (.reorder, q)).Closed) ∧
      ∃ cached, InSeq p s.state.reorder.received cached s.state.reorder.written s.state.reorder.core := by
    rcases hpc with hpc | hpc
    · rw [ReorderAtPc, hpc] at hat
      rw [InOrder, hpc] at hord
      exact ⟨hat, hord⟩
    · rw [ReorderAtPc, hpc] at hat
      rw [InOrder, hpc] at hord
      exact ⟨hat, hord⟩
  have hpending : s.pending = [] := by
    refine List.eq_nil_iff_forall_not_mem.mpr fun x hx => ?_
    exact h.supplied (share x) (hclosed _).2 x hx rfl
  have hqueued : s.state.queued = 0 := Finset.sum_eq_zero fun q _ => by rw [(hclosed q).1]; rfl
  have hcons := h.conserved
  rw [hpending, hqueued, hrecv, Multiset.coe_nil, zero_add, zero_add, zero_add] at hcons
  rw [hcons] at hseq
  obtain ⟨hwritten, hnil⟩ := hseq.complete
  exact ⟨hwritten, hseq.caches.pmin, hnil⟩

theorem writeChunkToFile_ready {t t' : Table Chunk D κ} {x : Chunk} {record : Record D κ}
    (h : writeChunkToFile digest t x = some (record, t')) (ht : Ready t) : Ready t' := by
  intro y
  unfold writeChunkToFile at h
  split at h
  · cases h
  · cases h
    by_cases hy : y = t.original x
    · subst hy
      simp
    · simpa only [Function.update_of_ne hy] using ht y
  · cases h
    exact ht y

/-- The room in `chunks_per_anchor` when `Reorder` moves. -/
theorem roomy_move {t t' : State c D κ} (hord : InOrder p t.reorder)
    (hle : ∀ x ∈ t.reorder.recv, x ::ₘ (t.reorder.received : Multiset Chunk) ≤ p.file)
    (hroom : Roomy t.reorder.received t.reorder.core) (hm : p.coarse < 2048) (h : ReorderMove digest t t') :
    Roomy t'.reorder.received t'.reorder.core := by
  unfold InOrder at hord
  have hl1 : ∀ x ∈ t.reorder.recv, x.l1num < 2048 := by
    intro x hx
    have hfile := Multiset.mem_of_le (hle x hx) (Multiset.mem_cons_self ..)
    exact (p.mem_file.mp hfile).1.trans hm
  cases h with
  | fetch => exact hroom
  | closed => exact hroom
  | exhausted => exact hroom
  | nothing => exact hroom
  | next x recv core hpc hrecv hnote hnext =>
    have hx : x ∈ t.reorder.recv := by rw [hrecv]; exact List.mem_cons_self ..
    rw [hpc] at hord
    obtain ⟨cached, hseq⟩ := hord
    obtain ⟨r, hr, hroom'⟩ := Reorder.note_roomy hseq hroom (hle x hx) (hroom.lt_double (hl1 x hx))
    obtain rfl := Option.some.inj (hr.symm.trans hnote)
    simp only [coe_concat]
    exact hroom'
  | hold x recv core core' hpc hrecv hnote hnext hcache =>
    have hx : x ∈ t.reorder.recv := by rw [hrecv]; exact List.mem_cons_self ..
    rw [hpc] at hord
    obtain ⟨cached, hseq⟩ := hord
    obtain ⟨r, hr, hroom'⟩ := Reorder.note_roomy hseq hroom (hle x hx) (hroom.lt_double (hl1 x hx))
    obtain rfl := Option.some.inj (hr.symm.trans hnote)
    obtain ⟨htree, hpmin, -⟩ := Reorder.note_spec hseq (hle x hx) hnote
    obtain ⟨r', hr', -, -, -, hmax⟩ := Reorder.cache_spec (hseq.caches.congr htree hpmin) x
    obtain rfl := Option.some.inj (hr'.symm.trans hcache)
    simp only [coe_concat]
    exact ⟨hmax ▸ hroom'.large, hmax ▸ hroom'.room⟩
  | write x record table core core' next hpc hwrite hadv htake =>
    rw [hpc] at hord
    obtain ⟨cached, hw⟩ := hord
    obtain ⟨r, hr, hmax⟩ := Reorder.advance_roomy hw hroom
    obtain rfl := Option.some.inj (hr.symm.trans hadv)
    have hmax' : core'.chunksPerAnchorMax = t.reorder.core.chunksPerAnchorMax := by
      rcases Reorder.writing_step hw hadv htake with ⟨-, rfl, -⟩ | ⟨d, -, -, -, hmax'⟩
      · exact hmax
      · exact hmax'.trans hmax
    exact ⟨hmax' ▸ hroom.large, hmax' ▸ hroom.room⟩
  | done => exact hroom
  | pick x core hpc htake =>
    rw [hpc] at hord
    obtain ⟨cached, hseq⟩ := hord
    rcases Reorder.takeNext_spec hseq.caches with ht | ⟨r', y, -, hy, hnext, -⟩
    · rw [ht] at htake
      cases htake
    · exact absurd hnext (hseq.waiting y hy)
  | flush x record table core hpc hwrite hadv =>
    rw [hpc] at hord
    exact hord.elim

/-- Nothing fails in `Reorder`. -/
theorem Fed.no_fault (h : Fed p share s) (hm : p.coarse < 2048) {x : Crash} :
    ¬ReorderFault s.state x := by
  intro hf
  have hord := h.inOrder
  rcases ReorderFault.cases hord h.recv_le hf with rfl | ⟨rfl, hpc, hmin⟩ | rfl
  · unfold InOrder at hord
    cases hf with
    | note x recv hpc hrecv hnote =>
      have hx : x ∈ s.state.reorder.recv := by rw [hrecv]; exact List.mem_cons_self ..
      have hfile := Multiset.mem_of_le (h.recv_le x hx) (Multiset.mem_cons_self ..)
      rw [hpc] at hord
      obtain ⟨cached, hseq⟩ := hord
      obtain ⟨r, hr, -⟩ := Reorder.note_roomy hseq h.roomy (h.recv_le x hx)
        (h.roomy.lt_double ((p.mem_file.mp hfile).1.trans hm))
      rw [hr] at hnote
      cases hnote
    | advance x hpc hadv =>
      rcases hpc with hpc | hpc
      · rw [hpc] at hord
        obtain ⟨cached, hw⟩ := hord
        obtain ⟨r, hr, -⟩ := Reorder.advance_roomy hw h.roomy
        rw [hr] at hadv
        cases hadv
      · rw [hpc] at hord
        exact hord.elim
  · obtain ⟨-, hpmin, hnil⟩ := h.flushed (.inl hpc)
    rw [hpmin, hnil] at hmin
    exact hmin rfl
  · cases hf with
    | fetch i hpc hover =>
      have := h.terminated s.state.reorder.qid
      omega

/-! ### A step -/

/-- What a step is: a chunk comes, a producer terminates, or `Reorder` moves or fails. -/
inductive FeedMove (share : Chunk → Fin c.nqueues) (digest : Chunk → D) (s : Feed c D κ) :
    Feed c D κ → Prop
  | arrive (x : Chunk) (hx : x ∈ s.pending)
      (hopen : (s.state.que (.reorder, share x)).nTerminated < (s.state.que (.reorder, share x)).nProducers) :
      FeedMove share digest s
        ⟨s.state.setQue (.reorder, share x) ((s.state.que (.reorder, share x)).push [x] 1), s.pending.erase x⟩
  | terminate (i : Fin c.nqueues)
      (hlast : (s.state.que (.reorder, i)).nTerminated + 1 < (s.state.que (.reorder, i)).nProducers ∨
        ∀ x ∈ s.pending, share x ≠ i)
      (hopen : (s.state.que (.reorder, i)).nTerminated < (s.state.que (.reorder, i)).nProducers) :
      FeedMove share digest s
        { s with state := s.state.setQue (.reorder, i) (s.state.que (.reorder, i)).close }
  | reorder (state : State c D κ) (h : ReorderMove digest s.state state) :
      FeedMove share digest s { s with state := state }
  | fault (e : Crash) (h : ReorderFault s.state e) :
      FeedMove share digest s { s with state := s.state.fail e }

theorem feedStep_cases {a : Supply c} (h : feedStep share digest s a = some s') :
    FeedMove share digest s s' := by
  cases a with
  | arrive x =>
    simp only [feedStep] at h
    split at h
    · rename_i hx
      obtain rfl := Option.some.inj h
      exact .arrive x hx.1 hx.2.2
    · cases h
  | terminate i =>
    simp only [feedStep] at h
    split at h
    · rename_i hlast
      rcases queueTerminate_cases (s.state.que (.reorder, i)) with ⟨hq, -⟩ | ⟨hq, hopen⟩ <;> rw [hq] at h
      · cases h
      · obtain rfl := Option.some.inj h
        exact .terminate i hlast hopen
    · cases h
  | reorder =>
    simp only [feedStep] at h
    split at h
    · obtain ⟨state, hstate, rfl⟩ := Option.map_eq_some_iff.mp h
      have hout := reorderStep_outcome digest s.state
      rw [hstate] at hout
      cases hout with
      | move _ hm => exact .reorder state hm
      | fault e hf => exact .fault e hf
    · cases h

/-- The chunks are still all there when one has come. -/
theorem arrive_account (share : Chunk → Fin c.nqueues) {x : Chunk} (hx : x ∈ s.pending) :
    ((s.pending.erase x : List Chunk) : Multiset Chunk) +
      (s.state.setQue (.reorder, share x) ((s.state.que (.reorder, share x)).push [x] 1)).queued =
      s.pending + s.state.queued := by
  have hsum := sum_setQue (fun q => (q.buf : Multiset Chunk)) s.state (share x)
    ((s.state.que (.reorder, share x)).push [x] 1)
  have herase : x ::ₘ ((s.pending.erase x : List Chunk) : Multiset Chunk) = s.pending := by
    rw [← Multiset.coe_erase]
    exact Multiset.cons_erase hx
  have hpush : (((s.state.que (.reorder, share x)).push [x] 1).buf : Multiset Chunk) =
      x ::ₘ (s.state.que (.reorder, share x)).buf := coe_concat _ x
  rw [hpush, Multiset.add_cons, ← Multiset.cons_add] at hsum
  rw [← herase, Multiset.cons_add, ← Multiset.add_cons]
  exact congrArg _ (add_right_cancel hsum)

theorem fed_step {a : Supply c} (hm : p.coarse < 2048) (h : Fed p share s)
    (hs : feedStep share digest s a = some s') : Fed p share s' := by
  cases feedStep_cases hs with
  | arrive x hx hopen =>
    have hque : ∀ l, QueueMove (s.state.que l) ((s.state.setQue (.reorder, share x)
        ((s.state.que (.reorder, share x)).push [x] 1)).que l) := QueueMove.update (.push _ _ hopen)
    have hterm : ∀ l, ((s.state.setQue (.reorder, share x)
        ((s.state.que (.reorder, share x)).push [x] 1)).que l).nTerminated = (s.state.que l).nTerminated :=
      nTerminated_update rfl
    refine ⟨h.atPc.frame rfl hque, h.inOrder, h.roomy, ?_, fun q => ?_, fun q hq y hy => ?_, h.crash⟩
    · rw [add_assoc, ← add_assoc, arrive_account share hx, add_assoc, ← add_assoc s.state.queued]
      exact h.conserved
    · rw [(hque _).nProducers, hterm]
      exact h.terminated q
    · rw [(hque _).nProducers, hterm] at hq
      exact h.supplied q hq y (List.mem_of_mem_erase hy)
  | terminate i hlast hopen =>
    have hque : ∀ l, QueueMove (s.state.que l)
        ((s.state.setQue (.reorder, i) (s.state.que (.reorder, i)).close).que l) :=
      QueueMove.update (.close hopen)
    have hsum := sum_setQue (fun q => (q.buf : Multiset Chunk)) s.state i (s.state.que (.reorder, i)).close
    refine ⟨h.atPc.frame rfl hque, h.inOrder, h.roomy, ?_, fun q => ?_, fun q hq y hy => ?_, h.crash⟩
    · have hqueued := add_right_cancel hsum
      have hcons := h.conserved
      rw [State.queued] at hcons ⊢
      rwa [hqueued]
    · by_cases hq : q = i
      · subst hq
        simp only [State.setQue, Function.update_self, Queue.close]
        omega
      · simpa [State.setQue, Function.update_of_ne, hq] using h.terminated q
    · by_cases hqi : q = i
      · subst hqi
        simp only [State.setQue, Function.update_self, Queue.close] at hq
        rcases hlast with hlast | hlast
        · omega
        · exact hlast y hy
      · refine h.supplied q ?_ y hy
        simpa [State.setQue, Function.update_of_ne, hqi] using hq
  | reorder state hmove =>
    have hque := reorder_que hmove
    obtain ⟨-, -, hcrash, hterm⟩ := reorder_frame hmove
    refine ⟨reorder_move h.atPc hmove hque, inOrder_move h.inOrder h.recv_le hmove,
      roomy_move h.inOrder h.recv_le h.roomy hm hmove, ?_, fun q => ?_, fun q hq => ?_, ?_⟩
    · rw [reorder_account h.atPc hmove]
      exact h.conserved
    · rw [(hque _).nProducers, hterm]
      exact h.terminated q
    · rw [(hque _).nProducers, hterm] at hq
      exact h.supplied q hq
    · rw [hcrash]
      exact h.crash
  | fault e hf => exact absurd hf (h.no_fault hm)

theorem ready_step {a : Supply c} (h : Ready s.state.table) (hs : feedStep share digest s a = some s') :
    Ready s'.state.table := by
  cases feedStep_cases hs with
  | arrive => exact h
  | terminate => exact h
  | reorder state hmove =>
    cases hmove with
    | write x record table core core' next hpc hwrite => exact writeChunkToFile_ready hwrite h
    | flush x record table core hpc hwrite => exact writeChunkToFile_ready hwrite h
    | _ => exact h
  | fault => exact h

/-! ### The stage comes to its end -/

/-- The moves that `Reorder` makes at most when nothing comes any more, over `n` queues. -/
def ReorderPc.rank (n : ℕ) : ReorderPc → ℕ
  | .fetch i => n - i + 2
  | .take => n + 3
  | .write _ => n + 3
  | .flush => 1
  | .flushWrite _ => 0
  | .done => 0

/-- What `Reorder` has still to do. -/
def State.reorderWork (s : State c D κ) : ℕ :=
  (c.nqueues + 4) * s.queued.card + 2 * s.reorder.recv.length +
    (s.reorder.received.length - s.reorder.written.length) + s.reorder.pc.rank c.nqueues

/-- What all have still to do. -/
def Feed.work (s : Feed c D κ) : ℕ :=
  (c.nqueues + 5) * s.pending.length + s.state.producing + s.state.reorderWork

theorem rank_afterChunk (n : ℕ) (recv : List Chunk) : (afterChunk recv).rank n ≤ n + 3 := by
  unfold afterChunk
  split
  · exact Nat.add_le_add (Nat.sub_le _ _) (by decide)
  · exact le_rfl

/-- Only what has been received is written. -/
theorem written_le (t : ReorderThread c D κ) (h : InOrder p t) : t.written.length ≤ t.received.length ∧
    ∀ x, t.pc = .write x → t.written.length < t.received.length := by
  unfold InOrder at h
  split at h
  · obtain ⟨cached, h⟩ := h
    have hcard := congrArg Multiset.card h.perm
    rw [Multiset.card_add, Multiset.card_cons, Multiset.coe_card, Multiset.coe_card] at hcard
    exact ⟨by omega, fun _ _ => by omega⟩
  · exact h.elim
  · rename_i hwrite hflush
    obtain ⟨cached, h⟩ := h
    have hcard := congrArg Multiset.card h.perm
    rw [Multiset.card_add, Multiset.coe_card, Multiset.coe_card] at hcard
    exact ⟨by omega, fun x hx => absurd hx (hwrite x)⟩

/-- Every chunk that is taken from a queue pays for a round over `n` queues. -/
theorem round_paid {n m k r : ℕ} (d : ℕ) (hk : 0 < k) (hr : 2 ≤ r) :
    (n + 4) * m + 2 * k + d + (n + 3) < (n + 4) * (m + k) + d + r := by
  have hround : n + 2 ≤ (n + 2) * k := Nat.le_mul_of_pos_right _ hk
  have hsplit : (n + 4) * (m + k) = (n + 4) * m + ((n + 2) * k + 2 * k) := by
    rw [← Nat.add_mul, ← Nat.mul_add]
  omega

theorem reorderWork_move {t t' : State c D κ} (hat : ReorderAtPc t) (hord : InOrder p t.reorder)
    (h : ReorderMove digest t t') : t'.reorderWork < t.reorderWork := by
  have hcard := congrArg Multiset.card (reorder_account hat h)
  simp only [Multiset.card_add, Multiset.coe_card] at hcard
  obtain ⟨hle, hlt⟩ := written_le t.reorder hord
  have hrank : ∀ pc, t.reorder.pc = pc → t.reorder.pc.rank c.nqueues = pc.rank c.nqueues := fun _ h => by rw [h]
  simp only [State.reorderWork]
  cases h with
  | fetch i hpc hbuf =>
    rw [ReorderAtPc, hpc] at hat
    have htake : 0 < ((t.que (.reorder, t.reorder.qid)).buf.take itemPerFetch).length := by
      rw [List.length_take]
      exact lt_min (by decide) (List.length_pos_iff.mpr hbuf)
    simp only [hat.1, List.length_nil, add_zero, add_left_inj] at hcard ⊢
    rw [← hcard, hrank _ hpc]
    exact round_paid _ htake (by simp [ReorderPc.rank])
  | closed i hpc hi hclosed =>
    have := hrank _ hpc
    simp only [State.queued, ReorderPc.rank] at this ⊢
    omega
  | exhausted i hpc hi =>
    have := hrank _ hpc
    simp only [State.queued, ReorderPc.rank] at this ⊢
    omega
  | nothing hpc hrecv =>
    have := hrank _ hpc
    simp only [State.queued, ReorderPc.rank] at this ⊢
    omega
  | next x recv core hpc hrecv hnote hnext =>
    have := hrank _ hpc
    simp only [State.queued, ReorderPc.rank, hrecv, List.length_cons, List.length_append,
      List.length_nil] at this ⊢
    omega
  | hold x recv core core' hpc hrecv hnote hnext hcache =>
    have hpaid : t.reorder.pc.rank c.nqueues = c.nqueues + 3 := hrank _ hpc
    have hafter := rank_afterChunk c.nqueues recv
    simp only [State.queued, hrecv, List.length_cons, List.length_append, List.length_nil]
    omega
  | write x record table core core' next hpc hwrite hadv htake =>
    have hpaid : t.reorder.pc.rank c.nqueues = c.nqueues + 3 := hrank _ hpc
    have hafter : (next.elim (afterChunk t.reorder.recv) ReorderPc.write).rank c.nqueues ≤ c.nqueues + 3 := by
      cases next with
      | none => exact rank_afterChunk _ _
      | some y => exact le_rfl
    have := hlt x hpc
    simp only [State.queued, List.length_append, List.length_cons, List.length_nil]
    omega
  | done hpc hmin =>
    have := hrank _ hpc
    simp only [State.queued, ReorderPc.rank] at this ⊢
    omega
  | pick x core hpc htake =>
    have := hrank _ hpc
    simp only [State.queued, ReorderPc.rank] at this ⊢
    omega
  | flush x record table core hpc hwrite hadv =>
    rw [InOrder, hpc] at hord
    exact hord.elim

theorem producing_eq {t t' : State c D κ} (hque : ∀ l, QueueMove (t.que l) (t'.que l))
    (hterm : ∀ l, (t'.que l).nTerminated = (t.que l).nTerminated) : t'.producing = t.producing := by
  refine Finset.sum_congr rfl fun q _ => ?_
  rw [(hque _).nProducers, hterm]

theorem feed_work {a : Supply c} (hm : p.coarse < 2048) (h : Fed p share s)
    (hs : feedStep share digest s a = some s') : s'.work < s.work := by
  unfold Feed.work
  cases feedStep_cases hs with
  | arrive x hx hopen =>
    have hproducing : (s.state.setQue (.reorder, share x)
        ((s.state.que (.reorder, share x)).push [x] 1)).producing = s.state.producing :=
      producing_eq (QueueMove.update (.push [x] 1 hopen)) (nTerminated_update rfl)
    have hcard := congrArg Multiset.card (arrive_account share hx)
    have hlen := List.length_erase_of_mem hx
    have hpos := List.length_pos_of_mem hx
    obtain ⟨n, hn⟩ := Nat.exists_eq_add_of_le' hpos
    rw [Multiset.card_add, Multiset.card_add, Multiset.coe_card, Multiset.coe_card, hlen, hn,
      Nat.add_sub_cancel] at hcard
    obtain hqueued := Nat.add_left_cancel (hcard.trans (Nat.add_assoc n 1 _))
    simp only [State.reorderWork, hlen, hn, hproducing, hqueued, Nat.add_sub_cancel, Nat.mul_add]
    simp only [State.setQue]
    omega
  | terminate i hlast hopen =>
    have hsum := sum_setQue (fun q => q.nProducers - q.nTerminated) s.state i (s.state.que (.reorder, i)).close
    have hqueued := add_right_cancel (sum_setQue (fun q => (q.buf : Multiset Chunk)) s.state i
      (s.state.que (.reorder, i)).close)
    simp only [State.reorderWork, State.queued, State.producing, hqueued]
    simp only [Queue.close, State.setQue] at hsum ⊢
    omega
  | reorder state hmove =>
    have hproducing := producing_eq (reorder_que hmove) (reorder_frame hmove).2.2.2
    have hwork := reorderWork_move h.atPc h.inOrder hmove
    simp only [hproducing]
    omega
  | fault e hf => exact absurd hf (h.no_fault hm)

/-- Where nothing can happen any more, `Reorder` has returned. -/
theorem Fed.stuck (h : Fed p share s) (hready : Ready s.state.table)
    (hstuck : ∀ a, feedStep share digest s a = none) : s.state.reorder.pc = .done := by
  have hre := hstuck .reorder
  simp only [feedStep, if_pos h.crash, Option.map_eq_none_iff] at hre
  have hout := reorderStep_outcome digest s.state
  rw [hre] at hout
  cases hout with
  | idle hidle =>
    cases hidle with
    | done hpc => exact hpc
    | uncompressed x hpc hstate => exact absurd hstate (hready _)
    | starved i hpc hi hque =>
      -- the queue gets another chunk of its share, or it is terminated
      obtain ⟨hbuf, hopen⟩ := hque
      by_cases hx : ∃ x ∈ s.pending, share x = s.state.reorder.qid
      · obtain ⟨x, hx, hshare⟩ := hx
        have harrive := hstuck (.arrive x)
        have hroom : 0 < c.queueSize := lt_of_lt_of_le (by decide) c.queueSize_large
        simp [feedStep, hx, hshare, hbuf, hopen, hroom] at harrive
      · have hterm := hstuck (.terminate s.state.reorder.qid)
        push Not at hx
        rcases queueTerminate_cases (s.state.que (.reorder, s.state.reorder.qid)) with ⟨-, hq⟩ | ⟨hq, -⟩
        · omega
        · simp only [feedStep, if_pos (Or.inr hx), hq] at hterm
          cases hterm

/-- The file is in increasing order. -/
theorem file_increasing (p : Plan) : p.file.Pairwise fun x y =>
    x.l1num < y.l1num ∨ x.l1num = y.l1num ∧ x.l2num < y.l2num := by
  rw [Plan.file, List.pairwise_flatMap]
  refine ⟨fun l _ => ?_, List.pairwise_lt_range.imp fun {l l'} hl x hx y hy => ?_⟩
  · rw [List.pairwise_map]
    exact List.pairwise_lt_range.imp fun hj => .inr ⟨rfl, hj⟩
  · obtain ⟨j, -, rfl⟩ := List.mem_map.mp hx
    obtain ⟨j', -, rfl⟩ := List.mem_map.mp hy
    exact .inl hl

/-- CORRECT: whatever the order in which the chunks of a complete set come and the queues they come into,
    nothing fails in `Reorder`, it writes the chunks in file order and each at most once, it writes none
    in its flush loop, and when it is there it has written all of them and the tree is empty. It gets
    there: no run is longer than its work, and where nothing can happen any more `Reorder` has returned. -/
theorem reorder_writes_in_order (c : Config) (p : Plan) (hm : p.coarse < 2048)
    (share : Chunk → Fin c.nqueues) (digest : Chunk → D) (table : Table Chunk D κ) (as : List (Supply c))
    (s : Feed c D κ) (hs : exec (feedStep share digest) (Feed.new c p table) as = some s) :
    s.state.crash = none ∧
    s.state.reorder.written <+: p.file ∧
    s.state.reorder.written.Pairwise (fun x y =>
      x.l1num < y.l1num ∨ x.l1num = y.l1num ∧ x.l2num < y.l2num) ∧
    (∀ x, s.state.reorder.pc ≠ .flushWrite x) ∧
    (s.state.reorder.pc = .flush ∨ s.state.reorder.pc = .done →
      s.state.reorder.written = p.file ∧ s.state.reorder.core.tree = .nil) ∧
    as.length ≤ (Feed.new c p table).work ∧
    (Ready table → (∀ a, feedStep share digest s a = none) → s.state.reorder.pc = .done) := by
  have h : Fed p share s := exec_inv (fun _ _ _ h hs => fed_step hm h hs) fed_new hs
  have hsub : s.state.reorder.written <+: p.file := by
    have hord := h.inOrder
    unfold InOrder at hord
    split at hord
    · obtain ⟨cached, hw⟩ := hord
      exact ⟨_, hw.split⟩
    · exact hord.elim
    · obtain ⟨cached, hseq⟩ := hord
      exact ⟨_, hseq.split⟩
  refine ⟨h.crash, hsub, (file_increasing p).sublist hsub.sublist, fun x hpc => ?_, fun hpc => ?_, ?_,
    fun hready hstuck => ?_⟩
  · have hord := h.inOrder
    rw [InOrder, hpc] at hord
    exact hord
  · obtain ⟨hwritten, -, hnil⟩ := h.flushed hpc
    exact ⟨hwritten, hnil⟩
  · have hlen := exec_length_le (fun _ _ _ h hs => fed_step hm h hs) (fun _ _ _ h hs => feed_work hm h hs)
      (fed_new : Fed p share (Feed.new c p table)) hs
    omega
  · have hready' : Ready s.state.table :=
      exec_inv (fun _ _ _ h hs => ready_step h hs) (hready : Ready (Feed.new c p table).state.table) hs
    exact h.stuck hready' hstuck

/-- Two queues; the chunks of two coarse chunks come in reverse order, each into the queue of its coarse
    chunk. The second queue has one producer, the first four. -/
theorem reorder_writes_in_order_two :
    let c : Config := ⟨5, 20, by decide, by decide⟩
    let p : Plan := ⟨2, fun _ => 2, fun _ _ => by decide⟩
    let share (x : Chunk) : Fin c.nqueues := if x.l1num = 0 then ⟨0, by decide⟩ else ⟨1, by decide⟩
    let as : List (Supply c) := [.arrive (p.chunk 1 1), .arrive (p.chunk 1 0), .arrive (p.chunk 0 1),
      .reorder, .reorder, .reorder, .arrive (p.chunk 0 0), .terminate ⟨1, by decide⟩,
      .terminate ⟨0, by decide⟩, .terminate ⟨0, by decide⟩, .terminate ⟨0, by decide⟩,
      .terminate ⟨0, by decide⟩] ++ List.replicate 12 .reorder
    ∃ s, exec (feedStep share fun x => x.l1num)
        (Feed.new c p ⟨fun _ => none, fun x => ⟨false, .COMPRESSED x.l2num, x⟩⟩ : Feed c ℕ ℕ) as = some s ∧
      s.state.reorder.pc = .done ∧
      s.state.reorder.written = [p.chunk 0 0, p.chunk 0 1, p.chunk 1 0, p.chunk 1 1] ∧
      s.state.reorder.core.tree = .nil := by
  intro c p share as
  obtain ⟨s, hs, hpc⟩ : ∃ s ∈ exec (feedStep share fun x => x.l1num)
      (Feed.new c p ⟨fun _ => none, fun x => ⟨false, .COMPRESSED x.l2num, x⟩⟩ : Feed c ℕ ℕ) as,
      s.state.reorder.pc = .done := by
    decide +kernel +revert
  obtain ⟨-, -, -, -, hend, -⟩ := reorder_writes_in_order c p (by decide) share _ _ as s hs
  obtain ⟨hwritten, hnil⟩ := hend (.inr hpc)
  exact ⟨s, hs, hpc, hwritten, hnil⟩

end Fed

end Turkey.Pipeline
