import Turkey.Dedup.Simulation

/-! Deadlocks of the pipeline. The threads form a chain of queues, and a chain alone cannot lock up. There
    are two more waits: `Reorder` waits in `write_chunk_to_file` for the compression of the original of a
    duplicate, and it reads its queues in turn, waiting at an empty one. Both look back in the chain. A
    thread that fills `reorder_que` can hold what `Reorder` waits for, in a send buffer that is not full
    yet or behind it, and wait for room in the queue that only `Reorder` empties. Every deadlock has such
    a pair of waits. -/

namespace Turkey.Pipeline
open Turkey.Run
open Turkey.Reorder (Chunk Core Plan)

variable {c : Config} {D κ : Type*}

/-- The thread waits for room in a reorder queue. -/
def AwaitsRoom (s : State c D κ) (k : Pool × Fin c.nthreads) : Prop :=
  ∃ pc, (s.worker k).Sending .reorder pc ∧ (s.que (.reorder, c.qid k.2)).Full c.queueSize

section Deadlock
variable [DecidableEq D] (p : Plan) (digest : Chunk → D) (packed : Chunk → κ)

/-- The thread has not returned and has no step. -/
def Blocked (s : State c D κ) (t : Thread c) : Prop := ¬s.Finished t ∧ step p digest packed s t = none

/-- Some thread has not returned, and all such threads wait. -/
def Deadlocked (s : State c D κ) : Prop :=
  s.crash = none ∧ (∃ t, ¬s.Finished t) ∧ ∀ t, s.Finished t ∨ Blocked p digest packed s t

instance (s : State c D κ) (t : Thread c) : Decidable (Blocked p digest packed s t) :=
  inferInstanceAs (Decidable (_ ∧ _))

instance (s : State c D κ) : Decidable (Deadlocked p digest packed s) :=
  decidable_of_iff (s.crash = none ∧ (¬∀ t, s.Finished t) ∧ ∀ t, s.Finished t ∨ Blocked p digest packed s t)
    (by rw [not_forall]; rfl)

variable {p digest packed} {s : State c D κ}

/-! ### Why a thread waits -/

/-- A thread that waits does so on a full queue, on an empty queue that is not terminated, or on a chunk
    that is not compressed. -/
theorem idle_of_step_eq_none (hs : s.crash = none) {t : Thread c} (h : step p digest packed s t = none) :
    Idle s t := by
  have hout := step_outcome p digest packed hs t
  rw [h] at hout
  cases hout with
  | idle h => exact h

omit [DecidableEq D] in
theorem idle_of_finished {t : Thread c} (h : s.Finished t) : Idle s t := by
  cases t with
  | fragment => exact .done h
  | worker k => exact .done h
  | reorder => exact .done h

theorem Deadlocked.idle (h : Deadlocked p digest packed s) (t : Thread c) : Idle s t := by
  rcases h.2.2 t with ht | ht
  · exact idle_of_finished ht
  · exact idle_of_step_eq_none h.1 ht.2

/-! ### Without a thread that waits for room in a reorder queue -/

section Drain
variable (ho : Orderly s) (hidle : ∀ t, Idle s t) (hroom : ∀ k, ¬AwaitsRoom s k)

omit [DecidableEq D] in
theorem not_full_of_empty {q : Queue} (h : q.buf = []) : ¬q.Full c.queueSize := by
  intro hfull
  have hsize := c.queueSize_large
  have hlen := hfull.1
  rw [h, List.length_nil] at hlen
  simp only [itemPerInsert] at hsize
  omega

include ho hidle

omit [DecidableEq D] in
/-- A thread that waits, and not at a full queue, has nothing to read. -/
theorem empty_of_not_full {k : Pool × Fin c.nthreads}
    (hk : ∀ f pc, (s.worker k).Sending f pc → ¬(s.que (f, c.qid k.2)).Full c.queueSize) :
    (s.que (k.1.input, c.qid k.2)).buf = [] := by
  cases hidle (.worker k) with
  | done hpc => exact (ho.counted.leaving k (.inl hpc)).1
  | starved hpc hrecv hque => exact hque.1
  | full f pc hpc hfull => exact absurd hfull (hk f pc hpc)

include hroom

omit [DecidableEq D] in
/-- No thread of a pool waits at a full queue: a full queue has a reader that waits at a full queue
    itself, and at the end of the chain this is a reorder queue. -/
theorem worker_not_full (k : Pool × Fin c.nthreads) (f : Que) (pc : WorkerPc)
    (hpc : (s.worker k).Sending f pc) : ¬(s.que (f, c.qid k.2)).Full c.queueSize := by
  have hreorder : ∀ k' pc', (s.worker k').Sending .reorder pc' →
      ¬(s.que (.reorder, c.qid k'.2)).Full c.queueSize := fun k' pc' hs hfull => hroom k' ⟨pc', hs, hfull⟩
  have hcompress : ∀ i f pc, (s.worker (.Compress, i)).Sending f pc →
      ¬(s.que (f, c.qid i)).Full c.queueSize := by
    intro i f pc hpc
    obtain rfl := List.mem_singleton.mp ((ho.tidy (.Compress, i)).sending hpc).1
    exact hreorder (.Compress, i) pc hpc
  have hdedup : ∀ i f pc, (s.worker (.Deduplicate, i)).Sending f pc →
      ¬(s.que (f, c.qid i)).Full c.queueSize := by
    intro i f pc hpc
    have hf := ((ho.tidy (.Deduplicate, i)).sending hpc).1
    simp only [Pool.outputs, List.mem_cons, List.not_mem_nil, or_false] at hf
    rcases hf with rfl | rfl
    · exact not_full_of_empty (empty_of_not_full (k := (.Compress, i)) ho hidle (hcompress i))
    · exact hreorder (.Deduplicate, i) pc hpc
  obtain ⟨P, i⟩ := k
  cases P with
  | FragmentRefine =>
    obtain rfl := List.mem_singleton.mp ((ho.tidy (.FragmentRefine, i)).sending hpc).1
    exact not_full_of_empty (empty_of_not_full (k := (.Deduplicate, i)) ho hidle (hdedup i))
  | Deduplicate => exact hdedup i f pc hpc
  | Compress => exact hcompress i f pc hpc

omit [DecidableEq D] in
/-- `Fragment` has returned. -/
theorem fragment_done : s.fragment.pc = .done := by
  cases hidle .fragment with
  | done hpc => exact hpc
  | full pc hpc hfull =>
    obtain ⟨i, hi⟩ := exists_qid s.fragment.qid
    have hempty := empty_of_not_full (k := (.FragmentRefine, i)) ho hidle
      (worker_not_full ho hidle hroom (.FragmentRefine, i))
    rw [← hi] at hfull
    exact absurd hfull (not_full_of_empty hempty)

omit [DecidableEq D] in
/-- A thread whose queue is terminated has returned. -/
theorem done_of_terminated {k : Pool × Fin c.nthreads} (hk :
    (s.que (k.1.input, c.qid k.2)).nProducers ≤ (s.que (k.1.input, c.qid k.2)).nTerminated) :
    (s.worker k).pc = .done := by
  cases hidle (.worker k) with
  | done hpc => exact hpc
  | starved hpc hrecv hque =>
    have := hque.2
    omega
  | full f pc hpc hfull => exact absurd hfull (worker_not_full ho hidle hroom k f pc hpc)

omit [DecidableEq D] in
/-- The stages have returned one after the other. -/
theorem workers_done (k : Pool × Fin c.nthreads) : (s.worker k).pc = .done := by
  -- a pool that has returned has terminated its queues
  have hclosed : ∀ P : Pool, (∀ i, (s.worker (P, i)).pc = .done) → ∀ q,
      (s.que (P.terminates, q)).nProducers ≤ (s.que (P.terminates, q)).nTerminated := by
    intro P hP q
    rw [ho.counted.producers, ho.counted.terminated, State.returned,
      Finset.filter_true_of_mem fun i _ => hP i]
  have hrefine : ∀ i, (s.worker (.FragmentRefine, i)).pc = .done := by
    intro i
    refine done_of_terminated ho hidle hroom (k := (.FragmentRefine, i)) ?_
    have hpc := fragment_done ho hidle hroom
    change (s.que (.refine, c.qid i)).nProducers ≤ (s.que (.refine, c.qid i)).nTerminated
    rw [ho.counted.anchors, ho.counted.anchored, FragmentThread.closedUpTo, hpc]
    exact (if_pos (c.qid i).isLt).ge
  have hdedup : ∀ i, (s.worker (.Deduplicate, i)).pc = .done := fun i =>
    done_of_terminated ho hidle hroom (k := (.Deduplicate, i)) (hclosed .FragmentRefine hrefine _)
  have hcompress : ∀ i, (s.worker (.Compress, i)).pc = .done := fun i =>
    done_of_terminated ho hidle hroom (k := (.Compress, i)) (hclosed .Deduplicate hdedup _)
  obtain ⟨P, i⟩ := k
  cases P with
  | FragmentRefine => exact hrefine i
  | Deduplicate => exact hdedup i
  | Compress => exact hcompress i

end Drain

omit [DecidableEq D] in
/-- When the pools have returned no chunk waits for its compression. -/
theorem compressed_of_done (ho : Orderly s) (hdone : ∀ k, (s.worker k).pc = .done) (x : Chunk) :
    (.compress, x) ∉ s.inFlight := by
  have htag : ∀ {f : Que} {xs : List Chunk}, (Que.compress, x) ∈ tag f xs → f = .compress ∧ xs ≠ [] := by
    intro f xs hmem
    obtain ⟨y, hy, hxy⟩ := List.mem_map.mp hmem
    exact ⟨congrArg Prod.fst hxy, List.ne_nil_of_mem hy⟩
  intro hmem
  simp only [State.inFlight, Multiset.mem_add] at hmem
  rcases hmem with ((hmem | hmem) | hmem) | hmem
  · obtain ⟨⟨f, q⟩, -, hmem⟩ := Multiset.mem_sum.mp hmem
    obtain ⟨hf, hne⟩ := htag hmem
    obtain ⟨i, rfl⟩ := exists_qid q
    cases hf
    exact hne (ho.returned (hdone (.Compress, i))).2.1
  · obtain ⟨k, -, hmem⟩ := Multiset.mem_sum.mp hmem
    rw [(ho.returned (hdone k)).1] at hmem
    exact absurd hmem (Multiset.notMem_zero _)
  · simp only [FragmentThread.holding, Multiset.mem_add] at hmem
    rcases hmem with hmem | hmem
    · cases (htag hmem).1
    · cases (htag hmem).1
  · cases (htag hmem).1

/-- The original of a chunk that `Reorder` has received is compressed, or still on its way to
    `sub_Compress`. -/
theorem Refines.original {e : Archive.Encoder Chunk D κ} (h : Refines p digest packed s e) {x : Chunk}
    (hx : x ∈ s.reorder.received)
    (hstate : (s.table.chunk (s.table.original x)).state = .UNCOMPRESSED) :
    (.compress, s.table.original x) ∈ s.inFlight := by
  obtain ⟨done, -, hsound⟩ := h.written
  have hready := h.ready
  rw [← h.simulates.table] at hstate ⊢
  have hstage : e.stage x ≠ .deduplicate := by
    rw [(h.simulates.reordering x).mpr (.inr hx)]
    exact nofun
  obtain ⟨-, horig, hdup⟩ := hsound.cached _ _ (hsound.known x hstage)
  cases hst : e.stage (e.table.original x) with
  | deduplicate => exact absurd hst horig
  | compress => exact (h.simulates.compressing _).mp hst
  | reorder => exact absurd hstate (hready _ hst hdup)

/-- In a deadlock `Reorder` waits, and a thread waits for room in a reorder queue. -/
theorem Deadlocked.jam {e : Archive.Encoder Chunk D κ} (h : Refines p digest packed s e)
    (hd : Deadlocked p digest packed s) :
    Blocked p digest packed s .reorder ∧ ∃ k, AwaitsRoom s k := by
  have ho := h.orderly
  by_cases hroom : ∃ k, AwaitsRoom s k
  · refine ⟨(hd.2.2 .reorder).resolve_left fun hdone => ?_, hroom⟩
    obtain ⟨k, pc, hpc, hfull⟩ := hroom
    have := ((ho.closed_of_done hdone).2 (c.qid k.2)).2
    have := hfull.2
    omega
  · exfalso
    have hroom : ∀ k, ¬AwaitsRoom s k := fun k hk => hroom ⟨k, hk⟩
    have hdone := workers_done ho hd.idle hroom
    obtain ⟨t, ht⟩ := hd.2.1
    cases t with
    | fragment => exact ht (fragment_done ho hd.idle hroom)
    | worker k => exact ht (hdone k)
    | reorder =>
      cases hd.idle .reorder with
      | done hpc => exact ht hpc
      | starved i hpc hi hque =>
        obtain ⟨j, hj⟩ := exists_qid s.reorder.qid
        have hlt := hque.2
        rw [← hj] at hlt
        have hterm := ho.counted.terminated .Compress (c.qid j)
        have hprod := ho.counted.producers .Compress (c.qid j)
        rw [State.returned, Finset.filter_true_of_mem fun i _ => hdone (.Compress, i)] at hterm
        simp only [Pool.terminates] at hterm hprod
        omega
      | uncompressed x hpc hstate =>
        have hord := h.inOrder
        rcases hpc with hpc | hpc
        · obtain ⟨hx, -⟩ := next_written hord hpc h.simulates.rest
          exact compressed_of_done ho hdone _ (h.original hx hstate)
        · rw [InOrder, hpc] at hord
          exact hord

/-- CORRECT: no state of any run is a deadlock, unless `Reorder` waits while a `Deduplicate` or `Compress`
    thread waits for room in a reorder queue. -/
theorem deadlock_free (c : Config) (p : Plan) (digest : Chunk → D) (packed : Chunk → κ)
    (ts : List (Thread c)) (s : State c D κ)
    (hs : exec (step p digest packed) (State.new c p) ts = some s)
    (hjam : ¬(Blocked p digest packed s .reorder ∧ ∃ k, AwaitsRoom s k)) :
    ¬Deadlocked p digest packed s := by
  obtain ⟨es, e, -, href⟩ := pipeline_refines hs
  exact fun hd => hjam (hd.jam href)

/-- Two threads in each pool, after `Fragment` has sent a first chunk: `Reorder` waits, but no thread waits
    for room. -/
theorem deadlock_free_two :
    let c : Config := ⟨2, 20, by decide, by decide⟩
    let p : Plan := ⟨2, fun _ => 1, fun _ _ => by decide⟩
    ∃ s, exec (step p (fun _ => 7) fun x => x.l1num) (State.new c p : State c ℕ ℕ)
        [.fragment, .fragment] = some s ∧
      Blocked p (fun _ => 7) (fun x => x.l1num) s .reorder ∧
      ¬Deadlocked p (fun _ => 7) (fun x => x.l1num) s := by
  intro c p
  refine ⟨_, rfl, by decide, deadlock_free c p _ _ [.fragment, .fragment] _ rfl ?_⟩
  rintro ⟨-, k, pc, hpc, -⟩
  rcases hpc with ⟨hpc, -⟩ | ⟨fs, hpc, -⟩
  · cases hpc
  · cases hpc

/-- Two threads in each pool, queues for 20 chunks, a file of 80 chunks with the same data. The second
    coarse chunk is refined first, so that its first fine chunk is the original of all the others; it
    stays in the buffer that a `Deduplicate` thread has for `compress_que`. The duplicates fill a
    `recv_buf`, `reorder_que` and the buffer that the thread has for it. Then `Reorder`, at the first chunk
    of the file, waits for the original to be compressed, and the thread waits for `Reorder`. -/
theorem pipeline_deadlocks :
    let c : Config := ⟨2, 20, by decide, by decide⟩
    let p : Plan := ⟨2, fun l => if l = 0 then 60 else 20, fun l _ => by split <;> omega⟩
    let w (P : Pool) (i : Fin 2) (n : ℕ) : List (Thread c) := List.replicate n (.worker (P, i))
    let ts : List (Thread c) := List.replicate 2 .fragment ++ w .FragmentRefine 0 1 ++
      List.replicate 6 .fragment ++ w .FragmentRefine 1 27 ++ w .Deduplicate 0 61 ++
      w .FragmentRefine 0 42 ++ w .Deduplicate 0 62 ++ List.replicate 21 .reorder ++
      w .FragmentRefine 0 21 ++ w .Deduplicate 0 62 ++ w .FragmentRefine 0 5 ++ w .Deduplicate 0 3 ++
      w .Deduplicate 1 4
    ∃ s, exec (step p (fun _ => 7) fun x => x.l1num) (State.new c p : State c ℕ ℕ) ts = some s ∧
      Deadlocked p (fun _ => 7) (fun x => x.l1num) s := by
  intro c p w ts
  have hrun : ∃ s ∈ exec (step p (fun _ => 7) fun x => x.l1num) (State.new c p : State c ℕ ℕ) ts,
      Deadlocked p (fun _ => 7) (fun x => x.l1num) s := by
    decide +kernel +revert
  exact hrun

end Deadlock

end Turkey.Pipeline
