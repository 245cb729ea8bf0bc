import Turkey.Dedup.Flow

/-! The pipeline does what its three kernels do in some order. Beside every run of the threads there is a
    run of the machine of `Turkey.Dedup.Archive`: `sub_Deduplicate`, `sub_Compress` and
    `write_chunk_to_file` are its events, and the moves of chunks between queues and buffers leave it
    where it is. What is known of that machine holds of the pipeline: the archive is the one it should
    be, and an assertion can only fail at `chunks_per_anchor`. -/

namespace Turkey.Pipeline
open Turkey.Run
open Turkey.Reorder (Chunk Core Plan InSeq Writing)
open Turkey.Archive (Table Record Encoder Event Written subDeduplicate subCompress writeChunkToFile)

variable {c : Config} {D κ : Type*} {p : Plan} {s s' : State c D κ}

/-! ### A fine chunk is in one place -/

/-- A chunk under way is not received yet and not under way twice. -/
theorem Conserved.alone (h : Conserved p s) {f : Que} {x : Chunk} {rest : Multiset (Que × Chunk)}
    (hs : s.inFlight = (f, x) ::ₘ rest) (hf : f ≠ .refine) :
    x ∉ s.reorder.received ∧ ∀ g, g ≠ .refine → (g, x) ∉ rest := by
  have hfine : ∀ g, g ≠ .refine → fineChunks p (g, x) = {x} := by
    intro g hg
    cases g with
    | refine => exact absurd rfl hg
    | deduplicate => rfl
    | compress => rfl
    | reorder => rfl
  have hnodup : (rest.bind (fineChunks p) + s.reorder.received + {x}).Nodup := by
    rw [Conserved, hs, Multiset.cons_bind, hfine f hf, add_assoc, add_comm] at h
    rw [h]
    exact p.file_nodup
  obtain ⟨-, -, hdis⟩ := Multiset.nodup_add.mp hnodup
  have hx : x ∉ rest.bind (fineChunks p) + (s.reorder.received : Multiset Chunk) := fun hx =>
    Multiset.disjoint_left.mp hdis hx (Multiset.mem_singleton_self x)
  refine ⟨fun hr => hx (Multiset.mem_add.mpr (.inr hr)), fun g hg hmem => hx (Multiset.mem_add.mpr (.inl ?_))⟩
  refine Multiset.mem_bind.mpr ⟨(g, x), hmem, ?_⟩
  rw [hfine g hg]
  exact Multiset.mem_singleton_self x

/-- What has been received can still be extended by a chunk that is on its way to `Reorder`. -/
theorem Conserved.le_file (h : Conserved p s) {x : Chunk} (hx : (.reorder, x) ∈ s.inFlight) :
    x ::ₘ (s.reorder.received : Multiset Chunk) ≤ p.file := by
  obtain ⟨rest, hs⟩ := Multiset.exists_cons_of_mem hx
  rw [Conserved, hs, Multiset.cons_bind] at h
  rw [← h, add_assoc, ← Multiset.singleton_add]
  exact add_le_add_right (Multiset.le_add_left _ _) _

theorem input_notMem_outputs (P : Pool) : P.input ∉ P.outputs := by
  cases P <;> simp [Pool.input, Pool.outputs]

section Workers
variable [DecidableEq D] {digest : Chunk → D} {packed : Chunk → κ}

/-- The kernels, by what they take out of what is under way and what they put in. -/
theorem kernel_move {k : Pool × Fin c.nthreads} (hw : (s.worker k).Tidy k.1)
    (h : WorkerMove p digest packed s k s') :
    (s'.inFlight = s.inFlight ∧ s'.table = s.table) ∨
      ∃ x work rest, k.1.process p digest packed s.table x = some (work, s'.table) ∧
        s.inFlight = (k.1.input, x) ::ₘ rest ∧ s'.inFlight = rest + (work : Multiset (Que × Chunk)) := by
  rcases inFlight_worker hw h with hsame | ⟨x, work, hproc, hflow⟩
  · exact .inl hsame
  · have hnot : (k.1.input, x) ∉ (work : Multiset (Que × Chunk)) := fun hmem =>
      input_notMem_outputs k.1 (process_outputs hproc _ hmem)
    have hmem : (k.1.input, x) ∈ s.inFlight := by
      have : (k.1.input, x) ∈ s.inFlight + (work : Multiset (Que × Chunk)) := by
        rw [← hflow]
        exact Multiset.mem_add.mpr (.inr (Multiset.mem_singleton_self _))
      exact (Multiset.mem_add.mp this).resolve_right hnot
    obtain ⟨rest, hs⟩ := Multiset.exists_cons_of_mem hmem
    refine .inr ⟨x, work, rest, hproc, hs, ?_⟩
    rw [hs, ← Multiset.singleton_add, add_comm, add_assoc] at hflow
    exact add_left_cancel hflow

end Workers

/-! ### `Reorder` writes in file order -/

/-- The cursor and the cache of `Reorder`, by its place. -/
def InOrder (p : Plan) (t : ReorderThread c D κ) : Prop :=
  match t.pc with
  | .write x => ∃ cached, Writing p t.received cached t.written t.core x
  | .flushWrite _ => False
  | _ => ∃ cached, InSeq p t.received cached t.written t.core

theorem inOrder_afterChunk {t : ReorderThread c D κ} (hpc : t.pc = afterChunk t.recv)
    (h : ∃ cached, InSeq p t.received cached t.written t.core) : InOrder p t := by
  unfold InOrder
  rw [hpc, afterChunk]
  split
  · rename_i hw
    split at hw <;> cases hw
  · rename_i hw
    split at hw <;> cases hw
  · exact h

theorem coe_concat (xs : List Chunk) (x : Chunk) :
    ((xs ++ [x] : List Chunk) : Multiset Chunk) = x ::ₘ xs := by
  rw [← Multiset.coe_add, add_comm]
  rfl

/-- A chunk in the receive buffer is on its way to `Reorder`. -/
theorem mem_inFlight_of_recv {x : Chunk} (hx : x ∈ s.reorder.recv) : (.reorder, x) ∈ s.inFlight := by
  refine Multiset.mem_add.mpr (.inr ?_)
  exact List.mem_map_of_mem hx

/-- `hle`: what has been received and any chunk of the receive buffer are part of the file. -/
theorem inOrder_move {digest : Chunk → D} (h : InOrder p s.reorder)
    (hle : ∀ x ∈ s.reorder.recv, x ::ₘ (s.reorder.received : Multiset Chunk) ≤ p.file)
    (hm : ReorderMove digest s s') : InOrder p s'.reorder := by
  unfold InOrder at h
  cases hm with
  | fetch i hpc hbuf => rw [hpc] at h; exact h
  | closed i hpc hi hclosed => rw [hpc] at h; exact h
  | exhausted i hpc hi => rw [hpc] at h; exact h
  | nothing hpc hrecv => rw [hpc] at h; exact h
  | next x recv core hpc hrecv hnote hnext =>
    rw [hpc] at h
    obtain ⟨cached, h⟩ := h
    refine ⟨cached, ?_⟩
    have hw := Reorder.inSeq_write h (hle x (by rw [hrecv]; exact List.mem_cons_self ..)) hnote hnext
    rwa [← coe_concat] at hw
  | hold x recv core core' hpc hrecv hnote hnext hcache =>
    rw [hpc] at h
    obtain ⟨cached, h⟩ := h
    refine inOrder_afterChunk rfl ⟨x ::ₘ cached, ?_⟩
    have hw := Reorder.inSeq_cache h (hle x (by rw [hrecv]; exact List.mem_cons_self ..)) hnote hnext hcache
    rwa [← coe_concat] at hw
  | write x record table core core' next hpc hwrite hadv htake =>
    rw [hpc] at h
    obtain ⟨cached, h⟩ := h
    rcases Reorder.writing_step h hadv htake with ⟨rfl, -, hseq⟩ | ⟨d, hd, rfl, hw, -⟩
    · exact inOrder_afterChunk rfl ⟨cached, hseq⟩
    · exact ⟨_, hw⟩
  | done hpc hmin => rw [hpc] at h; exact h
  | pick x core hpc htake =>
    -- no chunk of the cache is the next one
    rw [hpc] at h
    obtain ⟨cached, h⟩ := h
    rcases Reorder.takeNext_spec h.caches with ht | ⟨r', y, -, hy, hseq, -⟩
    · rw [ht] at htake
      cases htake
    · exact absurd hseq (h.waiting y hy)
  | flush x record table core hpc hwrite hadv => rw [hpc] at h; exact h.elim

/-- What can fail in `Reorder` when its cache is in order: `chunks_per_anchor`, the flush loop when the
    tree is not empty, and the queue it reads. -/
theorem ReorderFault.cases {x : Crash} (h : InOrder p s.reorder)
    (hle : ∀ x ∈ s.reorder.recv, x ::ₘ (s.reorder.received : Multiset Chunk) ≤ p.file)
    (hf : ReorderFault s x) : x = .chunksPerAnchor ∨ (x = .sequence ∧ s.reorder.pc = .flush ∧
      SearchTree.treeFindMin s.reorder.core.pmin s.reorder.core.tree ≠ none) ∨ x = .overTerminated := by
  unfold InOrder at h
  cases hf with
  | fetch => exact .inr (.inr rfl)
  | note => exact .inl rfl
  | cache x recv core hpc hrecv hnote hcache =>
    rw [hpc] at h
    obtain ⟨cached, hseq⟩ := h
    obtain ⟨htree, hpmin, -⟩ :=
      Reorder.note_spec hseq (hle x (by rw [hrecv]; exact List.mem_cons_self ..)) hnote
    obtain ⟨r, hr, -⟩ := Reorder.cache_spec (hseq.caches.congr htree hpmin) x
    rw [hr] at hcache
    cases hcache
  | advance => exact .inl rfl
  | takeNext x core hpc hadv htake =>
    rw [hpc] at h
    obtain ⟨cached, hwr⟩ := h
    have hcore := Reorder.advance_spec hwr hadv
    have hcaches : Reorder.Caches core cached := hwr.caches.congr (by rw [hcore]) (by rw [hcore])
    rcases Reorder.takeNext_spec hcaches with ht | ⟨r', y, ht, -⟩ <;> rw [ht] at htake <;> cases htake
  | pick hpc htake =>
    rw [hpc] at h
    obtain ⟨cached, hseq⟩ := h
    rcases Reorder.takeNext_spec hseq.caches with ht | ⟨r', y, ht, -⟩ <;> rw [ht] at htake <;> cases htake
  | mismatch core hpc hmin htake => exact .inr (.inl ⟨rfl, hpc, hmin⟩)

/-- The chunk that is written next is the first of those that are left of the file. -/
theorem next_written {x : Chunk} (h : InOrder p s.reorder) (hpc : s.reorder.pc = .write x)
    {rest : List Chunk} (hrest : s.reorder.written ++ rest = p.file) :
    x ∈ s.reorder.received ∧ ∃ rest', rest = x :: rest' := by
  rw [InOrder, hpc] at h
  obtain ⟨cached, h⟩ := h
  refine ⟨h.mem_arrived, ?_⟩
  obtain ⟨hl, hj, hx⟩ := p.mem_file.mp h.mem_file
  have hsplit := h.split
  rw [← hrest, List.append_cancel_left_eq, ← h.isNext] at hsplit
  rw [← hsplit, show x.sequence = (x.l1num, x.l2num) from rfl, p.rest_step hl hj, ← hx]
  exact ⟨_, rfl⟩

/-! ### The relation -/

/-- The state of the pipeline and the state of the machine that only knows the kernels. -/
structure Simulates (p : Plan) (s : State c D κ) (e : Encoder Chunk D κ) : Prop where
  table : e.table = s.table
  out : e.out = s.reorder.out
  rest : s.reorder.written ++ e.rest = p.file
  compressing : ∀ x, e.stage x = .compress ↔ (.compress, x) ∈ s.inFlight
  reordering : ∀ x, e.stage x = .reorder ↔ (.reorder, x) ∈ s.inFlight ∨ x ∈ s.reorder.received

/-- A move of chunks. -/
theorem Simulates.frame {e : Encoder Chunk D κ} (h : Simulates p s e) (hflight : s'.inFlight = s.inFlight)
    (htable : s'.table = s.table) (hout : s'.reorder.out = s.reorder.out)
    (hwritten : s'.reorder.written = s.reorder.written)
    (hreceived : s'.reorder.received = s.reorder.received) : Simulates p s' e :=
  ⟨h.table.trans htable.symm, h.out.trans hout.symm, hwritten ▸ h.rest, hflight ▸ h.compressing,
    by rw [hflight, hreceived]; exact h.reordering⟩

/-- A chunk that is under way for a kernel and then for another queue. -/
theorem Simulates.kernel {e : Encoder Chunk D κ} (h : Simulates p s e) (hc : Conserved p s) {x : Chunk}
    {g f : Que} {rest : Multiset (Que × Chunk)} (hg : g ≠ .refine) (hs : s.inFlight = (g, x) ::ₘ rest)
    (hs' : s'.inFlight = (f, x) ::ₘ rest) (hreorder : s'.reorder = s.reorder) {stage : Archive.Stage}
    (hstage : f = .compress ∧ stage = .compress ∨ f = .reorder ∧ stage = .reorder) :
    Simulates p s' { e with table := s'.table, stage := Function.update e.stage x stage } := by
  obtain ⟨hrecv, halone⟩ := hc.alone hs hg
  -- of the other chunks nothing changes
  have hother : ∀ q y, y ≠ x → ((q, y) ∈ s'.inFlight ↔ (q, y) ∈ s.inFlight) := by
    intro q y hy
    have hne : ∀ q', (q, y) ≠ (q', x) := fun q' he => hy (congrArg Prod.snd he)
    simp only [hs, hs', Multiset.mem_cons, hne, false_or]
  have hself : ∀ q, q ≠ .refine → ((q, x) ∈ s'.inFlight ↔ q = f) := by
    intro q hq
    simp only [hs', Multiset.mem_cons, halone q hq, or_false, Prod.mk.injEq, and_true]
  refine ⟨rfl, hreorder ▸ h.out, hreorder ▸ h.rest, fun y => ?_, fun y => ?_⟩
  · by_cases hy : y = x
    · subst hy
      simp only [Function.update_self, hself .compress nofun]
      rcases hstage with ⟨rfl, rfl⟩ | ⟨rfl, rfl⟩ <;> simp
    · simp only [Function.update_of_ne hy, hother _ y hy]
      exact h.compressing y
  · rw [hreorder]
    by_cases hy : y = x
    · subst hy
      simp only [Function.update_self, hself .reorder nofun, hrecv, or_false]
      rcases hstage with ⟨rfl, rfl⟩ | ⟨rfl, rfl⟩ <;> simp
    · simp only [Function.update_of_ne hy, hother _ y hy]
      exact h.reordering y

/-- A chunk on its way to `sub_Deduplicate` has not been hashed. -/
theorem Simulates.unhashed {e : Encoder Chunk D κ} (h : Simulates p s e) (hc : Conserved p s) {x : Chunk}
    (hx : (.deduplicate, x) ∈ s.inFlight) : e.stage x = .deduplicate := by
  obtain ⟨rest, hs⟩ := Multiset.exists_cons_of_mem hx
  obtain ⟨hrecv, halone⟩ := hc.alone hs nofun
  cases hst : e.stage x with
  | deduplicate => rfl
  | compress =>
    have hmem := (h.compressing x).mp hst
    rw [hs, Multiset.mem_cons] at hmem
    exact absurd (hmem.resolve_left nofun) (halone _ nofun)
  | reorder =>
    rcases (h.reordering x).mp hst with hmem | hmem
    · rw [hs, Multiset.mem_cons] at hmem
      exact absurd (hmem.resolve_left nofun) (halone _ nofun)
    · exact absurd hmem hrecv

/-- A chunk that `Reorder` takes from its receive buffer. -/
theorem Simulates.take {e : Encoder Chunk D κ} (h : Simulates p s e) {x : Chunk}
    (hflight : s.inFlight = {(.reorder, x)} + s'.inFlight) (htable : s'.table = s.table)
    (hout : s'.reorder.out = s.reorder.out) (hwritten : s'.reorder.written = s.reorder.written)
    (hreceived : s'.reorder.received = s.reorder.received ++ [x]) : Simulates p s' e := by
  refine ⟨h.table.trans htable.symm, h.out.trans hout.symm, hwritten ▸ h.rest, fun y => ?_, fun y => ?_⟩
  · rw [h.compressing, hflight, Multiset.mem_add, Multiset.mem_singleton]
    exact ⟨fun hy => hy.resolve_left nofun, .inr⟩
  · rw [h.reordering, hflight, hreceived]
    simp only [Multiset.mem_add, Multiset.mem_singleton, Prod.mk.injEq, true_and, List.mem_append,
      List.mem_singleton]
    rw [or_assoc, or_comm, or_assoc]

section Relation
variable [DecidableEq D] {digest : Chunk → D} {packed : Chunk → κ}

/-- A step of a pool: a kernel is an event of the machine, everything else leaves it where it is. -/
theorem simulates_worker {e : Encoder Chunk D κ} {k : Pool × Fin c.nthreads} (h : Simulates p s e)
    (hc : Conserved p s) (ho : Orderly s) (hw : Written digest packed p.file e)
    (hm : WorkerMove p digest packed s k s') :
    Simulates p s' e ∨ ∃ b e', Archive.step digest packed e b = some e' ∧ Simulates p s' e' := by
  have hreorder : s'.reorder = s.reorder := by cases hm <;> rfl
  obtain ⟨done, -, hsound⟩ := hw
  rcases kernel_move (ho.tidy k) hm with ⟨hflight, htable⟩ | ⟨x, work, rest, hproc, hs, hs'⟩
  · exact .inl (h.frame hflight htable (by rw [hreorder]) (by rw [hreorder]) (by rw [hreorder]))
  · obtain ⟨P, i⟩ := k
    cases P with
    | FragmentRefine =>
      -- the new chunks are all on their way to `sub_Deduplicate`
      simp only [Pool.process, Option.some.injEq, Prod.mk.injEq] at hproc
      obtain ⟨rfl, htable⟩ := hproc
      have hmem : ∀ q y, q = .compress ∨ q = .reorder → ((q, y) ∈ s'.inFlight ↔ (q, y) ∈ s.inFlight) := by
        intro q y hq
        have hnew : (q, y) ∉ (p.row x.l1num 0).map fun z => ((.deduplicate, z) : Que × Chunk) := by
          intro hmem
          obtain ⟨z, -, hz⟩ := List.mem_map.mp hmem
          rcases hq with rfl | rfl <;> cases hz
        have hold : (q, y) ≠ (Pool.FragmentRefine.input, x) := by
          rintro heq
          rcases hq with rfl | rfl <;> cases heq
        simp only [hs, hs', Multiset.mem_add, Multiset.mem_cons, Multiset.mem_coe, hnew, hold, or_false,
          false_or]
      refine .inl ⟨h.table.trans htable, hreorder ▸ h.out, hreorder ▸ h.rest, fun y => ?_, fun y => ?_⟩
      · rw [hmem _ _ (.inl rfl)]
        exact h.compressing y
      · rw [hmem _ _ (.inr rfl), hreorder]
        exact h.reordering y
    | Deduplicate =>
      simp only [Pool.process, Option.some.injEq, Prod.mk.injEq] at hproc
      obtain ⟨rfl, htable⟩ := hproc
      have hhash := h.unhashed hc (x := x) (by rw [hs]; exact Multiset.mem_cons_self _ _)
      have hstage : ∀ b : Bool, (if b then Que.reorder else .compress) = Que.compress ∧
          (if b then Archive.Stage.reorder else .compress) = .compress ∨
          (if b then Que.reorder else .compress) = .reorder ∧
          (if b then Archive.Stage.reorder else .compress) = .reorder := by decide
      refine .inr ⟨.deduplicate x, _, ?_, h.kernel (g := .deduplicate) hc (by decide) hs
        (hs'.trans (Multiset.add_comm _ _)) hreorder (hstage (subDeduplicate digest s.table x).1)⟩
      simp only [Archive.step, if_pos (And.intro hsound.running hhash), h.table, htable]
    | Compress =>
      simp only [Pool.process, Option.map_eq_some_iff, Prod.mk.injEq] at hproc
      obtain ⟨t, ht, rfl, rfl⟩ := hproc
      have hstage := (h.compressing x).mpr (by rw [hs]; exact Multiset.mem_cons_self _ _)
      refine .inr ⟨.compress x, _, ?_, h.kernel (g := .compress) hc (by decide) hs
        (hs'.trans (Multiset.add_comm _ _)) hreorder (.inr ⟨rfl, rfl⟩)⟩
      simp only [Archive.step, if_pos (And.intro hsound.running hstage), h.table, ht]

theorem simulates_reorder {e : Encoder Chunk D κ} (h : Simulates p s e) (ho : Orderly s)
    (hord : InOrder p s.reorder) (hw : Written digest packed p.file e) (hm : ReorderMove digest s s') :
    Simulates p s' e ∨ ∃ b e', Archive.step digest packed e b = some e' ∧ Simulates p s' e' := by
  have hflow := inFlight_reorder ho.reorder hm
  obtain ⟨done, -, hsound⟩ := hw
  cases hm with
  | fetch i hpc hbuf =>
    rcases hflow with ⟨hflight, hreceived⟩ | ⟨x, -, hreceived⟩
    · exact .inl (h.frame hflight rfl rfl rfl hreceived)
    · simp at hreceived
  | closed => exact .inl (h.frame rfl rfl rfl rfl rfl)
  | exhausted => exact .inl (h.frame rfl rfl rfl rfl rfl)
  | nothing => exact .inl (h.frame rfl rfl rfl rfl rfl)
  | next x recv core hpc hrecv hnote hnext =>
    rcases hflow with ⟨-, hreceived⟩ | ⟨y, hflight, hreceived⟩
    · simp at hreceived
    · exact .inl (h.take hflight rfl rfl rfl hreceived)
  | hold x recv core core' hpc hrecv hnote hnext hcache =>
    rcases hflow with ⟨-, hreceived⟩ | ⟨y, hflight, hreceived⟩
    · simp at hreceived
    · exact .inl (h.take hflight rfl rfl rfl hreceived)
  | write x record table core core' next hpc hwrite hadv htake =>
    obtain ⟨hrecv, rest, hrest⟩ := next_written hord hpc h.rest
    have hstage : e.stage x ≠ .deduplicate := by
      rw [(h.reordering x).mpr (.inr hrecv)]
      exact nofun
    refine .inr ⟨.write, { e with table := table, rest := rest, out := e.out ++ [record] }, ?_,
      rfl, by rw [h.out], ?_, h.compressing, h.reordering⟩
    · simp only [Archive.step, hrest, if_pos (And.intro hsound.running hstage), h.table, hwrite,
        Option.map_some]
    · rw [List.append_assoc, List.singleton_append, ← hrest]
      exact h.rest
  | done => exact .inl (h.frame rfl rfl rfl rfl rfl)
  | pick => exact .inl (h.frame rfl rfl rfl rfl rfl)
  | flush x record table core hpc hwrite hadv =>
    rw [InOrder, hpc] at hord
    exact hord.elim

/-! ### Refinement -/

/-- What is known of a state of the pipeline and of the state of the machine beside it. -/
structure Refines (p : Plan) (digest : Chunk → D) (packed : Chunk → κ) (s : State c D κ)
    (e : Encoder Chunk D κ) : Prop where
  orderly : Orderly s
  conserved : Conserved p s
  inOrder : InOrder p s.reorder
  simulates : Simulates p s e
  written : Written digest packed p.file e
  ready : Archive.Ready e
  crash : ∀ x, s.crash = some x → x = .chunksPerAnchor

/-- Behind the main loop of `Reorder` the whole file has been written and the cache is empty. -/
theorem Refines.flushed {e : Encoder Chunk D κ} (h : Refines p digest packed s e)
    (hpc : s.reorder.pc = .flush ∨ s.reorder.pc = .done) :
    s.reorder.written = p.file ∧ s.reorder.core.pmin = none ∧ s.reorder.core.tree = .nil := by
  have hat := h.orderly.reorder
  have hord := h.inOrder
  obtain ⟨⟨hrecv, hclosed⟩, cached, hseq⟩ : (s.reorder.recv = [] ∧ ∀ q, (s.que (.reorder, q)).Closed) ∧
      ∃ cached, InSeq p s.reorder.received cached s.reorder.written s.reorder.core := by
    rcases hpc with hpc | hpc
    · rw [ReorderAtPc, hpc] at hat
      rw [InOrder, hpc] at hord
      exact ⟨hat, hord⟩
    · rw [ReorderAtPc, hpc] at hat
      rw [InOrder, hpc] at hord
      exact ⟨hat, hord⟩
  have hcons := h.conserved
  rw [Conserved, h.orderly.inFlight_eq_zero hclosed hrecv, Multiset.zero_bind, zero_add] at hcons
  rw [hcons] at hseq
  obtain ⟨hwritten, hnil⟩ := hseq.complete
  exact ⟨hwritten, hseq.caches.pmin, hnil⟩

/-- An assertion can only fail at `chunks_per_anchor`. -/
theorem Refines.fault {e : Encoder Chunk D κ} {t : Thread c} {x : Crash} (h : Refines p digest packed s e)
    (hf : Fault p digest packed s t x) : x = .chunksPerAnchor := by
  have hq := h.orderly.fault hf
  have hord := h.inOrder
  cases t with
  | fragment => cases hf <;> cases hq
  | worker k =>
    cases hf with
    | process x recv hpc hrecv hproc =>
      obtain ⟨P, i⟩ := k
      cases P with
      | FragmentRefine => cases hproc
      | Deduplicate => cases hproc
      | Compress =>
        -- the chunk has not been compressed before
        exfalso
        have hmem : (.compress, x) ∈ s.inFlight := by
          have hhold : (.compress, x) ∈ (s.worker (.Compress, i)).holding .Compress := by
            refine Multiset.mem_add.mpr (.inr ?_)
            exact List.mem_map_of_mem (by rw [hrecv]; exact List.mem_cons_self ..)
          refine Multiset.mem_add.mpr (.inl (Multiset.mem_add.mpr (.inl (Multiset.mem_add.mpr (.inr ?_)))))
          exact Multiset.mem_sum.mpr ⟨(.Compress, i), Finset.mem_univ _, hhold⟩
        obtain ⟨done, -, hsound⟩ := h.written
        have hraw := hsound.raw x (by rw [(h.simulates.compressing x).mpr hmem]; exact nofun)
        rw [h.simulates.table] at hraw
        simp [Pool.process, subCompress, hraw] at hproc
    | fetch => cases hq
    | emit => cases hq
    | enqueue => cases hq
    | send => cases hq
    | terminate => cases hq
  | reorder =>
    rcases ReorderFault.cases hord (fun _ hx => h.conserved.le_file (mem_inFlight_of_recv hx)) hf
      with rfl | ⟨rfl, hpc, hmin⟩ | rfl
    · rfl
    · obtain ⟨-, hpmin, hnil⟩ := h.flushed (.inl hpc)
      rw [hpmin, hnil] at hmin
      exact absurd rfl hmin
    · cases hq

theorem refines_step {e : Encoder Chunk D κ} {t : Thread c} (h : Refines p digest packed s e)
    (hs : step p digest packed s t = some s') : Refines p digest packed s' e ∨
      ∃ b e', Archive.step digest packed e b = some e' ∧ Refines p digest packed s' e' := by
  have hord := orderly_step h.orderly hs
  obtain ⟨hcrash, hm | ⟨x, hf, rfl⟩⟩ := step_cases p digest packed hs
  · have hcons := conserved_move h.conserved h.orderly hm
    have hsame : s'.crash = none := by
      rw [← hcrash]
      cases t <;> cases hm <;> rfl
    have hcrash' : ∀ x, s'.crash = some x → x = .chunksPerAnchor := by
      intro x hx
      rw [hsame] at hx
      cases hx
    obtain ⟨hin, hsim⟩ : InOrder p s'.reorder ∧ (Simulates p s' e ∨
        ∃ b e', Archive.step digest packed e b = some e' ∧ Simulates p s' e') := by
      cases t with
      | fragment =>
        have hreorder : s'.reorder = s.reorder := by cases hm <;> rfl
        have htable : s'.table = s.table := by cases hm <;> rfl
        exact ⟨hreorder ▸ h.inOrder, .inl (h.simulates.frame (inFlight_fragment hm) htable
          (by rw [hreorder]) (by rw [hreorder]) (by rw [hreorder]))⟩
      | worker k =>
        have hreorder : s'.reorder = s.reorder := by cases hm <;> rfl
        exact ⟨hreorder ▸ h.inOrder, simulates_worker h.simulates h.conserved h.orderly h.written hm⟩
      | reorder =>
        exact ⟨inOrder_move h.inOrder (fun _ hx => h.conserved.le_file (mem_inFlight_of_recv hx)) hm,
          simulates_reorder h.simulates h.orderly h.inOrder h.written hm⟩
    rcases hsim with hsim | ⟨b, e', hb, hsim⟩
    · exact .inl ⟨hord, hcons, hin, hsim, h.written, h.ready, hcrash'⟩
    · exact .inr ⟨b, e', hb, hord, hcons, hin, hsim, Archive.written_step h.written hb,
        Archive.ready_step h.ready hb, hcrash'⟩
  · refine .inl ⟨hord, h.conserved, h.inOrder, ⟨h.simulates.table, h.simulates.out, h.simulates.rest,
      h.simulates.compressing, h.simulates.reordering⟩, h.written, h.ready, fun y hy => ?_⟩
    obtain rfl := Option.some.inj hy
    exact h.fault hf

theorem refines_new : Refines p digest packed (State.new c p) (Encoder.new p.file) where
  orderly := orderly_new p
  conserved := conserved_new p
  inOrder := ⟨0, Reorder.inSeq_new p⟩
  simulates := by
    have hnone : ∀ f x, f ≠ .refine → (f, x) ∉ (State.new c p : State c D κ).inFlight := by
      intro f x hf hmem
      rw [inFlight_new] at hmem
      obtain ⟨y, -, hy⟩ := List.mem_map.mp hmem
      exact hf (congrArg Prod.fst hy).symm
    refine ⟨rfl, rfl, rfl, fun x => ?_, fun x => ?_⟩
    · exact iff_of_false nofun (hnone _ x nofun)
    · exact iff_of_false nofun (not_or.mpr ⟨hnone _ x nofun, List.not_mem_nil⟩)
  written := ⟨[], rfl, Archive.sound_new p.file⟩
  ready _ h := by cases h
  crash _ h := by cases h

/-- Beside every run of the threads there is a run of the machine that only knows the kernels. -/
theorem pipeline_refines {ts : List (Thread c)}
    (hs : exec (step p digest packed) (State.new c p) ts = some s) :
    ∃ es e, exec (Archive.step digest packed) (Encoder.new p.file) es = some e ∧
      Refines p digest packed s e :=
  exec_sim (R := Refines p digest packed) (fun _ _ _ _ h hs => refines_step h hs) refines_new hs

end Relation

end Turkey.Pipeline
