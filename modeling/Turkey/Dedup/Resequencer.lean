import Mathlib.Data.List.ReduceOption
import Turkey.Dedup.InSequence

/-! The `Reorder` stage of the Turkey port. It reads `queue_reorder` without waiting: a call of
    `dequeue_to_ringbuffer` that finds the queue empty moves nothing, and the stage then takes the
    `NULL` of `ringbuffer_remove` for the end of its input (`if (chunk == NULL) break`). A call that
    meets the sentinel returns -1, and the chunks it moved before are left in `recv_buf`. In both cases
    the loop that flushes the cache follows, whose exits for a chunk out of sequence are commented out.

    The queue is given by what its reads return: `some c` for a chunk, `none` for a read that finds it
    empty, and the sentinel at the end of the list. -/

namespace Turkey.Reorder
open Turkey.Binheap Turkey.SearchTree

/-- `ITEM_PER_FETCH` -/
def itemPerFetch : ℕ := 20

/-- A call with room for `num` chunks: the chunks it moves, the reads that are left, and whether it
    returns -1. -/
def dequeueToRingbuffer : ℕ → List (Option Chunk) → List Chunk × List (Option Chunk) × Bool
  | 0, reads => ([], reads, false)
  | _ + 1, [] => ([], [], true)
  | _ + 1, none :: reads => ([], reads, false)
  | num + 1, some c :: reads =>
    let (moved, rest, closed) := dequeueToRingbuffer num reads
    (c :: moved, rest, closed)

/-- Where the stage stands: at the head of its loop, at `write_chunk_to_file`, at the head of the flush
    loop, returned, or stopped by an assertion or a bad access. -/
inductive Pc where
  | loop
  | write
  | flush
  | done
  | aborted
  deriving DecidableEq

/-- `chunk` is the variable of that name, `out` the chunks passed to `write_chunk_to_file`. -/
structure Stage where
  core : Core
  recv : List Chunk
  reads : List (Option Chunk)
  chunk : Option Chunk
  out : List Chunk
  pc : Pc

def Stage.new (reads : List (Option Chunk)) : Stage := ⟨Core.new, [], reads, none, [], .loop⟩

/-- One step; `isDuplicate` is the flag that `sub_Deduplicate` has set. -/
def step (isDuplicate : Chunk → Bool) (s : Stage) : Stage :=
  match s.pc with
  | .loop =>
    match s.recv with
    | [] =>
      let (moved, reads, closed) := dequeueToRingbuffer itemPerFetch s.reads
      if closed then { s with recv := moved, reads := reads, pc := .flush }
      else if moved = [] then { s with reads := reads, chunk := none, pc := .flush }
      else { s with recv := moved, reads := reads }
    | c :: recv =>
      match s.core.note c with
      | none => { s with recv := recv, chunk := some c, pc := .aborted }
      | some core =>
        if c.sequence = core.next then { s with core := core, recv := recv, chunk := some c, pc := .write }
        else match core.cache c with
          | none => { s with core := core, recv := recv, chunk := some c, pc := .aborted }
          | some core => { s with core := core, recv := recv, chunk := some c }
  | .write =>
    match s.chunk with
    | none => { s with pc := .aborted }
    | some c =>
      match s.core.advance.bind Core.takeNext with
      | none => { s with out := s.out ++ [c], pc := .aborted }
      | some (core, chunk) => { s with
          core := core, chunk := chunk, out := s.out ++ [c]
          pc := if chunk.isSome then .write else .loop }
  | .flush =>
    match treeFindMin s.core.pmin s.core.tree with
    | none => { s with pc := .done }
    | some (l1num, queue) =>
      match s.core.takeNext with
      | none => { s with pc := .aborted }
      | some (core, _) =>
        -- out of sequence, the least chunk of the queue stays there and is written all the same; when the
        -- queue is not that of `next`, `chunk` is as it was
        match if l1num = s.core.next.1 then findMin queue else s.chunk with
        | none => { s with core := core, chunk := none, pc := .aborted }
        | some c =>
          let chunk := if isDuplicate c then none else some c
          match core.advance with
          | none => { s with core := core, chunk := chunk, out := s.out ++ [c], pc := .aborted }
          | some core => { s with core := core, chunk := chunk, out := s.out ++ [c] }
  | .done | .aborted => s

/-! ### Calls of `dequeue_to_ringbuffer` -/

theorem dequeue_chunks : ∀ (num : ℕ) (reads : List (Option Chunk)),
    (dequeueToRingbuffer num reads).1 ++ (dequeueToRingbuffer num reads).2.1.reduceOption =
      reads.reduceOption
  | 0, reads => rfl
  | _ + 1, [] => rfl
  | _ + 1, none :: reads => by simp [dequeueToRingbuffer]
  | num + 1, some c :: reads => by
      simp only [dequeueToRingbuffer, List.cons_append, List.reduceOption_cons_of_some,
        dequeue_chunks num reads]

theorem dequeue_closed : ∀ (num : ℕ) (reads : List (Option Chunk)),
    (dequeueToRingbuffer num reads).2.2 = true → (dequeueToRingbuffer num reads).2.1 = []
  | 0, reads, h => by cases h
  | _ + 1, [], _ => rfl
  | _ + 1, none :: reads, h => by cases h
  | num + 1, some c :: reads, h => dequeue_closed num reads h

theorem dequeue_length : ∀ (num : ℕ) (reads : List (Option Chunk)),
    (dequeueToRingbuffer num reads).1.length + (dequeueToRingbuffer num reads).2.1.length ≤ reads.length
  | 0, reads => by simp [dequeueToRingbuffer]
  | _ + 1, [] => by simp [dequeueToRingbuffer]
  | _ + 1, none :: reads => by simp [dequeueToRingbuffer]
  | num + 1, some c :: reads => by
      have := dequeue_length num reads
      change (dequeueToRingbuffer num reads).1.length + 1 +
        (dequeueToRingbuffer num reads).2.1.length ≤ reads.length + 1
      omega

/-- The condition on the reads: no call comes back empty-handed while chunks are still to come, and no
    call that has moved chunks meets the sentinel. -/
def Delivered (reads : List (Option Chunk)) : Prop :=
  let call := dequeueToRingbuffer itemPerFetch reads
  if call.2.2 then call.1 = []
  else if call.1 = [] then call.2.1.reduceOption = []
  else Delivered call.2.1
  termination_by reads.length
  decreasing_by
    have := dequeue_length itemPerFetch reads
    have : 0 < (dequeueToRingbuffer itemPerFetch reads).1.length := List.length_pos_iff.mpr ‹_›
    omega

/-! ### The main loop -/

variable {p : Plan} {dup : Chunk → Bool}

/-- Some number of steps leads from one state to the other. -/
def Leads (dup : Chunk → Bool) (s t : Stage) : Prop := ∃ n, (step dup)^[n] s = t

theorem Leads.refl (s : Stage) : Leads dup s s := ⟨0, rfl⟩

theorem Leads.head {s t : Stage} (h : Leads dup (step dup s) t) :
    Leads dup s t := by
  obtain ⟨n, hn⟩ := h
  exact ⟨n + 1, hn⟩

theorem Leads.trans {s t u : Stage} (h : Leads dup s t) (h' : Leads dup t u) :
    Leads dup s u := by
  obtain ⟨n, rfl⟩ := h
  obtain ⟨m, rfl⟩ := h'
  exact ⟨m + n, Function.iterate_add_apply _ m n s⟩

/-- At the head of the loop with the chunks `arrived` behind it. -/
structure AtLoop (p : Plan) (arrived : Multiset Chunk) (recv : List Chunk)
    (reads : List (Option Chunk)) (s : Stage) : Prop where
  pc : s.pc = .loop
  recv : s.recv = recv
  reads : s.reads = reads
  chunk : ∀ c ∈ s.chunk, c ∈ arrived
  inSeq : ∃ cached, InSeq p arrived cached s.out s.core
  roomy : Roomy arrived s.core

theorem atLoop_new (reads : List (Option Chunk)) : AtLoop p 0 [] reads (Stage.new reads) where
  pc := rfl
  recv := rfl
  reads := rfl
  chunk _ h := by cases h
  inSeq := ⟨0, inSeq_new p⟩
  roomy := ⟨le_rfl, fun c hc => by cases hc⟩

/-- The loop that writes as many chunks as possible comes back to the head of the main loop. -/
theorem write_loop (dup : Chunk → Bool) {arrived : Multiset Chunk} (recv : List Chunk)
    (reads : List (Option Chunk)) : ∀ (n : ℕ) (cached : Multiset Chunk) (c : Chunk) (s : Stage),
      cached.card = n → s.pc = .write → s.recv = recv → s.reads = reads → s.chunk = some c →
      Writing p arrived cached s.out s.core c → Roomy arrived s.core →
      ∃ t, Leads dup s t ∧ AtLoop p arrived recv reads t
  | n, cached, c, s, hn, hpc, hrecv, hreads, hchunk, hw, hroom => by
      obtain ⟨r', ha, hmax⟩ := advance_roomy hw hroom
      have hr' := advance_spec hw ha
      have hcaches : Caches r' cached := hw.caches.congr (by rw [hr']) (by rw [hr'])
      obtain ⟨r'', o, ht⟩ : ∃ r'' o, r'.takeNext = some (r'', o) := by
        rcases takeNext_spec hcaches with h | ⟨r'', d, h, -⟩
        · exact ⟨_, _, h⟩
        · exact ⟨_, _, h⟩
      have hstep : step dup s = { s with
          core := r'', chunk := o, out := s.out ++ [c], pc := if o.isSome then .write else .loop } := by
        simp only [step, hpc, hchunk, ha, Option.bind_some, ht]
      rcases writing_step hw ha ht with ⟨rfl, rfl, hseq⟩ | ⟨d, hd, rfl, hw', hmax'⟩
      · refine ⟨_, (Leads.refl _).head, ?_⟩
        rw [hstep]
        exact ⟨rfl, hrecv, hreads, fun c hc => (by cases hc), ⟨cached, hseq⟩,
          hmax ▸ hroom.large, by simp only [hmax]; exact hroom.room⟩
      · match n, hn with
        | 0, hn =>
          rw [Multiset.card_eq_zero] at hn
          rw [hn] at hd
          cases hd
        | n + 1, hn =>
          -- one chunk less in the cache
          have hcard : (cached.erase d).card = n := by rw [Multiset.card_erase_of_mem hd, hn]; rfl
          have hroom' : Roomy arrived r'' :=
            ⟨by rw [hmax', hmax]; exact hroom.large, by rw [hmax', hmax]; exact hroom.room⟩
          obtain ⟨t, hlead, ht⟩ := write_loop dup recv reads n (cached.erase d) d
            ⟨r'', s.recv, s.reads, some d, s.out ++ [c], .write⟩ hcard rfl hrecv hreads rfl hw' hroom'
          refine ⟨t, Leads.head ?_, ht⟩
          rw [hstep]
          exact hlead

/-- One chunk of the receive buffer. -/
theorem process_chunk (dup : Chunk → Bool) (hm : p.coarse < 2048) {arrived : Multiset Chunk} {c : Chunk}
    {recv : List Chunk} {reads : List (Option Chunk)} {s : Stage}
    (h : AtLoop p arrived (c :: recv) reads s) (hc : c ::ₘ arrived ≤ p.file) :
    ∃ t, Leads dup s t ∧ AtLoop p (c ::ₘ arrived) recv reads t := by
  obtain ⟨cached, hseq⟩ := h.inSeq
  have hfile : c ∈ p.file := Multiset.mem_of_le hc (Multiset.mem_cons_self c arrived)
  have hl : c.l1num < 2048 := (p.mem_file.mp hfile).1.trans hm
  obtain ⟨core, hnote, hroom⟩ := note_roomy hseq h.roomy hc (h.roomy.lt_double hl)
  have hchunk : ∀ d ∈ some c, d ∈ c ::ₘ arrived := by
    intro d hd
    obtain rfl := Option.mem_some_iff.mp hd
    exact Multiset.mem_cons_self _ _
  by_cases hnext : c.sequence = core.next
  · have hstep : step dup s =
        { s with core := core, recv := recv, chunk := some c, pc := .write } := by
      simp only [step, h.pc, h.recv, hnote, if_pos hnext]
    obtain ⟨t, hlead, ht⟩ := write_loop dup recv reads _ cached c
      ⟨core, recv, s.reads, some c, s.out, .write⟩ rfl rfl rfl h.reads rfl
      (inSeq_write hseq hc hnote hnext) hroom
    refine ⟨t, Leads.head ?_, ht⟩
    rw [hstep]
    exact hlead
  · obtain ⟨htree, hpmin, -, -, -⟩ := note_spec hseq hc hnote
    obtain ⟨core', hcache, -, -, -, hmax⟩ := cache_spec (hseq.caches.congr htree hpmin) c
    have hstep : step dup s = { s with core := core', recv := recv, chunk := some c } := by
      simp only [step, h.pc, h.recv, hnote, if_neg hnext, hcache]
    refine ⟨_, (Leads.refl _).head, ?_⟩
    rw [hstep]
    exact ⟨h.pc, rfl, h.reads, hchunk, ⟨_, inSeq_cache hseq hc hnote hnext hcache⟩,
      by simp only [hmax]; exact hroom.large, by simp only [hmax]; exact hroom.room⟩

/-- All chunks of the receive buffer. -/
theorem process_recv (dup : Chunk → Bool) (hm : p.coarse < 2048) {reads : List (Option Chunk)} :
    ∀ (recv : List Chunk) (arrived : Multiset Chunk) (s : Stage), AtLoop p arrived recv reads s →
      (recv : Multiset Chunk) + arrived ≤ p.file →
      ∃ t, Leads dup s t ∧ AtLoop p (recv + arrived) [] reads t
  | [], arrived, s, h, _ => ⟨s, Leads.refl s, by simpa using h⟩
  | c :: recv, arrived, s, h, hle => by
      have hmove : ((c :: recv : List Chunk) : Multiset Chunk) + arrived = recv + (c ::ₘ arrived) := by
        rw [← Multiset.cons_coe, Multiset.cons_add, Multiset.add_cons]
      rw [hmove] at hle ⊢
      obtain ⟨t, hst, ht⟩ := process_chunk dup hm h
        ((Multiset.le_add_left _ _).trans hle)
      obtain ⟨u, htu, hu⟩ := process_recv dup hm recv (c ::ₘ arrived) t ht hle
      exact ⟨u, hst.trans htu, hu⟩

/-! ### The flush loop -/

/-- The main loop has been left: only chunks that have arrived can still be written. -/
structure Flushing (arrived : Multiset Chunk) (s : Stage) : Prop where
  pc : s.pc = .flush ∨ s.pc = .done ∨ s.pc = .aborted
  out : ∀ c ∈ s.out, c ∈ arrived
  chunk : ∀ c ∈ s.chunk, c ∈ arrived
  caches : ∃ cached, Caches s.core cached ∧ ∀ c ∈ cached, c ∈ arrived

theorem advance_frame {r r' : Core} (h : r.advance = some r') : r'.tree = r.tree ∧ r'.pmin = r.pmin := by
  unfold Core.advance at h
  simp only at h
  split at h
  · split at h
    · cases h; exact ⟨rfl, rfl⟩
    · cases h; exact ⟨rfl, rfl⟩
  · cases h

/-- The least chunk of the least queue is in the cache. -/
theorem findMin_mem_cached {r : Core} {cs : Multiset Chunk} (h : Caches r cs) {l : ℕ} {q : Heap Chunk}
    {c : Chunk} (hmin : treeFindMin r.pmin r.tree = some (l, q)) (hc : findMin q = some c) : c ∈ cs := by
  rw [h.pmin] at hmin
  obtain ⟨hval, -, hcont⟩ := h.queue l q (treeFindMin_spec h.ordered hmin).1
  have hmem := (findMin_le Chunk.l2num hval hc).1
  rw [hcont] at hmem
  exact (Multiset.mem_filter.mp hmem).1

theorem flushing_step {arrived : Multiset Chunk} {s : Stage} (h : Flushing arrived s) :
    Flushing arrived (step dup s) := by
  obtain ⟨hpc, hout, hchunk, cached, hcaches, hsub⟩ := h
  rcases hpc with hpc | hpc | hpc
  · simp only [step, hpc]
    cases hmin : treeFindMin s.core.pmin s.core.tree with
    | none => exact ⟨.inr (.inl rfl), hout, hchunk, cached, hcaches, hsub⟩
    | some kq =>
      obtain ⟨l1num, queue⟩ := kq
      -- the cache that is left has arrived, and so has the chunk in hand
      obtain ⟨core, taken, ht, cached', hcaches', hsub'⟩ : ∃ core taken,
          s.core.takeNext = some (core, taken) ∧
          ∃ cached', Caches core cached' ∧ ∀ c ∈ cached', c ∈ arrived := by
        rcases takeNext_spec hcaches with ht | ⟨r', c, ht, -, -, hc', -⟩
        · exact ⟨_, _, ht, cached, hcaches, hsub⟩
        · exact ⟨_, _, ht, _, hc', fun d hd => hsub d (Multiset.mem_of_mem_erase hd)⟩
      simp only [ht]
      cases hor : if l1num = s.core.next.1 then findMin queue else s.chunk with
      | none => exact ⟨.inr (.inr rfl), hout, fun c hc => (by cases hc), cached', hcaches', hsub'⟩
      | some c =>
        have hc : c ∈ arrived := by
          split at hor
          · exact hsub c (findMin_mem_cached hcaches hmin hor)
          · exact hchunk c hor
        have hout' : ∀ d ∈ s.out ++ [c], d ∈ arrived := by
          intro d hd
          rcases List.mem_append.mp hd with hd | hd
          · exact hout d hd
          · exact List.mem_singleton.mp hd ▸ hc
        have hchunk' : ∀ d ∈ (if dup c then none else some c), d ∈ arrived := by
          intro d hd
          split at hd
          · cases hd
          · exact Option.mem_some_iff.mp hd ▸ hc
        simp only
        cases ha : core.advance with
        | none => exact ⟨.inr (.inr rfl), hout', hchunk', cached', hcaches', hsub'⟩
        | some core' =>
          obtain ⟨htree, hpmin⟩ := advance_frame ha
          exact ⟨.inl rfl, hout', hchunk', cached', hcaches'.congr htree hpmin, hsub'⟩
  · simp only [step, hpc]
    exact ⟨.inr (.inl hpc), hout, hchunk, cached, hcaches, hsub⟩
  · simp only [step, hpc]
    exact ⟨.inr (.inr hpc), hout, hchunk, cached, hcaches, hsub⟩

theorem flushing_leads {arrived : Multiset Chunk} {s : Stage} (h : Flushing arrived s) (n : ℕ) :
    Flushing arrived ((step dup)^[n] s) := by
  induction n with
  | zero => exact h
  | succ n ih =>
    rw [Function.iterate_succ_apply']
    exact flushing_step ih

theorem AtLoop.flushing {arrived : Multiset Chunk} {recv : List Chunk} {reads : List (Option Chunk)}
    {s t : Stage} (h : AtLoop p arrived recv reads s) (hpc : t.pc = .flush) (hcore : t.core = s.core)
    (hout : t.out = s.out) (hchunk : ∀ c ∈ t.chunk, c ∈ arrived) : Flushing arrived t := by
  obtain ⟨cached, hseq⟩ := h.inSeq
  refine ⟨.inl hpc, fun c hc => ?_, hchunk, cached, hcore ▸ hseq.caches, fun c hc => ?_⟩
  · rw [hout] at hc
    rw [← hseq.perm]
    exact Multiset.mem_add.mpr (.inl hc)
  · rw [← hseq.perm]
    exact Multiset.mem_add.mpr (.inr hc)

/-- When everything has arrived the flush loop finds nothing and the stage returns. -/
theorem AtLoop.finish (dup : Chunk → Bool) {recv : List Chunk} {reads : List (Option Chunk)} {s t : Stage}
    (h : AtLoop p p.file recv reads s) (hpc : t.pc = .flush) (hcore : t.core = s.core)
    (hout : t.out = s.out) : ∃ u, Leads dup t u ∧ u.pc = .done ∧ u.out = p.file := by
  obtain ⟨cached, hseq⟩ := h.inSeq
  obtain ⟨hfile, hnil⟩ := hseq.complete
  refine ⟨_, (Leads.refl _).head, ?_⟩
  have hmin : treeFindMin t.core.pmin t.core.tree = none := by
    rw [hcore, hseq.caches.pmin, hnil]; rfl
  simp only [step, hpc, hmin]
  exact ⟨trivial, hout.trans hfile⟩

/-! ### Whether all chunks are written is decided by the reads -/

/-- The outcome of the main loop: the stage returns with the file written, or it reaches the flush loop
    without having seen some chunk. -/
theorem main_loop (dup : Chunk → Bool) (hm : p.coarse < 2048) (n : ℕ) : ∀ (reads : List (Option Chunk))
    (arrived : Multiset Chunk) (s : Stage), reads.length = n → AtLoop p arrived [] reads s →
    arrived + reads.reduceOption = p.file →
    (Delivered reads → ∃ t, Leads dup s t ∧ t.pc = .done ∧ t.out = p.file) ∧
      (¬Delivered reads → ∃ t seen, Leads dup s t ∧ t.pc = .flush ∧ Flushing seen t ∧
        ∃ x ∈ p.file, x ∉ seen) := by
  induction n using Nat.strongRecOn with
  | _ n ih =>
    intro reads arrived s hlen h hall
    have hchunks := dequeue_chunks itemPerFetch reads
    have hclosed := dequeue_closed itemPerFetch reads
    have hlength := dequeue_length itemPerFetch reads
    rw [Delivered]
    generalize hcall : dequeueToRingbuffer itemPerFetch reads = call at hchunks hclosed hlength
    obtain ⟨moved, rest, closed⟩ := call
    simp only at hchunks hclosed hlength ⊢
    -- a chunk that is still to come has not arrived
    have hlost : ∀ x ∈ reads.reduceOption, x ∈ p.file ∧ x ∉ arrived := by
      intro x hx
      have hnd : (arrived + reads.reduceOption).Nodup := by rw [hall]; exact p.file_nodup
      have hmem : x ∈ arrived + (reads.reduceOption : Multiset Chunk) := Multiset.mem_add.mpr (.inr hx)
      rw [hall] at hmem
      exact ⟨hmem, fun ha => Multiset.disjoint_left.mp (Multiset.nodup_add.mp hnd).2.2 ha hx⟩
    by_cases hc : closed = true
    · -- the sentinel
      have hstep : step dup s = { s with recv := moved, reads := rest, pc := .flush } := by
        simp only [step, h.pc, h.recv, h.reads, hcall, hc, if_true]
      rw [if_pos hc]
      rw [hclosed hc, List.reduceOption_nil, List.append_nil] at hchunks
      refine ⟨fun hd => ?_, fun hd => ?_⟩
      · rw [← hchunks, hd] at hall
        have h' : AtLoop p p.file [] reads s := by
          rw [← hall]
          simpa using h
        obtain ⟨u, hu, hdone⟩ := h'.finish dup (t := step dup s) (by rw [hstep]) (by rw [hstep])
          (by rw [hstep])
        exact ⟨u, hu.head, hdone⟩
      · obtain ⟨x, hx⟩ := List.exists_mem_of_ne_nil _ hd
        rw [hchunks] at hx
        refine ⟨_, arrived, (Leads.refl _).head, by rw [hstep], ?_, x, (hlost x hx).1, (hlost x hx).2⟩
        exact h.flushing (by rw [hstep]) (by rw [hstep]) (by rw [hstep]) (by rw [hstep]; exact h.chunk)
    · by_cases hmoved : moved = []
      · -- the queue is empty: the stage takes this for the end
        have hstep : step dup s = { s with reads := rest, chunk := none, pc := .flush } := by
          simp only [step, h.pc, h.recv, h.reads, hcall, hc, hmoved, if_true]
          rfl
        rw [if_neg hc, if_pos hmoved]
        rw [hmoved, List.nil_append] at hchunks
        rw [hchunks]
        refine ⟨fun hd => ?_, fun hd => ?_⟩
        · rw [hd] at hall
          have h' : AtLoop p p.file [] reads s := by
            rw [← hall]
            simpa using h
          obtain ⟨u, hu, hdone⟩ := h'.finish dup (t := step dup s) (by rw [hstep])
            (by rw [hstep]) (by rw [hstep])
          exact ⟨u, hu.head, hdone⟩
        · obtain ⟨x, hx⟩ := List.exists_mem_of_ne_nil _ hd
          refine ⟨_, arrived, (Leads.refl _).head, by rw [hstep], ?_, x, (hlost x hx).1, (hlost x hx).2⟩
          exact h.flushing (by rw [hstep]) (by rw [hstep]) (by rw [hstep])
            (by rw [hstep]; exact fun c hc => (by cases hc))
      · -- the chunks are processed, and the next call follows
        have hstep : step dup s = { s with recv := moved, reads := rest } := by
          simp only [step, h.pc, h.recv, h.reads, hcall, hc, hmoved, if_false]
          rfl
        rw [if_neg hc, if_neg hmoved]
        have hat : AtLoop p arrived moved rest (step dup s) := by
          rw [hstep]
          exact ⟨h.pc, rfl, rfl, h.chunk, h.inSeq, h.roomy⟩
        have hsum : (moved : Multiset Chunk) + arrived + rest.reduceOption = p.file := by
          rw [← hall, ← hchunks, ← Multiset.coe_add, add_comm (moved : Multiset Chunk), add_assoc]
        have hpos : 0 < moved.length := List.length_pos_iff.mpr hmoved
        obtain ⟨t, hst, ht⟩ := process_recv dup hm moved arrived _ hat
          (hsum ▸ Multiset.le_add_right _ _)
        obtain ⟨hgood, hbad⟩ := ih rest.length (by omega) rest _ t rfl ht hsum
        refine ⟨fun hd => ?_, fun hd => ?_⟩
        · obtain ⟨u, hu, hdone⟩ := hgood hd
          exact ⟨u, (hst.trans hu).head, hdone⟩
        · obtain ⟨u, seen, hu, hflush⟩ := hbad hd
          exact ⟨u, seen, (hst.trans hu).head, hflush⟩

/-- CORRECT: the stage returns, having passed each chunk to `write_chunk_to_file` once, in file order,
    exactly when the reads meet the condition. -/
theorem resequences_iff (p : Plan) (hm : p.coarse < 2048) (dup : Chunk → Bool)
    (reads : List (Option Chunk)) (harr : reads.reduceOption.Perm p.file) :
    (∃ n, ((step dup)^[n] (Stage.new reads)).pc = .done ∧
      ((step dup)^[n] (Stage.new reads)).out = p.file) ↔ Delivered reads := by
  obtain ⟨hgood, hbad⟩ := main_loop dup hm _ reads 0 (Stage.new reads) rfl (atLoop_new reads)
    (by rw [zero_add]; exact Multiset.coe_eq_coe.mpr harr)
  constructor
  · rintro ⟨n, hdone, hout⟩
    by_contra hd
    obtain ⟨t, seen, ⟨k, hk⟩, hflush, hfl, x, hx, hxs⟩ := hbad hd
    rcases Nat.le_total k n with hle | hle
    · -- after the main loop the lost chunk is not written any more
      obtain ⟨j, rfl⟩ := Nat.exists_eq_add_of_le' hle
      rw [Function.iterate_add_apply, hk] at hout
      exact hxs ((flushing_leads hfl j).out x (hout ▸ hx))
    · -- a stage that has returned does not come to the flush loop
      obtain ⟨j, rfl⟩ := Nat.exists_eq_add_of_le' hle
      rw [Function.iterate_add_apply] at hk
      have hstay : ∀ i, (step dup)^[i] ((step dup)^[n] (Stage.new reads)) =
          (step dup)^[n] (Stage.new reads) := fun i =>
        Function.iterate_fixed (by simp only [step, hdone]) i
      rw [hstay] at hk
      rw [hk, hflush] at hdone
      cases hdone
  · intro hd
    obtain ⟨t, ⟨n, hn⟩, hdone⟩ := hgood hd
    exact ⟨n, hn ▸ hdone⟩

/-- Two coarse chunks of two fine chunks each, in two calls that end with an empty read. -/
theorem resequences_iff_two :
    let p : Plan := ⟨2, fun _ => 2, fun _ _ => by decide⟩
    let reads := [some (p.chunk 1 1), some (p.chunk 0 1), none, some (p.chunk 1 0), some (p.chunk 0 0), none]
    ∃ n, ((step fun _ => false)^[n] (Stage.new reads)).pc = .done ∧
      ((step fun _ => false)^[n] (Stage.new reads)).out =
        [p.chunk 0 0, p.chunk 0 1, p.chunk 1 0, p.chunk 1 1] := by
  intro p reads
  refine (resequences_iff p (by decide) (fun _ => false) reads (by decide)).mpr ?_
  rw [Delivered, Delivered, Delivered]
  simp [reads, dequeueToRingbuffer, itemPerFetch]

/-- One chunk; the first read finds the queue empty, the chunk comes after it. The stage returns without
    having written anything. -/
theorem empty_read_loses_chunk :
    let p : Plan := ⟨1, fun _ => 1, fun _ _ => by decide⟩
    let reads := [none, some (p.chunk 0 0)]
    reads.reduceOption.Perm p.file ∧
      ¬∃ n, ((step fun _ => false)^[n] (Stage.new reads)).pc = .done ∧
        ((step fun _ => false)^[n] (Stage.new reads)).out = p.file := by
  intro p reads
  refine ⟨by decide, ?_⟩
  rintro ⟨n, -, hout⟩
  have hfixed : ∀ k, ((step fun _ => false)^[k + 2] (Stage.new reads)).out = [] := fun k => by
    rw [Function.iterate_add_apply, Function.iterate_fixed rfl]
    rfl
  match n, hout with
  | 0, hout => cases hout
  | 1, hout => cases hout
  | n + 2, hout =>
    rw [hfixed] at hout
    cases hout

end Turkey.Reorder
