import Turkey.Dedup.Moves
import Turkey.Dedup.Resequencer

/-! The bounds of `chunks_per_anchor` in `Reorder` (`pthread/encoder.c` and `turkey/encoder.cpp`).

    The array has an entry for each coarse chunk and is made twice as long, once, when a chunk arrives
    whose `l1num` is not below its length. That is enough as long as no chunk arrives whose `l1num` is
    twice the length or more. A thread of `FragmentRefine` takes up to `MAX_PER_FETCH` coarse chunks at a
    time, so that the first chunk to arrive can be one of coarse chunk 2048. -/

namespace Turkey.Reorder
open Turkey.Binheap Turkey.SearchTree

/-- The accesses for an arriving chunk: the index, and the length of the array behind the resize. -/
def Core.arrivalAccesses (r : Core) (x : Chunk) : List (ℕ × ℕ) :=
  if x.isLastL2Chunk then [(x.l1num, (r.resize x.l1num).chunksPerAnchorMax)] else []

/-- The access for the cursor, behind a call of `write_chunk_to_file`. -/
def Core.cursorAccesses (r : Core) : List (ℕ × ℕ) := [(r.next.1, r.chunksPerAnchorMax)]

/-- The array has room for the chunk when it is doubled. -/
def Core.Fits (r : Core) (x : Chunk) : Prop := x.l1num < 2 * r.chunksPerAnchorMax

instance (r : Core) (x : Chunk) : Decidable (r.Fits x) := inferInstanceAs (Decidable (_ < _))

theorem resize_lt {r : Core} {x : Chunk} (h : r.Fits x) : x.l1num < (r.resize x.l1num).chunksPerAnchorMax := by
  unfold Core.Fits at h
  unfold Core.resize
  split
  · exact h
  · omega

theorem arrivalAccesses_lt {r : Core} {x : Chunk} (h : r.Fits x) : ∀ a ∈ r.arrivalAccesses x, a.1 < a.2 := by
  intro a ha
  unfold Core.arrivalAccesses at ha
  split at ha
  · rw [List.mem_singleton.mp ha]
    exact resize_lt h
  · cases ha

theorem note_frame {r r' : Core} {x : Chunk} (h : r.note x = some r') : r'.tree = r.tree ∧
    r'.pmin = r.pmin ∧ r'.next = r.next ∧
    r'.chunksPerAnchorMax = (r.resize x.l1num).chunksPerAnchorMax := by
  obtain ⟨htree, hpmin, hnext, -⟩ := resize_frame r x.l1num
  unfold Core.note at h
  simp only at h
  split at h
  · split at h
    · cases h
      exact ⟨htree, hpmin, hnext, rfl⟩
    · cases h
  · cases h
    exact ⟨htree, hpmin, hnext, rfl⟩

theorem advance_max {r r' : Core} (h : r.advance = some r') :
    r'.chunksPerAnchorMax = r.chunksPerAnchorMax := by
  unfold Core.advance at h
  simp only at h
  split at h
  · split at h
    · cases h; rfl
    · cases h; rfl
  · cases h

/-- Every chunk of the cache has an entry in the array. -/
def Indexed (r : Core) : Prop := ∃ cs, Caches r cs ∧ ∀ d ∈ cs, d.l1num < r.chunksPerAnchorMax

theorem indexed_new : Indexed Core.new := ⟨0, caches_new, fun _ hd => by cases hd⟩

/-- The chunk that arrives and those of the cache have an entry behind the resize. -/
theorem Indexed.note {r r' : Core} {x : Chunk} (h : Indexed r) (hfit : r.Fits x) (hn : r.note x = some r') :
    Indexed r' ∧ x.l1num < r'.chunksPerAnchorMax := by
  obtain ⟨cs, hcaches, hroom⟩ := h
  obtain ⟨htree, hpmin, -, hmax⟩ := note_frame hn
  have hgrow := (resize_frame r x.l1num).2.2.2
  refine ⟨⟨cs, hcaches.congr htree hpmin, fun d hd => ?_⟩, ?_⟩
  · rw [hmax]
    exact (hroom d hd).trans_le hgrow
  · rw [hmax]
    exact resize_lt hfit

theorem Indexed.cache {r r' : Core} {x : Chunk} (h : Indexed r) (hx : x.l1num < r.chunksPerAnchorMax)
    (hc : r.cache x = some r') : Indexed r' := by
  obtain ⟨cs, hcaches, hroom⟩ := h
  obtain ⟨s, hs, hcaches', -, -, hmax⟩ := cache_spec hcaches x
  obtain rfl := Option.some.inj (hs.symm.trans hc)
  refine ⟨x ::ₘ cs, hcaches', fun d hd => ?_⟩
  rw [hmax]
  rcases Multiset.mem_cons.mp hd with rfl | hd
  · exact hx
  · exact hroom d hd

theorem Indexed.advance {r r' : Core} (h : Indexed r) (ha : r.advance = some r') : Indexed r' := by
  obtain ⟨cs, hcaches, hroom⟩ := h
  obtain ⟨htree, hpmin⟩ := advance_frame ha
  exact ⟨cs, hcaches.congr htree hpmin, by rw [advance_max ha]; exact hroom⟩

/-- A chunk that is taken out of the cache is the next one and has an entry. -/
theorem Indexed.takeNext {r r' : Core} {o : Option Chunk} (h : Indexed r)
    (ht : r.takeNext = some (r', o)) : Indexed r' ∧
      ∀ x ∈ o, x.sequence = r'.next ∧ x.l1num < r'.chunksPerAnchorMax := by
  obtain ⟨cs, hcaches, hroom⟩ := h
  rcases takeNext_spec hcaches with hnone | ⟨s, d, hsome, hd, hseq, hcaches', hnext, -, hmax⟩
  · rw [hnone, Option.some.injEq, Prod.mk.injEq] at ht
    obtain ⟨rfl, rfl⟩ := ht
    exact ⟨⟨cs, hcaches, hroom⟩, fun x hx => by cases hx⟩
  · rw [hsome, Option.some.injEq, Prod.mk.injEq] at ht
    obtain ⟨rfl, rfl⟩ := ht
    refine ⟨⟨cs.erase d, hcaches', fun e he => ?_⟩, fun x hx => ?_⟩
    · rw [hmax]
      exact hroom e (Multiset.mem_of_mem_erase he)
    · obtain rfl := Option.mem_some_iff.mp hx
      exact ⟨hseq.trans hnext.symm, by rw [hmax]; exact hroom _ hd⟩

end Turkey.Reorder

/-! ### The pthread version -/

namespace Turkey.Pipeline
open Turkey.Run
open Turkey.Reorder (Chunk Core Plan Indexed)

section Pthread
variable {c : Config} {D κ : Type*}

/-- The accesses of the next step of `Reorder`. -/
def ReorderThread.accesses (t : ReorderThread c D κ) : List (ℕ × ℕ) :=
  match t.pc, t.recv with
  | .take, x :: _ => t.core.arrivalAccesses x
  | .write _, _ | .flushWrite _, _ => t.core.cursorAccesses
  | _, _ => []

/-- The accesses of a step are in bounds. -/
def InBounds (s : State c D κ) (t : Thread c) : Prop :=
  t = .reorder → ∀ a ∈ s.reorder.accesses, a.1 < a.2

/-- The array has room, when it is doubled, for a chunk that arrives with the step. -/
def ArrivalFits (s : State c D κ) (t : Thread c) : Prop :=
  t = .reorder → s.reorder.pc = .take → ∀ x ∈ s.reorder.recv.head?, s.reorder.core.Fits x

instance (s : State c D κ) : DecidablePred (ArrivalFits s) :=
  fun t => inferInstanceAs
    (Decidable (t = .reorder → s.reorder.pc = .take → ∀ x ∈ s.reorder.recv.head?, s.reorder.core.Fits x))

/-- The chunks of the cache and the chunk in hand have an entry in the array, and the chunk in hand is the
    next one. -/
def EntriesExist (t : ReorderThread c D κ) : Prop :=
  Indexed t.core ∧ match t.pc with
    | .write x | .flushWrite x => x.sequence = t.core.next ∧ x.l1num < t.core.chunksPerAnchorMax
    | _ => True

theorem EntriesExist.afterChunk {t : ReorderThread c D κ} (h : Indexed t.core)
    (hpc : t.pc = Pipeline.afterChunk t.recv) : EntriesExist t := by
  refine ⟨h, ?_⟩
  rw [hpc, Pipeline.afterChunk]
  by_cases hrecv : t.recv = []
  · rw [if_pos hrecv]
    trivial
  · rw [if_neg hrecv]
    trivial

theorem EntriesExist.inBounds {s : State c D κ} {t : Thread c} (h : EntriesExist s.reorder)
    (hfit : ArrivalFits s t) : InBounds s t := by
  rintro rfl a ha
  obtain ⟨-, hpc⟩ := h
  have hcursor : ∀ x : Chunk, x.sequence = s.reorder.core.next ∧
      x.l1num < s.reorder.core.chunksPerAnchorMax → a ∈ s.reorder.core.cursorAccesses → a.1 < a.2 := by
    rintro x ⟨hseq, hlt⟩ hmem
    rw [List.mem_singleton.mp hmem]
    have hl1 : x.l1num = s.reorder.core.next.1 := congrArg Prod.fst hseq
    exact hl1 ▸ hlt
  unfold ReorderThread.accesses at ha
  split at ha
  · rename_i x recv htake hrecv
    exact Reorder.arrivalAccesses_lt (hfit rfl htake x (by rw [hrecv]; exact Option.mem_some_self x)) a ha
  · rename_i x hx
    rw [hx] at hpc
    exact hcursor x hpc ha
  · rename_i x hx
    rw [hx] at hpc
    exact hcursor x hpc ha
  · cases ha

section Steps
variable [DecidableEq D] {p : Plan} {digest : Chunk → D} {packed : Chunk → κ}

omit [DecidableEq D] in
theorem entriesExist_reorder {s s' : State c D κ} (h : EntriesExist s.reorder)
    (hfit : ArrivalFits s .reorder) (hm : ReorderMove digest s s') : EntriesExist s'.reorder := by
  obtain ⟨hindexed, hpc'⟩ := h
  cases hm with
  | fetch | closed | exhausted | nothing | done => exact ⟨hindexed, trivial⟩
  | next x recv core hpc hrecv hnote hnext =>
    obtain ⟨hcore, hx⟩ := hindexed.note (hfit rfl hpc x (by rw [hrecv]; exact Option.mem_some_self x)) hnote
    exact ⟨hcore, hnext, hx⟩
  | hold x recv core core' hpc hrecv hnote hnext hcache =>
    obtain ⟨hcore, hx⟩ := hindexed.note (hfit rfl hpc x (by rw [hrecv]; exact Option.mem_some_self x)) hnote
    exact .afterChunk (hcore.cache hx hcache) rfl
  | write x record table core core' next hpc hwrite hadv htake =>
    obtain ⟨hcore, hnext⟩ := (hindexed.advance hadv).takeNext htake
    cases next with
    | none => exact .afterChunk hcore rfl
    | some y => exact ⟨hcore, hnext y (Option.mem_some_self y)⟩
  | pick x core hpc htake =>
    obtain ⟨hcore, hnext⟩ := hindexed.takeNext htake
    exact ⟨hcore, hnext x (Option.mem_some_self x)⟩
  | flush x record table core hpc hwrite hadv => exact ⟨hindexed.advance hadv, trivial⟩

theorem entriesExist_step (s : State c D κ) (t : Thread c) (s' : State c D κ)
    (h : EntriesExist s.reorder) (hfit : ArrivalFits s t) (hs : step p digest packed s t = some s') :
    EntriesExist s'.reorder := by
  obtain ⟨-, hm | ⟨e, -, rfl⟩⟩ := step_cases p digest packed hs
  · cases t with
    | fragment =>
      have hreorder : s'.reorder = s.reorder := by cases hm <;> rfl
      exact hreorder ▸ h
    | worker k =>
      have hreorder : s'.reorder = s.reorder := by cases hm <;> rfl
      exact hreorder ▸ h
    | reorder => exact entriesExist_reorder h hfit hm
  · exact h

/-- In every run of the pthread version in which every arriving chunk has room, every access is in
    bounds. -/
theorem pthread_inBounds {ts : List (Thread c)}
    (h : Meets (step p digest packed) ArrivalFits (State.new c p) ts) :
    Meets (step p digest packed) InBounds (State.new c p) ts :=
  Meets.of_inv (I := fun s => EntriesExist s.reorder) entriesExist_step (fun _ _ hI hG => hI.inBounds hG)
    ⟨Reorder.indexed_new, trivial⟩ h

end Steps

end Pthread

end Turkey.Pipeline

/-! ### The Turkey port -/

namespace Turkey.Reorder
open Turkey.Binheap Turkey.SearchTree

/-- The accesses of the next step of the stage. The flush loop comes to its access when it has a chunk to
    write. -/
def Stage.accesses (s : Stage) : List (ℕ × ℕ) :=
  match s.pc with
  | .loop => match s.recv with
    | [] => []
    | x :: _ => s.core.arrivalAccesses x
  | .write => if s.chunk.isSome then s.core.cursorAccesses else []
  | .flush => match treeFindMin s.core.pmin s.core.tree with
    | none => []
    | some (l1num, queue) =>
      if (if l1num = s.core.next.1 then findMin queue else s.chunk).isSome then s.core.cursorAccesses else []
  | .done | .aborted => []

/-- The array has room, when it is doubled, for the chunk that arrives with the next step. -/
def Stage.ArrivalFits (s : Stage) : Prop := s.pc = .loop → ∀ x ∈ s.recv.head?, s.core.Fits x

instance : DecidablePred Stage.ArrivalFits :=
  fun s => inferInstanceAs (Decidable (s.pc = .loop → ∀ x ∈ s.recv.head?, s.core.Fits x))

variable {p : Plan} {dup : Chunk → Bool}

/-- What is in the cache comes at the cursor or behind it. -/
def NotBefore (next : ℕ × ℕ) (d : Chunk) : Prop := next.1 < d.l1num ∨ next.1 = d.l1num ∧ next.2 ≤ d.l2num

/-- What has arrived and has not been written is still to be written. -/
theorem InSeq.notBefore {arrived cached : Multiset Chunk} {out : List Chunk} {r : Core}
    (h : InSeq p arrived cached out r) {d : Chunk} (hd : d ∈ cached) : NotBefore r.next d := by
  have hdarr : d ∈ arrived := h.perm ▸ Multiset.mem_add.mpr (.inr hd)
  have hdfile : d ∈ p.file := Multiset.mem_of_le h.sub hdarr
  have hdis := (Multiset.nodup_add.mp (h.perm ▸ h.nodup)).2.2
  rw [← h.split] at hdfile
  rcases List.mem_append.mp hdfile with hdout | hdrest
  · exact absurd hd fun hd => Multiset.disjoint_left.mp hdis (Multiset.mem_coe.mpr hdout) hd
  · exact (p.mem_rest.mp hdrest).2.2.2

/-- In the flush loop: the chunks of the cache have an entry, none of them comes before the cursor, and
    where the number of fine chunks is known it is the right one. -/
structure Flushable (p : Plan) (cached : Multiset Chunk) (r : Core) : Prop where
  caches : Caches r cached
  sub : cached ≤ p.file
  room : ∀ d ∈ cached, d.l1num < r.chunksPerAnchorMax
  later : ∀ d ∈ cached, NotBefore r.next d
  known : ∀ d ∈ cached, r.chunksPerAnchor d.l1num ≠ 0 → r.chunksPerAnchor d.l1num = p.fine d.l1num

theorem InSeq.flushable {arrived cached : Multiset Chunk} {out : List Chunk} {r : Core}
    (h : InSeq p arrived cached out r) (hroom : Roomy arrived r) : Flushable p cached r := by
  have harrived : ∀ d ∈ cached, d ∈ arrived := fun d hd => h.perm ▸ Multiset.mem_add.mpr (.inr hd)
  refine ⟨h.caches, ?_, fun d hd => hroom.room d (harrived d hd), fun d hd => h.notBefore hd,
    fun d hd hne => ?_⟩
  · exact (h.perm ▸ Multiset.le_add_left cached (out : Multiset Chunk)).trans h.sub
  · have hknown := h.counts.known d.l1num (hroom.room d (harrived d hd))
    rw [hknown] at hne ⊢
    split at hne
    · rename_i hmem
      rw [if_pos hmem]
    · exact absurd rfl hne

/-- While the cache is not empty, the cursor has an entry: it is not behind the least chunk there. -/
theorem Flushable.cursor_lt {cached : Multiset Chunk} {r : Core} (h : Flushable p cached r) {l : ℕ}
    {q : Heap Chunk} (hmin : treeFindMin r.pmin r.tree = some (l, q)) : r.next.1 < r.chunksPerAnchorMax := by
  rw [h.caches.pmin] at hmin
  obtain ⟨-, hne, hcont⟩ := h.caches.queue l q (treeFindMin_spec h.caches.ordered hmin).1
  obtain ⟨d, hd⟩ := Multiset.exists_mem_of_ne_zero hne
  rw [hcont] at hd
  have hcached := (Multiset.mem_filter.mp hd).1
  have hroom := h.room d hcached
  rcases h.later d hcached with hlater | ⟨hlater, -⟩ <;> omega

/-- The cursor moves on when no chunk of the cache is at it. -/
theorem Flushable.advance {cached : Multiset Chunk} {r r' : Core} (h : Flushable p cached r)
    (hnext : ∀ d ∈ cached, d.sequence ≠ r.next) (ha : r.advance = some r') : Flushable p cached r' := by
  obtain ⟨tree, pmin, ⟨l1, l2⟩, cpa, max⟩ := r
  have hbehind : ∀ d ∈ cached, l1 < d.l1num ∨ l1 = d.l1num ∧ l2 < d.l2num := by
    intro d hd
    rcases h.later d hd with hlater | ⟨hl1, hl2⟩
    · exact .inl hlater
    · refine .inr ⟨hl1, lt_of_le_of_ne hl2 fun heq => hnext d hd ?_⟩
      exact Prod.ext hl1.symm heq.symm
  simp only [Core.advance] at ha
  split at ha
  · split at ha
    · rename_i hdone
      cases ha
      refine ⟨h.caches.congr rfl rfl, h.sub, h.room, fun d hd => ?_, h.known⟩
      -- a chunk of the coarse chunk that is complete would have a number beyond its end
      rcases hbehind d hd with hlater | ⟨rfl, hl2⟩
      · rcases Nat.lt_or_ge (l1 + 1) d.l1num with hlt | hge
        · exact .inl hlt
        · exact .inr ⟨by simp only; omega, Nat.zero_le _⟩
      · exfalso
        have hfine := h.known d hd hdone.1
        have hfile := (p.mem_file.mp (Multiset.mem_of_le h.sub hd)).2.1
        simp only at hfine
        omega
    · cases ha
      refine ⟨h.caches.congr rfl rfl, h.sub, h.room, fun d hd => ?_, h.known⟩
      rcases hbehind d hd with hlater | ⟨hl1, hl2⟩
      · exact .inl hlater
      · exact .inr ⟨hl1, hl2⟩
  · cases ha

/-- What `takeNext` leaves in the cache is not at the cursor. -/
theorem Flushable.takeNext {cached : Multiset Chunk} {r r' : Core} {o : Option Chunk}
    (h : Flushable p cached r) (ht : r.takeNext = some (r', o)) :
    ∃ cached', Flushable p cached' r' ∧ (∀ d ∈ cached', d.sequence ≠ r'.next) ∧
      r'.chunksPerAnchorMax = r.chunksPerAnchorMax ∧ r'.next = r.next := by
  rcases takeNext_spec h.caches with hnone | ⟨s, d, hsome, hd, hseq, hcaches, hnext, hcpa, hmax⟩
  · have hsame := hnone.symm.trans ht
    rw [Option.some.injEq, Prod.mk.injEq] at hsame
    obtain ⟨rfl, -⟩ := hsame
    exact ⟨cached, h, fun d hd hseq => takeNext_complete h.caches h.later hd hseq hnone, rfl, rfl⟩
  · rw [hsome, Option.some.injEq, Prod.mk.injEq] at ht
    obtain ⟨rfl, -⟩ := ht
    have hmem : ∀ e ∈ cached.erase d, e ∈ cached := fun e he => Multiset.mem_of_mem_erase he
    refine ⟨cached.erase d, ⟨hcaches, (Multiset.erase_le d cached).trans h.sub, ?_, ?_, ?_⟩,
      fun e he heq => ?_, hmax, hnext⟩
    · rw [hmax]
      exact fun e he => h.room e (hmem e he)
    · rw [hnext]
      exact fun e he => h.later e (hmem e he)
    · rw [hcpa]
      exact fun e he => h.known e (hmem e he)
    · -- two chunks of the file with one number are one chunk, and it was taken
      have hnodup : cached.Nodup := Multiset.nodup_of_le h.sub p.file_nodup
      have hed : e = d := by
        obtain ⟨-, -, he'⟩ := p.mem_file.mp (Multiset.mem_of_le h.sub (hmem e he))
        obtain ⟨-, -, hd'⟩ := p.mem_file.mp (Multiset.mem_of_le h.sub hd)
        have hboth : e.sequence = d.sequence := heq.trans (hnext.trans hseq.symm)
        obtain ⟨hl1, hl2⟩ := Prod.mk.inj hboth
        rw [he', hd', hl1, hl2]
      exact (Multiset.Nodup.notMem_erase hnodup) (hed ▸ he)

/-- The chunks that have arrived and those still to come are part of the file. -/
def Coming (p : Plan) (arrived : Multiset Chunk) (s : Stage) : Prop :=
  arrived + (s.recv : Multiset Chunk) + (s.reads.reduceOption : Multiset Chunk) ≤ p.file

/-- Where the stage stands, every coarse chunk that has been heard of has an entry. -/
def Bounded (p : Plan) (s : Stage) : Prop :=
  match s.pc with
  | .loop => ∃ arrived cached, InSeq p arrived cached s.out s.core ∧ Roomy arrived s.core ∧
      Coming p arrived s
  | .write => ∃ arrived cached c, s.chunk = some c ∧ Writing p arrived cached s.out s.core c ∧
      Roomy arrived s.core ∧ Coming p arrived s
  | .flush => ∃ cached, Flushable p cached s.core
  | .done | .aborted => True

theorem bounded_new {reads : List (Option Chunk)} (h : (reads.reduceOption : Multiset Chunk) ≤ p.file) :
    Bounded p (Stage.new reads) := by
  refine ⟨0, 0, inSeq_new p, ⟨le_rfl, fun c hc => by cases hc⟩, ?_⟩
  change (0 : Multiset Chunk) + (([] : List Chunk) : Multiset Chunk) + (reads.reduceOption : Multiset Chunk)
    ≤ p.file
  rwa [Multiset.coe_nil, zero_add, zero_add]

/-- A call that fetches chunks, or finds no more. -/
theorem bounded_fetch {s : Stage} (h : Bounded p s) (hpc : s.pc = .loop) (hrecv : s.recv = []) :
    Bounded p (step dup s) := by
  rw [Bounded, hpc] at h
  obtain ⟨arrived, cached, hseq, hroom, hcoming⟩ := h
  have hchunks := dequeue_chunks itemPerFetch s.reads
  have hflush : ∀ t : Stage, t.pc = .flush → t.core = s.core → Bounded p t := by
    intro t hflush hcore
    rw [Bounded, hflush]
    exact ⟨cached, hcore ▸ hseq.flushable hroom⟩
  simp only [step, hpc, hrecv]
  split
  · exact hflush _ rfl rfl
  · split
    · exact hflush _ rfl rfl
    · refine ⟨arrived, cached, hseq, hroom, ?_⟩
      rw [Coming, hrecv, Multiset.coe_nil, add_zero, ← hchunks, ← Multiset.coe_add, ← add_assoc] at hcoming
      exact hcoming

/-- A chunk arrives. -/
theorem bounded_arrival {s : Stage} {x : Chunk} {recv : List Chunk} (h : Bounded p s) (hpc : s.pc = .loop)
    (hrecv : s.recv = x :: recv) (hfit : s.core.Fits x) : Bounded p (step dup s) := by
  rw [Bounded, hpc] at h
  obtain ⟨arrived, cached, hseq, hroom, hcoming⟩ := h
  have hsum : arrived + (s.recv : Multiset Chunk) = (x ::ₘ arrived) + (recv : Multiset Chunk) := by
    rw [hrecv, ← Multiset.cons_coe, Multiset.add_cons, Multiset.cons_add]
  rw [Coming, hsum] at hcoming
  have hle : x ::ₘ arrived ≤ p.file :=
    (Multiset.le_add_right _ _).trans ((Multiset.le_add_right _ _).trans hcoming)
  obtain ⟨core, hnote, hroom'⟩ := note_roomy hseq hroom hle hfit
  simp only [step, hpc, hrecv, hnote]
  split
  · rename_i hnext
    exact ⟨x ::ₘ arrived, cached, x, rfl, inSeq_write hseq hle hnote hnext, hroom', hcoming⟩
  · rename_i hnext
    obtain ⟨htree, hpmin, -⟩ := note_spec hseq hle hnote
    obtain ⟨core', hcache, -, -, -, hmax⟩ := cache_spec (hseq.caches.congr htree hpmin) x
    simp only [hcache]
    refine ⟨x ::ₘ arrived, x ::ₘ cached, inSeq_cache hseq hle hnote hnext hcache, ?_, hcoming⟩
    exact ⟨hmax ▸ hroom'.large, hmax ▸ hroom'.room⟩

/-- A chunk has been written. -/
theorem bounded_write {s : Stage} (h : Bounded p s) (hpc : s.pc = .write) : Bounded p (step dup s) := by
  rw [Bounded, hpc] at h
  obtain ⟨arrived, cached, x, hchunk, hw, hroom, hcoming⟩ := h
  obtain ⟨core, hadv, hmax⟩ := advance_roomy hw hroom
  have hcaches : Caches core cached := by
    obtain ⟨htree, hpmin⟩ := advance_frame hadv
    exact hw.caches.congr htree hpmin
  obtain ⟨core', o, htake⟩ : ∃ core' o, core.takeNext = some (core', o) := by
    rcases takeNext_spec hcaches with htake | ⟨core', d, htake, -⟩
    · exact ⟨_, _, htake⟩
    · exact ⟨_, _, htake⟩
  simp only [step, hpc, hchunk, hadv, Option.bind_some, htake]
  rcases writing_step hw hadv htake with ⟨rfl, rfl, hseq⟩ | ⟨d, -, rfl, hw', hmax'⟩
  · exact ⟨arrived, cached, hseq, ⟨hmax ▸ hroom.large, hmax ▸ hroom.room⟩, hcoming⟩
  · refine ⟨arrived, _, d, rfl, hw', ?_, hcoming⟩
    exact ⟨by rw [hmax', hmax]; exact hroom.large, by rw [hmax', hmax]; exact hroom.room⟩

/-- One turn of the flush loop. -/
theorem bounded_flush {s : Stage} (h : Bounded p s) (hpc : s.pc = .flush) : Bounded p (step dup s) := by
  rw [Bounded, hpc] at h
  obtain ⟨cached, hflush⟩ := h
  simp only [step, hpc]
  split
  · trivial
  · split
    · trivial
    · rename_i core taken htake
      obtain ⟨cached', hflush', hnext, -⟩ := hflush.takeNext htake
      split
      · trivial
      · split
        · trivial
        · rename_i core' hadv
          exact ⟨cached', hflush'.advance hnext hadv⟩

theorem bounded_step {s : Stage} (h : Bounded p s) (hfit : s.ArrivalFits) : Bounded p (step dup s) := by
  cases hpc : s.pc with
  | loop =>
    cases hrecv : s.recv with
    | nil => exact bounded_fetch h hpc hrecv
    | cons x recv => exact bounded_arrival h hpc hrecv (hfit hpc x (by rw [hrecv]; exact Option.mem_some_self x))
  | write => exact bounded_write h hpc
  | flush => exact bounded_flush h hpc
  | done =>
    have hsame : step dup s = s := by simp only [step, hpc]
    exact hsame.symm ▸ h
  | aborted =>
    have hsame : step dup s = s := by simp only [step, hpc]
    exact hsame.symm ▸ h

theorem Bounded.inBounds {s : Stage} (h : Bounded p s) (hfit : s.ArrivalFits) :
    ∀ a ∈ s.accesses, a.1 < a.2 := by
  intro a ha
  have hcursor : s.core.next.1 < s.core.chunksPerAnchorMax → a ∈ s.core.cursorAccesses → a.1 < a.2 := by
    intro hlt hmem
    rw [List.mem_singleton.mp hmem]
    exact hlt
  unfold Stage.accesses at ha
  split at ha
  · rename_i hpc
    split at ha
    · cases ha
    · rename_i x recv hrecv
      exact arrivalAccesses_lt (hfit hpc x (by rw [hrecv]; exact Option.mem_some_self x)) a ha
  · rename_i hpc
    rw [Bounded, hpc] at h
    obtain ⟨arrived, cached, x, -, hw, hroom, -⟩ := h
    split at ha
    · refine hcursor ?_ ha
      have hx := hroom.room x hw.mem_arrived
      rwa [show x.l1num = s.core.next.1 from congrArg Prod.fst hw.isNext] at hx
    · cases ha
  · rename_i hpc
    rw [Bounded, hpc] at h
    obtain ⟨cached, hflush⟩ := h
    split at ha
    · cases ha
    · rename_i l1num queue hmin
      generalize (if l1num = s.core.next.1 then findMin queue else s.chunk) = chunk at ha
      cases chunk with
      | none => cases ha
      | some x => exact hcursor (hflush.cursor_lt hmin) ha
  · cases ha
  · cases ha

/-- Along a run of the stage in which every arriving chunk has room, all coarse chunks heard of have an
    entry. -/
theorem bounded_run {reads : List (Option Chunk)} (h : (reads.reduceOption : Multiset Chunk) ≤ p.file) :
    ∀ n, (∀ k < n, ((step dup)^[k] (Stage.new reads)).ArrivalFits) →
      Bounded p ((step dup)^[n] (Stage.new reads))
  | 0, _ => bounded_new h
  | n + 1, hfit => by
      rw [Function.iterate_succ_apply']
      exact bounded_step (bounded_run h n fun k hk => hfit k (by omega)) (hfit n (by omega))

end Turkey.Reorder

/-! ### Runs in which a thread is overtaken -/

namespace Turkey.Pipeline
open Turkey.Run
open Turkey.Reorder (Chunk Core Plan)

/-- Two threads in each pool and queues as long as in the source. -/
def twoThreads : Config := ⟨2, 1024 * 1024, Nat.two_pos, by decide⟩

/-- Coarse chunks of one fine chunk each. -/
def singles (m : ℕ) : Plan := ⟨m, fun _ => 1, fun _ _ => Nat.one_pos⟩

/-- After `Fragment` has sent the first `j` of `m` coarse chunks. -/
def sent (m j : ℕ) : State twoThreads Chunk ℕ :=
  { (State.new twoThreads (singles m) : State twoThreads Chunk ℕ) with
    que := Function.update (State.new twoThreads (singles m) : State twoThreads Chunk ℕ).que
      (.refine, twoThreads.firstQid) ⟨(List.range j).map coarseChunk, 1, 0⟩
    fragment := ⟨(List.range' j (m - j)).map coarseChunk, [], twoThreads.firstQid, .split⟩ }

/-- A thread of `FragmentRefine` has taken them all. -/
def stalled (m j : ℕ) : State twoThreads Chunk ℕ :=
  { (State.new twoThreads (singles m) : State twoThreads Chunk ℕ) with
    fragment := ⟨(List.range' j (m - j)).map coarseChunk, [], twoThreads.firstQid, .split⟩
    worker := Function.update (State.new twoThreads (singles m) : State twoThreads Chunk ℕ).worker
      (.FragmentRefine, ⟨0, by decide⟩) ⟨(List.range j).map coarseChunk, [], fun _ => [], .fetch⟩ }

/-- The digests of the chunks differ, and their data is not looked at. -/
abbrev singlesStep (m : ℕ) : State twoThreads Chunk ℕ → Thread twoThreads → Option (State twoThreads Chunk ℕ) :=
  step (singles m) (fun x => x) fun x => x.l1num

theorem sent_que (m j : ℕ) : (sent m j).que (.refine, twoThreads.firstQid)
    = ⟨(List.range j).map coarseChunk, 1, 0⟩ := by
  simp only [sent, Function.update_self]

theorem sent_zero (m : ℕ) : sent m 0 = State.new twoThreads (singles m) := by
  have hque : Function.update (State.new twoThreads (singles m) : State twoThreads Chunk ℕ).que
      (.refine, twoThreads.firstQid) ⟨(List.range 0).map coarseChunk, 1, 0⟩
        = (State.new twoThreads (singles m) : State twoThreads Chunk ℕ).que := Function.update_eq_self _ _
  rw [sent, hque, Nat.sub_zero, ← List.range_eq_range']
  rfl

/-- With the next coarse chunk in its buffer. -/
def sending (m j : ℕ) : State twoThreads Chunk ℕ :=
  { sent m j with fragment :=
      ⟨(List.range' (j + 1) (m - (j + 1))).map coarseChunk, [coarseChunk j], twoThreads.firstQid, .enqueue⟩ }

theorem sent_sending {m j : ℕ} (hj : j < m) : singlesStep m (sent m j) .fragment = some (sending m j) := by
  have hrow : List.range' j (m - j) = j :: List.range' (j + 1) (m - (j + 1)) := by
    rw [show m - j = (m - (j + 1)) + 1 by omega, List.range'_succ]
  have hcrash : (sent m j).crash = none := rfl
  have hpc : (sent m j).fragment.pc = .split := rfl
  have htodo : (sent m j).fragment.todo
      = coarseChunk j :: (List.range' (j + 1) (m - (j + 1))).map coarseChunk := by
    rw [sent, hrow, List.map_cons]
  simp only [singlesStep, step, if_pos hcrash, fragmentStep, hpc, htodo]
  rfl

theorem sending_sent {m j : ℕ} (hroom : j < 1024 * 1024) :
    singlesStep m (sending m j) .fragment = some (sent m (j + 1)) := by
  have hcrash : (sending m j).crash = none := rfl
  have hpc : (sending m j).fragment.pc = .enqueue := rfl
  have hque : (sending m j).que (.refine, twoThreads.firstQid)
      = ⟨(List.range j).map coarseChunk, 1, 0⟩ := sent_que m j
  have hcall : queueEnqueue twoThreads.queueSize anchorDataPerInsert ⟨(List.range j).map coarseChunk, 1, 0⟩
      [coarseChunk j] = .moved [] ⟨(List.range (j + 1)).map coarseChunk, 1, 0⟩ := by
    have hlen : ((List.range j).map coarseChunk).length < twoThreads.queueSize := by
      rw [List.length_map, List.length_range]
      exact hroom
    have hn : min anchorDataPerInsert (twoThreads.queueSize - ((List.range j).map coarseChunk).length) = 1 := by
      unfold anchorDataPerInsert
      omega
    simp only [queueEnqueue, Nat.zero_lt_one, if_true, hlen, hn, List.range_succ, List.map_append]
    rfl
  have hsend : fragmentEnqueue (sending m j) .split = some (sent m (j + 1)) := by
    unfold fragmentEnqueue
    simp only [show (sending m j).fragment.qid = twoThreads.firstQid from rfl,
      show (sending m j).fragment.sendBuf = [coarseChunk j] from rfl, hque, hcall]
    rw [if_pos (show ([] : List Chunk).length < [coarseChunk j].length from Nat.zero_lt_one)]
    simp only [State.setQue, sending, sent, Function.update_idem]
    rfl
  simp only [singlesStep, step, if_pos hcrash, fragmentStep, hpc]
  exact hsend

/-- `Fragment` sends the first coarse chunks. -/
theorem exec_sent {m : ℕ} : ∀ j, j ≤ m → j ≤ 1024 * 1024 →
    exec (singlesStep m) (State.new twoThreads (singles m)) (List.replicate (2 * j) .fragment) = some (sent m j)
  | 0, _, _ => by rw [sent_zero]; rfl
  | j + 1, hj, hroom => by
      rw [Nat.mul_succ, List.replicate_add, exec_append, exec_sent j (by omega) (by omega), Option.bind_some]
      refine exec_cons_eq_some.mpr ⟨_, sent_sending hj, exec_cons_eq_some.mpr ⟨_, sending_sent hroom, rfl⟩⟩

/-- A thread of `FragmentRefine` takes all that there are. -/
theorem sent_stalled {m j : ℕ} (hpos : 0 < j) (hj : j ≤ maxPerFetch) :
    singlesStep m (sent m j) (.worker (.FragmentRefine, ⟨0, by decide⟩)) = some (stalled m j) := by
  have hcrash : (sent m j).crash = none := rfl
  have hcall : queueDequeue maxPerFetch ⟨(List.range j).map coarseChunk, 1, 0⟩
      = .moved ((List.range j).map coarseChunk) ⟨[], 1, 0⟩ := by
    have hlen : ((List.range j).map coarseChunk).length ≤ maxPerFetch := by
      rw [List.length_map, List.length_range]
      exact hj
    have hne : (List.range j).map coarseChunk ≠ [] := by simp; omega
    rw [queueDequeue, if_neg hne, List.take_of_length_le hlen, List.drop_of_length_le hlen]
  have hback : Function.update (sent m j).que (.refine, twoThreads.firstQid) ⟨[], 1, 0⟩
      = (State.new twoThreads (singles m) : State twoThreads Chunk ℕ).que := by
    rw [sent, Function.update_idem]
    exact Function.update_eq_self _ _
  have hfetch : workerStep (singles m) (fun x => x) (fun x => x.l1num) (sent m j)
      (.FragmentRefine, ⟨0, by decide⟩) = some (stalled m j) := by
    have hcall' : queueDequeue maxPerFetch ((sent m j).que (.refine, twoThreads.firstQid)) =
        .moved ((List.range j).map coarseChunk) ⟨[], 1, 0⟩ := by rw [sent_que, hcall]
    have hpc : ((sent m j).worker (.FragmentRefine, ⟨0, by decide⟩)).pc = .fetch := rfl
    have hrecv : ((sent m j).worker (.FragmentRefine, ⟨0, by decide⟩)).recv = [] := rfl
    have hqid : twoThreads.qid ⟨0, by decide⟩ = twoThreads.firstQid := rfl
    simp only [workerStep, hpc, hrecv, Pool.perFetch, Pool.input, hqid, hcall']
    change some (((sent m j).setQue (.refine, twoThreads.firstQid) ⟨[], 1, 0⟩).setWorker
      (.FragmentRefine, ⟨0, by decide⟩) _) = _
    rw [State.setQue, hback]
    rfl
  simp only [singlesStep, step, if_pos hcrash]
  exact hfetch

/-- The first coarse chunks are sent, and the thread takes them. -/
theorem exec_new_stalled {m j : ℕ} (hpos : 0 < j) (hj : j ≤ maxPerFetch) (hm : j ≤ m) (hroom : j ≤ 1024 * 1024) :
    exec (singlesStep m) (State.new twoThreads (singles m))
      (List.replicate (2 * j) .fragment ++ [.worker (.FragmentRefine, ⟨0, by decide⟩)]) = some (stalled m j) :=
  exec_concat.mpr ⟨_, exec_sent j hm hroom, sent_stalled hpos hj⟩

/-- A run that begins with the first coarse chunks and the thread that takes them. -/
theorem exec_stalled {m j : ℕ} (hpos : 0 < j) (hj : j ≤ maxPerFetch) (hm : j ≤ m) (hroom : j ≤ 1024 * 1024)
    {ts : List (Thread twoThreads)} {s : State twoThreads Chunk ℕ}
    (h : exec (singlesStep m) (stalled m j) ts = some s) :
    exec (singlesStep m) (State.new twoThreads (singles m))
      (List.replicate (2 * j) .fragment ++ [.worker (.FragmentRefine, ⟨0, by decide⟩)] ++ ts) = some s := by
  rw [exec_append, exec_new_stalled hpos hj hm hroom, Option.bind_some]
  exact h

/-- Nothing arrives at `Reorder` before. -/
theorem meets_stalled {m j : ℕ} (hpos : 0 < j) (hj : j ≤ maxPerFetch) (hm : j ≤ m) (hroom : j ≤ 1024 * 1024)
    {ts : List (Thread twoThreads)} (h : Meets (singlesStep m) ArrivalFits (stalled m j) ts) :
    Meets (singlesStep m) ArrivalFits (State.new twoThreads (singles m))
      (List.replicate (2 * j) .fragment ++ [.worker (.FragmentRefine, ⟨0, by decide⟩)] ++ ts) := by
  refine Meets.append (meets_of_forall fun s t ht hreorder => ?_) (exec_new_stalled hpos hj hm hroom) h
  subst hreorder
  simp at ht

/-- The other thread refines the next twenty coarse chunks, and a thread each of `Deduplicate` and
    `Compress` passes their fine chunks on to `Reorder`. -/
def overtaking : List (Thread twoThreads) :=
  List.replicate 40 .fragment ++ List.replicate 61 (.worker (.FragmentRefine, ⟨1, by decide⟩)) ++
    List.replicate 61 (.worker (.Deduplicate, ⟨0, by decide⟩)) ++
    List.replicate 61 (.worker (.Compress, ⟨0, by decide⟩)) ++ [.reorder]

end Turkey.Pipeline

/-! ### Both versions -/

namespace Turkey.Anchors
open Turkey.Run Turkey.Pipeline
open Turkey.Reorder (Chunk Plan Stage)

/-- CORRECT: in every run of the pthread pipeline, and in every run of the `Reorder` stage of the Turkey port
    on chunks of the file in any order, in which each chunk that arrives has an `l1num` below twice the
    length of the array, all accesses to `chunks_per_anchor` are in bounds. -/
theorem chunksPerAnchor_inBounds {c : Config} {D κ : Type*} [DecidableEq D] {p : Plan} {digest : Chunk → D}
    {packed : Chunk → κ} {ts : List (Thread c)}
    (hts : Meets (Pipeline.step p digest packed) ArrivalFits (State.new c p) ts)
    {dup : Chunk → Bool} {reads : List (Option Chunk)} {n : ℕ}
    (hreads : (reads.reduceOption : Multiset Chunk) ≤ p.file)
    (hfit : ∀ k ≤ n, ((Reorder.step dup)^[k] (Stage.new reads)).ArrivalFits) :
    Meets (Pipeline.step p digest packed) InBounds (State.new c p) ts ∧
      ∀ k ≤ n, ∀ a ∈ ((Reorder.step dup)^[k] (Stage.new reads)).accesses, a.1 < a.2 := by
  refine ⟨pthread_inBounds hts, fun k hk => ?_⟩
  have hbounded : Reorder.Bounded p ((Reorder.step dup)^[k] (Stage.new reads)) :=
    Reorder.bounded_run hreads k fun i hi => hfit i (by omega)
  exact hbounded.inBounds (hfit k hk)

/-- 1044 coarse chunks, of which a thread of `FragmentRefine` takes the first 1024 and is overtaken by the other: the
    first chunk that arrives doubles the array. In the stage of the port, it arrives before the first chunk. -/
theorem chunksPerAnchor_inBounds_doubled :
    let arrivals : Stage := Stage.new [some ((singles 1044).chunk 1024 0), some ((singles 1044).chunk 0 0), none]
    ∃ ts s, exec (singlesStep 1044) (State.new twoThreads (singles 1044)) ts = some s ∧
      s.reorder.accesses = [(1024, 2048)] ∧
      Meets (singlesStep 1044) InBounds (State.new twoThreads (singles 1044)) (ts ++ [.reorder]) ∧
      ((Reorder.step fun _ => false) arrivals).accesses = [(1024, 2048)] ∧
      ∀ k ≤ 6, ∀ a ∈ ((Reorder.step fun _ => false)^[k] arrivals).accesses, a.1 < a.2 := by
  intro arrivals
  have hovertaking : ∃ s ∈ exec (singlesStep 1044) (stalled 1044 1024) overtaking,
      s.reorder.accesses = [(1024, 2048)] := by decide +kernel
  have hfits : Meets (singlesStep 1044) ArrivalFits (stalled 1044 1024) (overtaking ++ [.reorder]) := by
    decide +kernel
  obtain ⟨s, hs, haccess⟩ := hovertaking
  have hrun := exec_stalled (by omega) (by decide) (by omega) (by omega) (Option.mem_def.mp hs)
  have hts := meets_stalled (by omega) (by decide) (by omega) (by omega) hfits
  rw [← List.append_assoc] at hts
  have hreads : (([some ((singles 1044).chunk 1024 0), some ((singles 1044).chunk 0 0), none].reduceOption :
      List Chunk) : Multiset Chunk) ≤ (singles 1044).file := by decide +kernel
  have hfit : ∀ k ≤ 6, ((Reorder.step fun _ => false)^[k] arrivals).ArrivalFits := by decide +kernel
  have hboth := chunksPerAnchor_inBounds hts hreads hfit
  exact ⟨_, s, hrun, haccess, hboth.1, by decide +kernel, hboth.2⟩

end Turkey.Anchors

/-! ### The run that goes wrong -/

namespace Turkey.Pipeline
open Turkey.Run
open Turkey.Reorder (Chunk)

theorem exec_overtaking : ∃ s ∈ exec (singlesStep 2068) (stalled 2068 2048) overtaking,
    s.reorder.accesses = [(2048, 2048)] := by decide +kernel

/-- An access that is out of bounds at the end of a run. -/
theorem not_meets_inBounds {m l : ℕ} {ts : List (Thread twoThreads)} {s : State twoThreads Chunk ℕ}
    (hrun : exec (singlesStep m) (State.new twoThreads (singles m)) ts = some s)
    (haccess : s.reorder.accesses = [(l, l)]) :
    ¬Meets (singlesStep m) InBounds (State.new twoThreads (singles m)) (ts ++ [.reorder]) := by
  intro hmeets
  have hbound := hmeets.last hrun rfl (l, l) (by rw [haccess]; exact List.mem_singleton_self _)
  exact absurd hbound (Nat.lt_irrefl l)

/-- 2068 coarse chunks, of which a thread of `FragmentRefine` takes the first 2048 and is overtaken by the
    other: the first chunk that arrives is the last one of coarse chunk 2048, and the array, made twice as
    long, has 2048 entries. -/
theorem overtaken_not_inBounds : ∃ ts s,
    exec (singlesStep 2068) (State.new twoThreads (singles 2068)) ts = some s ∧
      s.reorder.accesses = [(2048, 2048)] ∧
      ¬Meets (singlesStep 2068) InBounds (State.new twoThreads (singles 2068)) (ts ++ [.reorder]) := by
  obtain ⟨s, hs, haccess⟩ := exec_overtaking
  have hrun := exec_stalled (by omega) (by decide) (by omega) (by omega) (Option.mem_def.mp hs)
  exact ⟨_, s, hrun, haccess, not_meets_inBounds hrun haccess⟩

end Turkey.Pipeline
