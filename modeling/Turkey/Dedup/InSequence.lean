import Mathlib.Data.List.Nodup
import Mathlib.Data.Multiset.AddSub
import Turkey.Dedup.Reorder

/-! `Reorder` writes a complete set of chunks in file order. The cache and the cursor `next` keep one
    invariant, whatever the order of arrival: what has been written and what is still to be written,
    from `next` on, make up the file; what has arrived has been written or is in the cache; and
    `chunks_per_anchor` knows the coarse chunks whose last fine chunk has arrived. -/

namespace Turkey.Reorder
open Turkey.Binheap Turkey.SearchTree

/-- A complete set of chunks: `coarse` coarse chunks, and `fine l ≥ 1` fine chunks in coarse chunk `l`. -/
structure Plan where
  coarse : ℕ
  fine : ℕ → ℕ
  fine_pos : ∀ l < coarse, 0 < fine l

namespace Plan
variable (p : Plan)

/-- Fine chunk `j` of coarse chunk `l`; exactly the last one is flagged. -/
def chunk (l j : ℕ) : Chunk := ⟨l, j, decide (j + 1 = p.fine l)⟩

/-- The chunks in file order. -/
def file : List Chunk := (List.range p.coarse).flatMap fun l => (List.range (p.fine l)).map (p.chunk l)

/-- The fine chunks of coarse chunk `l` from `j` on. -/
def row (l j : ℕ) : List Chunk := (List.range' j (p.fine l - j)).map (p.chunk l)

/-- The part of the file from a sequence number on. -/
def rest (s : ℕ × ℕ) : List Chunk :=
  if s.1 < p.coarse then
    p.row s.1 s.2 ++ (List.range' (s.1 + 1) (p.coarse - (s.1 + 1))).flatMap fun l => p.row l 0
  else []

theorem rest_zero : p.rest (0, 0) = p.file := by
  unfold rest file
  rcases Nat.eq_zero_or_pos p.coarse with h | h
  · simp [h]
  · obtain ⟨m, hm⟩ : ∃ m, p.coarse = m + 1 := ⟨p.coarse - 1, by omega⟩
    simp only [row, Nat.sub_zero, ← List.range_eq_range', hm, Nat.succ_pos, if_true, zero_add,
      Nat.add_sub_cancel]
    rw [List.range_eq_range' (n := m + 1), List.range'_succ, List.flatMap_cons]

theorem row_of_lt {l j : ℕ} (h : j < p.fine l) : p.row l j = p.chunk l j :: p.row l (j + 1) := by
  unfold row
  rw [show p.fine l - j = (p.fine l - (j + 1)) + 1 by omega, List.range'_succ, List.map_cons]

theorem row_of_le {l j : ℕ} (h : p.fine l ≤ j) : p.row l j = [] := by
  unfold row
  rw [Nat.sub_eq_zero_of_le h]
  rfl

/-- The sequence number that follows. -/
def succ (s : ℕ × ℕ) : ℕ × ℕ := if s.2 + 1 = p.fine s.1 then (s.1 + 1, 0) else (s.1, s.2 + 1)

theorem rest_step {l j : ℕ} (hl : l < p.coarse) (hj : j < p.fine l) :
    p.rest (l, j) = p.chunk l j :: p.rest (p.succ (l, j)) := by
  unfold rest succ
  simp only [if_pos hl, p.row_of_lt hj, List.cons_append]
  split
  · rename_i hlast
    rw [p.row_of_le hlast.ge, List.nil_append]
    split
    · rename_i hl'
      simp only at hl'
      rw [show p.coarse - (l + 1) = (p.coarse - (l + 1 + 1)) + 1 by omega, List.range'_succ,
        List.flatMap_cons]
    · rename_i hl'
      simp only at hl'
      rw [show p.coarse - (l + 1) = 0 by omega]
      rfl
  · rfl

theorem mem_row {l j : ℕ} {c : Chunk} :
    c ∈ p.row l j ↔ c.l1num = l ∧ j ≤ c.l2num ∧ c.l2num < p.fine l ∧ c = p.chunk c.l1num c.l2num := by
  unfold row
  rw [List.mem_map]
  constructor
  · rintro ⟨k, hk, rfl⟩
    obtain ⟨h1, h2⟩ := List.mem_range'_1.mp hk
    exact ⟨rfl, h1, by simp only [chunk]; omega, rfl⟩
  · rintro ⟨rfl, h1, h2, h3⟩
    exact ⟨c.l2num, List.mem_range'_1.mpr ⟨h1, by omega⟩, h3.symm⟩

theorem mem_rest {s : ℕ × ℕ} {c : Chunk} : c ∈ p.rest s ↔
    c.l1num < p.coarse ∧ c.l2num < p.fine c.l1num ∧ c = p.chunk c.l1num c.l2num ∧
      (s.1 < c.l1num ∨ s.1 = c.l1num ∧ s.2 ≤ c.l2num) := by
  unfold rest
  split
  · simp only [List.mem_append, List.mem_flatMap, mem_row, List.mem_range'_1]
    constructor
    · rintro (⟨h1, h2, h3, h4⟩ | ⟨l, hl, rfl, h2, h3, h4⟩)
      · exact ⟨by omega, h1 ▸ h3, h4, .inr ⟨h1.symm, h2⟩⟩
      · exact ⟨by omega, h3, h4, .inl (by omega)⟩
    · rintro ⟨h1, h2, h3, h4 | ⟨h4, h5⟩⟩
      · exact .inr ⟨c.l1num, by omega, rfl, Nat.zero_le _, h2, h3⟩
      · exact .inl ⟨h4.symm, h5, h4 ▸ h2, h3⟩
  · rename_i hs
    simp only [List.not_mem_nil, false_iff]
    rintro ⟨h1, -, -, h4 | h4⟩ <;> omega

theorem mem_file {c : Chunk} : c ∈ p.file ↔
    c.l1num < p.coarse ∧ c.l2num < p.fine c.l1num ∧ c = p.chunk c.l1num c.l2num := by
  rw [← rest_zero, mem_rest]
  constructor
  · rintro ⟨h1, h2, h3, -⟩; exact ⟨h1, h2, h3⟩
  · rintro ⟨h1, h2, h3⟩; exact ⟨h1, h2, h3, by omega⟩

theorem file_nodup : p.file.Nodup := by
  refine List.nodup_flatMap.mpr ⟨fun l _ => ?_, ?_⟩
  · refine List.Nodup.map (fun a b hab => ?_) List.nodup_range
    exact congrArg Chunk.l2num hab
  · refine List.nodup_range.imp fun {a b} hab => ?_
    rw [Function.onFun, List.disjoint_left]
    intro c ha hb
    obtain ⟨j, -, rfl⟩ := List.mem_map.mp ha
    obtain ⟨k, -, hk⟩ := List.mem_map.mp hb
    exact hab (congrArg Chunk.l1num hk).symm

/-- The last fine chunk of a coarse chunk. -/
def lastChunk (l : ℕ) : Chunk := p.chunk l (p.fine l - 1)

theorem eq_lastChunk {c : Chunk} (hc : c ∈ p.file) :
    c.isLastL2Chunk = true ↔ c = p.lastChunk c.l1num := by
  obtain ⟨h1, h2, h3⟩ := p.mem_file.mp hc
  constructor
  · intro hlast
    rw [h3] at hlast
    have hj : c.l2num + 1 = p.fine c.l1num := by simpa [chunk] using hlast
    rw [lastChunk, show p.fine c.l1num - 1 = c.l2num by omega]
    exact h3
  · intro h
    rw [h]
    simp only [lastChunk, chunk, decide_eq_true_eq]
    omega

end Plan

/-! ### The invariant -/

variable {p : Plan} {arrived cached : Multiset Chunk} {out : List Chunk} {r : Core}

/-- What `chunks_per_anchor` knows of the chunks that have arrived. -/
structure Counts (p : Plan) (arrived : Multiset Chunk) (r : Core) : Prop where
  known : ∀ l < r.chunksPerAnchorMax,
    r.chunksPerAnchor l = if p.lastChunk l ∈ arrived then p.fine l else 0
  last : ∀ c ∈ arrived, c.isLastL2Chunk = true → c.l1num < r.chunksPerAnchorMax

/-- At the head of the loop: the chunk `next` is not in the cache. -/
structure InSeq (p : Plan) (arrived cached : Multiset Chunk) (out : List Chunk) (r : Core) : Prop where
  caches : Caches r cached
  split : out ++ p.rest r.next = p.file
  perm : (out : Multiset Chunk) + cached = arrived
  sub : arrived ≤ p.file
  counts : Counts p arrived r
  cursor : r.next.1 < p.coarse → r.next.2 < p.fine r.next.1
  waiting : ∀ d ∈ cached, d.sequence ≠ r.next

/-- At a call of `write_chunk_to_file`: the chunk in hand is `next`. -/
structure Writing (p : Plan) (arrived cached : Multiset Chunk) (out : List Chunk) (r : Core)
    (c : Chunk) : Prop where
  caches : Caches r cached
  split : out ++ p.rest r.next = p.file
  perm : (out : Multiset Chunk) + (c ::ₘ cached) = arrived
  sub : arrived ≤ p.file
  counts : Counts p arrived r
  isNext : c.sequence = r.next

theorem inSeq_new (p : Plan) : InSeq p 0 0 [] Core.new where
  caches := caches_new
  split := p.rest_zero
  perm := rfl
  sub := Multiset.zero_le _
  counts := ⟨fun l _ => by simp [Core.new], fun c hc => by cases hc⟩
  cursor h := p.fine_pos 0 h
  waiting _ hd := by cases hd

theorem InSeq.nodup (h : InSeq p arrived cached out r) : arrived.Nodup :=
  Multiset.nodup_of_le h.sub p.file_nodup

/-! ### A chunk arrives -/

theorem resize_frame (r : Core) (l : ℕ) : (r.resize l).tree = r.tree ∧ (r.resize l).pmin = r.pmin ∧
    (r.resize l).next = r.next ∧ r.chunksPerAnchorMax ≤ (r.resize l).chunksPerAnchorMax := by
  unfold Core.resize
  split
  · exact ⟨rfl, rfl, rfl, by simp only; omega⟩
  · exact ⟨rfl, rfl, rfl, le_rfl⟩

theorem counts_resize (h : Counts p arrived r) (l : ℕ) : Counts p arrived (r.resize l) := by
  unfold Core.resize
  split
  · refine ⟨fun l' hl' => ?_, fun c hc hlast => ?_⟩
    · simp only at hl' ⊢
      split
      · -- the new half: no last chunk of it has arrived
        rename_i hnew
        by_cases hnone : p.fine l' = 0
        · simp [hnone]
        · rw [if_neg]
          intro hmem
          have := h.last _ hmem (by simp only [Plan.lastChunk, Plan.chunk, decide_eq_true_eq]; omega)
          simp only [Plan.lastChunk, Plan.chunk] at this
          omega
      · exact h.known l' (by omega)
    · have := h.last c hc hlast
      simp only
      omega
  · exact h

/-- Where `note` does not fail, it keeps what is known of the coarse chunks. -/
theorem note_spec {c : Chunk} {r' : Core} (h : InSeq p arrived cached out r)
    (hc : c ::ₘ arrived ≤ p.file) (hn : r.note c = some r') : r'.tree = r.tree ∧ r'.pmin = r.pmin ∧
      r'.next = r.next ∧ r.chunksPerAnchorMax ≤ r'.chunksPerAnchorMax ∧ Counts p (c ::ₘ arrived) r' := by
  obtain ⟨htree, hpmin, hnext, hmax⟩ := resize_frame r c.l1num
  have hcounts := counts_resize h.counts c.l1num
  have hfile : c ∈ p.file := Multiset.mem_of_le hc (Multiset.mem_cons_self c arrived)
  unfold Core.note at hn
  simp only at hn
  split at hn
  · rename_i hlast
    split at hn
    · rename_i hok
      cases hn
      refine ⟨htree, hpmin, hnext, hmax, fun l hl => ?_, fun d hd hdl => ?_⟩
      · have hcl := (p.eq_lastChunk hfile).mp hlast
        by_cases hlc : l = c.l1num
        · subst hlc
          have hj : c.l2num + 1 = p.fine c.l1num := by
            have h2 : c.l2num = p.fine c.l1num - 1 := congrArg Chunk.l2num hcl
            have := (p.mem_file.mp hfile).2.1
            omega
          simp only [Function.update_self]
          rw [← hcl, if_pos (Multiset.mem_cons_self c arrived), hj]
        · simp only [Function.update_of_ne hlc]
          rw [hcounts.known l hl]
          have hne : p.lastChunk l ≠ c := fun he => hlc (congrArg Chunk.l1num he)
          simp only [Multiset.mem_cons, hne, false_or]
      · rcases Multiset.mem_cons.mp hd with rfl | hd
        · exact hok.1
        · exact hcounts.last d hd hdl
    · cases hn
  · rename_i hlast
    cases hn
    refine ⟨htree, hpmin, hnext, hmax, fun l hl => ?_, fun d hd hdl => ?_⟩
    · rw [hcounts.known l hl]
      by_cases hcl : p.lastChunk l = c
      · -- only a coarse chunk without fine chunks has an unflagged last chunk
        exfalso
        apply hlast
        rw [p.eq_lastChunk hfile]
        rw [← hcl]
        rfl
      · simp only [Multiset.mem_cons, hcl, false_or]
    · rcases Multiset.mem_cons.mp hd with rfl | hd
      · exact absurd hdl hlast
      · exact hcounts.last d hd hdl

/-- A chunk that is not next goes into the cache. -/
theorem inSeq_cache {c : Chunk} {r' r'' : Core} (h : InSeq p arrived cached out r)
    (hc : c ::ₘ arrived ≤ p.file) (hn : r.note c = some r') (hne : c.sequence ≠ r'.next)
    (hr : r'.cache c = some r'') : InSeq p (c ::ₘ arrived) (c ::ₘ cached) out r'' := by
  obtain ⟨htree, hpmin, hnext, -, hcounts⟩ := note_spec h hc hn
  obtain ⟨s, hs, hcaches, hsnext, hscpa, hsmax⟩ := cache_spec (h.caches.congr htree hpmin) c
  obtain rfl : s = r'' := Option.some.inj (hs.symm.trans hr)
  refine ⟨hcaches, by rw [hsnext, hnext]; exact h.split, ?_, hc, ?_, by rw [hsnext, hnext]; exact h.cursor,
    fun d hd => ?_⟩
  · rw [← h.perm, Multiset.add_cons]
  · exact ⟨by rw [hscpa, hsmax]; exact hcounts.known, by rw [hsmax]; exact hcounts.last⟩
  · rw [hsnext]
    rcases Multiset.mem_cons.mp hd with rfl | hd
    · exact hne
    · rw [hnext]
      exact h.waiting d hd

/-- A chunk that is next is written. -/
theorem inSeq_write {c : Chunk} {r' : Core} (h : InSeq p arrived cached out r)
    (hc : c ::ₘ arrived ≤ p.file) (hn : r.note c = some r') (heq : c.sequence = r'.next) :
    Writing p (c ::ₘ arrived) cached out r' c := by
  obtain ⟨htree, hpmin, hnext, -, hcounts⟩ := note_spec h hc hn
  refine ⟨h.caches.congr htree hpmin, by rw [hnext]; exact h.split, ?_, hc, hcounts, heq⟩
  rw [← h.perm, Multiset.add_cons]

/-! ### A chunk has been written -/

theorem Writing.mem_arrived {c : Chunk} (h : Writing p arrived cached out r c) : c ∈ arrived := by
  rw [← h.perm]
  exact Multiset.mem_add.mpr (.inr (Multiset.mem_cons_self c cached))

theorem Writing.mem_file {c : Chunk} (h : Writing p arrived cached out r c) : c ∈ p.file :=
  Multiset.mem_of_le h.sub h.mem_arrived

/-- `advance` moves the cursor to the sequence number that follows. -/
theorem advance_spec {c : Chunk} {r' : Core} (h : Writing p arrived cached out r c)
    (ha : r.advance = some r') : r' = { r with next := p.succ r.next } := by
  obtain ⟨hl, hj, hc⟩ := p.mem_file.mp h.mem_file
  obtain ⟨tree, pmin, ⟨l1, l2⟩, cpa, max⟩ := r
  have hseq := h.isNext
  obtain ⟨rfl, rfl⟩ : c.l1num = l1 ∧ c.l2num = l2 := Prod.mk.inj hseq
  simp only [Core.advance] at ha
  split at ha
  · rename_i hlt
    have hknown := h.counts.known c.l1num hlt
    simp only at hknown
    simp only [Plan.succ]
    rw [hknown] at ha
    by_cases hlast : c.l2num + 1 = p.fine c.l1num
    · -- the last chunk of the coarse chunk has arrived: it is the one in hand
      have hmem : p.lastChunk c.l1num ∈ arrived := by
        rw [Plan.lastChunk, show p.fine c.l1num - 1 = c.l2num by omega, ← hc]
        exact h.mem_arrived
      rw [if_pos hmem, if_pos ⟨by omega, hlast⟩] at ha
      rw [if_pos hlast]
      exact (Option.some.inj ha).symm
    · rw [if_neg] at ha
      · rw [if_neg hlast]
        exact (Option.some.inj ha).symm
      · split
        · exact fun hand => hlast hand.2
        · exact fun hand => hand.1 rfl
  · cases ha

/-- What follows a call of `write_chunk_to_file`: the loop goes on with the chunk that is next now, or
    it ends with no such chunk in the cache. -/
theorem writing_step {c : Chunk} {r' r'' : Core} {o : Option Chunk}
    (h : Writing p arrived cached out r c) (ha : r.advance = some r')
    (ht : r'.takeNext = some (r'', o)) :
    (o = none ∧ r'' = r' ∧ InSeq p arrived cached (out ++ [c]) r'') ∨
      ∃ d ∈ cached, o = some d ∧ Writing p arrived (cached.erase d) (out ++ [c]) r'' d ∧
        r''.chunksPerAnchorMax = r'.chunksPerAnchorMax := by
  obtain ⟨hl, hj, hc⟩ := p.mem_file.mp h.mem_file
  have hr' := advance_spec h ha
  subst hr'
  have hnext : r.next = (c.l1num, c.l2num) := h.isNext.symm
  have hsplit : (out ++ [c]) ++ p.rest (p.succ r.next) = p.file := by
    have := h.split
    rw [hnext, p.rest_step hl hj, ← hc] at this
    rw [hnext, List.append_assoc]
    exact this
  have hperm : ((out ++ [c] : List Chunk) : Multiset Chunk) + cached = arrived := by
    rw [← h.perm, ← Multiset.coe_add, ← Multiset.singleton_add, add_assoc]
    rfl
  -- what is in the cache has not been written, so it comes later in the file
  have hlater : ∀ d ∈ cached, (p.succ r.next).1 < d.l1num ∨
      (p.succ r.next).1 = d.l1num ∧ (p.succ r.next).2 ≤ d.l2num := by
    intro d hd
    have hdarr : d ∈ arrived := hperm ▸ Multiset.mem_add.mpr (.inr hd)
    have hdfile : d ∈ p.file := Multiset.mem_of_le h.sub hdarr
    have hdis := (Multiset.nodup_add.mp (hperm ▸ Multiset.nodup_of_le h.sub p.file_nodup)).2.2
    rw [← hsplit] at hdfile
    rcases List.mem_append.mp hdfile with hdout | hdrest
    · exact absurd hd fun hd => Multiset.disjoint_left.mp hdis (Multiset.mem_coe.mpr hdout) hd
    · exact (p.mem_rest.mp hdrest).2.2.2
  have hcursor : (p.succ r.next).1 < p.coarse → (p.succ r.next).2 < p.fine (p.succ r.next).1 := by
    rw [hnext]
    unfold Plan.succ
    split
    · exact fun hlt => p.fine_pos _ hlt
    · rename_i hlast
      simp only at hlast ⊢
      omega
  have hcaches : Caches { r with next := p.succ r.next } cached := h.caches.congr rfl rfl
  rcases takeNext_spec hcaches with hnone | ⟨s, d, hsome, hd, hdseq, hdc, hsn, hscpa, hsmax⟩
  · rw [hnone, Option.some.injEq, Prod.mk.injEq] at ht
    obtain ⟨rfl, rfl⟩ := ht
    refine .inl ⟨rfl, rfl, hcaches, hsplit, hperm, h.sub, ⟨h.counts.known, h.counts.last⟩, hcursor, ?_⟩
    intro d hd hdseq
    exact takeNext_complete hcaches hlater hd hdseq hnone
  · rw [hsome, Option.some.injEq, Prod.mk.injEq] at ht
    obtain ⟨rfl, rfl⟩ := ht
    refine .inr ⟨d, hd, rfl, ⟨hdc, by rw [hsn]; exact hsplit, ?_, h.sub, ?_, by rw [hsn]; exact hdseq⟩,
      hsmax⟩
    · rw [Multiset.cons_erase hd]
      exact hperm
    · exact ⟨by rw [hscpa, hsmax]; exact h.counts.known, by rw [hsmax]; exact h.counts.last⟩

/-- When the whole set has arrived, all of it has been written and the tree is empty. -/
theorem InSeq.complete (h : InSeq p p.file cached out r) : out = p.file ∧ r.tree = .nil := by
  have hrest : p.rest r.next = [] := by
    cases hr : p.rest r.next with
    | nil => rfl
    | cons c cs =>
      -- the chunk that is next would be in the cache
      exfalso
      have hmem : c ∈ p.rest r.next := by rw [hr]; exact List.mem_cons_self ..
      obtain ⟨hl, hj, hc, hle⟩ := p.mem_rest.mp hmem
      have hsplit := h.split
      have hfile : c ∈ (out : Multiset Chunk) + cached := by
        rw [h.perm, ← hsplit]
        exact List.mem_append.mpr (.inr hmem)
      have hout : c ∉ out := by
        have hnd := p.file_nodup
        rw [← hsplit] at hnd
        exact fun ho => List.disjoint_of_nodup_append hnd ho hmem
      have hcached : c ∈ cached := (Multiset.mem_add.mp hfile).resolve_left hout
      refine h.waiting c hcached ?_
      have hlt : r.next.1 < p.coarse := by rcases hle with hle | hle <;> omega
      have := p.rest_step hlt (h.cursor hlt)
      rw [show (r.next.1, r.next.2) = r.next from rfl, hr] at this
      rw [(List.cons.inj this).1]
      rfl
  have hout : out = p.file := by
    have := h.split
    rwa [hrest, List.append_nil] at this
  have hcached : cached = 0 := by
    have := h.perm
    rw [hout] at this
    exact add_eq_left.mp this
  refine ⟨hout, treeFindMin_eq_none.mp ?_⟩
  cases hmin : treeFindMin none r.tree with
  | none => rfl
  | some kq =>
    obtain ⟨-, hne, hcont⟩ := h.caches.queue _ _ (treeFindMin_spec h.caches.ordered hmin).1
    rw [hcached] at hcont
    exact absurd hcont hne

/-! ### Nothing fails while the array is large enough -/

/-- Every coarse chunk that has been heard of has an entry in `chunks_per_anchor`. -/
structure Roomy (arrived : Multiset Chunk) (r : Core) : Prop where
  large : 1024 ≤ r.chunksPerAnchorMax
  room : ∀ c ∈ arrived, c.l1num < r.chunksPerAnchorMax

/-- The first 2048 coarse chunks fit after one doubling. -/
theorem Roomy.lt_double (h : Roomy arrived r) {l : ℕ} (hl : l < 2048) : l < 2 * r.chunksPerAnchorMax := by
  have := h.large
  omega

theorem note_roomy {c : Chunk} (h : InSeq p arrived cached out r) (hroom : Roomy arrived r)
    (hc : c ::ₘ arrived ≤ p.file) (hl : c.l1num < 2 * r.chunksPerAnchorMax) :
    ∃ r', r.note c = some r' ∧ Roomy (c ::ₘ arrived) r' := by
  have hlarge := hroom.large
  have hfit : c.l1num < (r.resize c.l1num).chunksPerAnchorMax := by
    unfold Core.resize
    split
    · simp only; omega
    · omega
  have hmax := (resize_frame r c.l1num).2.2.2
  have hroom' : Roomy (c ::ₘ arrived) (r.resize c.l1num) := by
    refine ⟨hlarge.trans hmax, fun d hd => ?_⟩
    rcases Multiset.mem_cons.mp hd with rfl | hd
    · exact hfit
    · exact Nat.lt_of_lt_of_le (hroom.room d hd) hmax
  unfold Core.note
  simp only
  split
  · rename_i hlast
    -- the assertion holds: this last chunk has not arrived before
    have hfile : c ∈ p.file := Multiset.mem_of_le hc (Multiset.mem_cons_self c arrived)
    have hnew : c ∉ arrived := (Multiset.nodup_cons.mp (Multiset.nodup_of_le hc p.file_nodup)).1
    have hzero : (r.resize c.l1num).chunksPerAnchor c.l1num = 0 := by
      rw [(counts_resize h.counts c.l1num).known _ hfit, if_neg]
      rwa [← (p.eq_lastChunk hfile).mp hlast]
    rw [if_pos ⟨hfit, hzero⟩]
    exact ⟨_, rfl, hroom'.large, hroom'.room⟩
  · exact ⟨_, rfl, hroom'⟩

theorem advance_roomy {c : Chunk} (h : Writing p arrived cached out r c) (hroom : Roomy arrived r) :
    ∃ r', r.advance = some r' ∧ r'.chunksPerAnchorMax = r.chunksPerAnchorMax := by
  have hlt : r.next.1 < r.chunksPerAnchorMax := by
    have := hroom.room c h.mem_arrived
    rwa [show c.l1num = r.next.1 from congrArg Prod.fst h.isNext] at this
  unfold Core.advance
  simp only [if_pos hlt]
  split
  · exact ⟨_, rfl, rfl⟩
  · exact ⟨_, rfl, rfl⟩

end Turkey.Reorder
