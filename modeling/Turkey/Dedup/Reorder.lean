import Turkey.Dedup.Binheap
import Turkey.Dedup.Tree

/-! The cache of the `Reorder` stage, which both versions of the encoder share. Chunks carry a two-level
    sequence number: `l1num` counts the coarse chunks, `l2num` the fine chunks inside one. `Reorder`
    writes the chunk that is `next`, and keeps the others in a tree of heaps until their turn comes.
    How many fine chunks a coarse chunk has is only known when its last one arrives
    (`chunks_per_anchor`). The functions below are the parts of the loop body between two calls of
    `write_chunk_to_file`; `none` stands for a failed assertion, an exit or an access out of bounds.

    The sequence numbers are natural numbers here: a coarse chunk has far fewer than 2^31 fine chunks. -/

namespace Turkey.Reorder
open Turkey.Binheap Turkey.SearchTree

/-- What `Reorder` looks at of a `chunk_t`. -/
structure Chunk where
  l1num : ℕ
  l2num : ℕ
  isLastL2Chunk : Bool
  deriving DecidableEq

/-- `sequence_t` -/
def Chunk.sequence (c : Chunk) : ℕ × ℕ := (c.l1num, c.l2num)

/-- `INITIAL_SEARCH_TREE_SIZE` -/
def initialSearchTreeSize : ℕ := 4096

/-- The local variables of `Reorder`, and the global `pmin` of the tree. -/
structure Core where
  tree : SearchTree.Tree (Heap Chunk)
  pmin : Option (ℕ × Heap Chunk)
  next : ℕ × ℕ
  chunksPerAnchor : ℕ → ℕ
  chunksPerAnchorMax : ℕ

def Core.new : Core where
  tree := .nil
  pmin := none
  next := (0, 0)
  chunksPerAnchor _ := 0
  chunksPerAnchorMax := 1024

/-- The array is doubled, once, when the coarse chunk does not fit, and the new half is cleared. -/
def Core.resize (r : Core) (l1num : ℕ) : Core :=
  if r.chunksPerAnchorMax ≤ l1num then { r with
    chunksPerAnchor := fun l =>
      if r.chunksPerAnchorMax ≤ l ∧ l < 2 * r.chunksPerAnchorMax then 0 else r.chunksPerAnchor l
    chunksPerAnchorMax := 2 * r.chunksPerAnchorMax }
  else r

/-- "Update expected L2 sequence number", after the resize. -/
def Core.note (r : Core) (c : Chunk) : Option Core :=
  let r := r.resize c.l1num
  if c.isLastL2Chunk then
    if c.l1num < r.chunksPerAnchorMax ∧ r.chunksPerAnchor c.l1num = 0 then
      some { r with chunksPerAnchor := Function.update r.chunksPerAnchor c.l1num (c.l2num + 1) }
    else none
  else some r

/-- "Put chunk into local cache if it's not next in the sequence". -/
def Core.cache (r : Core) (c : Chunk) : Option Core :=
  match treeFind c.l1num r.tree with
  | none =>
    (heapInitialize initialSearchTreeSize).map fun queue =>
      let (pmin, tree) := treeInsert c.l1num (insert Chunk.l2num c queue) r.pmin r.tree
      { r with pmin, tree }
  | some _ => some { r with tree := treeUpdate c.l1num (insert Chunk.l2num c) r.tree }

/-- `sequence_inc_l2`, and `sequence_inc_l1` when the coarse chunk is complete. -/
def Core.advance (r : Core) : Option Core :=
  let (l1num, l2num) := r.next
  if l1num < r.chunksPerAnchorMax then
    if r.chunksPerAnchor l1num ≠ 0 ∧ l2num + 1 = r.chunksPerAnchor l1num then
      some { r with next := (l1num + 1, 0) }
    else some { r with next := (l1num, l2num + 1) }
  else none

/-- Remove the least element of the least queue, and the queue when it is empty. -/
def Core.removeMin (r : Core) (l1num : ℕ) (queue : Heap Chunk) : Option Core :=
  (deleteMin Chunk.l2num queue).map fun (_, queue) =>
    if isEmpty queue then
      let (pmin, tree) := treeDelete l1num r.pmin r.tree
      { r with pmin, tree }
    else { r with tree := treeUpdate l1num (fun _ => queue) r.tree }

/-- "Check whether we can write more chunks from cache": the chunk `next`, taken out of the cache, if
    it is the least there. The position `pos` of the source is `TreeFindMin(T)` whenever it is read. -/
def Core.takeNext (r : Core) : Option (Core × Option Chunk) :=
  match treeFindMin r.pmin r.tree with
  | none => some (r, none)
  | some (l1num, queue) =>
    if l1num = r.next.1 then
      match findMin queue with
      | none => none
      | some c =>
        if c.sequence = r.next then (r.removeMin l1num queue).map fun r => (r, some c)
        else some (r, none)
    else some (r, none)

/-! ### What the cache holds -/

/-- The tree holds exactly the chunks `cs`, each in the queue of its coarse chunk. -/
structure Caches (r : Core) (cs : Multiset Chunk) : Prop where
  pmin : r.pmin = none
  ordered : r.tree.Ordered
  queue : ∀ l h, treeFind l r.tree = some h → Valid Chunk.l2num h ∧
    contents h ≠ 0 ∧ contents h = cs.filter fun c => c.l1num = l
  absent : ∀ l, treeFind l r.tree = none → cs.filter (fun c => c.l1num = l) = 0

theorem caches_new : Caches Core.new 0 where
  pmin := rfl
  ordered := trivial
  queue _ _ h := by cases h
  absent _ _ := rfl

/-- The cache depends on the tree only. -/
theorem Caches.congr {r r' : Core} {cs : Multiset Chunk} (h : Caches r cs) (htree : r'.tree = r.tree)
    (hpmin : r'.pmin = r.pmin) : Caches r' cs :=
  ⟨hpmin.trans h.pmin, htree ▸ h.ordered, htree ▸ h.queue, htree ▸ h.absent⟩

theorem filter_cons_l1num (c : Chunk) (cs : Multiset Chunk) (l : ℕ) :
    (c ::ₘ cs).filter (fun d => d.l1num = l) =
      if c.l1num = l then c ::ₘ cs.filter (fun d => d.l1num = l) else cs.filter fun d => d.l1num = l := by
  split
  · rename_i h
    exact Multiset.filter_cons_of_pos _ h
  · rename_i h
    exact Multiset.filter_cons_of_neg _ h

theorem cache_spec {r : Core} {cs : Multiset Chunk} (h : Caches r cs) (c : Chunk) :
    ∃ r', r.cache c = some r' ∧ Caches r' (c ::ₘ cs) ∧ r'.next = r.next ∧
      r'.chunksPerAnchor = r.chunksPerAnchor ∧ r'.chunksPerAnchorMax = r.chunksPerAnchorMax := by
  unfold Core.cache
  cases hf : treeFind c.l1num r.tree with
  | none =>
    -- the first chunk of its coarse chunk gets a queue of its own
    obtain ⟨q, hq⟩ : ∃ q : Heap Chunk, heapInitialize initialSearchTreeSize = some q := ⟨_, rfl⟩
    obtain ⟨hval, hcont⟩ := heapInitialize_valid Chunk.l2num hq
    obtain ⟨hval', hcont'⟩ := insert_valid Chunk.l2num c q hval
    simp only [hq, Option.map_some]
    refine ⟨_, rfl, ⟨?_, ?_, fun l h' hl => ?_, fun l hl => ?_⟩, rfl, rfl, rfl⟩
    · rw [h.pmin, treeInsert_pmin]
    · rw [h.pmin]
      exact treeInsert_ordered _ _ h.ordered
    · simp only [h.pmin, treeFind_treeInsert l hf] at hl
      rw [filter_cons_l1num]
      split at hl
      · rename_i hlc
        cases hl
        refine ⟨hval', ?_, ?_⟩
        · simp [hcont']
        · rw [if_pos hlc.symm, hcont', hcont, hlc, h.absent _ hf]
      · rename_i hlc
        rw [if_neg (Ne.symm hlc)]
        exact h.queue l h' hl
    · simp only [h.pmin, treeFind_treeInsert l hf] at hl
      split at hl
      · cases hl
      · rename_i hlc
        rw [filter_cons_l1num, if_neg (Ne.symm hlc)]
        exact h.absent l hl
  | some q =>
    refine ⟨_, rfl, ⟨h.pmin, treeUpdate_ordered _ _ h.ordered, fun l h' hl => ?_, fun l hl => ?_⟩,
      rfl, rfl, rfl⟩
    · simp only [treeFind_treeUpdate] at hl
      rw [filter_cons_l1num]
      split at hl
      · rename_i hlc
        rw [hlc, hf, Option.map_some, Option.some.injEq] at hl
        subst hl
        obtain ⟨hval, hne, hcont⟩ := h.queue _ _ hf
        obtain ⟨hval', hcont'⟩ := insert_valid Chunk.l2num c q hval
        refine ⟨hval', ?_, ?_⟩
        · simp [hcont']
        · rw [if_pos hlc.symm, hcont', hcont, hlc]
      · rename_i hlc
        rw [if_neg (Ne.symm hlc)]
        exact h.queue l h' hl
    · simp only [treeFind_treeUpdate] at hl
      split at hl
      · rename_i hlc
        rw [hlc, hf] at hl
        cases hl
      · rename_i hlc
        rw [filter_cons_l1num, if_neg (Ne.symm hlc)]
        exact h.absent l hl

theorem removeMin_spec {r : Core} {cs : Multiset Chunk} (h : Caches r cs) {l : ℕ} {q : Heap Chunk}
    {c : Chunk} (hf : treeFind l r.tree = some q) (hc : findMin q = some c) :
    ∃ r', r.removeMin l q = some r' ∧ Caches r' (cs.erase c) ∧ r'.next = r.next ∧
      r'.chunksPerAnchor = r.chunksPerAnchor ∧ r'.chunksPerAnchorMax = r.chunksPerAnchorMax := by
  obtain ⟨hval, hne, hcont⟩ := h.queue l q hf
  obtain ⟨q', hdel, hval', hcons⟩ := deleteMin_valid Chunk.l2num hval hc
  have hmem : c ∈ cs.filter fun c => c.l1num = l := hcont ▸ (findMin_le Chunk.l2num hval hc).1
  obtain ⟨hcs, hcl⟩ := Multiset.mem_filter.mp hmem
  -- only the queue of this coarse chunk loses the chunk
  have hsame : ∀ l', l' ≠ l → (cs.erase c).filter (fun d => d.l1num = l') =
      cs.filter fun d => d.l1num = l' := by
    intro l' hl'
    conv_rhs => rw [← Multiset.cons_erase hcs]
    rw [filter_cons_l1num, if_neg (by rw [hcl]; exact Ne.symm hl')]
  have hq' : contents q' = (cs.erase c).filter fun d => d.l1num = l := by
    rw [← Multiset.cons_inj_right c, hcons, hcont]
    conv_lhs => rw [← Multiset.cons_erase hcs]
    rw [filter_cons_l1num, if_pos hcl]
  unfold Core.removeMin
  simp only [hdel, Option.map_some]
  by_cases hemp : isEmpty q'
  · have hzero : contents q' = 0 := (size_eq_zero_iff Chunk.l2num hval').mp (by simpa [isEmpty] using hemp)
    obtain ⟨hp, hd⟩ := treeDelete_deleted l h.ordered
    simp only [if_pos hemp, h.pmin]
    refine ⟨_, rfl, ⟨hp, hd.ordered, fun l' q'' hl' => ?_, fun l' hl' => ?_⟩, rfl, rfl, rfl⟩
    · simp only [hd.find] at hl'
      split at hl'
      · cases hl'
      · rename_i hne'
        rw [hsame l' hne']
        exact h.queue l' q'' hl'
    · simp only [hd.find] at hl'
      split at hl'
      · rename_i he
        rw [he, ← hq', hzero]
      · rename_i hne'
        rw [hsame l' hne']
        exact h.absent l' hl'
  · have hnz : contents q' ≠ 0 := fun he => hemp (by
      simpa [isEmpty] using (size_eq_zero_iff Chunk.l2num hval').mpr he)
    rw [if_neg hemp]
    refine ⟨_, rfl, ⟨h.pmin, treeUpdate_ordered _ _ h.ordered, fun l' q'' hl' => ?_, fun l' hl' => ?_⟩,
      rfl, rfl, rfl⟩
    · simp only [treeFind_treeUpdate] at hl'
      split at hl'
      · rename_i he
        rw [he, hf, Option.map_some, Option.some.injEq] at hl'
        subst hl'
        exact ⟨hval', hnz, he ▸ hq'⟩
      · rename_i hne'
        rw [hsame l' hne']
        exact h.queue l' q'' hl'
    · simp only [treeFind_treeUpdate] at hl'
      split at hl'
      · rename_i he
        rw [he, hf] at hl'
        cases hl'
      · rename_i hne'
        rw [hsame l' hne']
        exact h.absent l' hl'

/-- `takeNext` never fails; a chunk it takes is in the cache and is the next one. -/
theorem takeNext_spec {r : Core} {cs : Multiset Chunk} (h : Caches r cs) :
    r.takeNext = some (r, none) ∨ ∃ r' c, r.takeNext = some (r', some c) ∧ c ∈ cs ∧
      c.sequence = r.next ∧ Caches r' (cs.erase c) ∧ r'.next = r.next ∧
      r'.chunksPerAnchor = r.chunksPerAnchor ∧ r'.chunksPerAnchorMax = r.chunksPerAnchorMax := by
  unfold Core.takeNext
  rw [h.pmin]
  cases hmin : treeFindMin none r.tree with
  | none => exact .inl rfl
  | some kq =>
    obtain ⟨l, q⟩ := kq
    obtain ⟨hf, -⟩ := treeFindMin_spec h.ordered hmin
    obtain ⟨hval, hne, hcont⟩ := h.queue l q hf
    by_cases hl : l = r.next.1
    · simp only [if_pos hl]
      cases hc : findMin q with
      | none =>
        exact absurd ((size_eq_zero_iff Chunk.l2num hval).mp ((findMin_eq_none Chunk.l2num hval).mp hc)) hne
      | some c =>
        by_cases hseq : c.sequence = r.next
        · obtain ⟨r', hr', hcache, hframe⟩ := removeMin_spec h hf hc
          have hmem := (findMin_le Chunk.l2num hval hc).1
          rw [hcont] at hmem
          refine .inr ⟨r', c, ?_, (Multiset.mem_filter.mp hmem).1, hseq, hcache, hframe⟩
          simp only [if_pos hseq, hr', Option.map_some]
        · exact .inl (by simp only [if_neg hseq])
    · exact .inl (by simp only [if_neg hl])

/-- When no chunk of the cache comes before `next`, a next one that is there is taken. -/
theorem takeNext_complete {r : Core} {cs : Multiset Chunk} (h : Caches r cs)
    (hle : ∀ d ∈ cs, r.next.1 < d.l1num ∨ r.next.1 = d.l1num ∧ r.next.2 ≤ d.l2num)
    {c : Chunk} (hc : c ∈ cs) (hseq : c.sequence = r.next) : r.takeNext ≠ some (r, none) := by
  have hl1 : c.l1num = r.next.1 := congrArg Prod.fst hseq
  have hl2 : c.l2num = r.next.2 := congrArg Prod.snd hseq
  have hfilter : c ∈ cs.filter fun d => d.l1num = r.next.1 := Multiset.mem_filter.mpr ⟨hc, hl1⟩
  unfold Core.takeNext
  rw [h.pmin]
  cases hmin : treeFindMin none r.tree with
  | none =>
    -- the tree is not empty
    have hnil := treeFindMin_eq_none.mp hmin
    rw [h.absent r.next.1 (by rw [hnil]; rfl)] at hfilter
    cases hfilter
  | some kq =>
    obtain ⟨l, q⟩ := kq
    obtain ⟨hf, hall⟩ := treeFindMin_spec h.ordered hmin
    obtain ⟨hval, hne, hcont⟩ := h.queue l q hf
    -- its least queue is that of `next`
    have hl : l = r.next.1 := by
      obtain ⟨d, hd⟩ := Multiset.exists_mem_of_ne_zero hne
      rw [hcont] at hd
      obtain ⟨hd, hdl⟩ := Multiset.mem_filter.mp hd
      have h1 : r.next.1 ≤ l := by rcases hle d hd with h | h <;> omega
      cases hq : treeFind r.next.1 r.tree with
      | none =>
        rw [h.absent _ hq] at hfilter
        cases hfilter
      | some q' =>
        have h2 : l ≤ r.next.1 := treeFind_of_all (p := (l ≤ ·)) hall hq
        omega
    simp only [if_pos hl]
    cases hfm : findMin q with
    | none =>
      exact absurd ((size_eq_zero_iff Chunk.l2num hval).mp ((findMin_eq_none Chunk.l2num hval).mp hfm)) hne
    | some d =>
      -- the least element of that queue is `next`
      obtain ⟨hd, hmin'⟩ := findMin_le Chunk.l2num hval hfm
      have hdc := hmin' c (by rw [hcont, hl]; exact hfilter)
      rw [hcont] at hd
      obtain ⟨hd, hdl⟩ := Multiset.mem_filter.mp hd
      have hdseq : d.sequence = r.next := by
        refine Prod.ext (hdl.trans hl) ?_
        change d.l2num = r.next.2
        rcases hle d hd with h | h <;> omega
      simp only [if_pos hdseq]
      intro hcontra
      obtain ⟨r', hr', -⟩ := removeMin_spec h hf hfm
      simp [hr'] at hcontra

end Turkey.Reorder
