import Turkey.Dedup.Cutters

/-! That cutting on two levels loses nothing. In a run in which no worker begins an
    `enqueue_from_ringbuffer` call on a full queue and none reads the sentinel in a call that has already
    moved chunks into its receive buffer, no assertion fails, the numbers on both levels are dense, and
    in the end the fine chunks in the order of their numbers are the input. `Fragment` itself never
    meets a full queue: its chunks are longer than `ANCHOR_JUMP`, so there are not enough of them. -/

namespace Turkey.TwoLevel
open Turkey.Rabin Turkey.Fragment Turkey.Segmentation Turkey.Run Turkey.Tally
open Turkey.Mpmc (queueSize maxPerFetch writeSentinel SentinelsLast)

variable {n : ℕ} {r : Reading} {input : Bytes} {s s' : State n}

/-! ### What is to hold -/

/-- The fine chunks of a coarse chunk. -/
structure Row (c : Chunk) (row : List Piece) : Prop where
  nonempty : row ≠ []
  l1num : ∀ p ∈ row, p.l1num = c.l1num
  l2num : row.map (fun p => p.l2num.toNat) = List.range row.length
  isLast : row.map Piece.isLastL2Chunk = List.replicate (row.length - 1) false ++ [true]
  filled : ∀ p ∈ row, p.data ≠ []
  data : row.flatMap Piece.data = c.data

/-- Earlier in the file. -/
def Piece.Before (p q : Piece) : Prop := p.l1num < q.l1num ∨ p.l1num = q.l1num ∧ p.l2num < q.l2num

/-- All threads have returned. -/
def Finished (s : State n) : Prop := s.fragment.pc = .done ∧ ∀ k, (s.worker k).pc = .done

instance (s : State n) : Decidable (Finished s) :=
  inferInstanceAs (Decidable (s.fragment.pc = .done ∧ ∀ k, (s.worker k).pc = .done))

/-- No assertion has failed, the coarse chunks that were sent are numbered from zero on, every worker
    has sent the rows of the chunks it has taken, up to the place it has got to, and when all threads
    have returned, every coarse chunk was taken by one worker and the fine chunks in order are the
    input. -/
structure Lossless (input : Bytes) (s : State n) : Prop where
  fragment : s.fragment.pc ≠ .failed
  worker : ∀ k, (s.worker k).pc ≠ .failed
  coarse : s.fragment.sent.map (fun c => c.l1num.toNat) = List.range s.fragment.sent.length
  rows : ∃ row : Chunk → List Piece, ∀ k, (∀ c ∈ (s.worker k).processed, Row c (row c)) ∧
    (s.worker k).sent.map Chunk.piece <+: (s.worker k).processed.flatMap row ∧
    (Finished s → (s.worker k).sent.map Chunk.piece = (s.worker k).processed.flatMap row)
  once : Finished s → ∑ k, ((s.worker k).processed : Multiset Chunk) = s.fragment.sent
  whole : Finished s → ∃ out : List Piece,
    (out : Multiset Piece) = ∑ k, ((s.worker k).sent.map Chunk.piece : Multiset Piece) ∧
    out.Pairwise Piece.Before ∧ out.flatMap Piece.data = input
  nothing : input = [] → s.fragment.sent = [] ∧ ∀ k, (s.worker k).sent = []

/-- The condition on a step of a worker: the first write of a call of `enqueue_from_ringbuffer` finds room
    in `queue_deduplicate`, and a sentinel is read into an empty receive buffer. -/
def WorkerPc.Timely (recv : List Chunk) (refine deduplicate : List (Option Chunk)) : WorkerPc → Prop
  | .enqueue 0 _ => deduplicate.length < queueSize
  | .dequeue i => i < maxPerFetch → recv.length < maxPerFetch → refine.head? = some none → recv = []
  | _ => True

instance (recv : List Chunk) (refine deduplicate : List (Option Chunk)) :
    ∀ pc : WorkerPc, Decidable (pc.Timely recv refine deduplicate)
  | .enqueue 0 _ => inferInstanceAs (Decidable (deduplicate.length < queueSize))
  | .dequeue i => inferInstanceAs (Decidable (i < maxPerFetch → recv.length < maxPerFetch →
      refine.head? = some none → recv = []))
  | .enqueue (_ + 1) _ | .fetch | .rewrite _ | .refine _ _ | .drain | .terminate | .done | .failed => .isTrue trivial

/-- The condition on a step. -/
def Timely (s : State n) : Action n → Prop
  | .worker k => (s.worker k).pc.Timely (s.worker k).recv s.refine s.deduplicate
  | _ => True

instance (s : State n) : ∀ a, Decidable (Timely s a)
  | .worker k => inferInstanceAs (Decidable ((s.worker k).pc.Timely (s.worker k).recv s.refine s.deduplicate))
  | .fragment | .read | .sentinel | .free _ => .isTrue trivial

/-! ### Numbers -/

theorem length_le_flatten : ∀ {ds : List Bytes}, (∀ d ∈ ds, d ≠ []) → ds.length ≤ ds.flatten.length
  | [], _ => Nat.le_refl 0
  | d :: ds, h => by
      have hd := List.length_pos_iff.mpr (h d (List.mem_cons_self ..))
      have hds := length_le_flatten fun e he => h e (List.mem_cons_of_mem d he)
      rw [List.length_cons, List.flatten_cons, List.length_append]
      omega

theorem number_snd : ∀ (k : UInt32) (ds : List Bytes), (number k ds).map Prod.snd = ds
  | _, [] => rfl
  | k, d :: ds => by rw [number, List.map_cons, number_snd]

theorem number_length (k : UInt32) (ds : List Bytes) : (number k ds).length = ds.length := by
  rw [← List.length_map Prod.snd, number_snd]

theorem toNat_succ {k : UInt32} {m : ℕ} (hk : k.toNat = m) (hlt : m + 1 < 2 ^ 32) : (k + 1).toNat = m + 1 := by
  rw [UInt32.toNat_add, hk]
  exact Nat.mod_eq_of_lt hlt

/-- As long as the numbers do not wrap, they are those from `m` on. -/
theorem number_fst : ∀ (ds : List Bytes) {k : UInt32} {m : ℕ}, k.toNat = m → m + ds.length < 2 ^ 32 →
    (number k ds).map (fun x => x.1.toNat) = List.range' m ds.length
  | [], _, _, _, _ => rfl
  | d :: ds, k, m, hk, hlt => by
      rw [List.length_cons] at hlt
      rw [number, List.map_cons, number_fst ds (toNat_succ hk (by omega)) (by omega), hk, List.length_cons,
        List.range'_succ]

theorem rowFrom_l2num (l1num : UInt32) : ∀ (ds : List Bytes) {k : UInt32} {m : ℕ}, k.toNat = m →
    m + ds.length < 2 ^ 32 →
    (rowFrom l1num k ds).map (fun p => p.l2num.toNat) = List.range' m ds.length
  | [], _, _, _, _ => rfl
  | d :: ds, k, m, hk, hlt => by
      rw [List.length_cons] at hlt
      rw [rowFrom, List.map_cons, rowFrom_l2num l1num ds (toNat_succ hk (by omega)) (by omega), hk,
        List.length_cons, List.range'_succ]

theorem rowFrom_data (l1num : UInt32) : ∀ (k : UInt32) (ds : List Bytes),
    (rowFrom l1num k ds).map Piece.data = ds
  | _, [] => rfl
  | k, d :: ds => by rw [rowFrom, List.map_cons, rowFrom_data]

theorem rowFrom_length (l1num k : UInt32) (ds : List Bytes) : (rowFrom l1num k ds).length = ds.length := by
  rw [← List.length_map Piece.data, rowFrom_data]

theorem rowFrom_l1num (l1num : UInt32) : ∀ (k : UInt32) (ds : List Bytes),
    ∀ p ∈ rowFrom l1num k ds, p.l1num = l1num
  | _, [], _, hp => nomatch hp
  | k, d :: ds, p, hp => by
      rcases List.mem_cons.mp hp with rfl | hp
      · rfl
      · exact rowFrom_l1num l1num (k + 1) ds p hp

theorem rowFrom_isLast (l1num : UInt32) : ∀ (k : UInt32) (ds : List Bytes), ds ≠ [] →
    (rowFrom l1num k ds).map Piece.isLastL2Chunk = List.replicate (ds.length - 1) false ++ [true]
  | _, [], h => absurd rfl h
  | _, [d], _ => rfl
  | k, d :: e :: ds, _ => by
      have hrest := rowFrom_isLast l1num (k + 1) (e :: ds) (List.cons_ne_nil e ds)
      rw [rowFrom, List.map_cons, hrest]
      rfl

theorem Chunk.row_spec {c : Chunk} (hne : c.data ≠ []) (hlen : c.data.length < 2 ^ 31) : Row c c.row := by
  obtain ⟨hflat, hfilled⟩ := greedy_spec (R := serialRule) (p := c.data)
  have hle := length_le_flatten hfilled
  rw [hflat] at hle
  have hdata := rowFrom_data c.l1num 0 (greedy serialRule c.data)
  have hpieces := greedy_ne_nil (R := serialRule) hne
  constructor
  · intro hnil
    rw [Chunk.row] at hnil
    rw [hnil] at hdata
    exact hpieces hdata.symm
  · exact rowFrom_l1num _ _ _
  · rw [Chunk.row, rowFrom_length, List.range_eq_range']
    exact rowFrom_l2num _ _ (by rfl) (by omega)
  · rw [Chunk.row, rowFrom_length]
    exact rowFrom_isLast _ _ _ hpieces
  · intro p hp
    exact hfilled p.data (hdata ▸ List.mem_map_of_mem hp)
  · rw [List.flatMap, Chunk.row, hdata, hflat]

/-- A piece that `Fragment` splits off is longer than `ANCHOR_JUMP`. -/
theorem greedy_anchor_length (p : Bytes) :
    (greedy anchorRule p).length * anchorJump ≤ p.length + anchorJump := by
  induction p using anchorRule.induction with
  | none p hcut =>
    rcases eq_or_ne p [] with rfl | hne
    · rw [greedy_nil, List.length_nil, Nat.zero_mul]
      exact Nat.zero_le _
    · rw [greedy_none hcut hne, List.length_singleton, Nat.one_mul]
      exact Nat.le_add_left ..
  | some p m hcut ih =>
    obtain ⟨k, -, rfl⟩ := Option.map_eq_some_iff.mp hcut
    have hlt := (anchorRule.inside hcut).2
    rw [List.length_drop] at ih
    rw [greedy_some hcut, List.length_cons, Nat.succ_mul]
    omega

/-! ### The invariant -/

/-- The buffers of all threads and queues. -/
def State.buffers (s : State n) : Multiset Mbuffer :=
  s.fragment.buffers + queued s.refine + ∑ k, (s.worker k).buffers + queued s.deduplicate + buffersOf s.held

/-- The coarse chunks a worker has taken. -/
def Worker.taken (w : Worker) : Multiset Chunk := (w.recv ++ w.processed : List Chunk)

/-- Invariant of the steps. -/
structure Inv (input : Bytes) (s : State n) : Prop where
  sound : Sound input.length s.mcbs s.buffers s.fragment.input.length
  fragment : s.fragment.Good input
  worker : ∀ k, (s.worker k).Good
  tally : (s.fragment.sent : Multiset Chunk) = s.refine.reduceOption + ∑ k, (s.worker k).taken
  early : s.fragment.pc ≠ .done → none ∉ s.refine ∧ ∀ k, ¬(s.worker k).pc.Left
  last : SentinelsLast s.refine
  left : ∀ k, (s.worker k).pc.Left → (s.worker k).recv = [] ∧ s.refine.reduceOption = []

theorem inv_new (n : ℕ) (input : Bytes) : Inv input (State.new n input) where
  sound := by
    have hzero : (State.new n input).buffers = 0 := by
      simp [State.buffers, State.new, FragmentThread.buffers, Worker.buffers, FragmentPc.held, WorkerPc.held]
    rw [hzero]
    refine ⟨⟨fun _ => rfl, fun m hm => absurd hm (Multiset.notMem_zero m)⟩,
      fun m hm => absurd hm (Multiset.notMem_zero m), ?_⟩
    exact Nat.le_of_eq (Nat.zero_add _)
  fragment := ⟨rfl, rfl⟩
  worker _ := ⟨(by decide : 0 < Mpmc.itemPerInsert), rfl⟩
  tally := by simp [State.new, Worker.taken]
  early _ := ⟨List.not_mem_nil, fun _ h => h⟩
  last := List.Pairwise.nil
  left _ h := h.elim

/-- `Fragment` finds room in `queue_refine`. -/
theorem Inv.room (hI : Inv input s) (hlen : input.length < 2 ^ 31) (hpc : s.fragment.pc ≠ .done) :
    s.refine.length < queueSize := by
  have hall : s.refine.reduceOption.length = s.refine.length :=
    List.reduceOption_length_eq_iff.mpr fun x hx => by
      rcases x with - | c
      · exact absurd hx (hI.early hpc).1
      · rfl
  have hsent : s.refine.length ≤ s.fragment.sent.length := by
    have hcard := congrArg Multiset.card hI.tally
    rw [Multiset.card_add, Multiset.coe_card, Multiset.coe_card, hall] at hcard
    omega
  have hcount : s.fragment.sent.length ≤ (greedy anchorRule input).length := by
    have hlength := congrArg List.length hI.fragment.numbered
    rw [List.length_append, List.length_map, List.length_append] at hlength
    rw [number_length] at hlength
    omega
  have hjump := greedy_anchor_length input
  unfold anchorJump at hjump
  unfold queueSize
  omega

theorem sentinelsLast_concat_some {queue : List (Option Chunk)} (hnone : none ∉ queue) (c : Chunk) :
    SentinelsLast (queue ++ [some c]) := by
  have htrue : (queue ++ [some c]).Pairwise fun _ _ => True := List.pairwise_of_forall fun _ _ => trivial
  refine htrue.imp_of_mem fun {x y} hx _ _ h => ?_
  subst h
  rcases List.mem_append.mp hx with hx | hx
  · exact absurd hx hnone
  · exact absurd (List.mem_singleton.mp hx) (Option.some_ne_none c).symm

/-- A step of `Fragment`. -/
theorem inv_fragment (hI : Inv input s) (hlen : input.length < 2 ^ 31) {f : FragmentThread} {h : Mcbs}
    {queue : List (Option Chunk)} (hs : fragmentStep r s.fragment s.mcbs s.refine = some (f, h, queue)) :
    Inv input { s with mcbs := h, fragment := f, refine := queue } := by
  have hpc : s.fragment.pc ≠ .done := by
    intro hpc
    simp [fragmentStep, hpc] at hs
  have hS : Sound input.length s.mcbs (s.fragment.buffers + queued s.refine +
      (∑ k, (s.worker k).buffers + queued s.deduplicate + buffersOf s.held)) s.fragment.input.length :=
    hI.sound.of_eq (by simp only [State.buffers, add_assoc])
  obtain ⟨hgood, hsound, hwrites⟩ := fragment_step hlen hI.fragment hS (hI.room hlen hpc) hs
  dsimp only at hgood hsound hwrites
  obtain ⟨hnone, hstay⟩ := hI.early hpc
  have hsound' : Sound input.length h ({ s with mcbs := h, fragment := f, refine := queue } : State n).buffers
      f.input.length := hsound.of_eq (by simp only [State.buffers, add_assoc])
  rcases hwrites with ⟨rfl, hsent, -⟩ | ⟨c, rfl, hsent, -⟩ | ⟨rfl, hsent, hdone⟩
  · exact ⟨hsound', hgood, hI.worker, hsent ▸ hI.tally, fun _ => ⟨hnone, hstay⟩, hI.last, hI.left⟩
  · refine ⟨hsound', hgood, hI.worker, ?_, fun _ => ⟨?_, hstay⟩, sentinelsLast_concat_some hnone c,
      fun k hk => absurd hk (hstay k)⟩
    · simp only [hsent, reduceOption_snoc, ← Multiset.coe_add, hI.tally, Option.toList_some]
      abel
    · simp [hnone]
  · refine ⟨hsound', hgood, hI.worker, ?_, fun hne => absurd hdone hne,
      Mpmc.sentinelsLast_writeSentinel rfl hI.last, fun k hk => absurd hk (hstay k)⟩
    simp only [hsent, reduceOption_writeSentinel, hI.tally]

theorem reduceOption_eq_nil_of_sentinel {queue : List (Option Chunk)} (hl : SentinelsLast (none :: queue)) :
    queue.reduceOption = [] := by
  refine List.filterMap_eq_nil_iff.mpr fun x hx => ?_
  exact (List.pairwise_cons.mp hl).1 x hx rfl

/-- What a worker has taken changes by what it takes from the queue. -/
theorem Worker.Takes.taken {w w' : Worker} {refine refine' : List (Option Chunk)}
    (h : w.Takes w' refine refine') :
    (refine'.reduceOption : Multiset Chunk) + w'.taken = refine.reduceOption + w.taken := by
  cases h with
  | nothing hq hrecv hproc => rw [hq, Worker.taken, hrecv, hproc, Worker.taken]
  | process c hq hrecv hproc =>
    rw [hq, Worker.taken, hproc, Worker.taken, hrecv, ← List.append_assoc]
    exact congrArg _ (Multiset.coe_eq_coe.mpr (List.perm_append_singleton c _))
  | chunk c hq hrecv hproc =>
    rw [hq, Worker.taken, hrecv, hproc, Worker.taken, List.reduceOption_cons_of_some, Multiset.coe_add,
      Multiset.coe_add, Multiset.coe_eq_coe, List.append_assoc, ← List.append_assoc, List.singleton_append,
      List.cons_append, ← List.append_assoc]
    exact List.perm_middle
  | sentinel i hq hrecv hproc =>
    rw [hq, Worker.taken, hrecv, hproc, Worker.taken, List.reduceOption_cons_of_none]
  | rewrite hq hrecv hproc =>
    rw [hq, Worker.taken, hrecv, hproc, Worker.taken, reduceOption_writeSentinel]

/-- A step of a worker that meets the condition. -/
theorem inv_worker (hI : Inv input s) (hlen : input.length < 2 ^ 31) {k : Fin n} (hG : Timely s (.worker k))
    {w : Worker} {h : Mcbs} {refine deduplicate : List (Option Chunk)}
    (hs : workerStep (s.worker k) s.mcbs s.refine s.deduplicate = some (w, h, refine, deduplicate)) :
    Inv input { s with
      mcbs := h, refine := refine, worker := Function.update s.worker k w, deduplicate := deduplicate } := by
  have hroom : ∀ next, (s.worker k).pc = .enqueue 0 next → s.deduplicate.length < queueSize := by
    intro next hpc
    rwa [Timely, hpc] at hG
  have hsum := fun g : Worker → Multiset Mbuffer =>
    Finset.add_sum_erase Finset.univ (fun j => g (s.worker j)) (Finset.mem_univ k)
  have hS : Sound input.length s.mcbs ((s.worker k).buffers + queued s.refine + queued s.deduplicate +
      (s.fragment.buffers + ∑ j ∈ Finset.univ.erase k, (s.worker j).buffers + buffersOf s.held))
      s.fragment.input.length := by
    refine hI.sound.of_eq ?_
    rw [State.buffers, ← hsum Worker.buffers]
    abel
  obtain ⟨hgood, hsound, htakes⟩ := worker_step (hI.worker k) hS hlen hroom hs
  dsimp only at hgood hsound htakes
  have hother : ∀ j, j ≠ k → Function.update s.worker k w j = s.worker j :=
    fun j hj => Function.update_of_ne hj _ _
  refine ⟨?_, hI.fragment, fun j => ?_, ?_, fun hpc => ?_, ?_, fun j hj => ?_⟩
  · refine hsound.of_eq ?_
    have hrest : ∑ j ∈ Finset.univ.erase k, (Function.update s.worker k w j).buffers =
        ∑ j ∈ Finset.univ.erase k, (s.worker j).buffers :=
      Finset.sum_congr rfl fun j hj => by rw [hother j (Finset.ne_of_mem_erase hj)]
    simp only [State.buffers]
    rw [← Finset.add_sum_erase Finset.univ _ (Finset.mem_univ k), hrest, Function.update_self]
    abel
  · rcases eq_or_ne j k with rfl | hj
    · simpa only [Function.update_self] using hgood
    · simpa only [hother j hj] using hI.worker j
  · -- every coarse chunk stays in the queue or with a worker
    have hsum := sum_update (fun _ => Worker.taken) s.worker k w
    have htaken := htakes.taken
    have htally := hI.tally
    refine add_right_cancel (b := (s.worker k).taken) ?_
    dsimp only
    rw [htally, add_assoc, add_assoc, hsum, add_left_comm, ← htaken]
    abel
  · obtain ⟨hnone, hstay⟩ := hI.early hpc
    have hw : none ∉ refine ∧ ¬w.pc.Left := by
      cases htakes with
      | nothing hq _ _ hl => exact ⟨hq ▸ hnone, fun hw => hstay k (hl hw)⟩
      | process c hq _ _ hl => exact ⟨hq ▸ hnone, hl⟩
      | chunk c hq _ _ hl => exact ⟨fun hx => hnone (hq ▸ List.mem_cons_of_mem _ hx), hl⟩
      | sentinel i hq => exact absurd (hq ▸ List.mem_cons_self ..) hnone
      | rewrite _ _ _ hl => exact absurd hl (hstay k)
    refine ⟨hw.1, fun j => ?_⟩
    rcases eq_or_ne j k with rfl | hj
    · simpa only [Function.update_self] using hw.2
    · simpa only [hother j hj] using hstay j
  · have hlast := hI.last
    cases htakes with
    | nothing hq | process c hq => exact hq ▸ hlast
    | chunk c hq | sentinel i hq => exact (List.pairwise_cons.mp (hq ▸ hlast)).2
    | rewrite hq => exact Mpmc.sentinelsLast_writeSentinel (by rw [hq]) hlast
  · dsimp only at hj ⊢
    rcases eq_or_ne j k with rfl | hne
    · simp only [Function.update_self] at hj ⊢
      cases htakes with
      | nothing hq hrecv _ hl =>
        rw [hq, hrecv]
        exact hI.left j (hl hj)
      | process c _ _ _ hl | chunk c _ _ _ hl => exact absurd hj hl
      | sentinel i hq hrecv _ hpc hi hlength =>
        have hempty : (s.worker j).recv = [] := by
          rw [Timely, hpc] at hG
          exact hG hi hlength (by rw [hq]; rfl)
        exact ⟨hrecv.trans hempty, reduceOption_eq_nil_of_sentinel (hq ▸ hI.last)⟩
      | rewrite hq hrecv _ hl =>
        rw [hq, hrecv, reduceOption_writeSentinel]
        exact hI.left j hl
    · rw [hother j hne] at hj ⊢
      obtain ⟨hrecv, hnil⟩ := hI.left j hj
      refine ⟨hrecv, ?_⟩
      cases htakes with
      | nothing hq | process c hq => rw [hq, hnil]
      | chunk c hq =>
        rw [hq, List.reduceOption_cons_of_some] at hnil
        cases hnil
      | sentinel i hq => rwa [hq, List.reduceOption_cons_of_none] at hnil
      | rewrite hq => rw [hq, reduceOption_writeSentinel, hnil]

/-- Every step that meets the condition keeps the invariant. -/
theorem inv_step (hlen : input.length < 2 ^ 31) (s : State n) (a : Action n) (s' : State n)
    (hI : Inv input s) (hG : Timely s a) (hs : step r s a = some s') : Inv input s' := by
  cases a with
  | fragment =>
    obtain ⟨⟨f, h, queue⟩, hstep, rfl⟩ := Option.map_eq_some_iff.mp hs
    exact inv_fragment hI hlen hstep
  | worker k =>
    obtain ⟨⟨w, h, refine, deduplicate⟩, hstep, rfl⟩ := Option.map_eq_some_iff.mp hs
    exact inv_worker hI hlen hG hstep
  | read =>
    simp only [step] at hs
    have hS := hI.sound
    split at hs
    · cases hs
    · rename_i queue hq
      cases hs
      refine ⟨hS.of_eq ?_, hI.fragment, hI.worker, hI.tally, hI.early, hI.last, hI.left⟩
      simp only [State.buffers, hq, queued_cons_none]
    · rename_i c queue hq
      cases hs
      refine ⟨hS.of_eq ?_, hI.fragment, hI.worker, hI.tally, hI.early, hI.last, hI.left⟩
      simp only [State.buffers, hq, queued_cons_some, buffersOf_cons, ← Multiset.singleton_add]
      abel
  | sentinel =>
    simp only [step, Option.some.injEq] at hs
    subst hs
    refine ⟨hI.sound.of_eq ?_, hI.fragment, hI.worker, hI.tally, hI.early, hI.last, hI.left⟩
    simp only [State.buffers, queued_writeSentinel]
  | free j =>
    obtain ⟨c, hc, rfl⟩ := Option.map_eq_some_iff.mp hs
    obtain ⟨hj, rfl⟩ := List.getElem?_eq_some_iff.mp hc
    have hheld : buffersOf s.held = s.held[j].uncompressed ::ₘ buffersOf (s.held.eraseIdx j) := by
      rw [← buffersOf_cons]
      exact Multiset.coe_eq_coe.mpr ((List.getElem_cons_eraseIdx_perm hj).symm.map _)
    have hS : Sound input.length s.mcbs (s.held[j].uncompressed ::ₘ
        (s.fragment.buffers + queued s.refine + ∑ k, (s.worker k).buffers + queued s.deduplicate +
          buffersOf (s.held.eraseIdx j))) s.fragment.input.length := by
      refine hI.sound.of_eq ?_
      simp only [State.buffers, hheld, ← Multiset.singleton_add]
      abel
    exact ⟨hS.free, hI.fragment, hI.worker, hI.tally, hI.early, hI.last, hI.left⟩

/-! ### What the invariant says -/

theorem Inv.mem_sent (hI : Inv input s) {k : Fin n} {c : Chunk} (hc : c ∈ (s.worker k).processed) :
    c ∈ s.fragment.sent := by
  have hle : ((s.worker k).processed : Multiset Chunk) ≤ s.fragment.sent := by
    rw [hI.tally, ← Finset.add_sum_erase _ _ (Finset.mem_univ k), Worker.taken, ← Multiset.coe_add]
    exact (Multiset.le_add_left _ _).trans ((Multiset.le_add_right _ _).trans (Multiset.le_add_left _ _))
  exact Multiset.mem_coe.mp (Multiset.subset_of_le hle (Multiset.mem_coe.mpr hc))

/-- A coarse chunk is one of the pieces of the input. -/
theorem Inv.row_spec (hI : Inv input s) (hlen : input.length < 2 ^ 31) {c : Chunk}
    (hc : c ∈ s.fragment.sent) : Row c c.row := by
  obtain ⟨hflat, hfilled⟩ := greedy_spec (R := anchorRule) (p := input)
  have hmem : c.data ∈ greedy anchorRule input := by
    have hcoarse : c.coarse ∈ number 0 (greedy anchorRule input) := by
      rw [← hI.fragment.numbered]
      exact List.mem_append_left _ (List.mem_map_of_mem (List.mem_append_left _ hc))
    rw [← number_snd 0 (greedy anchorRule input)]
    exact List.mem_map_of_mem hcoarse
  have hle := List.Sublist.length_le (List.sublist_flatten_of_mem hmem)
  rw [hflat] at hle
  exact Chunk.row_spec (hfilled _ hmem) (hle.trans_lt hlen)

/-- The numbers of the coarse chunks are dense. -/
theorem Inv.coarse (hI : Inv input s) (hlen : input.length < 2 ^ 31) :
    s.fragment.sent.map (fun c => c.l1num.toNat) = List.range s.fragment.sent.length := by
  obtain ⟨hflat, hfilled⟩ := greedy_spec (R := anchorRule) (p := input)
  have hle := length_le_flatten hfilled
  rw [hflat] at hle
  have hfst := number_fst (greedy anchorRule input) (k := 0) (m := 0) rfl (by omega)
  have hlength := congrArg List.length hI.fragment.numbered
  rw [number_length] at hlength
  simp only [List.length_append, List.length_map] at hlength
  rw [← hI.fragment.numbered, List.map_append, List.map_append, List.map_append, List.append_assoc,
    List.map_map] at hfst
  have htake := congrArg (List.take s.fragment.sent.length) hfst
  rw [List.take_left' (by simp), ← List.range_eq_range', List.take_range, min_eq_left (by omega)] at htake
  exact htake

/-- When the threads have returned, nothing is left in a send buffer or to be made. -/
theorem Inv.fragment_done (hI : Inv input s) (hdone : s.fragment.pc = .done) :
    s.fragment.sent.map Chunk.data = greedy anchorRule input := by
  obtain ⟨hok, hnum⟩ := hI.fragment
  rw [hdone] at hok hnum
  have hsend : s.fragment.send = [] := hok
  have hsnd := congrArg (List.map Prod.snd) hnum
  rw [number_snd, hsend, FragmentPc.pending, List.append_nil, List.append_nil, List.map_map] at hsnd
  exact hsnd

theorem Inv.worker_done (hI : Inv input s) {k : Fin n} (hdone : (s.worker k).pc = .done) :
    (s.worker k).sent.map Chunk.piece = (s.worker k).processed.flatMap Chunk.row := by
  obtain ⟨hok, hrows⟩ := hI.worker k
  rw [hdone] at hok hrows
  have hsend : (s.worker k).send = [] := hok
  rwa [hsend, WorkerPc.pending, List.append_nil, List.append_nil] at hrows

theorem Inv.once (hI : Inv input s) (hn : 0 < n) (hdone : ∀ k, (s.worker k).pc = .done) :
    ∑ k, ((s.worker k).processed : Multiset Chunk) = s.fragment.sent := by
  have hleft : ∀ k, (s.worker k).pc.Left := fun k => by rw [hdone k]; trivial
  have htaken : ∀ k, (s.worker k).taken = (s.worker k).processed := fun k => by
    rw [Worker.taken, (hI.left k (hleft k)).1, List.nil_append]
  rw [hI.tally, (hI.left ⟨0, hn⟩ (hleft _)).2, Multiset.coe_nil, zero_add]
  exact Finset.sum_congr rfl fun k _ => (htaken k).symm

/-- The rows of the coarse chunks, one after the other, are in order. -/
theorem Inv.ordered (hI : Inv input s) (hlen : input.length < 2 ^ 31) :
    (s.fragment.sent.flatMap Chunk.row).Pairwise Piece.Before := by
  refine List.pairwise_flatMap.mpr ⟨fun c hc => ?_, ?_⟩
  · have hrow := hI.row_spec hlen hc
    have hl2 : c.row.Pairwise fun p q => p.l2num.toNat < q.l2num.toNat := by
      rw [← List.pairwise_map, hrow.l2num]
      exact List.pairwise_lt_range
    refine hl2.imp_of_mem fun hp hq hlt => .inr ⟨?_, UInt32.lt_iff_toNat_lt.mpr hlt⟩
    rw [hrow.l1num _ hp, hrow.l1num _ hq]
  · have hl1 : s.fragment.sent.Pairwise fun c d => c.l1num.toNat < d.l1num.toNat := by
      rw [← List.pairwise_map, hI.coarse hlen]
      exact List.pairwise_lt_range
    refine hl1.imp_of_mem fun hc hd hlt p hp q hq => .inl ?_
    rw [(hI.row_spec hlen hc).l1num p hp, (hI.row_spec hlen hd).l1num q hq]
    exact UInt32.lt_iff_toNat_lt.mpr hlt

theorem rows_sum (F : Fin n → Multiset Chunk) : (∑ k, F k).bind (fun c => (c.row : Multiset Piece)) =
    ∑ k, (F k).bind fun c => (c.row : Multiset Piece) :=
  map_sum (⟨⟨fun t => t.bind fun c => (c.row : Multiset Piece), Multiset.zero_bind _⟩,
    fun t u => Multiset.add_bind t u _⟩ : Multiset Chunk →+ Multiset Piece) F Finset.univ

theorem Inv.lossless (hI : Inv input s) (hlen : input.length < 2 ^ 31) (hn : 0 < n) : Lossless input s where
  fragment hpc := by
    have hok := hI.fragment.ok
    rwa [hpc] at hok
  worker k hpc := by
    have hok := (hI.worker k).ok
    rwa [hpc] at hok
  coarse := hI.coarse hlen
  rows := by
    refine ⟨Chunk.row, fun k => ⟨fun c hc => hI.row_spec hlen (hI.mem_sent hc), ?_, fun hdone =>
      hI.worker_done (hdone.2 k)⟩⟩
    rw [← (hI.worker k).rows, List.map_append, List.append_assoc]
    exact List.prefix_append ..
  once hdone := hI.once hn hdone.2
  whole hdone := by
    refine ⟨s.fragment.sent.flatMap Chunk.row, ?_, hI.ordered hlen, ?_⟩
    · rw [← Multiset.coe_bind, ← hI.once hn hdone.2, rows_sum]
      exact Finset.sum_congr rfl fun k _ => by rw [Multiset.coe_bind, hI.worker_done (hdone.2 k)]
    · have hdata : ∀ c ∈ s.fragment.sent, c.row.flatMap Piece.data = c.data :=
        fun c hc => (hI.row_spec hlen hc).data
      rw [List.flatMap_assoc, List.flatMap, List.map_congr_left hdata, hI.fragment_done hdone.1]
      exact greedy_spec.1
  nothing hnil := by
    subst hnil
    have hsent : s.fragment.sent = [] := by
      have hnum := hI.fragment.numbered
      rw [greedy_nil, number] at hnum
      exact (List.append_eq_nil_iff.mp (List.map_eq_nil_iff.mp (List.append_eq_nil_iff.mp hnum).1)).1
    refine ⟨hsent, fun k => ?_⟩
    have hproc : (s.worker k).processed = [] := List.eq_nil_iff_forall_not_mem.mpr fun c hc => by
      have hmem := hI.mem_sent hc
      rw [hsent] at hmem
      exact List.not_mem_nil hmem
    have hrows := (hI.worker k).rows
    rw [hproc, List.flatMap_nil] at hrows
    exact (List.append_eq_nil_iff.mp (List.map_eq_nil_iff.mp (List.append_eq_nil_iff.mp hrows).1)).1

/-- CORRECT: for every file of fewer than 2^31 bytes, every way of reading it and every number of
    workers, a run whose steps meet the condition is free of failed assertions and loses nothing. -/
theorem twoLevel_lossless (r : Reading) (n : ℕ) (hn : 0 < n) (input : Bytes) (hlen : input.length < 2 ^ 31)
    (acts : List (Action n)) (s : State n) (hG : Meets (step r) Timely (State.new n input) acts)
    (hs : exec (step r) (State.new n input) acts = some s) : Lossless input s :=
  (exec_inv_of_meets (inv_step hlen) (inv_new n input) hG hs).lossless hlen hn

/-- Three windows of zeros. -/
def threeWindows : Bytes := List.replicate 96 0

/-- One worker that takes the only coarse chunk before `Fragment` writes the sentinel, and cuts it in three; the stages
    behind read two of the fine chunks and free the buffer of one. -/
theorem twoLevel_lossless_three :
    let acts : List (Action 1) := List.replicate 6 .fragment ++ List.replicate 14 (.worker 0) ++
      List.replicate 2 .fragment ++ List.replicate 10 (.worker 0) ++ [.read, .read, .free 1]
    ∃ s, exec (step .preloading) (State.new 1 threeWindows) acts = some s ∧ Finished s ∧
      (s.worker 0).sent.length = 3 ∧ Lossless threeWindows s := by
  intro acts
  have hend : (exec (step .preloading) (State.new 1 threeWindows) acts).any
      (fun s => decide (Finished s ∧ (s.worker 0).sent.length = 3)) := by decide +kernel
  have hG : Meets (step .preloading) Timely (State.new 1 threeWindows) acts := by decide +kernel
  obtain ⟨s, hs, hdone⟩ := (Option.any_eq_true _ _).mp hend
  obtain ⟨hfinished, hthree⟩ := of_decide_eq_true hdone
  exact ⟨s, hs, hfinished, hthree,
    twoLevel_lossless .preloading 1 (by decide) threeWindows (by decide) acts s hG hs⟩

/-- A file of one byte: the worker reads its chunk and the sentinel in one call, leaves its loop, and the
    byte is lost. -/
theorem twoLevel_loses_chunk : ∃ acts s, exec (step .preloading) (State.new 1 [1]) acts = some s ∧
    Finished s ∧ s.fragment.sent.length = 1 ∧ ¬Lossless [1] s := by
  let acts : List (Action 1) := List.replicate 8 .fragment ++ List.replicate 7 (.worker 0)
  have hend : (exec (step .preloading) (State.new 1 [1]) acts).any fun s =>
      decide (Finished s ∧ s.fragment.sent.length = 1 ∧ (s.worker 0).sent = []) := by decide +kernel
  obtain ⟨s, hs, hdone⟩ := (Option.any_eq_true _ _).mp hend
  obtain ⟨hfinished, hone, hsent⟩ := of_decide_eq_true hdone
  refine ⟨acts, s, hs, hfinished, hone, fun hI => ?_⟩
  obtain ⟨out, hout, -, hdata⟩ := hI.whole hfinished
  rw [Fin.sum_univ_one, hsent, List.map_nil, Multiset.coe_nil, Multiset.coe_eq_zero] at hout
  rw [hout] at hdata
  cases hdata

end Turkey.TwoLevel
