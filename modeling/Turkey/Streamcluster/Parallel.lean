import Turkey.Streamcluster.Phases

/-! The threads of `pgain` at the barriers: what they share is what the loops of `pgain` have made of it, however the
    accesses between two barriers were ordered. The number of threads does not matter, since the cost of the
    opening, the centers that are closed and the new clustering are those of the facility location problem. -/

namespace Turkey.Pgain
open Turkey.ParallelFor Turkey.Barriers Turkey.Run

section Barriers
variable {K : Type} [CommRing K] [LinearOrder K] [FloorSemiring K] (c : Config K) (s : State K) (g : K) (n : ℕ)

/-- The table after the count. -/
def countedTable : Table := (c.order .count).run.foldl (countCenter s) ⟨s.centerTable, fun _ => 0⟩

/-- The counts of the threads in the working memory. -/
def counts : ℕ → K := store c (stride s.numcenters) 0 (fun pid => ((countedTable c s).count pid : K)) c.heap

/-- What the threads share at the start of a phase. Before the first one, `g` and `n` are what is in the variables. -/
def atBarrier : ℕ → Shared K
  | 0 => ⟨s, c.heap, g, n⟩
  | 1 => ⟨s, c.heap, 0, 0⟩
  | 2 => ⟨{ s with centerTable := (countedTable c s).centerTable }, counts c s, 0, 0⟩
  | 3 => ⟨{ s with centerTable := (countedTable c s).centerTable },
    (offsets c (stride s.numcenters) (counts c s)).1, 0, 0⟩
  | 4 => ⟨{ s with
      centerTable := centerTable c s
      switchMembership := forEach Prod.snd (fun _ _ => false) (c.order .clear).run s.switchMembership },
      cleared c s, 0, 0⟩
  | 5 => ⟨{ s with
      centerTable := centerTable c s
      switchMembership := (lower c s (centerTable c s)).switchMembership },
        (lower c s (centerTable c s)).workMem, 0, 0⟩
  | 6 => ⟨{ s with
      centerTable := centerTable c s
      switchMembership := (lower c s (centerTable c s)).switchMembership }, results c s (centerTable c s), 0, 0⟩
  | 7 => ⟨{ s with
      centerTable := centerTable c s
      switchMembership := (lower c s (centerTable c s)).switchMembership }, results c s (centerTable c s),
      glCostOfOpeningX c s (centerTable c s), glNumberOfCentersToClose c s (centerTable c s)⟩
  | _ => ⟨(pgain c s).1, results c s (centerTable c s), -(pgain c s).2,
    glNumberOfCentersToClose c s (centerTable c s)⟩

/-- The variables of a thread at the start of a phase. -/
def localsAt (pid : ℕ) : ℕ → Locals K
  | 0 => ⟨0, 0, 0⟩
  | 1 | 2 | 3 | 4 => ⟨stride s.numcenters, 0, 0⟩
  | 5 | 6 | 7 | 8 => ⟨stride s.numcenters, (lower c s (centerTable c s)).costOfOpeningX pid, 0⟩
  | _ => ⟨stride s.numcenters, (lower c s (centerTable c s)).costOfOpeningX pid, (pgain c s).2⟩

variable {c s}

section Phases

omit [CommRing K] [LinearOrder K] [FloorSemiring K] in
/-- A phase in which only thread 0 writes. -/
theorem joined_of_zero {p : Fin c.nproc → Prog Loc (Val K) (Locals K)} {r : Fin c.nproc → Locals K} {a a' : Shared K}
    (hfree : Free p a.mem) (h : ∀ t : Fin c.nproc, t.val = 0 → (p t).alone a.mem = (r t, a'.mem))
    (h' : ∀ t : Fin c.nproc, t.val ≠ 0 → (p t).alone a'.mem = (r t, a'.mem)) : Joined p a.mem r a'.mem := by
  have hlast : (if c.nproc = 0 then a.mem else a'.mem) = a'.mem := if_neg c.blocks.pos.ne'
  have hjoined := Joined.of_inTurn (p := p) (r := r) (S := fun k => if k = 0 then a.mem else a'.mem)
      (fun t => ?_) hfree
  · exact hlast ▸ hjoined
  · rcases Nat.eq_zero_or_pos t.val with ht | ht
    · rw [ht]
      exact h t ht
    · obtain ⟨k, hk⟩ := Nat.exists_eq_succ_of_ne_zero ht.ne'
      rw [hk]
      exact h' t ht.ne'

/-- What thread `t` does in phase `j`. -/
def program (c : Config K) (s : State K) (j : ℕ) (t : Fin c.nproc) : Prog Loc (Val K) (Locals K) :=
  (team c s).body j t (localsAt c s t j)

theorem joined_allocate (hfree : Free (program c s 0) (atBarrier c s g n 0).mem) : Joined (program c s 0)
    (atBarrier c s g n 0).mem (fun t => localsAt c s t 1) (atBarrier c s g n 1).mem := by
  refine joined_of_zero hfree (fun t ht => ?_) fun t ht => ?_
  · exact (alone_allocate t _).trans (by rw [if_pos ht]; rfl)
  · exact (alone_allocate t _).trans (by rw [if_neg ht]; rfl)

/-- The iterations of the first `k` threads. -/
def upTo (c : Config K) (k : ℕ) : List (ℕ × ℕ) := (List.range k).flatMap (iterationsOf c)

omit [CommRing K] [LinearOrder K] [FloorSemiring K] in
theorem count_foldl (pid : ℕ) : ∀ (l : List (ℕ × ℕ)) (t : Table),
    (l.foldl (countCenter s) t).count pid = t.count pid + centersIn s pid l
  | [], _ => rfl
  | (p, i) :: l, t => by
    rw [List.foldl_cons, count_foldl pid l]
    by_cases hi : s.isCenter i
    · rcases eq_or_ne pid p with rfl | hp
      · simp [countCenter, centersIn, hi, Nat.add_assoc]
      · simp [countCenter, centersIn, hi, Function.update_of_ne hp, hp.symm]
    · simp [countCenter, centersIn, hi]

omit [CommRing K] [LinearOrder K] [FloorSemiring K] in
theorem centersIn_upTo (pid k : ℕ) : centersIn s pid (upTo c k) =
    if pid < k then ((c.blocks.block pid).map fun i => if s.isCenter i then 1 else 0).sum else 0 :=
  Blocks.sum_share c.blocks pid (fun q => if s.isCenter q.2 then 1 else 0) k

theorem joined_countCenters (horder : (c.order .count).run = c.blocks.iterations)
    (hfree : Free (program c s 1) (atBarrier c s g n 1).mem) : Joined (program c s 1)
    (atBarrier c s g n 1).mem (fun t => localsAt c s t 2) (atBarrier c s g n 2).mem := by
  have hcount : ∀ t < c.nproc, ((upTo c (t + 1)).foldl (countCenter s) ⟨s.centerTable, fun _ => 0⟩).count t =
      (countedTable c s).count t := by
    intro t ht
    have hall : countedTable c s = (upTo c c.nproc).foldl (countCenter s) ⟨s.centerTable, fun _ => 0⟩ := by
      rw [countedTable, horder]
      rfl
    rw [hall, count_foldl, count_foldl, centersIn_upTo, centersIn_upTo, if_pos ht, if_pos (Nat.lt_succ_self t)]
  have hturn := Joined.of_inTurn (p := program c s 1) (r := fun t => localsAt c s t 2) (S := fun k => Shared.mem
    ⟨{ s with centerTable := ((upTo c k).foldl (countCenter s) ⟨s.centerTable, fun _ => 0⟩).centerTable },
      forEach (fun pid => pid * stride s.numcenters + 0) (fun pid _ => ((countedTable c s).count pid : K))
        (List.range k) c.heap,
      0, 0⟩) (fun t => ?_) hfree
  · have hlast : (atBarrier c s g n 2) = ⟨{ s with
        centerTable := ((upTo c c.nproc).foldl (countCenter s) ⟨s.centerTable, fun _ => 0⟩).centerTable },
        forEach (fun pid => pid * stride s.numcenters + 0) (fun pid _ => ((countedTable c s).count pid : K))
          (List.range c.nproc) c.heap, 0, 0⟩ := by
      rw [atBarrier, counts, store, countedTable, horder]
      rfl
    rw [hlast]
    exact hturn
  · refine (alone_countCenters (c := c) (s := s) t _ _
      ((upTo c t).foldl (countCenter s) ⟨s.centerTable, fun _ => 0⟩) ?_ rfl rfl).trans ?_
    · rw [count_foldl, centersIn_upTo, if_neg (Nat.lt_irrefl _)]
    · have hnext : (iterationsOf c t).foldl (countCenter s)
          ((upTo c t).foldl (countCenter s) ⟨s.centerTable, fun _ => 0⟩) =
          (upTo c (t + 1)).foldl (countCenter s) ⟨s.centerTable, fun _ => 0⟩ := by
        rw [upTo, upTo, List.range_succ, List.flatMap_append, List.foldl_append, List.flatMap_singleton]
      rw [hnext, hcount t t.isLt, List.range_succ]
      simp [forEach, localsAt]

theorem joined_sumCounts (hfree : Free (program c s 2) (atBarrier c s g n 2).mem) : Joined (program c s 2)
    (atBarrier c s g n 2).mem (fun t => localsAt c s t 3) (atBarrier c s g n 3).mem := by
  refine joined_of_zero hfree (fun t ht => ?_) fun t ht => ?_
  · exact (alone_sumCounts t _ _).trans (by rw [if_pos ht]; rfl)
  · exact (alone_sumCounts t _ _).trans (by rw [if_neg ht]; rfl)

/-- Behind the rows the working memory stays as it is. -/
theorem offsets_of_le {stride k : ℕ} (hk : c.nproc * stride ≤ k) (hpos : 0 < stride) (w : ℕ → K) :
    (offsets c stride w).1 k = w k := by
  suffices h : ∀ m ≤ c.nproc, ((List.range m).foldl (fun (workMem, accum) p =>
      (Function.update workMem (p * stride) ((accum : ℕ) : K), accum + ⌊workMem (p * stride)⌋₊)) (w, 0)).1 k =
        w k from
    h c.nproc le_rfl
  intro m
  induction m with
  | zero => exact fun _ => rfl
  | succ m ih =>
    intro hm
    have hne : k ≠ m * stride := by
      have := Nat.mul_lt_mul_of_pos_right hm hpos
      omega
    rw [List.range_succ, List.foldl_append, List.foldl_cons, List.foldl_nil]
    exact (Function.update_of_ne hne ..).trans (ih (Nat.le_of_succ_le hm))

omit [CommRing K] [LinearOrder K] [FloorSemiring K] in
/-- A loop of one thread over its block. -/
theorem forEach_block {β : Type} {gg : ℕ × ℕ → β → β} {w : ℕ → β} {pid i : ℕ} (hi : i ∈ c.blocks.block pid) :
    forEach Prod.snd gg (iterationsOf c pid) w i = gg (pid, i) (w i) := by
  have hnd : ((iterationsOf c pid).map Prod.snd).Nodup := by
    rw [iterationsOf, List.map_map]
    exact List.Nodup.map (fun _ _ h => h) List.nodup_range'
  exact forEach_of_mem hnd (List.mem_map.2 ⟨i, hi, rfl⟩ : (pid, i) ∈ iterationsOf c pid)

omit [CommRing K] [LinearOrder K] [FloorSemiring K] in
/-- The loop of all threads. -/
theorem forEach_run (o : c.blocks.Order) {β : Type} {gg : ℕ × ℕ → β → β} {w : ℕ → β} {t : Fin c.nproc} {i : ℕ}
    (hi : i ∈ c.blocks.block t) : forEach Prod.snd gg o.run w i = gg (t, i) (w i) :=
  forEach_of_mem o.nodup (o.perm.mem_iff.2 (Blocks.mem_iterations.2 ⟨t.isLt, hi⟩) : ((t : ℕ), i) ∈ o.run)

omit [CommRing K] [LinearOrder K] [FloorSemiring K] in
theorem forEach_outside (o : c.blocks.Order) {β : Type} {gg : ℕ × ℕ → β → β} {w : ℕ → β} {i : ℕ}
    (hi : ∀ t : Fin c.nproc, i ∉ c.blocks.block t) : forEach Prod.snd gg o.run w i = w i := by
  refine forEach_of_notMem fun hmem => ?_
  obtain ⟨pid, hpid, hblock⟩ := Blocks.exists_block (o.mem_iff.1 hmem)
  exact hi ⟨pid, hpid⟩ hblock

omit [CommRing K] [LinearOrder K] [FloorSemiring K] in
/-- The rows of the threads and the global row. -/
theorem inRow_iff {k : ℕ} (hpos : 0 < stride s.numcenters) :
    (∃ row ≤ c.nproc, InRow s row k) ↔ k < (c.nproc + 1) * stride s.numcenters := by
  constructor
  · rintro ⟨row, hrow, e, he, rfl⟩
    exact cell_lt (Nat.lt_succ_of_le hrow) he
  · intro hk
    refine ⟨k / stride s.numcenters, Nat.le_of_lt_succ (Nat.div_lt_of_lt_mul (by rwa [Nat.mul_comm])),
      k % stride s.numcenters,
      Nat.mod_lt _ hpos, ?_⟩
    rw [Nat.mul_comm]
    exact (Nat.div_add_mod ..).symm

omit [LinearOrder K] [FloorSemiring K] in
theorem clear_inRow {row k : ℕ} (h : InRow s row k) (w : ℕ → K) : forEach (fun e => row * stride s.numcenters + e)
    (fun _ _ => (0 : K)) (List.range (stride s.numcenters)) w k = 0 := by
  obtain ⟨e, he, rfl⟩ := h
  have hnd : ((List.range (stride s.numcenters)).map fun e => row * stride s.numcenters + e).Nodup :=
    List.nodup_range.map fun _ _ heq => Nat.add_left_cancel heq
  exact forEach_of_mem hnd (List.mem_range.2 he)

omit [LinearOrder K] [FloorSemiring K] in
theorem clear_not_inRow {row k : ℕ} (h : ¬InRow s row k) (w : ℕ → K) :
    forEach (fun e => row * stride s.numcenters + e)
    (fun _ _ => (0 : K)) (List.range (stride s.numcenters)) w k = w k := by
  refine forEach_of_notMem fun hmem => ?_
  obtain ⟨e, he, rfl⟩ := List.mem_map.1 hmem
  exact h ⟨e, List.mem_range.1 he, rfl⟩

theorem joined_placeCenters (hpos : 0 < stride s.numcenters)
    (hw : ∀ t : Fin c.nproc, (program c s 3 t).Within (reads c s (centerTable c s) t 3)
      (writes c s (centerTable c s) t 3) (atBarrier c s g n 3).mem) : Joined (program c s 3)
    (atBarrier c s g n 3).mem (fun t => localsAt c s t 4) (atBarrier c s g n 4).mem := by
  have halone (t : Fin c.nproc) := alone_placeCenters (c := c) (s := s) t (atBarrier c s g n 3) (localsAt c s t 3) rfl
  refine .of_within hw (fun t => congrArg Prod.fst (halone t)) (fun t l hl => ?_) fun l hl => ?_
  · refine (congrFun (congrArg Prod.snd (halone t)) l).trans ?_
    cases l with
    | centerTable i =>
      simp only [Shared.mem, atBarrier, centerTable]
      rw [forEach_block hl, forEach_run _ hl]
      rfl
    | switchMembership i =>
      simp only [Shared.mem, atBarrier]
      rw [forEach_block hl, forEach_run _ hl]
    | workMem k =>
      have hlt : k < (c.nproc + 1) * stride s.numcenters := by
        rw [← inRow_iff hpos]
        rcases hl with hrow | ⟨-, hrow⟩
        · exact ⟨t, t.isLt.le, hrow⟩
        · exact ⟨c.nproc, le_rfl, hrow⟩
      simp only [Shared.mem, atBarrier, localsAt, cleared, if_pos hlt]
      rcases hl with hrow | ⟨ht, hrow⟩
      · split_ifs
        · by_cases hglobal : InRow s c.nproc k
          · rw [clear_inRow hglobal]
          · rw [clear_not_inRow hglobal, clear_inRow hrow]
        · rw [clear_inRow hrow]
      · rw [if_pos ht, clear_inRow hrow]
    | _ => exact hl.elim
  · cases l with
    | centerTable i =>
      simp only [Shared.mem, atBarrier, centerTable]
      rw [forEach_outside _ hl]
      rfl
    | switchMembership i =>
      simp only [Shared.mem, atBarrier]
      rw [forEach_outside _ hl]
    | workMem k =>
      have hge : ¬k < (c.nproc + 1) * stride s.numcenters := by
        rw [← inRow_iff hpos]
        rintro ⟨row, hle, hrow⟩
        rcases Nat.lt_or_eq_of_le hle with hlt | rfl
        · exact hl ⟨row, hlt⟩ (.inl hrow)
        · exact hl ⟨0, c.blocks.pos⟩ (.inr ⟨rfl, hrow⟩)
      have hle : c.nproc * stride s.numcenters ≤ k := by
        rw [Nat.succ_mul] at hge
        omega
      simp only [Shared.mem, atBarrier, cleared, if_neg hge]
      rw [offsets_of_le hle hpos, counts, store_of_ne fun pid hpid heq => ?_]
      have := cell_lt hpid hpos
      omega
    | cost i => rfl
    | assign i => rfl
    | isCenter i => rfl
    | glCostOfOpeningX => rfl
    | glNumberOfCentersToClose => rfl
    | numcenters => rfl

omit [CommRing K] [LinearOrder K] [FloorSemiring K] in
/-- The share of thread `t` is what it does itself. -/
theorem sum_own {M : Type} [AddCommMonoid M] (o : c.blocks.Order) (t : Fin c.nproc) (f : ℕ × ℕ → M) :
    ((iterationsOf c t).map fun q => if q.1 = (t : ℕ) then f q else 0).sum =
      (o.run.map fun q => if q.1 = (t : ℕ) then f q else 0).sum := by
  rw [o.sum_thread t.isLt, iterationsOf, List.map_map]
  simp [Function.comp_def]

theorem joined_lowerCenters (hlt : ∀ i < c.blocks.num, centerTable c s (s.p i).assign < stride s.numcenters)
    (hw : ∀ t : Fin c.nproc, (program c s 4 t).Within (reads c s (centerTable c s) t 4)
      (writes c s (centerTable c s) t 4) (atBarrier c s g n 4).mem) : Joined (program c s 4)
    (atBarrier c s g n 4).mem (fun t => localsAt c s t 5) (atBarrier c s g n 5).mem := by
  set table := centerTable c s with htable
  set x : Lower K := ⟨forEach Prod.snd (fun _ _ => false) (c.order .clear).run s.switchMembership, fun _ => 0,
    cleared c s⟩ with hx
  have halone (t : Fin c.nproc) := alone_lowerCenters (c := c) (s := s) t (atBarrier c s g n 4)
    (localsAt c s t 4) rfl rfl x rfl rfl rfl rfl
  have hown (t : Fin c.nproc) := lowered_foldl c s table x (iterationsOf c t)
  have hall := lowered c s table
  -- an iteration of another thread is in another row
  have hrow : ∀ q ∈ (c.order .lower).run, ∀ p, InRow s p (q.1 * stride s.numcenters + table (s.p q.2).assign) →
      q.1 = p :=
    fun q hq p h => InRow.inj ⟨_, hlt q.2 ((c.order .lower).mem_iff.1 (List.mem_map_of_mem hq)), rfl⟩ h
  refine .of_within hw (fun t => (congrArg Prod.fst (halone t)).trans ?_) (fun t l hl => ?_) fun l hl => ?_
  · have hcost : ((iterationsOf c t).foldl (lowerStep c s table) x).costOfOpeningX t =
        (lower c s table).costOfOpeningX t := by
      rw [(hown t).cost, hall.cost, sum_own (c.order .lower)]
    exact congrArg (fun cost => (⟨stride s.numcenters, cost, 0⟩ : Locals K)) hcost
  · refine (congrFun (congrArg Prod.snd (halone t)) l).trans ?_
    cases l with
    | switchMembership i =>
      have hi : i ∈ (iterationsOf c t).map Prod.snd ↔ i ∈ (c.order .lower).run.map Prod.snd :=
        iff_of_true (List.mem_map.2 ⟨(t, i), List.mem_map.2 ⟨i, hl, rfl⟩, rfl⟩)
          ((c.order .lower).mem_iff.2 (Blocks.lt_num t.isLt hl))
      simp only [Shared.mem, atBarrier]
      rw [Bool.eq_iff_iff, (hown t).switch, hall.switch, hi]
    | workMem k =>
      have hterm : ∀ q ∈ (c.order .lower).run, (if ¬xCost c s q.2 < (s.p q.2).cost ∧
          q.1 * stride s.numcenters + table (s.p q.2).assign = k then (s.p q.2).cost - xCost c s q.2 else 0) =
          if q.1 = (t : ℕ) then (if ¬xCost c s q.2 < (s.p q.2).cost ∧
            q.1 * stride s.numcenters + table (s.p q.2).assign = k then (s.p q.2).cost - xCost c s q.2 else 0)
              else 0 := by
        intro q hq
        rcases eq_or_ne q.1 (t : ℕ) with ht | ht
        · rw [if_pos ht]
        · rw [if_neg ht]
          refine if_neg ?_
          rintro ⟨-, rfl⟩
          exact ht (hrow q hq t hl)
      have hsub : ∀ q ∈ iterationsOf c t, q ∈ (c.order .lower).run := by
        intro q hq
        obtain ⟨i, hi, rfl⟩ := List.mem_map.1 hq
        exact (c.order .lower).perm.mem_iff.2 (Blocks.mem_iterations.2 ⟨t.isLt, hi⟩)
      simp only [Shared.mem, atBarrier]
      rw [(hown t).workMem, hall.workMem, List.map_congr_left fun q hq => hterm q (hsub q hq),
        List.map_congr_left hterm, sum_own (c.order .lower)]
    | _ => exact hl.elim
  · cases l with
    | switchMembership i =>
      have hi : i ∉ (c.order .lower).run.map Prod.snd := fun hmem => by
        obtain ⟨pid, hpid, hblock⟩ := Blocks.exists_block ((c.order .lower).mem_iff.1 hmem)
        exact hl ⟨pid, hpid⟩ hblock
      simp only [Shared.mem, atBarrier]
      rw [Bool.eq_iff_iff, hall.switch, or_iff_left fun h => hi h.1]
    | workMem k =>
      have hterm : ∀ q ∈ (c.order .lower).run, (if ¬xCost c s q.2 < (s.p q.2).cost ∧
          q.1 * stride s.numcenters + table (s.p q.2).assign = k then (s.p q.2).cost - xCost c s q.2 else 0) = 0 := by
        intro q hq
        have hpid := (c.order .lower).fst_lt hq
        refine if_neg ?_
        rintro ⟨-, rfl⟩
        exact hl ⟨q.1, hpid⟩ ⟨_, hlt q.2 ((c.order .lower).mem_iff.1 (List.mem_map_of_mem hq)), rfl⟩
      simp only [Shared.mem, atBarrier]
      rw [hall.workMem, List.map_congr_left hterm]
      simp
    | centerTable i => rfl
    | cost i => rfl
    | assign i => rfl
    | isCenter i => rfl
    | glCostOfOpeningX => rfl
    | glNumberOfCentersToClose => rfl
    | numcenters => rfl

theorem joined_closeCenters (num : Numbered c s (centerTable c s)) (hwide : 2 ≤ stride s.numcenters)
    (hw : ∀ t : Fin c.nproc, (program c s 5 t).Within (reads c s (centerTable c s) t 5)
      (writes c s (centerTable c s) t 5) (atBarrier c s g n 5).mem) : Joined (program c s 5)
    (atBarrier c s g n 5).mem (fun t => localsAt c s t 6) (atBarrier c s g n 6).mem := by
  set table := centerTable c s with htable
  set x : Close K := ⟨(lower c s table).workMem, fun _ => 0, (lower c s table).costOfOpeningX⟩ with hx
  have halone (t : Fin c.nproc) := alone_closeCenters (c := c) (s := s) t (atBarrier c s g n 5)
    (localsAt c s t 5) rfl rfl x rfl rfl rfl rfl
  have hown (t : Fin c.nproc) : Closed c s table (lowOf c s table x.workMem) (iterationsOf c t) x
      ((iterationsOf c t).foldl (closeStep c s table) x) := by
    refine closed_foldl num x fun q hq => ?_
    obtain ⟨i, hi, rfl⟩ := List.mem_map.1 hq
    exact Blocks.lt_num t.isLt hi
  have hall := closed num
  have hglobal : ∀ {t : Fin c.nproc} {e k : ℕ}, k < stride s.numcenters → e < stride s.numcenters →
      c.nproc * stride s.numcenters + k ≠ t * stride s.numcenters + e := fun {t} _ _ hk he heq =>
    t.isLt.ne' (cell_inj hk he heq).1
  refine .of_within hw (fun t => congrArg Prod.fst (halone t)) (fun t l hl => ?_) fun l hl => ?_
  · refine (congrFun (congrArg Prod.snd (halone t)) l).trans ?_
    cases l with
    | workMem k =>
      simp only [Shared.mem, localsAt]
      rcases hl with ⟨i, hi, hc, rfl⟩ | ⟨e, rfl | rfl, rfl⟩
      · have hlt := num.lt i (Blocks.lt_num t.isLt hi) hc
        rw [Function.update_of_ne (hglobal (by omega) (by omega)),
          Function.update_of_ne (hglobal (by omega) (by omega))]
        refine ((hown t).glLower (t, i) (List.mem_map.2 ⟨i, hi, rfl⟩) hc).trans ?_
        have hq : ((t : ℕ), i) ∈ (c.order .close).run :=
          (c.order .close).perm.mem_iff.2 (Blocks.mem_iterations.2 ⟨t.isLt, hi⟩)
        simp only [atBarrier]
        rw [results_of_le hwide (Nat.le_add_right ..)]
        exact (hall.glLower _ hq hc).symm
      · rw [Function.update_of_ne (by omega), Function.update_self]
        simp only [atBarrier]
        rw [results_number hwide t.isLt]
        refine congrArg Nat.cast ?_
        exact ((hown t).number t).trans ((congrArg _ (sum_own (c.order .close) t _)).trans (hall.number t).symm)
      · rw [Function.update_self]
        simp only [atBarrier]
        rw [results_cost hwide t.isLt]
        exact ((hown t).cost t).trans ((congrArg _ (sum_own (c.order .close) t _)).trans (hall.cost t).symm)
    | _ => exact hl.elim
  · cases l with
    | workMem k =>
      simp only [Shared.mem, atBarrier]
      rw [results, store_of_ne fun pid hpid heq => hl ⟨pid, hpid⟩ (.inr ⟨_, .inr rfl, heq⟩),
        store_of_ne fun pid hpid heq => hl ⟨pid, hpid⟩ (.inr ⟨_, .inl rfl, heq⟩)]
      refine (close_workMem table fun i hi hc heq => ?_).symm
      obtain ⟨pid, hpid, hblock⟩ := Blocks.exists_block hi
      exact hl ⟨pid, hpid⟩ (.inl ⟨i, hblock, hc, heq⟩)
    | switchMembership i => rfl
    | centerTable i => rfl
    | cost i => rfl
    | assign i => rfl
    | isCenter i => rfl
    | glCostOfOpeningX => rfl
    | glNumberOfCentersToClose => rfl
    | numcenters => rfl

theorem joined_decideX (hsaves : glCostOfOpeningX c s (centerTable c s) < 0) (hxlt : c.x < c.blocks.num)
    (hw : ∀ t : Fin c.nproc, (program c s 7 t).Within (reads c s (centerTable c s) t 7)
      (writes c s (centerTable c s) t 7) (atBarrier c s g n 7).mem) : Joined (program c s 7)
    (atBarrier c s g n 7).mem (fun t => localsAt c s t 8) (atBarrier c s g n 8).mem := by
  have hresult : pgain c s = (openX c s (centerTable c s), -glCostOfOpeningX c s (centerTable c s)) := if_pos hsaves
  have halone (t : Fin c.nproc) := (alone_decideX (c := c) (s := s) t (atBarrier c s g n 7) (localsAt c s t 7)
    hsaves).trans (congrArg (fun r => (localsAt c s t 7, r.2))
      (alone_openCenterX (c := c) (s := s) t (atBarrier c s g n 7) (localsAt c s t 7) rfl rfl rfl rfl))
  refine .of_within hw (fun t => congrArg Prod.fst (halone t)) (fun t l hl => ?_) fun l hl => ?_
  · refine (congrFun (congrArg Prod.snd (halone t)) l).trans ?_
    cases l with
    | cost i =>
      simp only [Shared.mem, atBarrier, hresult]
      rw [forEach_block hl, openX_p _ (Blocks.lt_num t.isLt hl)]
      rfl
    | assign i =>
      simp only [Shared.mem, atBarrier, hresult]
      rw [forEach_block hl, openX_p _ (Blocks.lt_num t.isLt hl)]
      rfl
    | isCenter i =>
      simp only [Shared.mem, atBarrier, hresult, openX]
      rcases eq_or_ne i c.x with rfl | hix
      · rw [if_pos (Blocks.mem_block.1 hl), Function.update_self, Function.update_self]
      · rw [Function.update_of_ne hix, forEach_run _ hl]
        by_cases hblock : c.blocks.k1 t ≤ c.x ∧ c.x < c.blocks.k2 t
        · rw [if_pos hblock, Function.update_of_ne hix, forEach_block hl]
        · rw [if_neg hblock, forEach_block hl]
    | numcenters =>
      simp only [Shared.mem, atBarrier, hresult, openX]
      exact if_pos hl
    | _ => exact hl.elim
  · cases l with
    | cost i =>
      simp only [Shared.mem, atBarrier, hresult, openX]
      rw [forEach_outside _ hl]
    | assign i =>
      simp only [Shared.mem, atBarrier, hresult, openX]
      rw [forEach_outside _ hl]
    | isCenter i =>
      have hix : i ≠ c.x := by
        rintro rfl
        obtain ⟨pid, hpid, hblock⟩ := Blocks.exists_block hxlt
        exact hl ⟨pid, hpid⟩ hblock
      simp only [Shared.mem, atBarrier, hresult, openX]
      rw [Function.update_of_ne hix, forEach_outside _ hl]
    | numcenters => exact absurd rfl (hl ⟨0, c.blocks.pos⟩)
    | glCostOfOpeningX =>
      simp only [Shared.mem, atBarrier, hresult, neg_neg]
    | workMem k => rfl
    | switchMembership i => simp only [Shared.mem, atBarrier, hresult, openX]
    | centerTable i => simp only [Shared.mem, atBarrier, hresult, openX]
    | glNumberOfCentersToClose => rfl

theorem joined_addCosts (hfree : Free (program c s 6) (atBarrier c s g n 6).mem) : Joined (program c s 6)
    (atBarrier c s g n 6).mem (fun t => localsAt c s t 7) (atBarrier c s g n 7).mem := by
  refine joined_of_zero hfree (fun t ht => ?_) fun t ht => ?_
  · exact (alone_addCosts t _ _ rfl rfl rfl).trans (by rw [if_pos ht]; rfl)
  · simp [program, team, addCosts, ht, localsAt]

theorem joined_leave (hfree : Free (program c s 8) (atBarrier c s g n 8).mem) : Joined (program c s 8)
    (atBarrier c s g n 8).mem (fun t => localsAt c s t 9) (atBarrier c s g n 9).mem := by
  have hleave : ∀ t, (program c s 8 t).alone (atBarrier c s g n 8).mem =
      (localsAt c s t 9, (atBarrier c s g n 9).mem) := fun t => by
    refine (alone_leave _ _).trans ?_
    simp [atBarrier, localsAt]
  exact joined_of_zero hfree (fun t _ => hleave t) fun t _ => hleave t

omit [LinearOrder K] [FloorSemiring K] in
theorem Consistent.wide' (h : Consistent c s) : 2 ≤ stride s.numcenters := by
  have wide := h.wide
  have num := h.numcenters
  omega

omit [LinearOrder K] [FloorSemiring K] in
theorem Consistent.to_lt (h : Consistent c s) {i : ℕ} (hi : i < c.blocks.num) :
    (s.p i).assign < c.blocks.num ∧ s.isCenter (s.p i).assign := (h.image _).2 ⟨i, hi, rfl⟩

/-- The loop over the centers. -/
theorem within_closing (num : Numbered c s (centerTable c s)) (t : Fin c.nproc) :
    (program c s 5 t).Within (reads c s (centerTable c s) t 5) (writes c s (centerTable c s) t 5)
    (atBarrier c s g n 5).mem ∧
    ∀ i ∈ c.blocks.block t, s.isCenter i → (program c s 5 t).Stores (atBarrier c s g n 5).mem
      (.workMem (c.nproc * stride s.numcenters + centerTable c s i)) :=
  within_closeCenters rfl (fun _ => rfl) (fun _ => rfl) fun i hi hc => num.lt i (Blocks.lt_num t.isLt hi) hc

variable [IsStrictOrderedRing K]

/-- All threads are in their places of the memory. -/
theorem within_program (h : Consistent c s) (t : Fin c.nproc) : ∀ j < 9, j ≠ 7 ∨
    glCostOfOpeningX c s (centerTable c s) < 0 →
    (program c s j t).Within (reads c s (centerTable c s) t j) (writes c s (centerTable c s) t j)
    (atBarrier c s g n j).mem := by
  have hnum := h.numbered
  have hlt : ∀ i ∈ c.blocks.block t, i < c.blocks.num := fun i hi => Blocks.lt_num t.isLt hi
  have hto : ∀ i ∈ c.blocks.block t, (s.p i).assign < c.blocks.num ∧ s.isCenter (s.p i).assign :=
    fun i hi => h.to_lt (hlt i hi)
  intro j hlast hj
  match j with
  | 0 => exact within_allocate t
  | 1 => exact within_countCenters rfl
  | 2 => exact within_sumCounts rfl t
  | 3 => exact within_placeCenters rfl
  | 4 =>
    refine within_lowerCenters rfl (fun i => rfl) (fun i => rfl) fun i hi => ?_
    have := hnum.lt _ (hto i hi).1 (hto i hi).2
    omega
  | 5 => exact (within_closing g n hnum t).1
  | 6 => exact within_addCosts rfl t
  | 7 =>
    exact within_decideX rfl (fun i => rfl) (hj.resolve_left fun hne => hne rfl) (fun i => rfl) (fun i => rfl)
      (fun i => Blocks.mem_block) hlt hto
  | 8 => exact within_leave
  | j + 9 => exact absurd hlast (by omega)

theorem free_program (h : Consistent c s) {j : ℕ} (hlast : j < 9)
    (hj : j ≠ 7 ∨ glCostOfOpeningX c s (centerTable c s) < 0) :
    Free (program c s j) (atBarrier c s g n j).mem :=
  .of_within (fun t => within_program g n h t j hlast hj) fun _ _ l hne hw => not_shared h.numbered h.wide' hne j l hw

omit [IsStrictOrderedRing K] in
/-- Nothing is saved: thread 0 sets the cost to 0 while the others may still compare it with 0. -/
theorem free_decideX_of_not (h : ¬glCostOfOpeningX c s (centerTable c s) < 0) :
    Free (program c s 7) (atBarrier c s g n 7).mem := by
  have hcost : ¬(atBarrier c s g n 7).mem .glCostOfOpeningX < (0 : K) := h
  intro t
  refine unaffected_decideX_of_not hcost (fun v hv => ?_) fun ht v hv => ?_
  · obtain ⟨u, -, hw⟩ := hv
    exact eq_of_heq (Sigma.mk.inj (writes_decideX_of_not hcost hw).2).2
  · obtain ⟨u, hne, hw⟩ := hv
    exact hne (Fin.ext ((writes_decideX_of_not hcost hw).1.trans ht.symm))

omit [IsStrictOrderedRing K] in
theorem joined_decideX_of_not (h : ¬glCostOfOpeningX c s (centerTable c s) < 0) : Joined (program c s 7)
    (atBarrier c s g n 7).mem (fun t => localsAt c s t 8) (atBarrier c s g n 8).mem := by
  have hresult : pgain c s = ({ s with
      centerTable := centerTable c s
      switchMembership := (lower c s (centerTable c s)).switchMembership }, -0) := if_neg h
  have hlast : atBarrier c s g n 8 = { atBarrier c s g n 7 with glCostOfOpeningX := 0 } := by
    simp only [atBarrier, hresult, neg_neg]
  rw [hlast]
  refine joined_of_zero (free_decideX_of_not g n h) (fun t ht => ?_) fun t ht => ?_
  · exact (alone_decideX_of_not t _ _ h).trans (by rw [if_pos ht]; rfl)
  · exact (alone_decideX_of_not t _ _ (lt_irrefl (0 : K))).trans (by rw [if_neg ht]; rfl)

theorem plan_team (horder : (c.order .count).run = c.blocks.iterations) (h : Consistent c s)
    (hx : c.x < c.blocks.num) :
    (team c s).Plan (fun j => (atBarrier c s g n j).mem) fun j t => localsAt c s t j := by
  have hfree : ∀ j < 9, Free (program c s j) (atBarrier c s g n j).mem := by
    intro j hj
    by_cases h7 : j ≠ 7 ∨ glCostOfOpeningX c s (centerTable c s) < 0
    · exact free_program g n h hj h7
    · push Not at h7
      obtain ⟨rfl, h7⟩ := h7
      exact free_decideX_of_not g n (not_lt.2 h7)
  have hnum := h.numbered
  have hpos : 0 < stride s.numcenters := by
    have := h.wide'
    omega
  refine ⟨hfree, fun j hj => ?_⟩
  match j with
  | 0 => exact joined_allocate g n (hfree 0 hj)
  | 1 => exact joined_countCenters g n horder (hfree 1 hj)
  | 2 => exact joined_sumCounts g n (hfree 2 hj)
  | 3 => exact joined_placeCenters g n hpos fun t => within_program g n h t 3 hj (.inl (by decide))
  | 4 =>
    refine joined_lowerCenters g n (fun i hi => ?_) fun t => within_program g n h t 4 hj (.inl (by decide))
    have := hnum.lt _ (h.to_lt hi).1 (h.to_lt hi).2
    omega
  | 5 => exact joined_closeCenters g n hnum h.wide' fun t => within_program g n h t 5 hj (.inl (by decide))
  | 6 => exact joined_addCosts g n (hfree 6 hj)
  | 7 =>
    by_cases hsaves : glCostOfOpeningX c s (centerTable c s) < 0
    · exact joined_decideX g n hsaves hx fun t => within_program g n h t 7 hj (.inr hsaves)
    · exact joined_decideX_of_not g n hsaves
  | 8 => exact joined_leave g n (hfree 8 hj)
  | j + 9 => exact absurd hj (Nat.not_lt.2 (Nat.le_add_left 9 j))

end Phases

/-! ### What has been written before it is read -/

section Log

/-- The thread that has to write entry `k` before phase `j` reads it. Thread 0 makes the counts into offsets; else a
    thread has its own row, and in the global row the entries of the centers in its block. -/
def Responsible (c : Config K) (s : State K) : ℕ → ℕ → Fin c.nproc → Prop
  | 3, _, u => u.val = 0
  | _, k, u => InRow s u k ∨ ∃ i ∈ c.blocks.block u, s.isCenter i ∧
    k = c.nproc * stride s.numcenters + centerTable c s i

omit [FloorSemiring K] [CommRing K] [LinearOrder K] in
theorem inRow_first (hwide : 2 ≤ stride s.numcenters) (p : ℕ) : InRow s p (p * stride s.numcenters) :=
  ⟨0, by omega, rfl⟩

theorem Responsible.unique (num : Numbered c s (centerTable c s)) {j k : ℕ} {u v : Fin c.nproc}
    (hu : Responsible c s j k u) (hv : Responsible c s j k v) : u = v := by
  have hrow : ∀ {w : Fin c.nproc} {i}, i ∈ c.blocks.block w → s.isCenter i →
      InRow s c.nproc (c.nproc * stride s.numcenters + centerTable c s i) := fun {w i} hi hc => by
    have := num.lt i (Blocks.lt_num w.isLt hi) hc
    exact ⟨centerTable c s i, by omega, rfl⟩
  by_cases hj : j = 3
  · subst hj
    exact Fin.ext (hu.trans hv.symm)
  · rw [Responsible.eq_2 _ _ _ _ _ hj] at hu hv
    rcases hu with hu | ⟨i, hi, hc, rfl⟩
    · rcases hv with hv | ⟨i, hi, hc, rfl⟩
      · exact Fin.ext (hu.inj hv)
      · exact absurd (hu.inj (hrow hi hc)) u.isLt.ne
    · rcases hv with hv | ⟨i', hi', hc', heq⟩
      · exact absurd (hv.inj (hrow hi hc)) v.isLt.ne
      · obtain rfl := num.inj i (Blocks.lt_num u.isLt hi) i' (Blocks.lt_num v.isLt hi') hc hc'
            (Nat.add_left_cancel heq)
        exact Fin.ext (Blocks.block_inj u.isLt v.isLt hi hi')

theorem stores_countCenters (t : Fin c.nproc) :
    (program c s 1 t).Stores (atBarrier c s g n 1).mem (.workMem (t * stride s.numcenters)) :=
  .right (.left (Prog.stores_set _ _) _)

theorem stores_sumCounts {t : Fin c.nproc} (ht : t.val = 0) {p : ℕ} (hp : p < c.nproc) :
    (program c s 2 t).Stores (atBarrier c s g n 2).mem (.workMem (p * stride s.numcenters)) := by
  simp only [program, team, sumCounts, if_pos ht]
  refine .left (Prog.Stores.foldlM (R := fun _ => True) (W := fun _ => True)
    (fun _ _ _ _ _ => ⟨fun _ _ => trivial, fun _ _ _ => trivial⟩) (List.mem_range.2 hp) fun _ m' _ => ?_) _
  exact .right (.left (Prog.stores_set _ _) _)

theorem stores_placeCenters {t : Fin c.nproc} {k : ℕ} (hk : InRow s t k) :
    (program c s 3 t).Stores (atBarrier c s g n 3).mem (.workMem k) :=
  .right (.right (.left (stores_clearRow hk) _))

theorem stores_closeCenters {t : Fin c.nproc} {k : ℕ} (hk : AtEnd s t k) :
    (program c s 5 t).Stores (atBarrier c s g n 5).mem (.workMem k) := by
  obtain ⟨e, rfl | rfl, rfl⟩ := hk
  · exact .right (.left (Prog.stores_set _ _) _)
  · exact .right (.right (.left (Prog.stores_set _ _) _))

/-- What a phase reads of the working memory is written by an earlier one. -/
theorem stores_of_reads (num : Numbered c s (centerTable c s)) (hwide : 2 ≤ stride s.numcenters) {t : Fin c.nproc}
    {k : ℕ} : ∀ j, reads c s (centerTable c s) t j (.workMem k) → ∃ u, Responsible c s j k u ∧
      ∃ i < j, (program c s i u).Stores (atBarrier c s g n i).mem (.workMem k)
  | 2, ⟨_, p, hp, hk⟩ => by
    subst hk
    exact ⟨⟨p, hp⟩, .inl (inRow_first hwide p), 1, by decide, stores_countCenters g n ⟨p, hp⟩⟩
  | 3, hk => by
    obtain rfl : k = t * stride s.numcenters := hk
    exact ⟨⟨0, c.blocks.pos⟩, rfl, 2, by decide, stores_sumCounts g n rfl t.isLt⟩
  | 4, hk => ⟨t, .inl hk, 3, by decide, stores_placeCenters g n hk⟩
  | 5, ⟨p, hp, e, he, hk⟩ => by
    have hrow : InRow s p k := ⟨e, by omega, hk⟩
    exact ⟨⟨p, hp⟩, .inl hrow, 3, by decide, stores_placeCenters (t := ⟨p, hp⟩) g n hrow⟩
  | 6, ⟨_, p, hp, hk⟩ => ⟨⟨p, hp⟩, .inl (hk.inRow hwide), 5, by decide, stores_closeCenters (t := ⟨p, hp⟩) g n hk⟩
  | 7, ⟨i, hi, hc, hk⟩ => by
    subst hk
    obtain ⟨p, hp, hblock⟩ := Blocks.exists_block hi
    exact ⟨⟨p, hp⟩, .inr ⟨i, hblock, hc, rfl⟩, 5, by decide, (within_closing g n num ⟨p, hp⟩).2 i hblock hc⟩
  | 8, hk | _ + 9, hk => hk.elim

/-- A thread that is about to read an entry of the working memory finds it written: by the thread that has to, and
    in an earlier phase. -/
def Written (c : Config K) (s : State K) (conf : Conf c.nproc Loc (Val K) (Locals K)) : Prop :=
  ∀ t k next, conf.thread t = .read (.workMem k) next → (∃ u, Responsible c s conf.phase k u) ∧
    ∀ u, Responsible c s conf.phase k u → ∃ j < conf.phase, (j, u, .workMem k) ∈ conf.log

variable [IsStrictOrderedRing K]

theorem written {conf : Conf c.nproc Loc (Val K) (Locals K)} (h : Consistent c s)
    (hs : (team c s).Planned (fun j => (atBarrier c s g n j).mem) (fun j t => localsAt c s t j) conf) :
    Written c s conf := by
  intro t k next hnext
  have hreads := hs.reads hnext
  have hj : conf.phase ≠ 7 ∨ glCostOfOpeningX c s (centerTable c s) < 0 := by
    by_contra hnot
    push Not at hnot
    obtain ⟨h7, hcost⟩ := hnot
    rw [h7] at hreads
    exact absurd ((within_decideX_of_not (not_lt.2 hcost)).reads _ hreads) nofun
  obtain ⟨u, hu, j, hlt, v, hv⟩ := stores_of_reads g n h.numbered h.wide' conf.phase
    ((within_program g n h t conf.phase hs.lt hj).reads _ hreads)
  refine ⟨⟨u, hu⟩, fun u' hu' => ⟨j, hlt, ?_⟩⟩
  rw [hu'.unique h.numbered hu]
  exact hs.earlier j hlt u (.workMem k) v hv

end Log
end Barriers

/-! ### One thread or many -/

section Serial
variable {K : Type} [CommRing K] {c c' : Config K} {s : State K}

/-- The call of `pgain`, with the loops in the order of the threads. -/
def configOf (b : Blocks) (dim : ℕ) (z : K) (x : ℕ) (heap : ℕ → K) : Config K :=
  ⟨b, dim, z, x, fun _ => .byThread b, heap⟩

/-- The same call, but the threads may be others. -/
structure SameCall (c c' : Config K) : Prop where
  num : c'.blocks.num = c.blocks.num
  dim : c'.dim = c.dim
  z : c'.z = c.z
  x : c'.x = c.x

theorem SameCall.consistent (same : SameCall c c') (h : Consistent c s) : Consistent c' s where
  image := by
    rw [same.num]
    exact h.image
  self := by
    rw [same.num]
    exact h.self
  numcenters := by
    rw [same.num]
    exact h.numcenters
  cost := by
    rw [same.num, same.dim]
    exact h.cost

theorem SameCall.far (same : SameCall c c') : far c' s = far c s := by
  funext i j
  rw [Pgain.far, Pgain.far, same.dim]

omit [CommRing K] in
theorem SameCall.clustering (same : SameCall c c') : clustering c' s = clustering c s := by
  rw [Pgain.clustering, Pgain.clustering, same.num]

variable [LinearOrder K] [FloorSemiring K] [IsStrictOrderedRing K]

theorem SameCall.glCostOfOpeningX (same : SameCall c c') (h : Consistent c s) :
    glCostOfOpeningX c' s (centerTable c' s) = glCostOfOpeningX c s (centerTable c s) := by
  rw [(same.consistent h).glCostOfOpeningX_eq, h.glCostOfOpeningX_eq, same.far, same.clustering, same.num,
    same.z, same.x]

/-- The clustering after the call, as far as the callers see it. -/
structure SameResult (num : ℕ) (s s' : State K) : Prop where
  cost : ∀ i < num, (s'.p i).cost = (s.p i).cost
  assign : ∀ i < num, (s'.p i).assign = (s.p i).assign
  isCenter : ∀ i < num, s'.isCenter i = s.isCenter i
  numcenters : s'.numcenters = s.numcenters

theorem SameCall.openX (same : SameCall c c') (h : Consistent c s) (hx : c.x < c.blocks.num) :
    SameResult c.blocks.num (openX c s (centerTable c s)) (openX c' s (centerTable c' s)) := by
  have h' := same.consistent h
  have hreassign : Facility.reassign (Finset.range c'.blocks.num) (Pgain.far c' s) c'.z c'.x (Pgain.clustering c' s) =
      Facility.reassign (Finset.range c.blocks.num) (Pgain.far c s) c.z c.x (Pgain.clustering c s) := by
    rw [same.far, same.clustering, same.num, same.z, same.x]
  have hx' : c'.x < c'.blocks.num := by rwa [same.num, same.x]
  refine ⟨fun i hi => ?_, fun i hi => ?_, fun i hi => ?_, ?_⟩
  · rw [(h'.openX_clustering (same.num ▸ hi)).2, (h.openX_clustering hi).2, hreassign]
  · rw [(h'.openX_clustering (same.num ▸ hi)).1, (h.openX_clustering hi).1, hreassign]
  · have hcenters := h'.openX_centers hx'
    rw [hreassign, ← h.openX_centers hx] at hcenters
    have hiff := Finset.ext_iff.1 hcenters i
    rw [mem_centers, mem_centers, same.num] at hiff
    rw [Bool.eq_iff_iff]
    exact ⟨fun hc => (hiff.1 ⟨hi, hc⟩).2, fun hc => (hiff.2 ⟨hi, hc⟩).2⟩
  · simp only [Pgain.openX]
    rw [h'.glNumberOfCentersToClose_eq, h.glNumberOfCentersToClose_eq, same.far, same.clustering, same.num,
      same.z, same.x]

theorem SameCall.pgain (same : SameCall c c') (h : Consistent c s) (hx : c.x < c.blocks.num) :
    SameResult c.blocks.num (pgain c s).1 (pgain c' s).1 ∧ (pgain c' s).2 = (pgain c s).2 := by
  have hcost := same.glCostOfOpeningX h
  by_cases hsaves : Pgain.glCostOfOpeningX c s (centerTable c s) < 0
  · have hresult : Pgain.pgain c s = _ := if_pos hsaves
    have hsaves' : Pgain.glCostOfOpeningX c' s (centerTable c' s) < 0 := by rwa [hcost]
    have hresult' : Pgain.pgain c' s = _ := if_pos hsaves'
    rw [hresult, hresult', hcost]
    exact ⟨same.openX h hx, rfl⟩
  · have hresult : Pgain.pgain c s = _ := if_neg hsaves
    have hsaves' : ¬Pgain.glCostOfOpeningX c' s (centerTable c' s) < 0 := by rwa [hcost]
    have hresult' : Pgain.pgain c' s = _ := if_neg hsaves'
    rw [hresult, hresult']
    exact ⟨⟨fun _ _ => rfl, fun _ _ => rfl, fun _ _ => rfl, rfl⟩, rfl⟩

/-- The state as the threads have left it in the memory. -/
def stateOf (s : State K) (mem : ∀ l, Val K l) : State K where
  p i := { s.p i with assign := mem (.assign i), cost := mem (.cost i) }
  isCenter i := mem (.isCenter i)
  numcenters := mem .numcenters
  centerTable i := mem (.centerTable i)
  switchMembership i := mem (.switchMembership i)

/-- CORRECT: the threads of `pgain` return what one thread returns and leave the clustering that it leaves, in
    whatever order they come between the barriers. They can always get to the end, and they only read what an
    earlier phase has written to the working memory. -/
theorem threads_eq_serial (b : Blocks) (dim : ℕ) (z : K) (x : ℕ) (hx : x < b.num) (heap heap' : ℕ → K) (g : K) (n : ℕ)
    (h : Consistent (configOf b dim z x heap) s) {acts : List (Act b.nproc)}
      {conf : Conf b.nproc Loc (Val K) (Locals K)}
    (hrun : exec (team (configOf b dim z x heap) s).step
      ((team (configOf b dim z x heap) s).start (Shared.mem ⟨s, heap, g, n⟩) fun _ => ⟨0, 0, 0⟩) acts = some conf) :
    Written (configOf b dim z x heap) s conf ∧
    (∃ more last, exec (team (configOf b dim z x heap) s).step conf more = some last ∧
      (team (configOf b dim z x heap) s).Finished last) ∧
    ((team (configOf b dim z x heap) s).Finished conf →
      (∀ t, ∃ l, conf.thread t = .ret l ∧ l.result = (pgain (configOf b.serial dim z x heap') s).2) ∧
      SameResult b.num (pgain (configOf b.serial dim z x heap') s).1 (stateOf s conf.mem)) := by
  have hplan := plan_team (c := configOf b dim z x heap) g n rfl h hx
  have hplanned := hplan.exec (Nat.succ_pos 8) hrun
  refine ⟨written g n h hplanned, exists_finished hplanned.lt, fun hend => ?_⟩
  obtain ⟨hmem, hret⟩ := hplan.finished hplanned hend
  have same : SameCall (configOf b dim z x heap) (configOf b.serial dim z x heap') := ⟨rfl, rfl, rfl, rfl⟩
  obtain ⟨hsame, hgain⟩ := same.pgain h hx
  refine ⟨fun t => ⟨_, hret t, hgain.symm⟩, ?_⟩
  rw [hmem]
  exact ⟨fun i hi => (hsame.cost i hi).symm, fun i hi => (hsame.assign i hi).symm,
    fun i hi => (hsame.isCenter i hi).symm,
    hsame.numcenters.symm⟩

end Serial

/-- Both threads of `line` can get to the end, and return 8. -/
theorem threads_eq_serial_line : ∃ acts conf, exec (team line together).step
      ((team line together).start (Shared.mem ⟨together, line.heap, 0, 0⟩) fun _ => ⟨0, 0, 0⟩) acts = some conf ∧
    (team line together).Finished conf ∧ ∀ t, ∃ l, conf.thread t = .ret l ∧ l.result = 8 := by
  obtain ⟨acts, conf, hrun, hend⟩ := (threads_eq_serial line.blocks 1 1 1 (by decide) line.heap line.heap 0 0
    together_consistent (rfl : exec _ _ [] = _)).2.1
  have hresult := ((threads_eq_serial line.blocks 1 1 1
      (by decide) line.heap line.heap 0 0 together_consistent hrun).2.2
    hend).1
  have hserial : (pgain (configOf line.blocks.serial 1 1 1 line.heap) together).2 = 8 := by decide +kernel
  exact ⟨acts, conf, hrun, hend, hserial ▸ hresult⟩

end Turkey.Pgain
