import Turkey.Streamcluster.Threads

/-! The phases of `pgain`: which of the shared variables a thread reads and writes between two barriers, and what
    they are at the barriers.

    No thread reads what another one writes in the same phase, but for the cost of the opening, which thread 0 sets
    to 0 while the others see that it is not negative. So the order of the threads makes no difference, and neither
    does their number. -/

namespace Turkey.Pgain
open Turkey.ParallelFor Turkey.Barriers

section Footprints
variable {K : Type} (c : Config K) (s : State K) (table : ℕ → ℕ) (pid : ℕ)

/-- Entry `k` is in a row of the working memory. -/
def InRow (row k : ℕ) : Prop := ∃ e < stride s.numcenters, k = row * stride s.numcenters + e

/-- Entry `k` is one of the two at the end of a row. -/
def AtEnd (row k : ℕ) : Prop := ∃ e, (e = stride s.numcenters - 2 ∨ e = stride s.numcenters - 2 + 1) ∧
  k = row * stride s.numcenters + e

/-- What thread `pid` reads in a phase. -/
def reads : ℕ → Loc → Prop
  | 0, .numcenters => True
  | 1, .isCenter i => i ∈ c.blocks.block pid
  | 2, .workMem k => pid = 0 ∧ ∃ p < c.nproc, k = p * stride s.numcenters
  | 3, .isCenter i => i ∈ c.blocks.block pid
  | 3, .centerTable i => i ∈ c.blocks.block pid
  | 3, .workMem k => k = pid * stride s.numcenters
  | 4, .cost i => i ∈ c.blocks.block pid
  | 4, .assign i => i ∈ c.blocks.block pid
  | 4, .centerTable _ => True
  | 4, .workMem k => InRow s pid k
  | 5, .isCenter i => i ∈ c.blocks.block pid
  | 5, .centerTable _ => True
  | 5, .workMem k => ∃ p < c.nproc, ∃ e < stride s.numcenters - 2, k = p * stride s.numcenters + e
  | 6, .workMem k => pid = 0 ∧ ∃ p < c.nproc, AtEnd s p k
  | 6, .glCostOfOpeningX => pid = 0
  | 6, .glNumberOfCentersToClose => pid = 0
  | 7, .assign i => i ∈ c.blocks.block pid
  | 7, .isCenter i => i ∈ c.blocks.block pid
  | 7, .centerTable _ => True
  | 7, .switchMembership _ => True
  | 7, .workMem k => ∃ i < c.blocks.num, s.isCenter i ∧ k = c.nproc * stride s.numcenters + table i
  | 7, .glCostOfOpeningX => True
  | 7, .glNumberOfCentersToClose => pid = 0
  | 7, .numcenters => pid = 0
  | 8, .glCostOfOpeningX => True
  | _, _ => False

/-- What thread `pid` writes in a phase, if a center is opened. -/
def writes : ℕ → Loc → Prop
  | 0, .glCostOfOpeningX => pid = 0
  | 0, .glNumberOfCentersToClose => pid = 0
  | 1, .centerTable i => i ∈ c.blocks.block pid
  | 1, .workMem k => k = pid * stride s.numcenters
  | 2, .workMem k => pid = 0 ∧ ∃ p < c.nproc, k = p * stride s.numcenters
  | 3, .centerTable i => i ∈ c.blocks.block pid
  | 3, .switchMembership i => i ∈ c.blocks.block pid
  | 3, .workMem k => InRow s pid k ∨ pid = 0 ∧ InRow s c.nproc k
  | 4, .switchMembership i => i ∈ c.blocks.block pid
  | 4, .workMem k => InRow s pid k
  | 5, .workMem k =>
    (∃ i ∈ c.blocks.block pid, s.isCenter i ∧ k = c.nproc * stride s.numcenters + table i) ∨ AtEnd s pid k
  | 6, .glCostOfOpeningX => pid = 0
  | 6, .glNumberOfCentersToClose => pid = 0
  | 7, .cost i => i ∈ c.blocks.block pid
  | 7, .assign i => i ∈ c.blocks.block pid
  | 7, .isCenter i => i ∈ c.blocks.block pid
  | 7, .numcenters => pid = 0
  | _, _ => False

end Footprints

section Disjoint
variable {K : Type} {c : Config K} {s : State K} {table : ℕ → ℕ}

theorem InRow.inj {p q k : ℕ} (h : InRow s p k) (h' : InRow s q k) : p = q := by
  obtain ⟨e, he, rfl⟩ := h
  obtain ⟨e', he', heq⟩ := h'
  exact (cell_inj he he' heq).1

theorem AtEnd.inRow {p k : ℕ} (hwide : 2 ≤ stride s.numcenters) (h : AtEnd s p k) : InRow s p k := by
  obtain ⟨e, he, rfl⟩ := h
  exact ⟨e, by omega, rfl⟩

/-- What one thread writes in a phase is not used by another one. -/
theorem not_shared (hnum : Numbered c s table) (hwide : 2 ≤ stride s.numcenters) {t u : Fin c.nproc} (hne : u ≠ t) :
    ∀ (j : ℕ) (l : Loc), writes c s table u j l → ¬(reads c s table t j l ∨ writes c s table t j l) := by
  have hval : (u : ℕ) ≠ t := fun h => hne (Fin.ext h)
  have hzero : (u : ℕ) = 0 → (t : ℕ) ≠ 0 := fun h h' => hval (h.trans h'.symm)
  have hblock : ∀ {i}, i ∈ c.blocks.block u → i ∉ c.blocks.block t := fun hu ht =>
    hval (Blocks.block_inj u.isLt t.isLt hu ht)
  have hrow : ∀ {k}, InRow s u k → ¬InRow s t k := fun hu ht => hval (hu.inj ht)
  have hfirst : ∀ p, InRow s p (p * stride s.numcenters) := fun p => ⟨0, by omega, rfl⟩
  intro j l hw
  match j, l with
  | 0, .glCostOfOpeningX => exact fun h => hzero hw (h.resolve_left id)
  | 0, .glNumberOfCentersToClose => exact fun h => hzero hw (h.resolve_left id)
  | 1, .centerTable i => exact fun h => hblock hw (h.resolve_left id)
  | 1, .workMem k =>
    rintro (h | h)
    · exact h
    · exact hrow (hw ▸ hfirst u) (h ▸ hfirst t)
  | 2, .workMem k => exact fun h => hzero hw.1 (h.elim And.left And.left)
  | 3, .centerTable i => exact fun h => hblock hw (h.elim id id)
  | 3, .switchMembership i => exact fun h => hblock hw (h.resolve_left id)
  | 3, .workMem k =>
    rcases hw with hw | ⟨hu, hw⟩
    · rintro (h | h | ⟨-, h⟩)
      · exact hrow hw (h ▸ hfirst t)
      · exact hrow hw h
      · exact absurd (hw.inj h) u.isLt.ne
    · rintro (h | h | ⟨ht, -⟩)
      · exact absurd (hw.inj (h ▸ hfirst t)) t.isLt.ne'
      · exact absurd (hw.inj h) t.isLt.ne'
      · exact hzero hu ht
  | 4, .switchMembership i => exact fun h => hblock hw (h.resolve_left id)
  | 4, .workMem k => exact fun h => hrow hw (h.elim id id)
  | 5, .workMem k =>
    rcases hw with ⟨i, hi, hc, rfl⟩ | hw
    · have hlt := hnum.lt i (Blocks.lt_num u.isLt hi) hc
      have hglobal : InRow s c.nproc (c.nproc * stride s.numcenters + table i) := ⟨table i, by omega, rfl⟩
      rintro (⟨p, hp, e, he, heq⟩ | ⟨i', hi', hc', heq⟩ | h)
      · exact absurd (hglobal.inj ⟨e, by omega, heq⟩) hp.ne'
      · have hsame := hnum.inj i (Blocks.lt_num u.isLt hi) i' (Blocks.lt_num t.isLt hi') hc hc'
            (Nat.add_left_cancel heq)
        exact hblock hi (hsame ▸ hi')
      · exact absurd (hglobal.inj (h.inRow hwide)) t.isLt.ne'
    · rintro (⟨p, -, e, he, heq⟩ | ⟨i', hi', hc', heq⟩ | h)
      · obtain ⟨e', he', rfl⟩ := hw
        have := (cell_inj (by omega) (by omega) heq).2
        omega
      · have hlt := hnum.lt i' (Blocks.lt_num t.isLt hi') hc'
        exact absurd ((hw.inRow hwide).inj ⟨table i', by omega, heq⟩) u.isLt.ne
      · exact hrow (hw.inRow hwide) (h.inRow hwide)
  | 6, .glCostOfOpeningX => exact fun h => hzero hw (h.elim id id)
  | 6, .glNumberOfCentersToClose => exact fun h => hzero hw (h.elim id id)
  | 7, .cost i => exact fun h => hblock hw (h.resolve_left id)
  | 7, .assign i => exact fun h => hblock hw (h.elim id id)
  | 7, .isCenter i => exact fun h => hblock hw (h.elim id id)
  | 7, .numcenters => exact fun h => hzero hw (h.elim id id)

end Disjoint

section Within
variable {K : Type} [CommRing K] {c : Config K} {s : State K} {table : ℕ → ℕ} {pid : ℕ} {m : ∀ l, Val K l}
  {l : Locals K}

theorem within_allocate (pid : ℕ) : (allocate pid).Within (reads c s table pid 0) (writes c s table pid 0) m := by
  by_cases h : pid = 0
  · simp [allocate, reads, writes, h]
  · simp [allocate, reads, h]

theorem within_leave : (leave l).Within (reads c s table pid 8) (writes c s table pid 8) m := by
  simp [leave, reads]

theorem within_clearRow {R W : Loc → Prop} (row : ℕ) (hW : ∀ k, InRow s row k → W (.workMem k)) :
    (clearRow (stride s.numcenters) row).Within R W m := by
  refine Prog.Within.foldlM fun k hk _ m' _ => ?_
  simp [hW _ ⟨k, List.mem_range.1 hk, rfl⟩]

theorem stores_clearRow {row k : ℕ} (hk : InRow s row k) :
    (clearRow (stride s.numcenters) row).Stores m (.workMem k) := by
  obtain ⟨e, he, rfl⟩ := hk
  refine Prog.Stores.foldlM (R := fun _ => True) (W := fun _ => True)
    (fun _ _ _ _ _ => ⟨fun _ _ => trivial, fun _ _ _ => trivial⟩)
    (List.mem_range.2 he) fun _ m' _ => Prog.stores_set _ _

variable (hstride : l.stride = stride s.numcenters)
include hstride

theorem within_countCenters : (countCenters c pid l).Within (reads c s table pid 1) (writes c s table pid 1) m := by
  simp only [countCenters, Prog.bind_eq, Prog.within_bind]
  refine ⟨Prog.Within.foldlM fun i hi count m' _ => ?_, ?_⟩
  · by_cases hc : m' (.isCenter i)
    · simp [reads, writes, hi, hc]
    · simp [reads, hi, hc]
  · simp [writes, hstride]

variable [LinearOrder K] [FloorSemiring K]

theorem within_sumCounts (pid : ℕ) :
    (sumCounts c pid l).Within (reads c s table pid 2) (writes c s table pid 2) m := by
  by_cases h : pid = 0
  · simp only [sumCounts, if_pos h, Prog.bind_eq, Prog.within_bind]
    refine ⟨Prog.Within.foldlM fun p hp accum m' _ => ?_, (Prog.within_ret l).2 trivial⟩
    have hr : reads c s table pid 2 (.workMem (p * l.stride)) := ⟨h, p, List.mem_range.1 hp, by rw [hstride]⟩
    have hw : writes c s table pid 2 (.workMem (p * l.stride)) := ⟨h, p, List.mem_range.1 hp, by rw [hstride]⟩
    simp [hr, hw]
  · simp [sumCounts, h]

theorem within_placeCenters : (placeCenters c pid l).Within (reads c s table pid 3) (writes c s table pid 3) m := by
  simp only [placeCenters, Prog.bind_eq, Prog.within_bind]
  refine ⟨Prog.Within.foldlM fun i hi _ m' _ => ?_, Prog.Within.foldlM fun i hi _ m' _ => ?_, ?_, ?_⟩
  · by_cases hc : m' (.isCenter i)
    · simp [reads, writes, hi, hc, hstride]
    · simp [reads, hi, hc]
  · simp [writes, hi]
  · rw [hstride]
    exact within_clearRow pid fun k hk => .inl hk
  · by_cases h : pid = 0
    · simp only [if_pos h, Prog.within_bind, hstride]
      exact ⟨within_clearRow c.nproc fun k hk => .inr ⟨h, hk⟩, (Prog.within_ret l).2 trivial⟩
    · simp [h]

theorem within_addCosts (pid : ℕ) : (addCosts c pid l).Within (reads c s table pid 6) (writes c s table pid 6) m := by
  by_cases h : pid = 0
  · simp only [addCosts, if_pos h, Prog.bind_eq, Prog.within_bind]
    refine ⟨?_, Prog.Within.foldlM fun p hp _ m' _ => ?_, (Prog.within_ret l).2 trivial⟩
    · simp [writes, h]
    · have hnumber : reads c s table pid 6 (.workMem (p * l.stride + (l.stride - 2))) :=
        ⟨h, p, List.mem_range.1 hp, _, .inl rfl, by rw [hstride]⟩
      have hcost : reads c s table pid 6 (.workMem (p * l.stride + (l.stride - 2 + 1))) :=
        ⟨h, p, List.mem_range.1 hp, _, .inr rfl, by rw [hstride]⟩
      have hgl : reads c s table pid 6 .glCostOfOpeningX ∧ reads c s table pid 6 .glNumberOfCentersToClose := ⟨h, h⟩
      have hgl' : writes c s table pid 6 .glCostOfOpeningX ∧ writes c s table pid 6 .glNumberOfCentersToClose :=
        ⟨h, h⟩
      simp [hnumber, hcost, hgl, hgl']
  · simp [addCosts, h]

variable (htable : ∀ i, m (.centerTable i) = table i)
include htable

omit [FloorSemiring K] in
theorem within_lowerCenters (hassign : ∀ i, m (.assign i) = (s.p i).assign)
    (hlt : ∀ i ∈ c.blocks.block pid, table (s.p i).assign < stride s.numcenters) :
    (lowerCenters c s pid l).Within (reads c s table pid 4) (writes c s table pid 4) m := by
  simp only [lowerCenters, Prog.bind_eq, Prog.within_bind]
  refine ⟨Prog.Within.foldlM fun i hi cost m' hm => ?_, (Prog.within_ret _).2 trivial⟩
  have hto : m' (.assign i) = (s.p i).assign := (hm _ id).trans (hassign i)
  have hentry : m' (.centerTable (m' (.assign i))) = table (s.p i).assign :=
    (hm _ id).trans ((htable _).trans (congrArg table hto))
  have hr : reads c s table pid 4 (.workMem (pid * l.stride + table (s.p i).assign)) :=
    ⟨_, hlt i hi, by rw [hstride]⟩
  have hw : writes c s table pid 4 (.workMem (pid * l.stride + table (s.p i).assign)) :=
    ⟨_, hlt i hi, by rw [hstride]⟩
  by_cases hx : xCost c s i < m' (.cost i)
  · simp [reads, writes, hi, hx]
  · simp only [Prog.pure_eq, Prog.within_bind, Prog.within_get, Prog.alone_get, hx, if_false, hentry, Prog.within_set,
      Prog.within_ret, hr, hw, and_true]
    exact ⟨hi, hi, trivial⟩

omit [FloorSemiring K] [LinearOrder K] in
/-- The sum over the rows writes nothing. -/
theorem within_lowAt {i : ℕ} (hlt : table i < stride s.numcenters - 2) :
    (lowAt c l.stride i).Within (reads c s table pid 5) (fun _ => False) m := by
  refine Prog.Within.foldlM fun p hp low m' hm => ?_
  have hentry : m' (.centerTable i) = table i := (hm _ id).trans (htable i)
  have hr : reads c s table pid 5 (.workMem (table i + p * l.stride)) :=
    ⟨p, List.mem_range.1 hp, table i, hlt, by rw [hstride, Nat.add_comm]⟩
  simp only [Prog.bind_eq, Prog.pure_eq, Prog.within_bind, Prog.within_get, Prog.alone_get, hentry, Prog.within_ret,
    hr, and_true]
  exact trivial

omit [FloorSemiring K] in
theorem within_closeCenter (hcenter : ∀ i, m (.isCenter i) = s.isCenter i) {i : ℕ} (hi : i ∈ c.blocks.block pid)
    (hlt : s.isCenter i → table i < stride s.numcenters - 2) (r : ℕ × K) :
    (closeCenter c l.stride r i).Within (reads c s table pid 5) (writes c s table pid 5) m ∧
    (s.isCenter i → (closeCenter c l.stride r i).Stores m (.workMem (c.nproc * l.stride + table i))) := by
  have hc' : m (.isCenter i) = s.isCenter i := hcenter i
  by_cases hc : s.isCenter i
  · have hw : writes c s table pid 5 (.workMem (c.nproc * l.stride + table i)) :=
      .inl ⟨i, hi, hc, by rw [hstride]⟩
    have hlow : (lowAt c l.stride i).Within (reads c s table pid 5) (fun _ => False) m :=
      within_lowAt hstride htable (hlt hc)
    have hentry : ((lowAt c l.stride i).alone m).2 (.centerTable i) = table i := (hlow.frame id).trans (htable i)
    constructor
    · simp only [closeCenter, Prog.bind_eq, Prog.pure_eq, Prog.within_bind, Prog.within_get, Prog.alone_get, hc', hc,
        if_true, hlow.mono fun l hl => hl.elim, hentry, Prog.within_set, Prog.within_ret, hw, and_true]
      exact ⟨hi, trivial, trivial⟩
    · intro _
      refine .right ?_
      simp only [Prog.alone_get, hc', hc, if_true, Prog.bind_eq]
      rw [← hentry]
      exact .right (.right (.left (Prog.stores_set _ _) _))
  · refine ⟨?_, fun h => absurd h hc⟩
    simp [closeCenter, reads, hi, hc', hc]

omit [FloorSemiring K] in
theorem within_closeCenters (hcenter : ∀ i, m (.isCenter i) = s.isCenter i)
    (hlt : ∀ i ∈ c.blocks.block pid, s.isCenter i → table i < stride s.numcenters - 2) :
    (closeCenters c pid l).Within (reads c s table pid 5) (writes c s table pid 5) m ∧
    ∀ i ∈ c.blocks.block pid, s.isCenter i →
      (closeCenters c pid l).Stores m (.workMem (c.nproc * l.stride + table i)) := by
  have hbody : ∀ i ∈ c.blocks.block pid, ∀ r m', (∀ l', ¬writes c s table pid 5 l' → m' l' = m l') →
      (closeCenter c l.stride r i).Within (reads c s table pid 5) (writes c s table pid 5) m' ∧
      (s.isCenter i → (closeCenter c l.stride r i).Stores m' (.workMem (c.nproc * l.stride + table i))) :=
    fun i hi r m' hm => within_closeCenter hstride (fun i => (hm _ id).trans (htable i))
      (fun i => (hm _ id).trans (hcenter i)) hi (hlt i hi) r
  constructor
  · simp only [closeCenters, Prog.bind_eq, Prog.within_bind]
    refine ⟨Prog.Within.foldlM fun i hi r m' hm => (hbody i hi r m' hm).1, ?_, ?_, (Prog.within_ret _).2 trivial⟩
    · exact Prog.within_set.2 (.inr ⟨_, .inl rfl, by rw [hstride]⟩)
    · exact Prog.within_set.2 (.inr ⟨_, .inr rfl, by rw [hstride]⟩)
  · exact fun i hi hc => .left (Prog.Stores.foldlM (fun i hi r m' hm => (hbody i hi r m' hm).1) hi
      fun r m' hm => (hbody i hi r m' hm).2 hc) _

omit [FloorSemiring K] in
theorem within_assignPoints (hassign : ∀ i, m (.assign i) = (s.p i).assign)
    (hto : ∀ i ∈ c.blocks.block pid, (s.p i).assign < c.blocks.num ∧ s.isCenter (s.p i).assign) :
    (assignPoints c s pid l).Within (reads c s table pid 7)
      (fun l => ∃ i ∈ c.blocks.block pid, l = .cost i ∨ l = .assign i) m := by
  have hnd : (c.blocks.block pid).Nodup := List.nodup_range'
  refine Prog.Within.foldlM_nodup (W := fun i l => l = Loc.cost i ∨ l = Loc.assign i) hnd fun i hi _ m' hm => ?_
  have hto' : m' (.assign i) = (s.p i).assign := by
    refine (hm _ fun j _ hne => ?_).trans (hassign i)
    rintro (heq | heq)
    · cases heq
    · exact hne (Loc.assign.inj heq).symm
  have hentry : m' (.centerTable (m' (.assign i))) = table (s.p i).assign :=
    (hm _ fun j _ _ => by simp).trans ((htable _).trans (congrArg table hto'))
  have hr : reads c s table pid 7 (.workMem (c.nproc * l.stride + table (s.p i).assign)) :=
    ⟨_, (hto i hi).1, (hto i hi).2, by rw [hstride]⟩
  simp only [Prog.bind_eq, Prog.within_bind, Prog.within_get, Prog.alone_get, hentry, hr, true_and]
  exact ⟨hi, trivial, trivial, .ite (fun _ => by simp) fun _ => by simp⟩

omit [FloorSemiring K] in
theorem within_dropCenters (hcenter : ∀ i, m (.isCenter i) = s.isCenter i)
    (hmem : ∀ i ∈ c.blocks.block pid, i < c.blocks.num) :
    (dropCenters c pid l).Within (reads c s table pid 7) (fun l => ∃ i ∈ c.blocks.block pid, l = .isCenter i) m := by
  have hnd : (c.blocks.block pid).Nodup := List.nodup_range'
  refine Prog.Within.foldlM_nodup (W := fun i l => l = Loc.isCenter i) hnd fun i hi _ m' hm => ?_
  have hc' : m' (.isCenter i) = s.isCenter i :=
    (hm _ fun j _ hne heq => hne (Loc.isCenter.inj heq).symm).trans (hcenter i)
  have hentry : m' (.centerTable i) = table i := (hm _ fun j _ _ => by simp).trans (htable i)
  by_cases hc : s.isCenter i
  · have hr : reads c s table pid 7 (.workMem (c.nproc * l.stride + table i)) :=
      ⟨i, hmem i hi, hc, by rw [hstride]⟩
    simp only [Prog.bind_eq, Prog.within_bind, Prog.within_get, Prog.alone_get, hc', hc, if_true, hentry, hr,
      true_and]
    exact ⟨hi, trivial, .ite (fun _ => by simp) fun _ => by simp⟩
  · simp only [Prog.bind_eq, Prog.within_bind, Prog.within_get, Prog.alone_get, hc', hc, Prog.pure_eq]
    exact ⟨hi, (Prog.within_ret ()).2 trivial⟩

omit [FloorSemiring K] in
theorem within_decideX (hx : m .glCostOfOpeningX < (0 : K)) (hassign : ∀ i, m (.assign i) = (s.p i).assign)
    (hcenter : ∀ i, m (.isCenter i) = s.isCenter i)
    (hmem : ∀ i, i ∈ c.blocks.block pid ↔ c.blocks.k1 pid ≤ i ∧ i < c.blocks.k2 pid)
    (hlt : ∀ i ∈ c.blocks.block pid, i < c.blocks.num)
    (hto : ∀ i ∈ c.blocks.block pid, (s.p i).assign < c.blocks.num ∧ s.isCenter (s.p i).assign) :
    (decideX c s pid l).Within (reads c s table pid 7) (writes c s table pid 7) m := by
  have hassignPoints := within_assignPoints hstride htable hassign hto
  have hframe : ∀ i, ((assignPoints c s pid l).alone m).2 (.isCenter i) = s.isCenter i ∧
      ((assignPoints c s pid l).alone m).2 (.centerTable i) = table i := fun i =>
    ⟨(hassignPoints.frame (by simp)).trans (hcenter i), (hassignPoints.frame (by simp)).trans (htable i)⟩
  have hdrop := within_dropCenters hstride (fun i => (hframe i).2) (fun i => (hframe i).1) hlt
  have hcost : reads c s table pid 7 .glCostOfOpeningX := trivial
  simp only [decideX, Prog.bind_eq, Prog.within_bind, Prog.within_get, Prog.alone_get, hx, if_true, openCenterX,
    hcost,
    true_and]
  refine ⟨⟨hassignPoints.mono ?_, hdrop.mono ?_, ?_⟩, (Prog.within_ret l).2 trivial⟩
  · rintro _ ⟨i, hi, rfl | rfl⟩
    · exact hi
    · exact hi
  · rintro _ ⟨i, hi, rfl⟩
    exact hi
  · have hlast : ∀ m', (if pid = 0 then (load .numcenters).bind fun (numcenters : ℤ) =>
        (load .glNumberOfCentersToClose).bind fun (number : ℕ) => save (K := K) .numcenters (numcenters + 1 - number)
        else pure ()).Within (reads c s table pid 7) (writes c s table pid 7) m' := fun m' =>
      .ite (fun h => by simp [reads, writes, h]) fun _ => by simp
    refine .ite (fun hblock => Prog.within_bind.2 ⟨Prog.within_set.2 ((hmem c.x).2 hblock), hlast _⟩) fun _ => hlast _

omit [FloorSemiring K] hstride htable in
/-- Nothing is saved: only thread 0 writes. -/
theorem writes_decideX_of_not (hx : ¬m .glCostOfOpeningX < (0 : K)) {l' : Loc} {v : Val K l'}
    (hw : (decideX c s pid l).Writes m l' v) : pid = 0 ∧ (⟨l', v⟩ : Σ l, Val K l) = ⟨.glCostOfOpeningX, 0⟩ := by
  by_cases h : pid = 0
  · simp only [decideX, Prog.bind_eq, Prog.writes_bind, Prog.writes_get, Prog.alone_get, hx, h, if_true, if_false,
      Prog.writes_set, Prog.pure_eq, Prog.writes_ret, false_or, or_false] at hw
    exact ⟨h, hw⟩
  · simp only [decideX, Prog.bind_eq, Prog.writes_bind, Prog.writes_get, Prog.alone_get, hx, h, if_false,
      Prog.pure_eq,
      Prog.writes_ret, or_false] at hw

omit [FloorSemiring K] hstride htable in
/-- Nothing is saved: the threads only read the cost. -/
theorem within_decideX_of_not (hx : ¬m .glCostOfOpeningX < (0 : K)) :
    (decideX c s pid l).Within (fun l => l = .glCostOfOpeningX) (fun _ => True) m := by
  by_cases h : pid = 0
  · simp [decideX, hx, h]
  · simp [decideX, hx, h]

omit [FloorSemiring K] hstride htable in
/-- Nothing is saved: the threads do not mind the 0. -/
theorem unaffected_decideX_of_not (hx : ¬m .glCostOfOpeningX < (0 : K)) {E : ∀ l, Val K l → Prop}
    (hE : ∀ v : K, E .glCostOfOpeningX v → v = 0) (hzero : pid = 0 → ∀ v : K, ¬E .glCostOfOpeningX v) :
    (decideX c s pid l).Unaffected E m := by
  refine ⟨fun v hv => ?_, ?_⟩
  · obtain rfl := hE v hv
    simp [hx, Prog.bind]
  · by_cases h : pid = 0
    · simp [hx, h, Prog.bind, Prog.set, Prog.Unaffected, hzero h]
    · simp [hx, h, Prog.bind, Prog.Unaffected]

end Within
end Turkey.Pgain
