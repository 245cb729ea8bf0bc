import Turkey.Fluidanimate.Collisions
import Turkey.Fluidanimate.Densities

/-! How often the density passes count a pair of particles.

    A pair in one cell is counted once because one of its two addresses is the smaller one. A pair in two cells
    is looked at only from the cell with the larger number, so that it is counted if the addresses are in the
    order of the cells. For the structures of an array they are. For a structure of a pool nothing ties its
    address to the number of the cell that it goes to. -/

namespace Turkey.Fluid
open Turkey.Accumulate Turkey.Run

section Spec
variable {nx ny nz : ℕ} {T K : Type*} [Field K] [LinearOrder K] (hSq : K)
  (s : State (Index nx ny nz) T (Body K))

/-- A particle that is in its cell, with its slot. -/
def State.Sees {K : Type*} (s : State (Index nx ny nz) T (Body K)) (x : Seen nx ny nz) : Prop :=
  ∃ cell, s.seen x.cell = some cell ∧ x ∈ cell

def State.positionOf {K : Type*} (s : State (Index nx ny nz) T (Body K)) (X : Index nx ny nz × ℕ) :
    Option (Vec3 K) :=
  (s.particles X.1).bind fun ps => ps[X.2]?.map Body.p

def State.distSqOf (X Y : Index nx ny nz × ℕ) : Option K :=
  (s.positionOf X).bind fun p => (s.positionOf Y).map fun q => getLengthSq (p - q)

/-- Two particles in the same or in adjacent cells that are closer than h. -/
def Interacting (X Y : Index nx ny nz × ℕ) : Prop :=
  X ≠ Y ∧ Adjacent X.1 Y.1 ∧ ∃ d, s.distSqOf X Y = some d ∧ d < hSq

open Classical in
/-- The density of a particle. -/
noncomputable def densityOf (X : Index nx ny nz × ℕ) : K :=
  ∑ Y ∈ s.pars, if Interacting hSq s X Y then (s.distSqOf X Y).elim 0 fun d => (hSq - d) ^ 3 else 0

/-- How often the loops count these two particles. -/
def pairCount (ps : List (Seen nx ny nz × Seen nx ny nz)) (X Y : Index nx ny nz × ℕ) : ℕ :=
  (ps.map keys).count (X, Y) + (ps.map keys).count (Y, X)

/-- A pair that interacts is counted once, and no other pair is. -/
def CountedOnce (count : Index nx ny nz × ℕ → Index nx ny nz × ℕ → ℕ) : Prop :=
  ∀ X Y, (Interacting hSq s X Y → count X Y = 1) ∧ (¬Interacting hSq s X Y → count X Y = 0)

variable (L : Layout nx ny nz)

/-- For particles in different cells that interact, the structures are in memory in the order of the cells. -/
def InCellOrder : Prop :=
  ∀ x y, s.Sees x → s.Sees y → Interacting hSq s x.key y.key → number y.cell < number x.cell →
    L.loc y.slot.1 < L.loc x.slot.1

variable [NeZero nx] [NeZero ny] [NeZero nz] [Fintype T] [DecidableEq T]

/-- In both versions each pair is counted once and every density is the sum over the particles that interact
    with it. The threads begin when the densities have been set to zero, in any order of the threads. -/
structure Exact (gs : Grids nx ny nz T) (density : Slot nx ny nz → K) : Prop where
  serial : ∃ ps, cellsPairs L hSq s allCells = some ps ∧ CountedOnce hSq s (pairCount ps)
  threads : ∃ ps : T → List (Seen nx ny nz × Seen nx ny nz),
    (∀ t, cellsPairs L hSq s (gs.grid t).cells = some (ps t)) ∧
      CountedOnce hSq s fun X Y => ∑ t, pairCount (ps t) X Y
  sum : ∃ d, computeDensities L hSq s density = some d ∧ ∀ x, s.Sees x → d x.slot = densityOf hSq s x.key
  sumMT : ∃ prog, (∀ t, threadAdditions L hSq s gs t = some (prog t)) ∧
    ∀ order : List T, (∀ t, t ∈ order) →
      ∃ d, initDensities s (order.flatMap fun t => (gs.grid t).cells) density = some d ∧
        ∀ ts m, exec Accumulate.step (Accumulate.start prog d) ts = some m →
          ((∀ t, m.pc t = .idle []) → ∀ x, s.Sees x → m.mem x.slot = densityOf hSq s x.key) ∧
          ((∃ t, m.pc t ≠ .idle []) → ∃ t, (Accumulate.step m t).isSome = true)

end Spec

/-! ### Particles and slots -/

section Places
variable {nx ny nz : ℕ} {T K : Type*} {s : State (Index nx ny nz) T (Body K)}
  {lists : Place (Index nx ny nz) T → List (Addr (Index nx ny nz))}

theorem Settled.sees_iff (hs : Settled s lists) {x : Seen nx ny nz} : s.Sees x ↔ x ∈ seenOf lists s x.cell := by
  constructor
  · rintro ⟨cell, hcell, hx⟩
    rw [hs.seen, Option.some.injEq] at hcell
    rwa [hcell]
  · intro hx
    exact ⟨_, hs.seen x.cell, hx⟩

theorem sees_of_getElem? {c : Index nx ny nz} {j : ℕ} {x : Seen nx ny nz} (hc : x.cell = c)
    (hx : (s.seen c).map (·[j]?) = some (some x)) : s.Sees x := by
  subst hc
  obtain ⟨cell, hcell, hget⟩ := Option.map_eq_some_iff.1 hx
  exact ⟨cell, hcell, List.mem_of_getElem? hget⟩

theorem Settled.positionOf (hs : Settled s lists) {X : Index nx ny nz × ℕ} (hX : s.Valid X) :
    s.positionOf X = some (s.mem.slot (slotOf lists s X).1 (slotOf lists s X).2).p := by
  obtain ⟨got, hf⟩ := hs.filled
  have hlt : X.2 < (got X.1).length := by rwa [hf.counted]
  obtain ⟨a, ha, hslot⟩ := hf.holds X.1 X.2 _ (List.getElem?_eq_getElem hlt)
  rw [State.positionOf, hf.particles hs, Option.bind_some, List.getElem?_eq_getElem hlt, Option.map_some, slotOf, ha,
    Option.getD_some, hslot]

theorem Settled.positionOf_none (hs : Settled s lists) {X : Index nx ny nz × ℕ} (hX : ¬s.Valid X) :
    s.positionOf X = none := by
  obtain ⟨got, hf⟩ := hs.filled
  have hle : (got X.1).length ≤ X.2 := by
    rw [hf.counted]
    exact not_lt.1 hX
  rw [State.positionOf, hf.particles hs, Option.bind_some, List.getElem?_eq_none hle, Option.map_none]

theorem Adjacent.symm {c d : Index nx ny nz} (h : Adjacent c d) : Adjacent d c := by
  obtain ⟨hk, hj, hi⟩ := h
  rw [abs_sub_comm] at hk hj hi
  exact ⟨hk, hj, hi⟩

theorem adjacent_self (c : Index nx ny nz) : Adjacent c c := by
  simp [Adjacent]

variable [Field K] [LinearOrder K] (hSq : K)

omit [LinearOrder K] in
theorem Settled.distSqOf (hs : Settled s lists) {X Y : Index nx ny nz × ℕ} (hX : s.Valid X) (hY : s.Valid Y) :
    s.distSqOf X Y = some (s.distSq (slotOf lists s X) (slotOf lists s Y)) := by
  rw [State.distSqOf, hs.positionOf hX, hs.positionOf hY]
  rfl

theorem Settled.interacting_iff (hs : Settled s lists) {X Y : Index nx ny nz × ℕ} : Interacting hSq s X Y ↔
    X ≠ Y ∧ Adjacent X.1 Y.1 ∧ (s.Valid X ∧ s.Valid Y) ∧
      s.distSq (slotOf lists s X) (slotOf lists s Y) < hSq := by
  refine and_congr_right fun _ => and_congr_right fun _ => ⟨?_, ?_⟩
  · rintro ⟨d, hd, hlt⟩
    have hX : s.Valid X := by
      by_contra hX
      simp [State.distSqOf, hs.positionOf_none hX] at hd
    have hY : s.Valid Y := by
      by_contra hY
      simp [State.distSqOf, hs.positionOf hX, hs.positionOf_none hY] at hd
    rw [hs.distSqOf hX hY, Option.some.injEq] at hd
    exact ⟨⟨hX, hY⟩, hd ▸ hlt⟩
  · rintro ⟨⟨hX, hY⟩, hlt⟩
    exact ⟨_, hs.distSqOf hX hY, hlt⟩

omit [LinearOrder K] in
theorem distSq_comm (x y : Slot nx ny nz) : s.distSq x y = s.distSq y x := by
  simp only [State.distSq, getLengthSq, Pi.sub_apply]
  ring

theorem Settled.interacting_comm (hs : Settled s lists) {X Y : Index nx ny nz × ℕ} (h : Interacting hSq s X Y) :
    Interacting hSq s Y X := by
  obtain ⟨hne, hadj, hvalid, hlt⟩ := (hs.interacting_iff hSq).1 h
  refine (hs.interacting_iff hSq).2 ⟨hne.symm, hadj.symm, hvalid.symm, ?_⟩
  rwa [distSq_comm]

end Places

/-! ### Addresses -/

section Addresses
variable {nx ny nz : ℕ} {T K : Type*} {s : State (Index nx ny nz) T (Body K)}
  {lists : Place (Index nx ny nz) T → List (Addr (Index nx ny nz))} (L : Layout nx ny nz)

/-- In different structures the addresses are in the order of the structures. -/
theorem Layout.address_lt {x y : Slot nx ny nz} (hx : x.2 < 16) (hy : y.2 < 16) (hne : x.1 ≠ y.1) :
    L.address y < L.address x ↔ L.loc y.1 < L.loc x.1 := by
  have hin : ∀ {z : Slot nx ny nz}, z.2 < 16 → L.loc z.1 ≤ L.address z ∧ L.address z < L.loc z.1 + L.sizeofCell := by
    intro z hz
    have hoff : L.sizeofVec3 * z.2 < L.sizeofVec3 * 16 := Nat.mul_lt_mul_of_pos_left hz L.pos
    have hfits := L.fits
    simp only [Layout.address]
    omega
  have hinx := hin hx
  have hiny := hin hy
  rcases L.apart x.1 y.1 hne with h | h <;> omega

/-- Of two slots one has the smaller address. -/
theorem Layout.address_ne {x y : Slot nx ny nz} (hx : x.2 < 16) (hy : y.2 < 16) (hne : x ≠ y) :
    L.address x ≠ L.address y := by
  intro heq
  by_cases h : x.1 = y.1
  · refine hne (Prod.ext h (Nat.eq_of_mul_eq_mul_left L.pos ?_))
    simp only [Layout.address, h] at heq
    omega
  · have hxy := L.address_lt hx hy h
    have hyx := L.address_lt hy hx (Ne.symm h)
    have hpos := L.pos
    have hfits := L.fits
    rcases L.apart x.1 y.1 h with h | h <;> omega

/-- Particles of different cells are in different structures. -/
theorem Settled.slotOf_ne (hs : Settled s lists) {X Y : Index nx ny nz × ℕ} (hX : s.Valid X) (hY : s.Valid Y)
    (hne : X.1 ≠ Y.1) : (slotOf lists s X).1 ≠ (slotOf lists s Y).1 := by
  have hmem : ∀ {Z : Index nx ny nz × ℕ}, s.Valid Z → (slotOf lists s Z).1 ∈ lists (.dst Z.1) := by
    intro Z hZ
    have hlt : Z.2 / 16 < (lists (.dst Z.1)).length := by
      rw [hs.length]
      exact lt_blocks hZ
    simp [slotOf, List.getElem?_eq_getElem hlt]
  intro heq
  exact hne (Place.dst.inj (hs.owned.places.apart _ _ _ (hmem hX) (heq ▸ hmem hY)))

variable [Field K] [LinearOrder K] (hSq : K)

theorem Settled.interacting_of_taken (hs : Settled s lists) {X Y : Index nx ny nz × ℕ}
    (h : Taken L hSq s lists X Y) : Interacting hSq s X Y := by
  obtain ⟨hvalid, hcell, hlt, hdist⟩ := h
  refine (hs.interacting_iff hSq).2 ⟨?_, ?_, hvalid, hdist⟩
  · rintro rfl
    exact Nat.lt_irrefl _ hlt
  · rcases hcell with heq | ⟨hadj, -⟩
    · rw [heq]
      exact adjacent_self X.1
    · exact hadj

theorem Taken.asymm {X Y : Index nx ny nz × ℕ} (h : Taken L hSq s lists X Y) : ¬Taken L hSq s lists Y X :=
  fun h' => Nat.lt_asymm h.2.2.1 h'.2.2.1

/-- From the cell with the larger number the pair is taken if its structure comes second. -/
theorem Settled.taken_iff (hs : Settled s lists) {X Y : Index nx ny nz × ℕ} (h : Interacting hSq s X Y)
    (hlt : number Y.1 < number X.1) :
    Taken L hSq s lists X Y ↔ L.loc (slotOf lists s Y).1 < L.loc (slotOf lists s X).1 := by
  obtain ⟨-, hadj, hvalid, hdist⟩ := (hs.interacting_iff hSq).1 h
  have hcells : X.1 ≠ Y.1 := by
    intro heq
    rw [heq] at hlt
    exact Nat.lt_irrefl _ hlt
  have haddr := L.address_lt (Nat.mod_lt X.2 (by decide)) (Nat.mod_lt Y.2 (by decide))
    (hs.slotOf_ne hvalid.1 hvalid.2 hcells)
  rw [← haddr]
  exact ⟨fun h => h.2.2.1, fun h => ⟨hvalid, .inr ⟨hadj, hlt⟩, h, hdist⟩⟩

/-- A pair in different cells is taken from the cell with the larger number or not at all. -/
theorem number_lt_of_taken {X Y : Index nx ny nz × ℕ} (h : Taken L hSq s lists X Y) (hcells : X.1 ≠ Y.1) :
    number Y.1 < number X.1 := by
  rcases h.2.1 with heq | ⟨-, hlt⟩
  · exact absurd heq.symm hcells
  · exact hlt

/-- A pair in one cell is taken one way. -/
theorem Settled.taken_or_of_eq (hs : Settled s lists) {X Y : Index nx ny nz × ℕ} (h : Interacting hSq s X Y)
    (hcells : X.1 = Y.1) : Taken L hSq s lists X Y ∨ Taken L hSq s lists Y X := by
  obtain ⟨hne, -, hvalid, hdist⟩ := (hs.interacting_iff hSq).1 h
  have hslots : slotOf lists s X ≠ slotOf lists s Y := fun heq => hne (hs.slotOf_inj hvalid.1 hvalid.2 heq)
  have haddr := L.address_ne (Nat.mod_lt X.2 (by decide)) (Nat.mod_lt Y.2 (by decide)) hslots
  rcases Nat.lt_or_gt_of_ne haddr with hlt | hlt
  · refine .inr ⟨hvalid.symm, .inl hcells, hlt, ?_⟩
    rwa [distSq_comm]
  · exact .inl ⟨hvalid, .inl hcells.symm, hlt, hdist⟩

theorem Settled.inCellOrder_iff (hs : Settled s lists) : InCellOrder hSq s L ↔
    ∀ X Y, Interacting hSq s X Y → Taken L hSq s lists X Y ∨ Taken L hSq s lists Y X := by
  constructor
  · intro hord
    -- from the cell with the larger number
    have hlarger : ∀ {X Y}, Interacting hSq s X Y → number Y.1 < number X.1 → Taken L hSq s lists X Y := by
      intro X Y h hlt
      obtain ⟨-, -, ⟨hX, hY⟩, -⟩ := (hs.interacting_iff hSq).1 h
      exact (hs.taken_iff L hSq h hlt).2 (hord ⟨X.1, X.2, slotOf lists s X⟩ ⟨Y.1, Y.2, slotOf lists s Y⟩
        (hs.sees_iff.2 (mem_seenOf.2 ⟨rfl, hX, rfl⟩)) (hs.sees_iff.2 (mem_seenOf.2 ⟨rfl, hY, rfl⟩)) h hlt)
    intro X Y h
    rcases Nat.lt_trichotomy (number X.1) (number Y.1) with hlt | heq | hlt
    · exact .inr (hlarger (hs.interacting_comm hSq h) hlt)
    · exact hs.taken_or_of_eq L hSq h (number_injective heq)
    · exact .inl (hlarger h hlt)
  · intro htaken x y hx hy h hlt
    have hxs := (mem_seenOf.1 (hs.sees_iff.1 hx)).2.2
    have hys := (mem_seenOf.1 (hs.sees_iff.1 hy)).2.2
    rw [hxs, hys]
    have hcells : y.cell ≠ x.cell := by
      intro heq
      rw [heq] at hlt
      exact Nat.lt_irrefl _ hlt
    refine (hs.taken_iff L hSq h hlt).1 ((htaken x.key y.key h).resolve_right fun h' => ?_)
    exact Nat.lt_asymm hlt (number_lt_of_taken L hSq h' hcells)

end Addresses

/-! ### Counts and sums -/

section Counts
variable {nx ny nz : ℕ} {T K : Type*} [Field K] [LinearOrder K] {s : State (Index nx ny nz) T (Body K)}
  {lists : Place (Index nx ny nz) T → List (Addr (Index nx ny nz))} (L : Layout nx ny nz) (hSq : K)

theorem cellsPairs_eq (hs : Settled s lists) (cells : List (Index nx ny nz)) :
    cellsPairs L hSq s cells = some (cells.flatMap (pairsOf L hSq s lists)) := by
  rw [cellsPairs, mapM_eq_some cells fun c _ => cellPairs_eq L hSq hs c]
  rfl

theorem pairCount_flatMap (f : Index nx ny nz → List (Seen nx ny nz × Seen nx ny nz)) (X Y : Index nx ny nz × ℕ) :
    ∀ cells : List (Index nx ny nz), pairCount (cells.flatMap f) X Y = (cells.map fun c => pairCount (f c) X Y).sum
  | [] => rfl
  | c :: cells => by
    rw [List.map_cons, List.sum_cons, ← pairCount_flatMap f X Y cells]
    simp only [pairCount, List.flatMap_cons, List.map_append, List.count_append]
    omega

theorem mem_allCells (c : Index nx ny nz) : c ∈ allCells :=
  List.mem_product.2 ⟨List.mem_finRange _, List.mem_product.2 ⟨List.mem_finRange _, List.mem_finRange _⟩⟩

/-- The sum over all cells of what the loops do for a cell does not depend on how the cells are divided. -/
theorem sum_allCells {M : Type*} [AddCommMonoid M] (F : Index nx ny nz → M) : (allCells.map F).sum = ∑ c, F c := by
  have hnd : (allCells : List (Index nx ny nz)).Nodup :=
    (List.nodup_finRange _).product ((List.nodup_finRange _).product (List.nodup_finRange _))
  refine (sum_of_nodup hnd (fun c => iff_true_intro (mem_allCells c)) (fun c _ => Finset.mem_univ c) F).trans ?_
  simp

theorem sum_grids {M : Type*} [AddCommMonoid M] [Fintype T] (gs : Grids nx ny nz T) (F : Index nx ny nz → M) :
    ∑ t, ((gs.grid t).cells.map F).sum = ∑ c, F c := by
  classical
  have hgrid : ∀ t, ((gs.grid t).cells.map F).sum = ∑ c, if c ∈ (gs.grid t).cells then F c else 0 := fun t =>
    sum_of_nodup (gs.grid t).nodup_cells (fun _ => Iff.rfl) (fun c _ => Finset.mem_univ c) F
  simp only [hgrid]
  rw [Finset.sum_comm]
  refine Finset.sum_congr rfl fun c _ => ?_
  obtain ⟨t, ht⟩ := gs.all c
  have hone : ∀ u, c ∈ (gs.grid u).cells ↔ u = t := fun u => ⟨fun hu => gs.only c u t hu ht, fun hu => hu ▸ ht⟩
  simp only [hone, Finset.sum_ite_eq', Finset.mem_univ, if_true]

open Classical in
/-- How often a pair is taken, over all cells. -/
theorem sum_pairCount (X Y : Index nx ny nz × ℕ) : ∑ c, pairCount (pairsOf L hSq s lists c) X Y =
    (if Taken L hSq s lists X Y then 1 else 0) + if Taken L hSq s lists Y X then 1 else 0 := by
  have hcount : ∀ X Y : Index nx ny nz × ℕ, ∑ c, ((pairsOf L hSq s lists c).map keys).count (X, Y) =
      if Taken L hSq s lists X Y then 1 else 0 := by
    intro X Y
    have hcell : ∀ c, ((pairsOf L hSq s lists c).map keys).count (X, Y) =
        if X.1 = c then if Taken L hSq s lists X Y then 1 else 0 else 0 := by
      intro c
      rw [(nodup_keys L hSq c).count, ← ite_and]
      exact if_congr (mem_keys L hSq) rfl rfl
    simp only [hcell, Finset.sum_ite_eq, Finset.mem_univ, if_true]
  simp only [pairCount, Finset.sum_add_distrib, hcount]

theorem countedOnce_iff (hs : Settled s lists) :
    (CountedOnce hSq s fun X Y => ∑ c, pairCount (pairsOf L hSq s lists c) X Y) ↔ InCellOrder hSq s L := by
  classical
  rw [hs.inCellOrder_iff]
  constructor
  · intro h X Y hXY
    by_contra hnot
    have hone : ∑ c, pairCount (pairsOf L hSq s lists c) X Y = 1 := (h X Y).1 hXY
    rw [sum_pairCount, if_neg fun h => hnot (.inl h), if_neg fun h => hnot (.inr h)] at hone
    exact absurd hone (by decide)
  · refine fun h X Y => ⟨fun hXY => ?_, fun hXY => ?_⟩
    · dsimp only
      rw [sum_pairCount]
      rcases h X Y hXY with htaken | htaken
      · rw [if_pos htaken, if_neg (Taken.asymm L hSq htaken)]
      · rw [if_neg (Taken.asymm L hSq htaken), if_pos htaken]
    · dsimp only
      rw [sum_pairCount, if_neg fun h => hXY (hs.interacting_of_taken L hSq h),
        if_neg fun h => hXY (hs.interacting_comm hSq (hs.interacting_of_taken L hSq h))]

/-- If no cell has more than one structure, the addresses are in the order of the cells. -/
theorem inCellOrder_of_le (hs : Settled s lists) (hnum : ∀ c, s.num c ≤ 16) : InCellOrder hSq s L := by
  have hhead : ∀ {x : Seen nx ny nz}, s.Sees x → x.slot.1 = .head s.cells x.cell := by
    intro x hx
    obtain ⟨-, hval, hslot⟩ := mem_seenOf.1 (hs.sees_iff.1 hx)
    obtain ⟨l, hl, -⟩ := hs.dst x.cell
    have hfirst : x.key.2 / 16 = 0 := Nat.div_eq_of_lt (Nat.lt_of_lt_of_le hval (hnum x.cell))
    have hcell : x.key.1 = x.cell := rfl
    rw [hslot, slotOf, hfirst, hcell, hl]
    rfl
  intro x y hx hy _ hlt
  rw [hhead hx, hhead hy, L.heads, L.heads]
  have hsize : 0 < L.sizeofCell := Nat.lt_of_lt_of_le (Nat.mul_pos (by decide) L.pos) L.fits
  exact Nat.add_lt_add_left (Nat.mul_lt_mul_of_pos_left hlt hsize) _

open Classical in
/-- What is added for a particle over all cells, if the first particle of a pair gets the same as it would as the
    second one. -/
theorem sum_interacting {M : Type*} [AddCommMonoid M] {g g' : Slot nx ny nz → Slot nx ny nz → M}
    {adds : Seen nx ny nz × Seen nx ny nz → List (Addition (Slot nx ny nz) (Index nx ny nz × ℕ) M)}
    (hadds : AddsPairwise adds g g') (hsymm : ∀ x y, g' y x = g x y) (hs : Settled s lists)
    (hord : InCellOrder hSq s L) {Z : Index nx ny nz × ℕ} (hZ : s.Valid Z) :
    ∑ c, total ((pairsOf L hSq s lists c).flatMap adds) (slotOf lists s Z) =
      ∑ Y ∈ s.pars, if Interacting hSq s Z Y then g (slotOf lists s Z) (slotOf lists s Y) else 0 := by
  rw [sum_total L hSq hadds hs hZ]
  refine Finset.sum_congr rfl fun Y hY => ?_
  rw [hsymm]
  by_cases h : Interacting hSq s Z Y
  · rw [if_pos h]
    rcases (hs.inCellOrder_iff L hSq).1 hord Z Y h with htaken | htaken
    · rw [if_pos htaken, if_neg (Taken.asymm L hSq htaken), add_zero]
    · rw [if_neg (Taken.asymm L hSq htaken), if_pos htaken, zero_add]
  · rw [if_neg h, if_neg fun h' => h (hs.interacting_of_taken L hSq h'),
      if_neg fun h' => h (hs.interacting_comm hSq (hs.interacting_of_taken L hSq h')), add_zero]

/-- What is added to a density over all cells. -/
theorem sum_total_eq (hs : Settled s lists) (hord : InCellOrder hSq s L) (border : Index nx ny nz → Bool)
    {Z : Index nx ny nz × ℕ} (hZ : s.Valid Z) :
    ∑ c, total ((pairsOf L hSq s lists c).flatMap (pairAdditions hSq s border)) (slotOf lists s Z) =
      densityOf hSq s Z := by
  classical
  have hsymm : ∀ x y, tcOf hSq s y x = tcOf hSq s x y := fun x y => by rw [tcOf, distSq_comm, tcOf]
  rw [sum_interacting L hSq (addsPairwise_pairAdditions hSq border) hsymm hs hord hZ, densityOf]
  refine Finset.sum_congr rfl fun Y hY => ?_
  congr 1
  rw [hs.distSqOf hZ (mem_pars.1 hY), Option.elim_some, tcOf]
  ring

omit [LinearOrder K] in
/-- The densities are set to zero. -/
theorem foldl_update_zero {x : Slot nx ny nz} : ∀ (xs : List (Seen nx ny nz)) (density : Slot nx ny nz → K),
    (∃ y ∈ xs, y.slot = x) ∨ density x = 0 →
      xs.foldl (fun density y => Function.update density y.slot 0) density x = 0
  | [], density, h => h.resolve_left nofun
  | y :: xs, density, h => by
    rw [List.foldl_cons]
    refine foldl_update_zero xs _ ?_
    by_cases hy : x = y.slot
    · subst hy
      simp
    · rw [Function.update_of_ne hy]
      refine h.imp_left ?_
      rintro ⟨z, hz, rfl⟩
      rcases List.mem_cons.1 hz with rfl | hz
      · exact absurd rfl hy
      · exact ⟨z, hz, rfl⟩

omit [LinearOrder K] in
theorem initDensities_spec (hs : Settled s lists) {cells : List (Index nx ny nz)} (hall : ∀ c, c ∈ cells)
    (density : Slot nx ny nz → K) : ∃ d, initDensities s cells density = some d ∧ ∀ x, s.Sees x → d x.slot = 0 := by
  rw [initDensities, mapM_eq_some cells fun c _ => hs.seen c]
  refine ⟨_, rfl, fun x hx => foldl_update_zero _ _ (.inl ⟨x, ?_, rfl⟩)⟩
  exact List.mem_flatten.2 ⟨_, List.mem_map_of_mem (hall x.cell), hs.sees_iff.1 hx⟩

theorem computeDensities_spec (hs : Settled s lists) (hord : InCellOrder hSq s L) (density : Slot nx ny nz → K) :
    ∃ d, computeDensities L hSq s density = some d ∧ ∀ x, s.Sees x → d x.slot = densityOf hSq s x.key := by
  obtain ⟨d, hd, hzero⟩ := initDensities_spec hs mem_allCells density
  rw [computeDensities, hd, Option.bind_some, cellsPairs_eq L hSq hs, Option.map_some]
  refine ⟨_, rfl, fun x hx => ?_⟩
  obtain ⟨-, hval, hslot⟩ := mem_seenOf.1 (hs.sees_iff.1 hx)
  rw [addAll_apply, hzero x hx, zero_add, List.flatMap_assoc, total_flatMap, sum_allCells, hslot]
  exact sum_total_eq L hSq hs hord _ hval

end Counts

/-! ### The threads -/

section Threads
variable {nx ny nz : ℕ} [NeZero nx] [NeZero ny] [NeZero nz] {T K : Type*} [Fintype T] [DecidableEq T] [Field K]
  [LinearOrder K] {s : State (Index nx ny nz) T (Body K)}
  {lists : Place (Index nx ny nz) T → List (Addr (Index nx ny nz))} (L : Layout nx ny nz) (hSq : K)

/-- The additions of a thread. -/
def prog (s : State (Index nx ny nz) T (Body K)) (lists : Place (Index nx ny nz) T → List (Addr (Index nx ny nz)))
    (gs : Grids nx ny nz T) (t : T) : List (Addition (Slot nx ny nz) (Index nx ny nz × ℕ) K) :=
  ((gs.grid t).cells.flatMap (pairsOf L hSq s lists)).flatMap (pairAdditions hSq s gs.border)

omit [DecidableEq T] in
theorem threadAdditions_eq (hs : Settled s lists) (gs : Grids nx ny nz T) (t : T) :
    threadAdditions L hSq s gs t = some (prog L hSq s lists gs t) := by
  rw [threadAdditions, cellsPairs_eq L hSq hs]
  rfl

omit [DecidableEq T] in
/-- An addition of a thread is for a particle of one of its cells or of a cell next to one. -/
theorem mem_prog {gs : Grids nx ny nz T} {t : T} {x : Addition (Slot nx ny nz) (Index nx ny nz × ℕ) K}
    (hx : x ∈ prog L hSq s lists gs t) : ∃ X, s.Valid X ∧ x.entry = slotOf lists s X ∧
      x.mutex = (if gs.border X.1 = true then some (X.1, X.2 % 128) else none) ∧
      ∃ c ∈ (gs.grid t).cells, Adjacent X.1 c := by
  obtain ⟨p, hp, hx⟩ := List.mem_flatMap.1 hx
  obtain ⟨c, hc, hp⟩ := List.mem_flatMap.1 hp
  obtain ⟨hp₁, hp₂, htaken⟩ := (mem_pairsOf L hSq).1 hp
  obtain ⟨rfl, hval₁, hslot₁⟩ := mem_seenOf.1 hp₁
  obtain ⟨-, hval₂, hslot₂⟩ := mem_seenOf.1 hp₂
  rw [pairAdditions, List.mem_cons, List.mem_singleton] at hx
  rcases hx with rfl | rfl
  · exact ⟨p.1.key, hval₁, hslot₁, rfl, _, hc, adjacent_self _⟩
  · refine ⟨p.2.key, hval₂, hslot₂, rfl, _, hc, ?_⟩
    rcases htaken.2.1 with heq | ⟨hadj, -⟩
    · rw [heq]
      exact adjacent_self _
    · exact hadj.symm

omit [DecidableEq T] in
/-- Two threads that add to one density do so for a border cell, and take its mutex. -/
theorem disciplined_prog (hs : Settled s lists) (gs : Grids nx ny nz T) :
    Disciplined (prog L hSq s lists gs) := by
  intro t t' hne x hx y hy hentry
  obtain ⟨X, hX, hxe, hxm, c, hc, hXc⟩ := mem_prog L hSq hx
  obtain ⟨Y, hY, hye, hym, d, hd, hYd⟩ := mem_prog L hSq hy
  obtain rfl : X = Y := hs.slotOf_inj hX hY (hxe.symm.trans (hentry.trans hye))
  have hborder : gs.border X.1 = true := by
    obtain ⟨u, hu⟩ := gs.all X.1
    by_cases hut : u = t
    · subst hut
      exact (gs.border_iff X.1).2 ⟨d, u, t', hYd, hu, hd, hne⟩
    · exact (gs.border_iff X.1).2 ⟨c, u, t, hXc, hu, hc, hut⟩
  rw [if_pos hborder] at hxm hym
  exact ⟨_, hxm, hym⟩

omit [DecidableEq T] in
theorem sum_total_prog (hs : Settled s lists) (hord : InCellOrder hSq s L) (gs : Grids nx ny nz T)
    {Z : Index nx ny nz × ℕ} (hZ : s.Valid Z) :
    ∑ t, total (prog L hSq s lists gs t) (slotOf lists s Z) = densityOf hSq s Z := by
  rw [← sum_total_eq L hSq hs hord gs.border hZ, ← sum_grids gs]
  refine Finset.sum_congr rfl fun t _ => ?_
  rw [prog, List.flatMap_assoc, total_flatMap]

/-- Both density passes are exact if and only if the structures of the pairs are in the order of the cells. -/
theorem exact_iff_inCellOrder (hs : Settled s lists) (gs : Grids nx ny nz T) (density : Slot nx ny nz → K) :
    Exact hSq s L gs density ↔ InCellOrder hSq s L := by
  have hcount : pairCount (allCells.flatMap (pairsOf L hSq s lists)) =
      fun X Y => ∑ c, pairCount (pairsOf L hSq s lists c) X Y := by
    funext X Y
    rw [pairCount_flatMap, sum_allCells]
  have hcountMT : (fun X Y => ∑ t, pairCount ((gs.grid t).cells.flatMap (pairsOf L hSq s lists)) X Y) =
      fun X Y => ∑ c, pairCount (pairsOf L hSq s lists c) X Y := by
    funext X Y
    simp only [pairCount_flatMap, sum_grids]
  constructor
  · rintro ⟨⟨ps, hps, honce⟩, -, -, -⟩
    rw [cellsPairs_eq L hSq hs, Option.some.injEq] at hps
    rw [← hps, hcount] at honce
    exact (countedOnce_iff L hSq hs).1 honce
  · intro hord
    have honce := (countedOnce_iff L hSq hs).2 hord
    refine ⟨⟨_, cellsPairs_eq L hSq hs _, ?_⟩, ⟨_, fun t => cellsPairs_eq L hSq hs _, ?_⟩, ?_,
      _, threadAdditions_eq L hSq hs gs, fun order horder => ?_⟩
    · rwa [hcount]
    · rwa [hcountMT]
    · exact computeDensities_spec L hSq hs hord density
    · have hall : ∀ c : Index nx ny nz, c ∈ order.flatMap fun t => (gs.grid t).cells := by
        intro c
        obtain ⟨t, ht⟩ := gs.all c
        exact List.mem_flatMap.2 ⟨t, horder t, ht⟩
      obtain ⟨d, hd, hzero⟩ := initDensities_spec hs hall density
      refine ⟨d, hd, fun ts m hm => ⟨fun hdone x hx => ?_, ?_⟩⟩
      · obtain ⟨-, hval, hslot⟩ := mem_seenOf.1 (hs.sees_iff.1 hx)
        rw [exec_total (disciplined_prog L hSq hs gs) hm hdone, hzero x hx, zero_add, hslot]
        exact sum_total_prog L hSq hs hord gs hval
      · rintro ⟨t, ht⟩
        exact (exec_inv (fun _ _ _ h hstep => h.step (disciplined_prog L hSq hs gs) hstep) start_inv hm).progress ht

/-- CORRECT: both density passes count each interacting pair once, and the densities are the sums over the
    interacting particles in every run of the threads, if and only if for each such pair in different cells the
    structure of the cell with the smaller number has the smaller address. -/
theorem computeDensities_exact_iff (hs : Settled s lists) (L : Layout nx ny nz) (hSq : K) (gs : Grids nx ny nz T)
    (density : Slot nx ny nz → K) : Exact hSq s L gs density ↔
      ∀ x y, s.Sees x → s.Sees y → Interacting hSq s x.key y.key → number y.cell < number x.cell →
        L.loc y.slot.1 < L.loc x.slot.1 :=
  exact_iff_inCellOrder L hSq hs gs density

end Threads

/-- The two arrays one behind the other, and the structures of the pools behind them. -/
def rank : Addr (Index 2 2 2) → ℕ
  | .head array c => (if array = true then 8 else 0) + number c
  | .pool n => 16 + n

theorem rank_injective : Function.Injective rank := by
  have hnumber : ∀ c : Index 2 2 2, number c < 8 := by decide
  intro a b heq
  cases a with
  | head array c =>
    have hc := hnumber c
    cases b with
    | head array' d =>
      have hd := hnumber d
      cases array <;> cases array' <;> simp only [rank, if_true, if_false, Bool.false_eq_true] at heq
      · rw [number_injective (by omega : number c = number d)]
      · omega
      · omega
      · rw [number_injective (by omega : number c = number d)]
    | pool n =>
      simp only [rank] at heq
      split_ifs at heq <;> omega
  | pool n =>
    cases b with
    | head array d =>
      have hd := hnumber d
      simp only [rank] at heq
      split_ifs at heq <;> omega
    | pool m => rw [Nat.add_left_cancel heq]

def poolsBehind : Layout 2 2 2 where
  loc a := 896 * rank a
  sizeofCell := 896
  sizeofVec3 := 12
  pos := by decide
  fits := by decide
  apart a b hne := by
    have := rank_injective.ne hne
    omega
  array b := 896 * if b = true then 8 else 0
  heads b c := by rw [rank, Nat.mul_add]

/-- 17 particles in a cell, and one in the next. -/
def crowded : Option (State (Index 2 2 2) (Fin (2 * 1)) (Body ℚ)) :=
  initSim (fun x => if x.p .y = 0 then (0, 0, 0) else (0, 0, 1)) (fun _ _ => atRest 0) (fun _ => 0) (.head true)
    (List.replicate 17 (atRest 0) ++ [atRest (1 / 1000)])

theorem isSome_crowded : crowded.isSome = true := by decide +kernel

theorem computeDensities_exact_iff_crowded : ∃ lists, Settled (crowded.get isSome_crowded) lists ∧
    (Exact (1 / 10000) (crowded.get isSome_crowded) poolsBehind twoByTwo 0 ↔ ∀ x y : Seen 2 2 2,
      (crowded.get isSome_crowded).Sees x → (crowded.get isSome_crowded).Sees y →
        Interacting (1 / 10000) (crowded.get isSome_crowded) x.key y.key → number y.cell < number x.cell →
          poolsBehind.loc y.slot.1 < poolsBehind.loc x.slot.1) := by
  obtain ⟨lists, hs⟩ := settled_of_initSim (Option.some_get isSome_crowded).symm
  exact ⟨lists, hs, computeDensities_exact_iff hs poolsBehind (1 / 10000) twoByTwo 0⟩

/-- The last particle of the first cell is in a structure behind that of the next cell: the pair is not counted. -/
theorem crowded_not_exact : ∃ lists, Settled (crowded.get isSome_crowded) lists ∧
    ¬Exact (1 / 10000) (crowded.get isSome_crowded) poolsBehind twoByTwo 0 := by
  obtain ⟨lists, hs⟩ := settled_of_initSim (Option.some_get isSome_crowded).symm
  refine ⟨lists, hs, fun h => ?_⟩
  have hord := (exact_iff_inCellOrder poolsBehind (1 / 10000) hs twoByTwo 0).1 h
  clear h hs
  have hx : ((crowded.get isSome_crowded).seen (0, 0, 1)).map (·[0]?) =
      some (some ⟨(0, 0, 1), 0, (.head false (0, 0, 1), 0)⟩) := by decide +kernel
  have hy : ((crowded.get isSome_crowded).seen (0, 0, 0)).map (·[16]?) =
      some (some ⟨(0, 0, 0), 16, (.pool 0, 0)⟩) := by decide +kernel
  have hdist : (crowded.get isSome_crowded).distSqOf ((0, 0, 1), 0) ((0, 0, 0), 16) = some (1 / 1000000) := by
    decide +kernel
  generalize crowded.get isSome_crowded = s at *
  have hsx : s.Sees ⟨(0, 0, 1), 0, (.head false (0, 0, 1), 0)⟩ := sees_of_getElem? rfl hx
  have hsy : s.Sees ⟨(0, 0, 0), 16, (.pool 0, 0)⟩ := sees_of_getElem? rfl hy
  have hclose : Interacting (1 / 10000) s ((0, 0, 1), 0) ((0, 0, 0), 16) :=
    ⟨by decide, by simp [Adjacent], _, hdist, by norm_num⟩
  exact absurd (hord _ _ hsx hsy hclose (by decide)) (by decide)

end Turkey.Fluid
