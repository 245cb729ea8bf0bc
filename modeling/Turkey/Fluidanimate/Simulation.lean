import Turkey.Fluidanimate.Physics

/-! The frames of both versions against the fluid: `AdvanceFrame`, and `AdvanceFrameMT` of all threads.

    After the grid is rebuilt the passes compute the accelerations, push the particles away from the walls, move
    them, and put those that are beyond a wall back. The order of the particles in a cell, the structures they are
    in and the interleaving of the threads differ from run to run, but the particles at the end of a frame are
    those of the fluid, each moved by what all others do to it. -/

namespace Turkey.Fluid
open Turkey.Accumulate Turkey.Run

section Model
variable {nx ny nz : ℕ} {I T K P Q : Type*}

/-- The same structures with something else in their slots. -/
def State.retype (s : State I T P) (slot : Addr I → ℕ → Q) : State I T Q where
  mem := ⟨s.mem.next, slot, s.mem.free, s.mem.alloc, s.mem.allocated⟩
  cells := s.cells
  cnumPars := s.cnumPars
  last := s.last
  lock := s.lock
  pc := s.pc

/-- What the rebuilding of the grid moves, together with the array `a` that it does not move. -/
def State.bodies (s : State I T (Particle (Vec3 K))) (a : Addr I × ℕ → Vec3 K) : State I T (Body K) :=
  s.retype fun c k => ⟨(s.mem.slot c k).p, (s.mem.slot c k).hv, (s.mem.slot c k).v, a (c, k)⟩

def State.strip (s : State I T (Body K)) : State I T (Particle (Vec3 K)) :=
  s.retype fun c k => (s.mem.slot c k).particle

variable [Field K] [LinearOrder K] (prm : Params K)

/-- The body of the loops of `AdvanceParticles`. -/
def advanceParticle (x : Body K) : Body K :=
  let vHalf := x.hv + prm.timeStep • x.a
  { x with p := x.p + prm.timeStep • vHalf, v := (1 / ((2 : ℕ) : K)) • (x.hv + vHalf), hv := vHalf }

/-- `AdvanceParticles` -/
def advanceParticles (s : State (Index nx ny nz) T (Body K)) : Option (State (Index nx ny nz) T (Body K)) :=
  (cellLoops s (fun _ => advanceParticle prm) (fun _ _ => true) allCells s.mem.slot).map s.advance

/-- `AdvanceParticlesMT` -/
def advanceParticlesMT (s : State (Index nx ny nz) T (Body K)) (gs : Grids nx ny nz T) (t : T)
    (slot : Addr (Index nx ny nz) → ℕ → Body K) : Option (Addr (Index nx ny nz) → ℕ → Body K) :=
  cellLoops s (fun _ => advanceParticle prm) (fun _ _ => true) (gs.grid t).cells slot

variable (L : Layout nx ny nz) (k : Kernel K)

/-- What `AdvanceFrame` does after `RebuildGrid`; `f` are the arrays before. -/
def passes (f : Fields nx ny nz K) (s : State (Index nx ny nz) T (Particle (Vec3 K))) :
    Option (State (Index nx ny nz) T (Particle (Vec3 K))) :=
  (computeForces L k (s.bodies f.a) f).bind fun f =>
  (processCollisions prm (s.bodies f.a)).bind fun s =>
  (advanceParticles prm s).bind fun s =>
  (processCollisions2 prm s).map State.strip

variable [NeZero nx] [NeZero ny] [NeZero nz] [Fintype T] [DecidableEq T]

/-- What the threads do in `AdvanceFrameMT` after `RebuildGridMT`, with a barrier behind each pass. In the last three
    passes a thread reads and writes its own cells only, so each is a row of turns of whole threads, in any order. -/
def PassesMT (gs : Grids nx ny nz T) (f : Fields nx ny nz K) (s s' : State (Index nx ny nz) T (Particle (Vec3 K))) :
    Prop :=
  ∃ f', ForcesMT L k (s.bodies f.a) gs f f' ∧
  ∃ order s₁, Turns order ∧ inOrder (s.bodies f'.a) (processCollisionsMT prm (s.bodies f'.a) gs) order = some s₁ ∧
  ∃ order s₂, Turns order ∧ inOrder s₁ (advanceParticlesMT prm s₁ gs) order = some s₂ ∧
  ∃ order s₃, Turns order ∧ inOrder s₂ (processCollisions2MT prm s₂ gs) order = some s₃ ∧ s₃.strip = s'

end Model

section Frames
variable {nx ny nz G : ℕ} [NeZero nx] [NeZero ny] [NeZero nz] [NeZero G] {K : Type*} [Field K] [LinearOrder K]
  (coord : Vec3 K → ℤ × ℤ × ℤ) (prm : Params K) (L : Layout nx ny nz) (k : Kernel K) (gs : Grids nx ny nz (Fin G))

/-- A frame: `AdvanceFrame` of the serial version or `AdvanceFrameMT` of all threads. -/
def AdvanceFrame (r : Rebuild G) (s s' : State (Index nx ny nz) (Fin G) (Particle (Vec3 K))) : Prop :=
  ∃ s₁ f, Frame (cellOf coord) (r.mode gs) s s₁ ∧
    match r with
    | .serial _ => passes prm L k f s₁ = some s'
    | .parallel => PassesMT prm L k gs f s₁ s'

/-- The frames of a run, each of one of the versions. -/
def Frames : List (Rebuild G) → State (Index nx ny nz) (Fin G) (Particle (Vec3 K)) →
    State (Index nx ny nz) (Fin G) (Particle (Vec3 K)) → Prop
  | [], s, s' => s = s'
  | r :: rs, s, s' => ∃ s₁, AdvanceFrame coord prm L k gs r s s₁ ∧ Frames rs s₁ s'

end Frames

/-! ### The fluid -/

section Fluid
variable {nx ny nz G : ℕ} {K : Type*} [Field K] [LinearOrder K] (bin : Particle (Vec3 K) → Index nx ny nz)
  (prm : Params K) (k : Kernel K)

/-- A particle after a frame. -/
noncomputable def moved (fluid : Multiset (Particle (Vec3 K))) (x : Particle (Vec3 K)) : Particle (Vec3 K) :=
  let b := bodyIn bin k fluid x
  let b := pushAll prm (bin x) (b.predict prm) b
  let b := advanceParticle prm b
  (reflects prm (bin x) walls b).particle

/-- The fluid after a frame. -/
noncomputable def frame (fluid : Multiset (Particle (Vec3 K))) : Multiset (Particle (Vec3 K)) :=
  fluid.map (moved bin prm k fluid)

open Classical in
/-- No cell has more particles than a structure has room for. -/
def Roomy (fluid : Multiset (Particle (Vec3 K))) : Prop := ∀ c, (fluid.filter fun x => bin x = c).card ≤ 16

/-- No wall pushes a particle of a cell that `ProcessCollisionsMT` leaves out. -/
def LeftOutSpared (fluid : Multiset (Particle (Vec3 K))) : Prop :=
  ∀ x ∈ fluid, onDomainWall (bin x) = false →
    pushAll prm (bin x) ((bodyIn bin k fluid x).predict prm) (bodyIn bin k fluid x) = bodyIn bin k fluid x

/-- What the fluid must meet for these frames to be those of the fluid. -/
def Suits : List (Rebuild G) → Multiset (Particle (Vec3 K)) → Prop
  | [], _ => True
  | r :: rs, fluid => Roomy bin fluid ∧ (r = .parallel → LeftOutSpared bin prm k fluid) ∧
    Suits rs (frame bin prm k fluid)

end Fluid

/-! ### The passes -/

section Contents
variable {I T K P Q : Type*} {lists : Place I T → List (Addr I)}

theorem Settled.retype {s : State I T P} (h : Settled s lists) (slot : Addr I → ℕ → Q) :
    Settled (s.retype slot) lists :=
  ⟨⟨h.owned.places, h.owned.free, h.owned.pooled, h.owned.all⟩, h.dst, h.src, h.length⟩

/-- The lists are as between two frames, and these particles are in them. -/
structure Has (s : State I T P) (lists : Place I T → List (Addr I)) (got : I → List P) : Prop where
  settled : Settled s lists
  particles : ∀ c, s.particles c = some (got c)

theorem Settled.has {s : State I T P} {got : I → List P} (h : Settled s lists) (hf : Filled s lists got) :
    Has s lists got := ⟨h, hf.particles h⟩

theorem Has.filled {s : State I T P} {got : I → List P} (h : Has s lists got) : Filled s lists got := by
  obtain ⟨got', hf⟩ := h.settled.filled
  obtain rfl : got' = got := by
    funext c
    exact Option.some.inj ((hf.particles h.settled c).symm.trans (h.particles c))
  exact hf

theorem Has.start {s : State I T P} {got : I → List P} (h : Has s lists got) :
    Filled (s.advance s.mem.slot) lists got := h.filled

theorem Has.of_advance {s s' : State I T P} (h : Settled s lists) {slot : Option (Addr I → ℕ → P)}
    (hs : slot.map s.advance = some s') {got : I → List P} (hgot : ∀ c, s'.particles c = some (got c)) :
    Has s' lists got := by
  obtain ⟨slot, -, rfl⟩ := Option.map_eq_some_iff.1 hs
  exact ⟨h.advance slot, hgot⟩

/-- A slot for a slot. -/
theorem Filled.retype {s : State I T P} {got : I → List P} (hf : Filled s lists got) {slot : Addr I → ℕ → Q}
    {got' : I → List Q} (hlen : ∀ c, (got' c).length = (got c).length)
    (hslot : ∀ c j x a, (got c)[j]? = some x → (lists (.dst c))[j / 16]? = some a → s.mem.slot a (j % 16) = x →
      (got' c)[j]? = some (slot a (j % 16))) : Filled (s.retype slot) lists got' := by
  refine ⟨fun c => (hlen c).trans (hf.counted c), fun c j y hy => ?_⟩
  obtain ⟨hlt, -⟩ := List.getElem?_eq_some_iff.1 hy
  rw [hlen] at hlt
  obtain ⟨a, ha, hx⟩ := hf.holds c j _ (List.getElem?_eq_getElem hlt)
  refine ⟨a, ha, ?_⟩
  have hy' := hslot c j _ a (List.getElem?_eq_getElem hlt) ha hx
  exact Option.some.inj (hy'.symm.trans hy)

theorem Filled.strip {s : State I T (Body K)} {got : I → List (Body K)} (hf : Filled s lists got) :
    Filled s.strip lists fun c => (got c).map Body.particle := by
  refine hf.retype (fun c => List.length_map _) fun c j x a hx _ hslot => ?_
  rw [List.getElem?_map, hx, hslot]
  rfl

end Contents

section Passes
variable {nx ny nz : ℕ} {T K : Type*} {lists : Place (Index nx ny nz) T → List (Addr (Index nx ny nz))}

section Bodies
variable {s : State (Index nx ny nz) T (Particle (Vec3 K))} {got : Index nx ny nz → List (Particle (Vec3 K))}

theorem Settled.bodies (h : Settled s lists) (a : Slot nx ny nz → Vec3 K) : Settled (s.bodies a) lists := h.retype _

/-- The particles with what the array has for them. -/
def bodiesOf (lists : Place (Index nx ny nz) T → List (Addr (Index nx ny nz)))
    (s : State (Index nx ny nz) T (Particle (Vec3 K))) (a : Slot nx ny nz → Vec3 K)
    (got : Index nx ny nz → List (Particle (Vec3 K))) (c : Index nx ny nz) : List (Body K) :=
  (got c).mapIdx fun j x => ⟨x.p, x.hv, x.v, a (slotOf lists (s.bodies a) (c, j))⟩

theorem Filled.bodies (hf : Filled s lists got) (a : Slot nx ny nz → Vec3 K) :
    Filled (s.bodies a) lists (bodiesOf lists s a got) := by
  refine hf.retype (fun c => List.length_mapIdx) fun c j x b hx hb hslot => ?_
  have hplace : Fluid.slotOf lists (s.bodies a) (c, j) = (b, j % 16) := by rw [Fluid.slotOf, hb]; rfl
  rw [bodiesOf, List.getElem?_mapIdx, hx, Option.map_some, hplace, hslot]

theorem map_bodiesOf (a : Slot nx ny nz → Vec3 K) (c : Index nx ny nz) :
    (bodiesOf lists s a got c).map Body.particle = got c := by
  refine List.ext_getElem (by simp [bodiesOf]) fun j _ _ => ?_
  simp only [List.getElem_map, bodiesOf, List.getElem_mapIdx]
  rfl

theorem fluidOf_bodiesOf (a : Slot nx ny nz → Vec3 K) :
    fluidOf (bodiesOf lists s a got) = ∑ c, (got c : Multiset (Particle (Vec3 K))) := by
  have hcell : ∀ c, (bodiesOf lists s a got c : Multiset (Body K)).map Body.particle = got c := fun c => by
    rw [Multiset.map_coe, map_bodiesOf]
  have hsum := map_sum (Multiset.mapAddMonoidHom Body.particle)
    (fun c => (bodiesOf lists s a got c : Multiset (Body K))) Finset.univ
  refine hsum.trans (Finset.sum_congr rfl fun c _ => hcell c)

end Bodies

variable [Field K] [LinearOrder K] {s : State (Index nx ny nz) T (Body K)} {got : Index nx ny nz → List (Body K)}
  (prm : Params K)

omit [LinearOrder K] in
theorem advanceParticles_spec (h : Has s lists got) : ∃ s', advanceParticles prm s = some s' ∧
    Has s' lists fun c => (got c).map (advanceParticle prm) := by
  obtain ⟨slot, hloops, hf⟩ := Filled.cellLoops h.settled (fun _ => advanceParticle prm)
    (fun _ => .inl fun _ => rfl) allCells allOnce_allCells.1 h.start
  simp only [mem_allCells, if_true, visit_map fun _ => rfl] at hf
  exact ⟨s.advance slot, by rw [advanceParticles, hloops]; rfl, (h.settled.advance slot).has hf⟩

omit [LinearOrder K] in
theorem advanceParticlesMT_spec (h : Has s lists got) (gs : Grids nx ny nz T) {order : List T} (horder : Turns order) :
    ∃ s', inOrder s (advanceParticlesMT prm s gs) order = some s' ∧
      Has s' lists fun c => (got c).map (advanceParticle prm) := by
  obtain ⟨slot, hthreads, hf⟩ := Filled.threads h.settled gs (fun _ => advanceParticle prm) (fun _ => true) order
    horder.1 h.start
  have hc : ∀ c : Index nx ny nz, ∃ t ∈ order, c ∈ (gs.grid t).cells := by
    intro c
    obtain ⟨t, ht⟩ := gs.all c
    exact ⟨t, horder.2 t, ht⟩
  simp only [List.filter_true] at hthreads
  simp only [hc, and_true, if_true] at hf
  exact ⟨s.advance slot, by rw [inOrder]; simp only [advanceParticlesMT, hthreads]; rfl,
    (h.settled.advance slot).has hf⟩

/-- The pushes of `ProcessCollisions`. -/
theorem processCollisions_has (h : Has s lists got) : ∃ s', processCollisions prm s = some s' ∧
    Has s' lists fun c => (got c).map fun x => pushAll prm c (x.predict prm) x := by
  obtain ⟨s', hs', hparticles⟩ := processCollisions_spec prm h.settled
  exact ⟨s', hs', .of_advance h.settled hs' fun c => hparticles c _ (h.particles c)⟩

theorem processCollisionsMT_has (h : Has s lists got) (gs : Grids nx ny nz T) {order : List T} (horder : Turns order)
    (hspared : ∀ c, ∀ x ∈ got c, onDomainWall c = false → pushAll prm c (x.predict prm) x = x) :
    ∃ s', inOrder s (processCollisionsMT prm s gs) order = some s' ∧
      Has s' lists fun c => (got c).map fun x => pushAll prm c (x.predict prm) x := by
  obtain ⟨s', hs', hparticles⟩ := processCollisionsMT_spec prm h.settled gs horder.1 horder.2
  refine ⟨s', hs', .of_advance h.settled hs' fun c => (hparticles c _ (h.particles c)).trans (congrArg some ?_)⟩
  split_ifs with hc
  · rfl
  · exact (map_eq_self_iff.2 fun x hx => hspared c x hx (Bool.eq_false_iff.2 hc)).symm

variable [IsStrictOrderedRing K]

/-- The reflections of `ProcessCollisions2`. With one structure the pointer need not go on. -/
theorem processCollisions2_has (hy : 2 ≤ ny) (h : Has s lists got) (hle : ∀ c, (got c).length ≤ 16) :
    ∃ s', processCollisions2 prm s = some s' ∧ Has s' lists fun c => (got c).map (reflects prm c walls) := by
  obtain ⟨s', hs', hparticles⟩ := processCollisions2_spec prm h.settled
  refine ⟨s', hs', .of_advance h.settled hs' fun c => (hparticles c _ (h.particles c)).trans (congrArg some ?_)⟩
  by_cases hc : Wall.has ⟨.y, true⟩ c = true
  · refine (serialCell_eq_iff hy hc _).2 fun j x hx _ b hb => ?_
    have hlt := (List.getElem?_eq_some_iff.1 hx).1
    have hlen := hle c
    omega
  · exact serialCell_of_not hc _

omit [IsStrictOrderedRing K] in
theorem processCollisions2MT_has (hx : 2 ≤ nx) (hy : 2 ≤ ny) (hz : 2 ≤ nz) (h : Has s lists got)
    (gs : Grids nx ny nz T) {order : List T} (horder : Turns order) :
    ∃ s', inOrder s (processCollisions2MT prm s gs) order = some s' ∧
      Has s' lists fun c => (got c).map (reflects prm c walls) := by
  obtain ⟨s', hs', hparticles⟩ := processCollisions2MT_spec prm hx hy hz h.settled gs horder.1 horder.2
  exact ⟨s', hs', .of_advance h.settled hs' fun c => hparticles c _ (h.particles c)⟩

end Passes

/-! ### The frames -/

section Rebuilt
variable {nx ny nz : ℕ} {T K : Type*} [Field K] [LinearOrder K]
  {lists : Place (Index nx ny nz) T → List (Addr (Index nx ny nz))}
  {bin : Particle (Vec3 K) → Index nx ny nz} (prm : Params K) (L : Layout nx ny nz) {k : Kernel K}

/-- The state after the grid has been rebuilt. -/
structure Rebuilt (bin : Particle (Vec3 K) → Index nx ny nz) (s : State (Index nx ny nz) T (Particle (Vec3 K)))
    (lists : Place (Index nx ny nz) T → List (Addr (Index nx ny nz)))
    (got : Index nx ny nz → List (Particle (Vec3 K))) : Prop where
  has : Has s lists got
  bin : ∀ c, ∀ x ∈ got c, bin x = c
  le : ∀ c, (got c).length ≤ 16

variable {s : State (Index nx ny nz) T (Particle (Vec3 K))} {got : Index nx ny nz → List (Particle (Vec3 K))}

/-- The particles have the accelerations of the fluid. -/
theorem Rebuilt.forces (h : Rebuilt bin s lists got) (hpos : 0 < k.hSq) (f : Fields nx ny nz K) :
    Has (s.bodies (f.final L k (s.bodies f.a) lists).a) lists fun c =>
      (got c).map (bodyIn bin k (∑ c, (got c : Multiset (Particle (Vec3 K))))) := by
  have hbinned : Binned bin (s.bodies f.a) lists (bodiesOf lists s f.a got) := by
    refine ⟨h.has.settled.bodies f.a, h.has.filled.bodies f.a, fun c x hx => h.bin c _ ?_, fun c => ?_⟩
    · have hmem := List.mem_map_of_mem (f := Body.particle) hx
      rwa [map_bodiesOf] at hmem
    · exact (h.has.filled.counted c).symm.trans_le (h.le c)
  have hgot : bodiesOf lists s (f.final L k (s.bodies f.a) lists).a got =
      fun c => (got c).map (bodyIn bin k (∑ c, (got c : Multiset (Particle (Vec3 K))))) := by
    funext c
    refine List.ext_getElem (by simp [bodiesOf]) fun j hj _ => ?_
    have hlt : j < (bodiesOf lists s f.a got c).length := by simpa [bodiesOf] using hj
    have hacc := hbinned.acceleration L hpos f (List.getElem?_eq_getElem hlt)
    rw [fluidOf_bodiesOf] at hacc
    simp only [bodiesOf, List.getElem_mapIdx, List.getElem_map, bodyIn, Body.mk.injEq, true_and] at hacc ⊢
    exact hacc
  rw [← hgot]
  exact (h.has.settled.bodies _).has (h.has.filled.bodies _)

/-- The four passes one after another are the motion of the fluid. -/
theorem Rebuilt.moves (h : Rebuilt bin s lists got) (fluid : Multiset (Particle (Vec3 K))) (c : Index nx ny nz) :
    (((((got c).map (bodyIn bin k fluid)).map fun x => pushAll prm c (x.predict prm) x).map
      (advanceParticle prm)).map (reflects prm c walls)).map Body.particle = (got c).map (moved bin prm k fluid) := by
  simp only [List.map_map]
  refine List.map_congr_left fun x hx => ?_
  simp only [Function.comp_apply, moved, h.bin c x hx]

variable [IsStrictOrderedRing K]

theorem Rebuilt.passes (h : Rebuilt bin s lists got) (hpos : 0 < k.hSq) (hy : 2 ≤ ny) (f : Fields nx ny nz K) :
    ∃ s', passes prm L k f s = some s' ∧ Has s' lists fun c =>
      (got c).map (moved bin prm k (∑ c, (got c : Multiset (Particle (Vec3 K))))) := by
  obtain ⟨s₁, hs₁, h₁⟩ := processCollisions_has prm (h.forces L hpos f)
  obtain ⟨s₂, hs₂, h₂⟩ := advanceParticles_spec prm h₁
  obtain ⟨s₃, hs₃, h₃⟩ := processCollisions2_has prm hy h₂ fun c => by simpa using h.le c
  refine ⟨s₃.strip, ?_, ?_⟩
  · rw [Fluid.passes, computeForces_eq L k (h.has.settled.bodies f.a), Option.bind_some, hs₁, Option.bind_some, hs₂,
      Option.bind_some, hs₃, Option.map_some]
  · have hhas := (h₃.settled.retype _).has h₃.filled.strip
    simp only [h.moves prm] at hhas
    exact hhas

variable [NeZero nx] [NeZero ny] [NeZero nz] [Fintype T] [DecidableEq T]

omit [IsStrictOrderedRing K] in
theorem Rebuilt.passesMT (h : Rebuilt bin s lists got) (hpos : 0 < k.hSq) (hx : 2 ≤ nx) (hy : 2 ≤ ny) (hz : 2 ≤ nz)
    (hspared : LeftOutSpared bin prm k (∑ c, (got c : Multiset (Particle (Vec3 K))))) (gs : Grids nx ny nz T)
    (f : Fields nx ny nz K) : (∃ s', PassesMT prm L k gs f s s') ∧ ∀ s', PassesMT prm L k gs f s s' →
      Has s' lists fun c => (got c).map (moved bin prm k (∑ c, (got c : Multiset (Particle (Vec3 K))))) := by
  have hforces := h.forces L hpos f
  have hspared' : ∀ c, ∀ x ∈ (got c).map (bodyIn bin k (∑ c, (got c : Multiset (Particle (Vec3 K))))),
      onDomainWall c = false → pushAll prm c (x.predict prm) x = x := by
    intro c y hy hc
    obtain ⟨x, hx, rfl⟩ := List.mem_map.1 hy
    have hmem : x ∈ ∑ c, (got c : Multiset (Particle (Vec3 K))) :=
      Multiset.mem_of_le (Finset.single_le_sum (fun _ _ => Multiset.zero_le _) (Finset.mem_univ c)) hx
    have := hspared x hmem
    rw [h.bin c x hx] at this
    exact this hc
  constructor
  · have hturns : Turns (Finset.univ : Finset T).toList :=
      ⟨Finset.nodup_toList _, fun t => Finset.mem_toList.2 (Finset.mem_univ t)⟩
    obtain ⟨s₁, hs₁, h₁⟩ := processCollisionsMT_has prm hforces gs hturns hspared'
    obtain ⟨s₂, hs₂, h₂⟩ := advanceParticlesMT_spec prm h₁ gs hturns
    obtain ⟨s₃, hs₃, -⟩ := processCollisions2MT_has prm hx hy hz h₂ gs hturns
    exact ⟨s₃.strip, _, (forcesMT_iff L k (h.has.settled.bodies f.a) gs f _).2 rfl, _, s₁, hturns, hs₁, _, s₂, hturns,
      hs₂, _, s₃, hturns, hs₃, rfl⟩
  · rintro s' ⟨f', hf', order₁, s₁, horder₁, hs₁, order₂, s₂, horder₂, hs₂, order₃, s₃, horder₃, hs₃, rfl⟩
    obtain rfl := (forcesMT_iff L k (h.has.settled.bodies f.a) gs f f').1 hf'
    obtain ⟨s₁', hs₁', h₁⟩ := processCollisionsMT_has prm hforces gs horder₁ hspared'
    obtain rfl := Option.some.inj (hs₁.symm.trans hs₁')
    obtain ⟨s₂', hs₂', h₂⟩ := advanceParticlesMT_spec prm h₁ gs horder₂
    obtain rfl := Option.some.inj (hs₂.symm.trans hs₂')
    obtain ⟨s₃', hs₃', h₃⟩ := processCollisions2MT_has prm hx hy hz h₂ gs horder₃
    obtain rfl := Option.some.inj (hs₃.symm.trans hs₃')
    have hhas := (h₃.settled.retype _).has h₃.filled.strip
    simp only [h.moves prm] at hhas
    exact hhas

end Rebuilt

section Runs
variable {nx ny nz G : ℕ} [NeZero nx] [NeZero ny] [NeZero nz] [NeZero G] {K : Type*} [Field K] [LinearOrder K]
  {coord : Vec3 K → ℤ × ℤ × ℤ} (prm : Params K) (L : Layout nx ny nz) {k : Kernel K} (gs : Grids nx ny nz (Fin G))
  {s s' : State (Index nx ny nz) (Fin G) (Particle (Vec3 K))}
  {lists : Place (Index nx ny nz) (Fin G) → List (Addr (Index nx ny nz))}
  {before : Index nx ny nz → List (Particle (Vec3 K))}

omit [NeZero nx] [NeZero ny] [NeZero nz] in
theorem sum_moved {got : Index nx ny nz → List (Particle (Vec3 K))} {bin : Particle (Vec3 K) → Index nx ny nz}
    (fluid : Multiset (Particle (Vec3 K))) (h : ∑ c, (got c : Multiset (Particle (Vec3 K))) = fluid) :
    ∑ c, ((got c).map (moved bin prm k fluid) : Multiset (Particle (Vec3 K))) = frame bin prm k fluid := by
  have hsum := map_sum (Multiset.mapAddMonoidHom (moved bin prm k fluid))
    (fun c => (got c : Multiset (Particle (Vec3 K)))) Finset.univ
  rw [h] at hsum
  exact hsum.symm

omit [NeZero G] [Field K] [LinearOrder K] in
/-- After the grid has been rebuilt. -/
theorem Frame.rebuilt {r : Rebuild G} (hf : Frame (cellOf coord) (r.mode gs) s s') (h : Has s lists before)
    (hroomy : Roomy (cellOf coord : Particle (Vec3 K) → Index nx ny nz) (∑ c, (before c : Multiset _))) :
    ∃ lists' got, Rebuilt (cellOf coord) s' lists' got ∧
      ∑ c, (got c : Multiset (Particle (Vec3 K))) = ∑ c, (before c : Multiset _) := by
  obtain ⟨lists', got, hsettled, hfilled, hbin, hsame⟩ := hf.settled h.settled h.filled
  refine ⟨lists', got, ⟨hsettled.has hfilled, hbin, fun c => ?_⟩, hsame⟩
  refine le_trans ?_ (hroomy c)
  rw [← hsame, ← Multiset.coe_card]
  refine Multiset.card_le_card (Multiset.le_filter.2 ⟨?_, hbin c⟩)
  exact Finset.single_le_sum (f := fun c => (got c : Multiset (Particle (Vec3 K))))
    (fun _ _ => Multiset.zero_le _) (Finset.mem_univ c)

variable [IsStrictOrderedRing K] (hpos : 0 < k.hSq) (hx : 2 ≤ nx) (hy : 2 ≤ ny) (hz : 2 ≤ nz)
include hpos hx hy hz

omit [NeZero G] in
/-- A frame of either version is a frame of the fluid. -/
theorem AdvanceFrame.refines {r : Rebuild G} (hf : AdvanceFrame coord prm L k gs r s s') (h : Has s lists before)
    (hroomy : Roomy (cellOf coord : Particle (Vec3 K) → Index nx ny nz) (∑ c, (before c : Multiset _)))
    (hspared : r = .parallel → LeftOutSpared (cellOf coord : Particle (Vec3 K) → Index nx ny nz) prm k
      (∑ c, (before c : Multiset _))) : ∃ lists' after, Has s' lists' after ∧
      ∑ c, (after c : Multiset (Particle (Vec3 K))) =
        frame (cellOf coord : Particle (Vec3 K) → Index nx ny nz) prm k (∑ c, (before c : Multiset _)) := by
  obtain ⟨s₁, f, hrebuild, hpasses⟩ := hf
  obtain ⟨lists', got, hgot, hsame⟩ := hrebuild.rebuilt gs h hroomy
  refine ⟨lists', _, ?_, sum_moved prm _ hsame⟩
  rw [← hsame]
  cases r with
  | serial pool =>
    obtain ⟨s₂, hs₂, hhas⟩ := hgot.passes prm L hpos hy f
    obtain rfl := Option.some.inj (hpasses.symm.trans hs₂)
    exact hhas
  | parallel =>
    rw [← hsame] at hspared
    exact (hgot.passesMT prm L hpos hx hy hz (hspared rfl) gs f).2 s' hpasses

omit [NeZero G] in
/-- Once the grid is rebuilt, the passes come to their end. -/
theorem Frame.advances {r : Rebuild G} {s₁ : State (Index nx ny nz) (Fin G) (Particle (Vec3 K))}
    (hf : Frame (cellOf coord) (r.mode gs) s s₁) (h : Has s lists before)
    (hroomy : Roomy (cellOf coord : Particle (Vec3 K) → Index nx ny nz) (∑ c, (before c : Multiset _)))
    (hspared : r = .parallel → LeftOutSpared (cellOf coord : Particle (Vec3 K) → Index nx ny nz) prm k
      (∑ c, (before c : Multiset _))) (f : Fields nx ny nz K) : ∃ s', AdvanceFrame coord prm L k gs r s s' := by
  obtain ⟨lists', got, hgot, hsame⟩ := hf.rebuilt gs h hroomy
  cases r with
  | serial pool =>
    obtain ⟨s₂, hs₂, -⟩ := hgot.passes prm L hpos hy f
    exact ⟨s₂, s₁, f, hf, hs₂⟩
  | parallel =>
    rw [← hsame] at hspared
    obtain ⟨s₂, hs₂⟩ := (hgot.passesMT prm L hpos hx hy hz (hspared rfl) gs f).1
    exact ⟨s₂, s₁, f, hf, hs₂⟩

omit [NeZero G] in
theorem Frames.refines {rs : List (Rebuild G)} (hf : Frames coord prm L k gs rs s s') (h : Has s lists before)
    (hsuits : Suits (cellOf coord : Particle (Vec3 K) → Index nx ny nz) prm k rs (∑ c, (before c : Multiset _))) :
    ∃ lists' after, Has s' lists' after ∧ ∑ c, (after c : Multiset (Particle (Vec3 K))) =
      (frame (cellOf coord : Particle (Vec3 K) → Index nx ny nz) prm k)^[rs.length]
        (∑ c, (before c : Multiset _)) := by
  induction rs generalizing s lists before with
  | nil =>
    obtain rfl : s = s' := hf
    exact ⟨lists, before, h, rfl⟩
  | cons r rs ih =>
    obtain ⟨s₁, hframe, hframes⟩ := hf
    obtain ⟨hroomy, hspared, hrest⟩ := hsuits
    obtain ⟨lists₁, after₁, h₁, hsum⟩ := hframe.refines prm L gs hpos hx hy hz h hroomy hspared
    rw [← hsum] at hrest
    obtain ⟨lists', after, h', hafter⟩ := ih hframes h₁ hrest
    refine ⟨lists', after, h', ?_⟩
    rw [hafter, hsum, List.length_cons, Function.iterate_succ_apply]

/-- CORRECT: in exact arithmetic, with at least two cells in each direction, from any file that is loaded and for any
    number of frames, the serial version and the threads have the particles of the fluid, as long as no cell has more
    particles than a structure has room for and no wall pushes a particle of a cell that the threads leave out. -/
theorem frames_refine_fluid {slot : Addr (Index nx ny nz) → ℕ → Particle (Vec3 K)} {cnumPars2 : Index nx ny nz → ℕ}
    {last : Index nx ny nz → Addr (Index nx ny nz)} {particles : List (Particle (Vec3 K))}
    (hs : initSim (cellOf coord) slot cnumPars2 last particles = some s) {rs : List (Rebuild G)}
    (hf : Frames coord prm L k gs rs s s')
    (hsuits : Suits (cellOf coord : Particle (Vec3 K) → Index nx ny nz) prm k rs particles) :
    ∃ after : Index nx ny nz → List (Particle (Vec3 K)), (∀ c, s'.particles c = some (after c)) ∧
      ∑ c, (after c : Multiset (Particle (Vec3 K))) =
        (frame (cellOf coord : Particle (Vec3 K) → Index nx ny nz) prm k)^[rs.length] particles := by
  obtain ⟨lists, got, hloaded⟩ := loaded_of_initSim hs
  rw [← hloaded.same] at hsuits ⊢
  obtain ⟨lists', after, h', hsum⟩ := hf.refines prm L gs hpos hx hy hz (hloaded.settled.has hloaded.filled) hsuits
  exact ⟨after, h'.particles, hsum⟩

end Runs

/-- The coordinates of cells that halve the box. -/
def halfBox (p : Vec3 ℚ) : ℤ × ℤ × ℤ :=
  (((p .z + 65 / 1000) / (65 / 1000)).floor, ((p .y + 80 / 1000) / (90 / 1000)).floor,
    ((p .x + 65 / 1000) / (65 / 1000)).floor)

def still (y : ℚ) : Particle (Vec3 ℚ) := ⟨fun i => if i = .y then y else 0, 0, 0⟩

/-- Two particles close to each other. -/
def twoStill : Option (State (Index 2 2 2) (Fin (2 * 1)) (Particle (Vec3 ℚ))) :=
  initSim (cellOf halfBox) (fun _ _ => still 0) (fun _ => 0) (.head true) [still 0, still (1 / 1000)]

theorem isSome_twoStill : twoStill.isSome = true := by decide +kernel

/-- Thread 0 has nothing to read and is done first. -/
def twoRebuilt : Option (State (Index 2 2 2) (Fin (2 * 1)) (Particle (Vec3 ℚ))) :=
  exec (step (cellOf halfBox) (Rebuild.parallel.mode twoByTwo))
    (beginFrame (Rebuild.parallel.mode twoByTwo) (twoByTwo.inOrder [0, 1]) (twoStill.get isSome_twoStill))
    (List.replicate 8 0 ++ List.replicate 18 1)

theorem isSome_twoRebuilt : twoRebuilt.isSome = true := by decide +kernel

theorem frames_refine_fluid_two : ∃ s s', twoStill = some s ∧
    Frames halfBox constants poolsBehind someKernel twoByTwo [.parallel] s s' ∧
    ∃ after : Index 2 2 2 → List (Particle (Vec3 ℚ)), (∀ c, s'.particles c = some (after c)) ∧
      ∑ c, (after c : Multiset (Particle (Vec3 ℚ))) =
        (frame (cellOf halfBox : Particle (Vec3 ℚ) → Index 2 2 2) constants someKernel)^[1]
          ([still 0, still (1 / 1000)] : List (Particle (Vec3 ℚ))) := by
  have hs : twoStill = some (twoStill.get isSome_twoStill) := (Option.some_get _).symm
  have hpos : 0 < someKernel.hSq := by decide +kernel
  have hroomy : Roomy (cellOf halfBox : Particle (Vec3 ℚ) → Index 2 2 2)
      (([still 0, still (1 / 1000)] : List (Particle (Vec3 ℚ))) : Multiset (Particle (Vec3 ℚ))) := fun c =>
    (Multiset.card_le_card (Multiset.filter_le _ _)).trans (by decide)
  have hspared : LeftOutSpared (cellOf halfBox : Particle (Vec3 ℚ) → Index 2 2 2) constants someKernel
      (([still 0, still (1 / 1000)] : List (Particle (Vec3 ℚ))) : Multiset (Particle (Vec3 ℚ))) := by
    have hall : ∀ c : Index 2 2 2, onDomainWall c = true := by decide
    intro x _ hc
    exact absurd (hall _) (Bool.eq_false_iff.1 hc)
  obtain ⟨lists, got, hloaded⟩ := loaded_of_initSim hs
  have hframe : Frame (cellOf halfBox) (Rebuild.parallel.mode twoByTwo) (twoStill.get isSome_twoStill)
      (twoRebuilt.get isSome_twoRebuilt) :=
    ⟨twoByTwo.inOrder [0, 1], _, by decide, (Option.some_get _).symm, by decide +kernel⟩
  rw [← hloaded.same] at hroomy hspared
  obtain ⟨s', hs'⟩ := hframe.advances constants poolsBehind twoByTwo hpos le_rfl le_rfl le_rfl
    (hloaded.settled.has hloaded.filled) hroomy (fun _ => hspared) ⟨0, 0⟩
  have hframes : Frames halfBox constants poolsBehind someKernel twoByTwo [.parallel]
      (twoStill.get isSome_twoStill) s' := ⟨s', hs', rfl⟩
  rw [hloaded.same] at hroomy hspared
  exact ⟨_, s', hs, hframes, frames_refine_fluid constants poolsBehind twoByTwo hpos le_rfl le_rfl le_rfl hs hframes
    ⟨hroomy, fun _ => hspared, trivial⟩⟩

end Turkey.Fluid
