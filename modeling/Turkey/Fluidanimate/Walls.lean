import Mathlib.Algebra.Group.Action.Pi
import Mathlib.Algebra.Order.Field.Basic
import Turkey.Fluidanimate.Grids
import Turkey.Fluidanimate.Sweeps

/-! The passes that keep the particles in the box: `ProcessCollisions`, which pushes a particle that comes near a
    wall, and `ProcessCollisions2`, which puts one that is beyond a wall back. The serial version sweeps the six
    walls one after another; the threaded one goes once through the cells of each grid and does for a particle
    all the walls that its cell is on. Numbers are exact. -/

namespace Turkey.Fluid

inductive Axis where
  | x | y | z
  deriving DecidableEq

/-- A vector, by its components. -/
abbrev Vec3 (K : Type*) := Axis → K

/-- What a slot of a `Cell` has for these passes. -/
structure Body (K : Type*) where
  p : Vec3 K
  hv : Vec3 K
  v : Vec3 K
  a : Vec3 K

/-- The constants of the program, with the time step and the corners of the box. -/
structure Params (K : Type*) where
  domainMin : Vec3 K
  domainMax : Vec3 K
  timeStep : K
  parSize : K
  epsilon : K
  stiffnessCollisions : K
  damping : K

structure Wall where
  axis : Axis
  max : Bool
  deriving DecidableEq

/-- The walls, in the order of the loops. -/
def walls : List Wall := [⟨.x, false⟩, ⟨.x, true⟩, ⟨.y, false⟩, ⟨.y, true⟩, ⟨.z, false⟩, ⟨.z, true⟩]

section Cells
variable {nx ny nz : ℕ}

def Axis.coord : Axis → Index nx ny nz → ℕ
  | .x, c => c.2.2
  | .y, c => c.2.1
  | .z, c => c.1

def Axis.size (nx ny nz : ℕ) : Axis → ℕ
  | .x => nx
  | .y => ny
  | .z => nz

/-- `0`, or `n-1` -/
def Wall.place (w : Wall) (n : ℕ) : ℕ := if w.max then n - 1 else 0

/-- The cell is along this wall. -/
def Wall.has (w : Wall) (c : Index nx ny nz) : Bool := w.axis.coord c == w.place (w.axis.size nx ny nz)

/-- The one coordinate that the cells along a wall have. -/
def Wall.fixed (w : Wall) (n : ℕ) : List (Fin n) := (List.finRange n).filter fun i => i.val == w.place n

/-- The cells along a wall, in the order of the loops. -/
def Wall.cells (w : Wall) : List (Index nx ny nz) :=
  match w.axis with
  | .x => (List.finRange ny ×ˢ List.finRange nz ×ˢ w.fixed nx).map fun (y, z, x) => (z, y, x)
  | .y => (w.fixed ny ×ˢ List.finRange nx ×ˢ List.finRange nz).map fun (y, x, z) => (z, y, x)
  | .z => (w.fixed nz ×ˢ List.finRange nx ×ˢ List.finRange ny).map fun (z, x, y) => (z, y, x)

theorem Wall.mem_fixed {w : Wall} {n : ℕ} {i : Fin n} : i ∈ w.fixed n ↔ i.val = w.place n := by
  rw [fixed, List.mem_filter, beq_iff_eq]
  exact and_iff_right (List.mem_finRange i)

theorem Wall.mem_cells {w : Wall} {c : Index nx ny nz} : c ∈ w.cells ↔ w.has c = true := by
  obtain ⟨z, y, x⟩ := c
  obtain ⟨axis, max⟩ := w
  cases axis <;> simp [cells, has, Axis.coord, Axis.size, List.mem_product, mem_fixed]

theorem Wall.nodup_cells (w : Wall) : (w.cells : List (Index nx ny nz)).Nodup := by
  obtain ⟨axis, max⟩ := w
  have hfixed : ∀ (w : Wall) n, (w.fixed n).Nodup := fun w n => (List.nodup_finRange n).filter _
  cases axis
  · refine List.Nodup.map ?_ ((List.nodup_finRange ny).product ((List.nodup_finRange nz).product (hfixed _ nx)))
    rintro ⟨y, z, x⟩ ⟨y', z', x'⟩ h
    simp_all
  · refine List.Nodup.map ?_ ((hfixed _ ny).product ((List.nodup_finRange nx).product (List.nodup_finRange nz)))
    rintro ⟨y, x, z⟩ ⟨y', x', z'⟩ h
    simp_all
  · refine List.Nodup.map ?_ ((hfixed _ nz).product ((List.nodup_finRange nx).product (List.nodup_finRange ny)))
    rintro ⟨z, x, y⟩ ⟨z', x', y'⟩ h
    simp_all

end Cells

/-! ### The passes -/

section Passes
variable {K : Type*} [Field K] [LinearOrder K] {nx ny nz : ℕ} {T : Type*} (prm : Params K)

/-- Where the particle will be. -/
def Body.predict (x : Body K) : Vec3 K := x.p + prm.timeStep • x.hv

/-- A particle that will be at `pos` is pushed away from a wall that it comes near to. -/
def push (w : Wall) (pos : Vec3 K) (x : Body K) : Body K :=
  let i := w.axis
  if w.max then
    let diff := prm.parSize - (prm.domainMax i - pos i)
    if diff > prm.epsilon then
      { x with a := Function.update x.a i (x.a i - (prm.stiffnessCollisions * diff + prm.damping * x.v i)) }
    else x
  else
    let diff := prm.parSize - (pos i - prm.domainMin i)
    if diff > prm.epsilon then
      { x with a := Function.update x.a i (x.a i + (prm.stiffnessCollisions * diff - prm.damping * x.v i)) }
    else x

/-- How far the position is inside of a wall. -/
def inside (w : Wall) (pos : Vec3 K) : K :=
  if w.max then prm.domainMax w.axis - pos w.axis else pos w.axis - prm.domainMin w.axis

/-- A particle at `pos` that is beyond a wall is reflected. -/
def reflect (w : Wall) (pos : Vec3 K) (x : Body K) : Body K :=
  let i := w.axis
  let diff := inside prm w pos
  if diff < 0 then
    { x with
      p := Function.update x.p i (if w.max then prm.domainMax i + diff else prm.domainMin i - diff)
      v := Function.update x.v i (-x.v i)
      hv := Function.update x.hv i (-x.hv i) }
  else x

variable (s : State (Index nx ny nz) T (Body K))

/-- `ProcessCollisions` of the serial version. -/
def processCollisions : Option (State (Index nx ny nz) T (Body K)) :=
  (walls.foldlM (fun slot w => cellLoops s (fun _ x => push prm w (x.predict prm) x) (fun _ _ => true) w.cells slot)
    s.mem.slot).map s.advance

/-- The test of `ProcessCollisionsMT` for a cell on the domain wall. -/
def onDomainWall (c : Index nx ny nz) : Bool :=
  let (iz, iy, ix) := c
  ix.val == 0 || iy.val == 0 || iz.val == 0 || ix.val == nx - 1 || (iy.val == ny - 1) == (iz.val == nz - 1)

/-- All the walls of a cell for a particle that will be at `pos`. -/
def pushAll (c : Index nx ny nz) (pos : Vec3 K) (x : Body K) : Body K :=
  walls.foldl (fun x w => if w.has c then push prm w pos x else x) x

/-- `ProcessCollisionsMT` -/
def processCollisionsMT (gs : Grids nx ny nz T) (t : T) (slot : Addr (Index nx ny nz) → ℕ → Body K) :
    Option (Addr (Index nx ny nz) → ℕ → Body K) :=
  cellLoops s (fun c x => pushAll prm c (x.predict prm) x) (fun _ _ => true)
    ((gs.grid t).cells.filter fun c => onDomainWall c) slot

/-- `ProcessCollisions2` of the serial version. In the loop along the `domainMax.y` wall the pointer goes on
    only if the 16th particle is beyond the wall. -/
def processCollisions2 : Option (State (Index nx ny nz) T (Body K)) :=
  (walls.foldlM (fun slot w => cellLoops s (fun _ x => reflect prm w x.p x)
    (fun _ x => if w = ⟨.y, true⟩ then decide (inside prm w x.p < 0)
      else true) w.cells slot) s.mem.slot).map s.advance

def reflectAll (c : Index nx ny nz) (pos : Vec3 K) (x : Body K) : Body K :=
  walls.foldl (fun x w => if w.has c then reflect prm w pos x else x) x

/-- `ProcessCollisions2MT` -/
def processCollisions2MT (gs : Grids nx ny nz T) (t : T) (slot : Addr (Index nx ny nz) → ℕ → Body K) :
    Option (Addr (Index nx ny nz) → ℕ → Body K) :=
  cellLoops s (fun c x => reflectAll prm c x.p x) (fun _ _ => true) (gs.grid t).cells slot

/-- A pass of all threads, one after another in this order. -/
def inOrder (pass : T → (Addr (Index nx ny nz) → ℕ → Body K) → Option (Addr (Index nx ny nz) → ℕ → Body K))
    (order : List T) : Option (State (Index nx ny nz) T (Body K)) :=
  (order.foldlM (fun slot t => pass t slot) s.mem.slot).map s.advance

end Passes

/-! ### The particles after a pass -/

section Particles
variable {nx ny nz : ℕ} {T P : Type*} {s : State (Index nx ny nz) T P}
  {lists : Place (Index nx ny nz) T → List (Addr (Index nx ny nz))}

/-- The walls one after another. -/
theorem Filled.walls (hs : Settled s lists) (body : Wall → P → P) (goesOn : Wall → P → Bool)
    (hset : ∀ w, Settles (body w) (goesOn w)) : ∀ (ws : List Wall) {slot : Addr (Index nx ny nz) → ℕ → P}
    {got : Index nx ny nz → List P}, Filled (s.advance slot) lists got →
    ∃ slot', ws.foldlM (fun slot w => Fluid.cellLoops s (fun _ => body w) (fun _ => goesOn w) w.cells slot) slot =
        some slot' ∧ Filled (s.advance slot') lists fun c =>
          ws.foldl (fun ps w => if w.has c = true then visit (body w) (goesOn w) ps else ps) (got c)
  | [], slot, got, hf => ⟨slot, rfl, hf⟩
  | w :: ws, slot, got, hf => by
    obtain ⟨slot₁, hloops, hf₁⟩ := Filled.cellLoops hs (fun _ => body w) (fun _ => hset w) w.cells w.nodup_cells hf
    obtain ⟨slot₂, hwalls, hf₂⟩ := Filled.walls hs body goesOn hset ws hf₁
    refine ⟨slot₂, ?_, ?_⟩
    · rw [List.foldlM_cons, hloops]
      exact hwalls
    · simpa only [List.foldl_cons, Wall.mem_cells] using hf₂

/-- The threads one after another; `keep` are the cells that they do not leave out. -/
theorem Filled.threads (hs : Settled s lists) (gs : Grids nx ny nz T) (body : Index nx ny nz → P → P)
    (keep : Index nx ny nz → Bool) : ∀ (order : List T) {slot : Addr (Index nx ny nz) → ℕ → P}
    {got : Index nx ny nz → List P}, order.Nodup → Filled (s.advance slot) lists got →
    ∃ slot', order.foldlM (fun slot t =>
        Fluid.cellLoops s body (fun _ _ => true) ((gs.grid t).cells.filter fun c => keep c) slot) slot = some slot' ∧
      Filled (s.advance slot') lists fun c =>
        if keep c = true ∧ ∃ t ∈ order, c ∈ (gs.grid t).cells then (got c).map (body c) else got c
  | [], slot, got, _, hf => ⟨slot, rfl, by simpa using hf⟩
  | t :: order, slot, got, hnd, hf => by
    rw [List.nodup_cons] at hnd
    obtain ⟨slot₁, hloops, hf₁⟩ := Filled.cellLoops hs body (fun c => .inl fun _ => rfl) _
      ((gs.grid t).nodup_cells.filter fun c => keep c) hf
    obtain ⟨slot₂, hthreads, hf₂⟩ := Filled.threads hs gs body keep order hnd.2 hf₁
    refine ⟨slot₂, ?_, ?_⟩
    · rw [List.foldlM_cons, hloops]
      exact hthreads
    · convert hf₂ using 2 with c
      simp only [visit_map fun _ => rfl, List.mem_filter, List.exists_mem_cons_iff]
      by_cases hc : c ∈ (gs.grid t).cells
      · -- no other grid has the cell
        have hother : ¬∃ t' ∈ order, c ∈ (gs.grid t').cells := by
          rintro ⟨t', ht', hc'⟩
          rw [gs.only c t' t hc' hc] at ht'
          exact hnd.1 ht'
        simp [hc, hother]
      · simp [hc]

end Particles

end Turkey.Fluid
