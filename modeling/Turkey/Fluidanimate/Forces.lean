import Turkey.Fluidanimate.PairCounts
import Turkey.Schemes.ParallelFor

/-! The whole of `ComputeForces`, and the four passes that the threads have for it.

    The densities and the accelerations are set to their first values, the density pass adds the terms of the
    pairs, the densities are completed, and the last pass adds to the accelerations: what a pair adds for one
    particle it takes away for the other. In the threaded version a barrier stands behind each pass. Numbers are
    exact, and the square root is that of the library. -/

namespace Turkey.Fluid
open Turkey.Accumulate Turkey.ParallelFor Turkey.Run

/-- The constants of the forces, and the square root. -/
structure Kernel (K : Type*) where
  h : K
  hSq : K
  densityCoeff : K
  pressureCoeff : K
  viscosityCoeff : K
  doubleRestDensity : K
  externalAcceleration : Vec3 K
  sqrt : K → K

/-- The arrays `density` and `a` of all structures. -/
structure Fields (nx ny nz : ℕ) (K : Type*) where
  density : Slot nx ny nz → K
  a : Slot nx ny nz → Vec3 K

def Body.particle {K : Type*} (x : Body K) : Particle (Vec3 K) := ⟨x.p, x.hv, x.v⟩

section Model
variable {nx ny nz : ℕ} {T K : Type*} [Field K] [LinearOrder K]

/-- What a particle is accelerated by another one; the last two arguments are the densities. -/
def pull (k : Kernel K) (cell neigh : Particle (Vec3 K)) (density density' : K) : Vec3 K :=
  let disp := cell.p - neigh.p
  let distSq := getLengthSq disp
  let dist := k.sqrt (max distSq (1 / (1000000000000 : ℕ)))
  let hmr := k.h - dist
  let acc := (density + density' - k.doubleRestDensity) • (hmr * hmr / dist) • k.pressureCoeff • disp
  let acc := acc + hmr • k.viscosityCoeff • (neigh.v - cell.v)
  (1 / (density * density')) • acc

variable (L : Layout nx ny nz) (k : Kernel K) (s : State (Index nx ny nz) T (Body K))

/-- The particles of these cells, as the loops come to them. -/
def State.visits {K : Type*} (s : State (Index nx ny nz) T (Body K)) (cells : List (Index nx ny nz)) :
    Option (List (Seen nx ny nz)) := (cells.mapM s.seen).map List.flatten

/-- The first loop of `ComputeForces`, and `InitDensitiesAndForcesMT`. -/
def initDensitiesAndForces (cells : List (Index nx ny nz)) (f : Fields nx ny nz K) : Option (Fields nx ny nz K) :=
  (s.visits cells).map fun l => ⟨forEach Seen.slot (fun _ _ => 0) l f.density,
    forEach Seen.slot (fun _ _ => k.externalAcceleration) l f.a⟩

/-- The third loop of `ComputeForces`, and `ComputeDensities2MT`. -/
def computeDensities2 (cells : List (Index nx ny nz)) (density : Slot nx ny nz → K) : Option (Slot nx ny nz → K) :=
  let tc := k.hSq * k.hSq * k.hSq
  (s.visits cells).map fun l => forEach Seen.slot (fun _ d => (d + tc) * k.densityCoeff) l density

/-- `acc` of a pair -/
def pairAcc (density : Slot nx ny nz → K) (x y : Slot nx ny nz) : Vec3 K :=
  pull k (s.mem.slot x.1 x.2).particle (s.mem.slot y.1 y.2).particle (density x) (density y)

/-- The addition and the subtraction of a pair. An acceleration of a border cell has a mutex. -/
def forceAdditions (density : Slot nx ny nz → K) (border : Index nx ny nz → Bool) (p : Seen nx ny nz × Seen nx ny nz) :
    List (Addition (Slot nx ny nz) (Index nx ny nz × ℕ) (Vec3 K)) :=
  let acc := pairAcc k s density p.1.slot p.2.slot
  let mutex (x : Seen nx ny nz) := if border x.cell then some (x.cell, x.par % 128) else none
  [⟨p.1.slot, mutex p.1, acc⟩, ⟨p.2.slot, mutex p.2, -acc⟩]

/-- `ComputeForces` -/
def computeForces (f : Fields nx ny nz K) : Option (Fields nx ny nz K) :=
  (initDensitiesAndForces k s allCells f).bind fun f =>
  (cellsPairs L k.hSq s allCells).bind fun ps =>
  (computeDensities2 k s allCells
    (addAll (ps.flatMap (pairAdditions k.hSq s fun _ => false)) f.density)).bind fun density =>
  (cellsPairs L k.hSq s allCells).map fun ps =>
    ⟨density, addAll (ps.flatMap (forceAdditions k s density fun _ => false)) f.a⟩

variable [NeZero nx] [NeZero ny] [NeZero nz] [Fintype T]

/-- What a thread adds in `ComputeForcesMT`. -/
def threadForces (gs : Grids nx ny nz T) (density : Slot nx ny nz → K) (t : T) :
    Option (List (Addition (Slot nx ny nz) (Index nx ny nz × ℕ) (Vec3 K))) :=
  (cellsPairs L k.hSq s (gs.grid t).cells).map (List.flatMap (forceAdditions k s density gs.border))

/-- The cells of the threads, for the threads in this order. -/
def Grids.inOrder (gs : Grids nx ny nz T) (order : List T) : List (Index nx ny nz) :=
  order.flatMap fun t => (gs.grid t).cells

variable [DecidableEq T]

/-- Every thread has its turn. -/
def Turns (order : List T) : Prop := order.Nodup ∧ ∀ t, t ∈ order

/-- The threads can make their additions to the entries `mem` so that, when all are done, the entries are `mem'`. -/
def Ends {κ μ M : Type*} [DecidableEq κ] [DecidableEq μ] [AddCommMonoid M] (prog : T → List (Addition κ μ M))
    (mem mem' : κ → M) : Prop :=
  ∃ ts m, exec Accumulate.step (Accumulate.start prog mem) ts = some m ∧ (∀ t, m.pc t = .idle []) ∧ m.mem = mem'

/-- A run of the passes `InitDensitiesAndForcesMT`, `ComputeDensitiesMT`, `ComputeDensities2MT` and `ComputeForcesMT`
    of all threads. In the first and the third a thread reads and writes its own cells only, so each is a row of turns
    of whole threads, in any order; in the other two the additions happen in any interleaving until all threads are
    done. -/
def ForcesMT (gs : Grids nx ny nz T) (f result : Fields nx ny nz K) : Prop :=
  ∃ order f₁, Turns order ∧ initDensitiesAndForces k s (gs.inOrder order) f = some f₁ ∧
  ∃ prog m, (∀ t, threadAdditions L k.hSq s gs t = some (prog t)) ∧ Ends prog f₁.density m ∧
  ∃ order, Turns order ∧ computeDensities2 k s (gs.inOrder order) m = some result.density ∧
  ∃ prog, (∀ t, threadForces L k s gs result.density t = some (prog t)) ∧ Ends prog f₁.a result.a

end Model

/-! ### The threads and the serial version -/

section Passes
variable {T κ μ M : Type*} [Fintype T] [DecidableEq T] [DecidableEq κ] [DecidableEq μ] [AddCommMonoid M]
  {prog : T → List (Addition κ μ M)} {mem mem' : κ → M}

theorem Ends.eq (h : Ends prog mem mem') (hd : Disciplined prog) : mem' = fun k => mem k + ∑ t, total (prog t) k := by
  obtain ⟨ts, m, hrun, hdone, rfl⟩ := h
  funext k
  exact exec_total hd hrun hdone k

theorem exists_ends (hd : Disciplined prog) (mem : κ → M) : ∃ mem', Ends prog mem mem' := by
  have hstart : Accumulate.Inv prog mem (Accumulate.start prog mem) := start_inv
  obtain ⟨ts, m, hrun, hdone⟩ := hstart.exists_run hd
  exact ⟨m.mem, ts, m, hrun, hdone, rfl⟩

/-- A loop that does the same for every place. -/
theorem forEach_eq {α κ β : Type*} [DecidableEq κ] {key : α → κ} {l : List α} (nodup : (l.map key).Nodup) (g : β → β)
    (w : κ → β) : forEach key (fun _ => g) l w = fun k => if k ∈ l.map key then g (w k) else w k := by
  funext k
  split_ifs with h
  · obtain ⟨a, ha, rfl⟩ := List.mem_map.1 h
    exact forEach_of_mem nodup ha
  · exact forEach_of_notMem h

end Passes

section Serial
variable {nx ny nz : ℕ} {T K : Type*} [Field K] [LinearOrder K] {s : State (Index nx ny nz) T (Body K)}
  {lists : Place (Index nx ny nz) T → List (Addr (Index nx ny nz))} (L : Layout nx ny nz) (k : Kernel K)

omit [Field K] [LinearOrder K] in
theorem Settled.visits (hs : Settled s lists) (cells : List (Index nx ny nz)) :
    s.visits cells = some (cells.flatMap (seenOf lists s)) := by
  rw [State.visits, mapM_eq_some cells fun c _ => hs.seen c]
  rfl

/-- The slots of all particles. -/
def State.slots {K : Type*} (s : State (Index nx ny nz) T (Body K))
    (lists : Place (Index nx ny nz) T → List (Addr (Index nx ny nz))) (x : Slot nx ny nz) : Prop :=
  ∃ X, s.Valid X ∧ slotOf lists s X = x

/-- Cells without repetition, and all of them. -/
def AllOnce (cells : List (Index nx ny nz)) : Prop := cells.Nodup ∧ ∀ c, c ∈ cells

theorem allOnce_allCells : AllOnce (allCells : List (Index nx ny nz)) :=
  ⟨(List.nodup_finRange _).product ((List.nodup_finRange _).product (List.nodup_finRange _)), mem_allCells⟩

variable {cells : List (Index nx ny nz)}

omit [Field K] [LinearOrder K] in
theorem mem_slots (hall : AllOnce cells) {x : Slot nx ny nz} :
    x ∈ (cells.flatMap (seenOf lists s)).map Seen.slot ↔ s.slots lists x := by
  rw [List.mem_map]
  constructor
  · rintro ⟨y, hy, rfl⟩
    obtain ⟨c, -, hy⟩ := List.mem_flatMap.1 hy
    obtain ⟨rfl, hval, hslot⟩ := mem_seenOf.1 hy
    exact ⟨y.key, hval, hslot.symm⟩
  · rintro ⟨X, hX, rfl⟩
    exact ⟨⟨X.1, X.2, slotOf lists s X⟩, List.mem_flatMap.2 ⟨X.1, hall.2 X.1, mem_seenOf.2 ⟨rfl, hX, rfl⟩⟩, rfl⟩

omit [Field K] [LinearOrder K] in
theorem nodup_slots (hs : Settled s lists) (hall : AllOnce cells) :
    ((cells.flatMap (seenOf lists s)).map Seen.slot).Nodup := by
  have hnd : (cells.flatMap (seenOf lists s)).Nodup := by
    refine List.nodup_flatMap.2 ⟨fun c _ => nodup_seenOf c, hall.1.imp fun {c d} hne x hx hx' => hne ?_⟩
    rw [← (mem_seenOf.1 hx).1, (mem_seenOf.1 hx').1]
  refine hnd.map_on fun x hx y hy h => ?_
  obtain ⟨c, -, hx⟩ := List.mem_flatMap.1 hx
  obtain ⟨d, -, hy⟩ := List.mem_flatMap.1 hy
  refine eq_of_key hx hy ?_
  obtain ⟨rfl, hxn, hxs⟩ := mem_seenOf.1 hx
  obtain ⟨rfl, hyn, hys⟩ := mem_seenOf.1 hy
  exact hs.slotOf_inj hxn hyn (hxs.symm.trans (h.trans hys))

omit [Field K] [LinearOrder K] in
open Classical in
/-- What the loops over all particles have in common: they do not depend on the order of the cells. -/
theorem forEach_visits {β : Type*} (hs : Settled s lists) (hall : AllOnce cells) (g : β → β) (w : Slot nx ny nz → β) :
    forEach Seen.slot (fun _ => g) (cells.flatMap (seenOf lists s)) w =
      fun x => if s.slots lists x then g (w x) else w x := by
  rw [forEach_eq (nodup_slots hs hall)]
  funext x
  by_cases hx : s.slots lists x
  · rw [if_pos ((mem_slots hall).2 hx), if_pos hx]
  · rw [if_neg fun h => hx ((mem_slots hall).1 h), if_neg hx]

open Classical in
/-- The arrays after the first loop. -/
noncomputable def Fields.init (s : State (Index nx ny nz) T (Body K))
    (lists : Place (Index nx ny nz) T → List (Addr (Index nx ny nz))) (f : Fields nx ny nz K) : Fields nx ny nz K where
  density x := if s.slots lists x then 0 else f.density x
  a x := if s.slots lists x then k.externalAcceleration else f.a x

omit [LinearOrder K] in
theorem initDensitiesAndForces_eq (hs : Settled s lists) (hall : AllOnce cells) (f : Fields nx ny nz K) :
    initDensitiesAndForces k s cells f = some (f.init k s lists) := by
  rw [initDensitiesAndForces, hs.visits, Option.map_some, forEach_visits hs hall fun _ => (0 : K),
    forEach_visits hs hall fun _ => k.externalAcceleration]
  rfl

open Classical in
/-- The densities after the third loop, from those after the second. -/
noncomputable def completed (s : State (Index nx ny nz) T (Body K))
    (lists : Place (Index nx ny nz) T → List (Addr (Index nx ny nz))) (density : Slot nx ny nz → K)
    (x : Slot nx ny nz) : K :=
  if s.slots lists x then (density x + k.hSq * k.hSq * k.hSq) * k.densityCoeff else density x

omit [LinearOrder K] in
theorem computeDensities2_eq (hs : Settled s lists) (hall : AllOnce cells) (density : Slot nx ny nz → K) :
    computeDensities2 k s cells density = some (completed k s lists density) := by
  rw [computeDensities2, hs.visits, Option.map_some,
    forEach_visits hs hall fun d => (d + k.hSq * k.hSq * k.hSq) * k.densityCoeff]
  rfl

/-- What the pairs of all cells add to an entry. -/
def allAdded {M : Type*} [AddCommMonoid M] (s : State (Index nx ny nz) T (Body K))
    (lists : Place (Index nx ny nz) T → List (Addr (Index nx ny nz)))
    (adds : Seen nx ny nz × Seen nx ny nz → List (Addition (Slot nx ny nz) (Index nx ny nz × ℕ) M))
    (x : Slot nx ny nz) : M :=
  ∑ c, total ((pairsOf L k.hSq s lists c).flatMap adds) x

/-- The densities after the second loop. -/
noncomputable def summed (s : State (Index nx ny nz) T (Body K))
    (lists : Place (Index nx ny nz) T → List (Addr (Index nx ny nz))) (f : Fields nx ny nz K) (x : Slot nx ny nz) : K :=
  (f.init k s lists).density x + allAdded L k s lists (pairAdditions k.hSq s fun _ => false) x

/-- The arrays at the end. -/
noncomputable def Fields.final (s : State (Index nx ny nz) T (Body K))
    (lists : Place (Index nx ny nz) T → List (Addr (Index nx ny nz))) (f : Fields nx ny nz K) : Fields nx ny nz K where
  density := completed k s lists (summed L k s lists f)
  a x := (f.init k s lists).a x +
    allAdded L k s lists (forceAdditions k s (completed k s lists (summed L k s lists f)) fun _ => false) x

theorem addAll_allCells {M : Type*} [AddCommMonoid M] (mem : Slot nx ny nz → M)
    (adds : Seen nx ny nz × Seen nx ny nz → List (Addition (Slot nx ny nz) (Index nx ny nz × ℕ) M)) :
    addAll ((allCells.flatMap (pairsOf L k.hSq s lists)).flatMap adds) mem =
      fun x => mem x + allAdded L k s lists adds x := by
  funext x
  rw [addAll_apply, List.flatMap_assoc, total_flatMap, sum_allCells]
  rfl

theorem computeForces_eq (hs : Settled s lists) (f : Fields nx ny nz K) :
    computeForces L k s f = some (f.final L k s lists) := by
  rw [computeForces, initDensitiesAndForces_eq k hs allOnce_allCells, Option.bind_some, cellsPairs_eq L k.hSq hs,
    Option.bind_some, addAll_allCells L k, computeDensities2_eq k hs allOnce_allCells, Option.bind_some,
    Option.map_some, addAll_allCells L k]
  rfl

end Serial

section Threads
variable {nx ny nz : ℕ} [NeZero nx] [NeZero ny] [NeZero nz] {T K : Type*} [Fintype T] [DecidableEq T] [Field K]
  [LinearOrder K] {s : State (Index nx ny nz) T (Body K)}
  {lists : Place (Index nx ny nz) T → List (Addr (Index nx ny nz))} (L : Layout nx ny nz) (k : Kernel K)

omit [NeZero nx] [NeZero ny] [NeZero nz] [Fintype T] [DecidableEq T] in
theorem allOnce_inOrder (gs : Grids nx ny nz T) {order : List T} (h : Turns order) : AllOnce (gs.inOrder order) := by
  refine ⟨List.nodup_flatMap.2 ⟨fun t _ => (gs.grid t).nodup_cells, h.1.imp fun {t u} hne c hc hc' => ?_⟩, fun c => ?_⟩
  · exact hne (gs.only c t u hc hc')
  · obtain ⟨t, ht⟩ := gs.all c
    exact List.mem_flatMap.2 ⟨t, h.2 t, ht⟩

/-- The additions of a thread in the last pass. -/
def forceProg (s : State (Index nx ny nz) T (Body K))
    (lists : Place (Index nx ny nz) T → List (Addr (Index nx ny nz))) (gs : Grids nx ny nz T)
    (density : Slot nx ny nz → K) (t : T) : List (Addition (Slot nx ny nz) (Index nx ny nz × ℕ) (Vec3 K)) :=
  ((gs.grid t).cells.flatMap (pairsOf L k.hSq s lists)).flatMap (forceAdditions k s density gs.border)

omit [DecidableEq T] in
theorem threadForces_eq (hs : Settled s lists) (gs : Grids nx ny nz T) (density : Slot nx ny nz → K) (t : T) :
    threadForces L k s gs density t = some (forceProg L k s lists gs density t) := by
  rw [threadForces, cellsPairs_eq L k.hSq hs]
  rfl

omit [DecidableEq T] in
/-- The last pass takes the mutexes that the density pass takes. -/
theorem disciplined_forceProg (hs : Settled s lists) (gs : Grids nx ny nz T) (density : Slot nx ny nz → K) :
    Disciplined (forceProg L k s lists gs density) := by
  have hsame : ∀ t, ∀ x ∈ forceProg L k s lists gs density t, ∃ y ∈ prog L k.hSq s lists gs t,
      y.entry = x.entry ∧ y.mutex = x.mutex := by
    intro t x hx
    obtain ⟨p, hp, hx⟩ := List.mem_flatMap.1 hx
    have hmem : ∀ y ∈ pairAdditions k.hSq s gs.border p, y ∈ prog L k.hSq s lists gs t := fun y hy =>
      List.mem_flatMap.2 ⟨p, hp, hy⟩
    rw [forceAdditions, List.mem_cons, List.mem_singleton] at hx
    rcases hx with rfl | rfl
    · exact ⟨_, hmem _ (List.mem_cons_self ..), rfl, rfl⟩
    · exact ⟨_, hmem _ (List.mem_cons_of_mem _ (List.mem_cons_self ..)), rfl, rfl⟩
  intro t t' hne x hx y hy hentry
  obtain ⟨x', hx', hxe, hxm⟩ := hsame t x hx
  obtain ⟨y', hy', hye, hym⟩ := hsame t' y hy
  rw [← hxm, ← hym]
  exact disciplined_prog L k.hSq hs gs t t' hne x' hx' y' hy' (hxe.trans (hentry.trans hye.symm))

omit [NeZero nx] [NeZero ny] [NeZero nz] [DecidableEq T] in
/-- The threads add the same to an entry as the serial version: the mutexes change nothing in the sum. -/
theorem sum_threads {M : Type*} [AddCommMonoid M] (gs : Grids nx ny nz T)
    {adds adds' : Seen nx ny nz × Seen nx ny nz → List (Addition (Slot nx ny nz) (Index nx ny nz × ℕ) M)}
    (hadds : ∀ p x, total (adds' p) x = total (adds p) x) (x : Slot nx ny nz) :
    ∑ t, total (((gs.grid t).cells.flatMap (pairsOf L k.hSq s lists)).flatMap adds') x =
      allAdded L k s lists adds x := by
  rw [allAdded, ← sum_grids gs]
  refine Finset.sum_congr rfl fun t _ => ?_
  rw [List.flatMap_assoc, total_flatMap]
  congr 1
  refine List.map_congr_left fun c _ => ?_
  rw [total_flatMap, total_flatMap]
  simp only [hadds]

theorem forcesMT_iff (hs : Settled s lists) (gs : Grids nx ny nz T) (f result : Fields nx ny nz K) :
    ForcesMT L k s gs f result ↔ result = f.final L k s lists := by
  have hprog : ∀ t, threadAdditions L k.hSq s gs t = some (prog L k.hSq s lists gs t) :=
    threadAdditions_eq L k.hSq hs gs
  have hforce : ∀ density t, threadForces L k s gs density t = some (forceProg L k s lists gs density t) :=
    threadForces_eq L k hs gs
  have hsum : ∀ x, ∑ t, total (prog L k.hSq s lists gs t) x =
      allAdded L k s lists (pairAdditions k.hSq s fun _ => false) x :=
    sum_threads L k gs fun p x => by simp only [pairAdditions, total_cons]
  have hsum' : ∀ density x, ∑ t, total (forceProg L k s lists gs density t) x =
      allAdded L k s lists (forceAdditions k s density fun _ => false) x := fun density =>
    sum_threads L k gs fun p x => by simp only [forceAdditions, total_cons]
  constructor
  · rintro ⟨order, f₁, horder, hf₁, p, m, hp, hm, order₂, horder₂, hdensity, p', hp', hm'⟩
    obtain rfl : p = prog L k.hSq s lists gs := funext fun t => Option.some.inj ((hp t).symm.trans (hprog t))
    obtain rfl : p' = forceProg L k s lists gs result.density :=
      funext fun t => Option.some.inj ((hp' t).symm.trans (hforce _ t))
    rw [initDensitiesAndForces_eq k hs (allOnce_inOrder gs horder), Option.some.injEq] at hf₁
    rw [computeDensities2_eq k hs (allOnce_inOrder gs horder₂), Option.some.injEq] at hdensity
    have hm₁ := hm.eq (disciplined_prog L k.hSq hs gs)
    have hm₂ := hm'.eq (disciplined_forceProg L k hs gs _)
    simp only [hsum] at hm₁
    simp only [hsum'] at hm₂
    subst hf₁ hm₁
    obtain ⟨density, a⟩ := result
    dsimp only at hdensity hm₂
    subst hdensity hm₂
    rfl
  · rintro rfl
    have hturns : Turns (Finset.univ : Finset T).toList :=
      ⟨Finset.nodup_toList _, fun t => Finset.mem_toList.2 (Finset.mem_univ t)⟩
    obtain ⟨m, hm⟩ := exists_ends (disciplined_prog L k.hSq hs gs) (f.init k s lists).density
    obtain ⟨a, ha⟩ := exists_ends (disciplined_forceProg L k hs gs (f.final L k s lists).density) (f.init k s lists).a
    have hm₁ := hm.eq (disciplined_prog L k.hSq hs gs)
    have ha₁ := ha.eq (disciplined_forceProg L k hs gs _)
    simp only [hsum] at hm₁
    simp only [hsum'] at ha₁
    refine ⟨_, _, hturns, initDensitiesAndForces_eq k hs (allOnce_inOrder gs hturns) f, _, m, hprog, hm, _, hturns, ?_,
      _, hforce _, ?_⟩
    · rw [computeDensities2_eq k hs (allOnce_inOrder gs hturns), hm₁]
      rfl
    · rw [ha₁] at ha
      exact ha

/-- CORRECT: in exact arithmetic, for any tiling of the cells, the threads compute the densities and the accelerations
    of the serial version, however many structures the cells have and wherever these are in memory. -/
theorem computeForces_threads (hs : Settled s lists) (gs : Grids nx ny nz T) (f : Fields nx ny nz K) :
    ∃ result, computeForces L k s f = some result ∧ ∀ result', ForcesMT L k s gs f result' ↔ result' = result :=
  ⟨f.final L k s lists, computeForces_eq L k hs f, forcesMT_iff L k hs gs f⟩

/-! ### The forces add up to zero -/

omit [NeZero nx] [NeZero ny] [NeZero nz] [Fintype T] [DecidableEq T] in
/-- What a pair adds for one particle it takes away for the other. -/
theorem sum_forceAdditions (density : Slot nx ny nz → K) {S : Finset (Slot nx ny nz)}
    {p : Seen nx ny nz × Seen nx ny nz} (h : p.1.slot ∈ S) (h' : p.2.slot ∈ S) :
    ∑ x ∈ S, total (forceAdditions k s density (fun _ => false) p) x = 0 := by
  simp only [forceAdditions, total_cons, total_nil, add_zero, Finset.sum_add_distrib, Finset.sum_ite_eq, h, h',
    if_true, add_neg_cancel]

omit [NeZero nx] [NeZero ny] [NeZero nz] [Fintype T] [DecidableEq T] [Field K] [LinearOrder K] in
theorem sum_total_flatMap {α κ μ M : Type*} [DecidableEq κ] [AddCommMonoid M] {S : Finset κ}
    {adds : α → List (Addition κ μ M)} {ps : List α} (h : ∀ p ∈ ps, ∑ x ∈ S, total (adds p) x = 0) :
    ∑ x ∈ S, total (ps.flatMap adds) x = 0 := by
  induction ps with
  | nil => simp
  | cons p ps ih =>
    rw [List.forall_mem_cons] at h
    simp only [List.flatMap_cons, total_append, Finset.sum_add_distrib, h.1, ih h.2, add_zero]

omit [NeZero nx] [NeZero ny] [NeZero nz] [Fintype T] [DecidableEq T] in
theorem sum_final (hs : Settled s lists) {cells : List (Index nx ny nz)} (hall : AllOnce cells)
    (f : Fields nx ny nz K) {l : List (Seen nx ny nz)} (hl : cells.flatMap (seenOf lists s) = l) :
    (l.map fun x => (f.final L k s lists).a x.slot).sum = l.length • k.externalAcceleration := by
  subst hl
  have hnd := nodup_slots hs hall
  have hslots : ∀ x ∈ ((cells.flatMap (seenOf lists s)).map Seen.slot).toFinset, s.slots lists x := fun x hx =>
    (mem_slots hall).1 (List.mem_toFinset.1 hx)
  have hpair : ∀ c, ∀ p ∈ pairsOf L k.hSq s lists c, ∑ x ∈ ((cells.flatMap (seenOf lists s)).map Seen.slot).toFinset,
      total (forceAdditions k s (f.final L k s lists).density (fun _ => false) p) x = 0 := by
    intro c p hp
    obtain ⟨hx, hy, -⟩ := (mem_pairsOf L k.hSq).1 hp
    refine sum_forceAdditions k _ ?_ ?_
    · exact List.mem_toFinset.2 (List.mem_map_of_mem (List.mem_flatMap.2 ⟨c, hall.2 c, hx⟩))
    · exact List.mem_toFinset.2 (List.mem_map_of_mem (List.mem_flatMap.2 ⟨_, hall.2 _, hy⟩))
  calc ((cells.flatMap (seenOf lists s)).map fun x => (f.final L k s lists).a x.slot).sum
      = ∑ x ∈ ((cells.flatMap (seenOf lists s)).map Seen.slot).toFinset, (f.final L k s lists).a x := by
        rw [List.sum_toFinset _ hnd, List.map_map]
        rfl
    _ = ∑ x ∈ ((cells.flatMap (seenOf lists s)).map Seen.slot).toFinset, k.externalAcceleration := by
        have hzero : ∑ x ∈ ((cells.flatMap (seenOf lists s)).map Seen.slot).toFinset, allAdded L k s lists
            (forceAdditions k s (f.final L k s lists).density fun _ => false) x = 0 := by
          simp only [allAdded]
          rw [Finset.sum_comm]
          exact Finset.sum_eq_zero fun c _ => sum_total_flatMap (hpair c)
        rw [Fields.final, Finset.sum_add_distrib]
        refine (congrArg _ hzero).trans ((add_zero _).trans ?_)
        exact Finset.sum_congr rfl fun x hx => if_pos (hslots x hx)
    _ = (cells.flatMap (seenOf lists s)).length • k.externalAcceleration := by
        rw [Finset.sum_const, List.toFinset_card_of_nodup hnd, List.length_map]

/-- CORRECT: in exact arithmetic the forces between the particles add up to zero in both versions, so that all particles
    together are accelerated by the external acceleration alone. -/
theorem forces_cancel (hs : Settled s lists) (gs : Grids nx ny nz T) (f : Fields nx ny nz K) :
    ∃ l, s.visits allCells = some l ∧ ∀ result, computeForces L k s f = some result ∨ ForcesMT L k s gs f result →
      (l.map fun x => result.a x.slot).sum = l.length • k.externalAcceleration := by
  refine ⟨_, hs.visits allCells, fun result hresult => ?_⟩
  obtain rfl : result = f.final L k s lists := by
    rcases hresult with hserial | hthreads
    · exact Option.some.inj (hserial.symm.trans (computeForces_eq L k hs f))
    · exact (forcesMT_iff L k hs gs f result).1 hthreads
  exact sum_final L k hs allOnce_allCells f rfl

end Threads

/-- Some constants, with the square roots of the squares. -/
def someKernel : Kernel ℚ where
  h := 1 / 100
  hSq := 1 / 10000
  densityCoeff := 1
  pressureCoeff := 3
  viscosityCoeff := 4 / 10
  doubleRestDensity := 2000
  externalAcceleration i := if i = .y then -98 / 10 else 0
  sqrt q := q.num.toNat.sqrt / q.den.sqrt

theorem computeForces_threads_crowded : ∃ lists, Settled (crowded.get isSome_crowded) lists ∧
    ∃ result, computeForces poolsBehind someKernel (crowded.get isSome_crowded) ⟨0, 0⟩ = some result ∧
      ∀ result', ForcesMT poolsBehind someKernel (crowded.get isSome_crowded) twoByTwo ⟨0, 0⟩ result' ↔
        result' = result := by
  obtain ⟨lists, hs⟩ := settled_of_initSim (Option.some_get isSome_crowded).symm
  exact ⟨lists, hs, computeForces_threads poolsBehind someKernel hs twoByTwo ⟨0, 0⟩⟩

theorem forces_cancel_crowded : ∃ lists, Settled (crowded.get isSome_crowded) lists ∧
    ∃ l, (crowded.get isSome_crowded).visits allCells = some l ∧
      ∀ result, computeForces poolsBehind someKernel (crowded.get isSome_crowded) ⟨0, 0⟩ = some result ∨
          ForcesMT poolsBehind someKernel (crowded.get isSome_crowded) twoByTwo ⟨0, 0⟩ result →
        (l.map fun x => result.a x.slot).sum = l.length • someKernel.externalAcceleration := by
  obtain ⟨lists, hs⟩ := settled_of_initSim (Option.some_get isSome_crowded).symm
  exact ⟨lists, hs, forces_cancel poolsBehind someKernel hs twoByTwo ⟨0, 0⟩⟩

end Turkey.Fluid
