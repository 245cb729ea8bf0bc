import Mathlib.Algebra.BigOperators.Group.Multiset.Basic
import Turkey.Fluidanimate.Forces

/-! What the program computes: the fluid is a bag of particles, and a frame moves each of them. Nothing is said of
    cells in memory, of the order of the particles or of threads.

    A particle interacts with all that are closer than `h` and whose cell is next to its own. Its density is a
    sum over these, itself among them, and so is its acceleration. The first part of the connection with the
    program is here: with at most one structure for each cell, the arrays that `ComputeForces` fills are these
    sums. -/

namespace Turkey.Fluid
open Turkey.Accumulate

/-! ### The fluid -/

section Fluid
variable {nx ny nz : ℕ} {K : Type*} [Field K] [LinearOrder K] (bin : Particle (Vec3 K) → Index nx ny nz)
  (k : Kernel K)

/-- The square of the distance of two particles. -/
def distance (x y : Particle (Vec3 K)) : K := getLengthSq (x.p - y.p)

/-- Particles that act on each other. -/
def Near (x y : Particle (Vec3 K)) : Prop := Adjacent (bin x) (bin y) ∧ distance x y < k.hSq

open Classical in
/-- A sum over the particles that are near. -/
noncomputable def sumNear {M : Type*} [AddCommMonoid M] (fluid : Multiset (Particle (Vec3 K)))
    (x : Particle (Vec3 K)) (f : Particle (Vec3 K) → M) : M :=
  (fluid.map fun y => if Near bin k x y then f y else 0).sum

/-- The density at a particle. -/
noncomputable def densityIn (fluid : Multiset (Particle (Vec3 K))) (x : Particle (Vec3 K)) : K :=
  sumNear bin k fluid x (fun y => (k.hSq - distance x y) ^ 3) * k.densityCoeff

/-- The acceleration of a particle. -/
noncomputable def accelerationIn (fluid : Multiset (Particle (Vec3 K))) (x : Particle (Vec3 K)) : Vec3 K :=
  k.externalAcceleration +
    sumNear bin k fluid x fun y => pull k x y (densityIn bin k fluid x) (densityIn bin k fluid y)

/-- The particle with its acceleration. -/
noncomputable def bodyIn (fluid : Multiset (Particle (Vec3 K))) (x : Particle (Vec3 K)) : Body K :=
  ⟨x.p, x.hv, x.v, accelerationIn bin k fluid x⟩

end Fluid

/-! ### The arrays of `ComputeForces` -/

section Sums
variable {I T P : Type*} {s : State I T P} {lists : Place I T → List (Addr I)} {got : I → List P}

/-- A sum over the places of all particles is a sum over the particles. -/
theorem sum_places {M : Type*} [AddCommMonoid M] [Fintype I] {num : I → ℕ} (hnum : ∀ c, (got c).length = num c)
    {G : I → ℕ → M} {F : P → M} (hG : ∀ c j x, (got c)[j]? = some x → G c j = F x) :
    ∑ c, ∑ j ∈ Finset.range (num c), G c j = ((∑ c, (got c : Multiset P)).map F).sum := by
  have hcell : ∀ c, ∑ j ∈ Finset.range (num c), G c j = ((got c : Multiset P).map F).sum := by
    intro c
    have hlist : (List.range (num c)).map (G c) = (got c).map F := by
      refine List.ext_getElem (by simp [hnum]) fun j hj _ => ?_
      have hlt : j < (got c).length := by simpa [hnum] using hj
      rw [List.getElem_map, List.getElem_map, List.getElem_range]
      exact hG c j _ (List.getElem?_eq_getElem hlt)
    rw [Multiset.map_coe, Multiset.sum_coe, ← hlist]
    rfl
  simp only [hcell]
  exact (map_sum (Multiset.sumAddMonoidHom.comp (Multiset.mapAddMonoidHom F)) (fun c => (got c : Multiset P)) _).symm

end Sums

section Arrays
variable {nx ny nz : ℕ} {T K : Type*} [Field K] [LinearOrder K] {s : State (Index nx ny nz) T (Body K)}
  {lists : Place (Index nx ny nz) T → List (Addr (Index nx ny nz))} {got : Index nx ny nz → List (Body K)}
  (L : Layout nx ny nz) {bin : Particle (Vec3 K) → Index nx ny nz} {k : Kernel K}

omit [Field K] [LinearOrder K] in
/-- What the slot of a particle has. -/
theorem Filled.slotOf (hf : Filled s lists got) {c : Index nx ny nz} {j : ℕ} {x : Body K} (hx : (got c)[j]? = some x) :
    s.mem.slot (slotOf lists s (c, j)).1 (slotOf lists s (c, j)).2 = x := by
  obtain ⟨a, ha, hslot⟩ := hf.holds c j x hx
  rw [Fluid.slotOf, ha]
  exact hslot

omit [Field K] [LinearOrder K] in
theorem sum_pars {M : Type*} [AddCommMonoid M] (G : Index nx ny nz × ℕ → M) :
    ∑ X ∈ s.pars, G X = ∑ c, ∑ j ∈ Finset.range (s.num c), G (c, j) := by
  classical
  rw [State.pars, Finset.sum_biUnion]
  · refine Finset.sum_congr rfl fun c _ => Finset.sum_image fun i _ j _ h => (Prod.mk.inj h).2
  · intro c _ d _ hne
    refine Finset.disjoint_left.2 fun X hX hX' => hne ?_
    obtain ⟨i, -, rfl⟩ := Finset.mem_image.1 hX
    obtain ⟨j, -, h⟩ := Finset.mem_image.1 hX'
    exact (Prod.mk.inj h).1.symm

/-- The particles are in the cells that they belong to, and no cell has more than one structure. -/
structure Binned (bin : Particle (Vec3 K) → Index nx ny nz) (s : State (Index nx ny nz) T (Body K))
    (lists : Place (Index nx ny nz) T → List (Addr (Index nx ny nz))) (got : Index nx ny nz → List (Body K)) : Prop where
  settled : Settled s lists
  filled : Filled s lists got
  bin : ∀ c, ∀ x ∈ got c, bin x.particle = c
  le : ∀ c, s.num c ≤ 16

/-- All particles of the cells. -/
def fluidOf (got : Index nx ny nz → List (Body K)) : Multiset (Particle (Vec3 K)) :=
  (∑ c, (got c : Multiset (Body K))).map Body.particle

variable (h : Binned bin s lists got)
include h

omit [Field K] [LinearOrder K] in
theorem Binned.valid {c : Index nx ny nz} {j : ℕ} {x : Body K} (hx : (got c)[j]? = some x) : s.Valid (c, j) := by
  have hlt := (List.getElem?_eq_some_iff.1 hx).1
  rwa [h.filled.counted] at hlt

omit [LinearOrder K] in
theorem Binned.distSq {c d : Index nx ny nz} {i j : ℕ} {x y : Body K} (hx : (got c)[i]? = some x)
    (hy : (got d)[j]? = some y) :
    s.distSq (Fluid.slotOf lists s (c, i)) (Fluid.slotOf lists s (d, j)) = distance x.particle y.particle := by
  rw [State.distSq, h.filled.slotOf hx, h.filled.slotOf hy]
  rfl

open Classical in
/-- A sum over the particles that interact with one is a sum over all that are near, but for the particle itself. -/
theorem Binned.sum_interacting {M : Type*} [AddCommMonoid M] (hpos : 0 < k.hSq) {c : Index nx ny nz} {j : ℕ}
    {x : Body K} (hx : (got c)[j]? = some x) {g : Slot nx ny nz → Slot nx ny nz → M}
    {f : Particle (Vec3 K) → M} (hg : ∀ d i y, (got d)[i]? = some y →
      g (Fluid.slotOf lists s (c, j)) (Fluid.slotOf lists s (d, i)) = f y.particle) :
    (∑ Y ∈ s.pars, if Interacting k.hSq s (c, j) Y then
      g (Fluid.slotOf lists s (c, j)) (Fluid.slotOf lists s Y) else 0) + f x.particle =
        sumNear bin k (fluidOf got) x.particle f := by
  have hself : Near bin k x.particle x.particle := by
    refine ⟨adjacent_self _, ?_⟩
    rw [distance, sub_self, getLengthSq]
    simpa using hpos
  have hval := h.valid hx
  have hterm : ∀ Y ∈ s.pars, (if Interacting k.hSq s (c, j) Y then
      g (Fluid.slotOf lists s (c, j)) (Fluid.slotOf lists s Y) else 0) + (if Y = (c, j) then f x.particle else 0) =
        if Adjacent c Y.1 ∧ s.distSq (Fluid.slotOf lists s (c, j)) (Fluid.slotOf lists s Y) < k.hSq then
          g (Fluid.slotOf lists s (c, j)) (Fluid.slotOf lists s Y) else 0 := by
    intro Y hY
    have hiff := h.settled.interacting_iff k.hSq (X := (c, j)) (Y := Y)
    by_cases hYX : Y = (c, j)
    · subst hYX
      rw [if_neg fun hi => (hiff.1 hi).1 rfl, if_pos rfl, zero_add, if_pos, hg c j x hx]
      rw [h.distSq hx hx]
      exact ⟨adjacent_self _, hself.2⟩
    · rw [if_neg hYX, add_zero]
      refine if_congr (hiff.trans ⟨fun hi => ⟨hi.2.1, hi.2.2.2⟩, fun hi => ?_⟩) rfl rfl
      exact ⟨fun heq => hYX heq.symm, hi.1, ⟨hval, mem_pars.1 hY⟩, hi.2⟩
  have hsum : ∑ Y ∈ s.pars, (if Y = (c, j) then f x.particle else 0) = f x.particle := by
    rw [Finset.sum_ite_eq', if_pos (mem_pars.2 hval)]
  calc _ = ∑ Y ∈ s.pars, if Adjacent c Y.1 ∧
        s.distSq (Fluid.slotOf lists s (c, j)) (Fluid.slotOf lists s Y) < k.hSq then
          g (Fluid.slotOf lists s (c, j)) (Fluid.slotOf lists s Y) else 0 := by
        rw [← Finset.sum_congr rfl hterm, Finset.sum_add_distrib, hsum]
    _ = ((∑ d, (got d : Multiset (Body K))).map fun y =>
        if Near bin k x.particle y.particle then f y.particle else 0).sum := by
        rw [sum_pars]
        refine sum_places (F := fun y : Body K => if Near bin k x.particle y.particle then f y.particle else 0)
          (fun d => h.filled.counted d) fun d i y hy => ?_
        rw [h.distSq hx hy, hg d i y hy]
        refine if_congr (and_congr_left fun _ => ?_) rfl rfl
        rw [h.bin c x (List.mem_of_getElem? hx), h.bin d y (List.mem_of_getElem? hy)]
    _ = sumNear bin k (fluidOf got) x.particle f := by
        rw [sumNear, fluidOf, Multiset.map_map]
        rfl

theorem Binned.inCellOrder : InCellOrder k.hSq s L := inCellOrder_of_le L k.hSq h.settled h.le

omit [Field K] [LinearOrder K] in
theorem Binned.slots {c : Index nx ny nz} {j : ℕ} {x : Body K} (hx : (got c)[j]? = some x) :
    s.slots lists (Fluid.slotOf lists s (c, j)) := ⟨(c, j), h.valid hx, rfl⟩

/-- The densities that the program computes. -/
theorem Binned.density (hpos : 0 < k.hSq) (f : Fields nx ny nz K) {c : Index nx ny nz} {j : ℕ} {x : Body K}
    (hx : (got c)[j]? = some x) : (f.final L k s lists).density (Fluid.slotOf lists s (c, j)) =
      densityIn bin k (fluidOf got) x.particle := by
  classical
  have hsum : summed L k s lists f (Fluid.slotOf lists s (c, j)) + k.hSq * k.hSq * k.hSq =
      sumNear bin k (fluidOf got) x.particle fun y => (k.hSq - distance x.particle y) ^ 3 := by
    have hself : (k.hSq - distance x.particle x.particle) ^ 3 = k.hSq * k.hSq * k.hSq := by
      rw [distance, sub_self, getLengthSq]
      simp only [Pi.zero_apply, mul_zero, add_zero, sub_zero]
      ring
    rw [← h.sum_interacting hpos hx (g := tcOf k.hSq s) fun d i y hy => ?_, hself, summed, allAdded,
      Fluid.sum_interacting L k.hSq (addsPairwise_pairAdditions k.hSq _) (fun x y => ?_) h.settled (h.inCellOrder L)
        (h.valid hx)]
    · have hzero : (f.init k s lists).density (Fluid.slotOf lists s (c, j)) = 0 := if_pos (h.slots hx)
      rw [hzero, zero_add]
    · rw [tcOf, distSq_comm, tcOf]
    · rw [tcOf, h.distSq hx hy]
      ring
  rw [densityIn, ← hsum]
  exact if_pos (h.slots hx)

end Arrays

/-! ### The accelerations -/

section Acceleration
variable {nx ny nz : ℕ} {T K : Type*} [Field K] [LinearOrder K] {s : State (Index nx ny nz) T (Body K)}
  {lists : Place (Index nx ny nz) T → List (Addr (Index nx ny nz))} {got : Index nx ny nz → List (Body K)}
  (L : Layout nx ny nz) {bin : Particle (Vec3 K) → Index nx ny nz} {k : Kernel K}

/-- Action and reaction. -/
theorem pull_comm (x y : Particle (Vec3 K)) (density density' : K) :
    -pull k y x density' density = pull k x y density density' := by
  have hdist : getLengthSq (y.p - x.p) = getLengthSq (x.p - y.p) := by
    simp only [getLengthSq, Pi.sub_apply]
    ring
  funext i
  simp only [pull, hdist, Pi.neg_apply, Pi.smul_apply, Pi.add_apply, Pi.sub_apply, smul_eq_mul]
  ring

theorem pull_self (x : Particle (Vec3 K)) (density density' : K) : pull k x x density density' = 0 := by
  funext i
  simp only [pull, sub_self, Pi.smul_apply, Pi.add_apply, Pi.zero_apply, smul_eq_mul, mul_zero, add_zero]

theorem addsPairwise_forceAdditions (density : Slot nx ny nz → K) (border : Index nx ny nz → Bool) :
    AddsPairwise (forceAdditions k s density border) (pairAcc k s density)
      fun x y => -pairAcc k s density x y := by
  intro p x
  simp only [forceAdditions, total_cons, total_nil, add_zero]

/-- The accelerations that the program computes. -/
theorem Binned.acceleration (h : Binned bin s lists got) (hpos : 0 < k.hSq) (f : Fields nx ny nz K)
    {c : Index nx ny nz} {j : ℕ} {x : Body K} (hx : (got c)[j]? = some x) :
    (f.final L k s lists).a (Fluid.slotOf lists s (c, j)) = accelerationIn bin k (fluidOf got) x.particle := by
  classical
  have hinit : (f.init k s lists).a (Fluid.slotOf lists s (c, j)) = k.externalAcceleration := if_pos (h.slots hx)
  have hacc : ∀ d i y, (got d)[i]? = some y → pairAcc k s (f.final L k s lists).density
      (Fluid.slotOf lists s (c, j)) (Fluid.slotOf lists s (d, i)) = pull k x.particle y.particle
        (densityIn bin k (fluidOf got) x.particle) (densityIn bin k (fluidOf got) y.particle) := by
    intro d i y hy
    rw [pairAcc, h.filled.slotOf hx, h.filled.slotOf hy, h.density L hpos f hx, h.density L hpos f hy]
  have hsum : allAdded L k s lists (forceAdditions k s (f.final L k s lists).density fun _ => false)
      (Fluid.slotOf lists s (c, j)) = sumNear bin k (fluidOf got) x.particle fun y => pull k x.particle y
        (densityIn bin k (fluidOf got) x.particle) (densityIn bin k (fluidOf got) y) := by
    rw [← h.sum_interacting hpos hx (g := pairAcc k s (f.final L k s lists).density) hacc, pull_self, add_zero,
      allAdded]
    exact Fluid.sum_interacting L k.hSq (addsPairwise_forceAdditions _ _) (fun x y => pull_comm _ _ _ _) h.settled
      (h.inCellOrder L) (h.valid hx)
  rw [accelerationIn, ← hsum, ← hinit]
  rfl

end Acceleration

end Turkey.Fluid
