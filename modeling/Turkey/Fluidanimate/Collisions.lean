import Mathlib.Algebra.Order.Ring.Rat
import Mathlib.Tactic.Linarith
import Turkey.Fluidanimate.InitSim
import Turkey.Fluidanimate.Walls

/-! The threaded wall passes against the serial ones.

    `ProcessCollisionsMT` is to leave out the cells that are not on a wall. Its test has `==` in the place of the
    last `||`, so that it leaves out the cells that are on one of the walls `domainMax.y` and `domainMax.z` and on
    no other wall. In the serial `ProcessCollisions2` the pointer to the structure goes on inside of the
    branch for the particles beyond the wall, in the loop along `domainMax.y`. -/

namespace Turkey.Fluid

section
variable {K : Type*} [Field K] [LinearOrder K] {nx ny nz : ℕ} {T : Type*} {prm : Params K}
  {s : State (Index nx ny nz) T (Body K)} {lists : Place (Index nx ny nz) T → List (Addr (Index nx ny nz))}

omit [Field K] [LinearOrder K] in
theorem Settled.filledAt (hs : Settled s lists) : ∃ got, Filled (s.advance s.mem.slot) lists got ∧
    ∀ c, s.particles c = some (got c) := by
  obtain ⟨got, hf⟩ := hs.filled
  exact ⟨got, hf, hf.particles hs⟩

/-! ### `ProcessCollisions` -/

theorem push_predict (w : Wall) (pos : Vec3 K) (x : Body K) : (push prm w pos x).predict prm = x.predict prm := by
  simp only [push]
  split_ifs <;> rfl

/-- The walls one after another with the position anew for each, or all with the same. -/
theorem foldl_push (c : Index nx ny nz) : ∀ (ws : List Wall) (x : Body K),
    ws.foldl (fun x w => if w.has c = true then push prm w (x.predict prm) x else x) x =
      ws.foldl (fun y w => if w.has c = true then push prm w (x.predict prm) y else y) x
  | [], _ => rfl
  | w :: ws, x => by
    rw [List.foldl_cons, List.foldl_cons, foldl_push c ws]
    split_ifs
    · rw [push_predict]
    · rfl

/-- A fold of maps is a map of folds. -/
theorem foldl_map_visit {P : Type*} {c : Index nx ny nz} {body : Wall → P → P} {goesOn : Wall → P → Bool} :
    ∀ (ws : List Wall) (ps : List P), (∀ w ∈ ws, w.has c = true → ∀ x, goesOn w x = true) →
      ws.foldl (fun ps w => if w.has c = true then visit (body w) (goesOn w) ps else ps) ps =
        ps.map fun x => ws.foldl (fun x w => if w.has c = true then body w x else x) x
  | [], ps, _ => by simp
  | w :: ws, ps, h => by
    rw [List.foldl_cons, foldl_map_visit ws _ fun w' hw' => h w' (List.mem_cons_of_mem _ hw')]
    simp only [List.foldl_cons]
    by_cases hw : w.has c = true
    · simp only [hw, if_true]
      rw [visit_map (h w (List.mem_cons_self ..) hw), List.map_map]
      rfl
    · simp only [hw, if_false, Bool.false_eq_true]

theorem processCollisions_spec (prm : Params K) (hs : Settled s lists) : ∃ s', processCollisions prm s = some s' ∧
    ∀ c ps, s.particles c = some ps → s'.particles c = some (ps.map fun x => pushAll prm c (x.predict prm) x) := by
  obtain ⟨got, hf, hgot⟩ := hs.filledAt
  obtain ⟨slot, hwalls, hf'⟩ := Filled.walls hs (fun w x => push prm w (x.predict prm) x)
    (fun _ _ => true) (fun _ => .inl fun _ => rfl) walls hf
  refine ⟨s.advance slot, by rw [processCollisions, hwalls]; rfl, fun c ps hps => ?_⟩
  obtain rfl : got c = ps := Option.some.inj ((hgot c).symm.trans hps)
  rw [hf'.particles (hs.advance slot), foldl_map_visit _ _ fun _ _ _ _ => rfl]
  simp only [foldl_push]
  rfl

theorem processCollisionsMT_spec (prm : Params K) (hs : Settled s lists) (gs : Grids nx ny nz T) {order : List T}
    (hnd : order.Nodup) (hall : ∀ t, t ∈ order) : ∃ s', inOrder s (processCollisionsMT prm s gs) order = some s' ∧
    ∀ c ps, s.particles c = some ps → s'.particles c =
      some (if onDomainWall c = true then ps.map fun x => pushAll prm c (x.predict prm) x else ps) := by
  obtain ⟨got, hf, hgot⟩ := hs.filledAt
  obtain ⟨slot, hthreads, hf'⟩ := Filled.threads hs gs (fun c x => pushAll prm c (x.predict prm) x) onDomainWall
    order hnd hf
  refine ⟨s.advance slot, by rw [inOrder]; simp only [processCollisionsMT, hthreads]; rfl, fun c ps hps => ?_⟩
  obtain rfl : got c = ps := Option.some.inj ((hgot c).symm.trans hps)
  have hc : ∃ t ∈ order, c ∈ (gs.grid t).cells := by
    obtain ⟨t, ht⟩ := gs.all c
    exact ⟨t, hall t, ht⟩
  rw [hf'.particles (hs.advance slot)]
  simp only [hc, and_true]

/-- The cells that the threaded pass leaves out are those on one of the walls `domainMax.y` and `domainMax.z` and
    on no other wall. -/
theorem onDomainWall_eq_false {c : Index nx ny nz} : onDomainWall c = false ↔
    (c.2.2.val ≠ 0 ∧ c.2.1.val ≠ 0 ∧ c.1.val ≠ 0 ∧ c.2.2.val ≠ nx - 1) ∧
      ¬(c.2.1.val = ny - 1 ↔ c.1.val = nz - 1) := by
  obtain ⟨z, y, x⟩ := c
  have hlast : ((y.val == ny - 1) == (z.val == nz - 1)) = false ↔ ¬(y.val = ny - 1 ↔ z.val = nz - 1) := by
    rw [beq_eq_false_iff_ne, Ne, Bool.eq_iff_iff, beq_iff_eq, beq_iff_eq]
  simp only [onDomainWall, Bool.or_eq_false_iff, hlast, beq_eq_false_iff_ne, and_assoc]

/-- The one wall of a cell that is left out. -/
theorem pushAll_of_not_onDomainWall (prm : Params K) {c : Index nx ny nz} (hc : onDomainWall c = false) :
    ∃ w ∈ walls, w.has c = true ∧ w.max = true ∧ (∀ w' ∈ walls, w'.has c = true → w' = w) ∧
      ∀ pos x, pushAll prm c pos x = push prm w pos x := by
  obtain ⟨⟨hx, hy, hz, hx'⟩, hone⟩ := onDomainWall_eq_false.1 hc
  have h₁ : Wall.has ⟨.x, false⟩ c = false := beq_eq_false_iff_ne.2 hx
  have h₂ : Wall.has ⟨.x, true⟩ c = false := beq_eq_false_iff_ne.2 hx'
  have h₃ : Wall.has ⟨.y, false⟩ c = false := beq_eq_false_iff_ne.2 hy
  have h₅ : Wall.has ⟨.z, false⟩ c = false := beq_eq_false_iff_ne.2 hz
  have hy' : Wall.has ⟨.y, true⟩ c = true ↔ c.2.1.val = ny - 1 := beq_iff_eq
  have hz' : Wall.has ⟨.z, true⟩ c = true ↔ c.1.val = nz - 1 := beq_iff_eq
  rw [← hy', ← hz'] at hone
  cases h₄ : Wall.has ⟨.y, true⟩ c with
  | true =>
    have h₆ : Wall.has ⟨.z, true⟩ c = false := by simpa [h₄] using hone
    refine ⟨⟨.y, true⟩, by simp [walls], h₄, rfl, ?_, fun pos x => ?_⟩
    · simp [walls, h₁, h₂, h₃, h₅, h₆]
    · simp [pushAll, walls, h₁, h₂, h₃, h₄, h₅, h₆]
  | false =>
    have h₆ : Wall.has ⟨.z, true⟩ c = true := by simpa [h₄] using hone
    refine ⟨⟨.z, true⟩, by simp [walls], h₆, rfl, ?_, fun pos x => ?_⟩
    · simp [walls, h₁, h₂, h₃, h₄, h₅]
    · simp [pushAll, walls, h₁, h₂, h₃, h₄, h₅, h₆]

/-- The wall `domainMax` of an axis does nothing to a particle: it stays away from it, or the push is zero. -/
def Spared (prm : Params K) (i : Axis) (x : Body K) : Prop :=
  let diff := prm.parSize - (prm.domainMax i - x.predict prm i)
  diff ≤ prm.epsilon ∨ prm.stiffnessCollisions * diff + prm.damping * x.v i = 0

theorem push_eq_self {w : Wall} (hw : w.max = true) (x : Body K) :
    push prm w (x.predict prm) x = x ↔ Spared prm w.axis x := by
  simp only [push, Spared, hw, if_true]
  split_ifs with hdiff
  · constructor
    · intro h
      have ha := congrFun (congrArg Body.a h) w.axis
      simp only [Function.update_self] at ha
      exact .inr (sub_eq_self.1 ha)
    · rintro (h | h)
      · exact absurd hdiff (not_lt.2 h)
      · rw [h, sub_zero, Function.update_eq_self]
  · exact ⟨fun _ => .inl (not_lt.1 hdiff), fun _ => rfl⟩

/-- A pass that leaves out cells has the same result if it would do nothing in them. -/
theorem map_eq_self_iff {P : Type*} {f : P → P} {ps : List P} : ps.map f = ps ↔ ∀ x ∈ ps, f x = x := by
  constructor
  · intro h x hx
    exact List.map_inj_left.1 (h.trans (List.map_id ps).symm) x hx
  · intro h
    exact (List.map_inj_left.2 h).trans (List.map_id ps)

theorem processCollisions_iff (prm : Params K) (hs : Settled s lists) (gs : Grids nx ny nz T) (order : List T)
    (hnd : order.Nodup) (hall : ∀ t, t ∈ order) : ∃ s₁ s₂, processCollisions prm s = some s₁ ∧
      inOrder s (processCollisionsMT prm s gs) order = some s₂ ∧
      ((∀ c, s₁.particles c = s₂.particles c) ↔
        ∀ c, onDomainWall c = false → ∀ w ∈ walls, w.has c = true → ∀ ps, s.particles c = some ps →
          ∀ x ∈ ps, Spared prm w.axis x) := by
  obtain ⟨s₁, hs₁, h₁⟩ := processCollisions_spec prm hs
  obtain ⟨s₂, hs₂, h₂⟩ := processCollisionsMT_spec prm hs gs hnd hall
  obtain ⟨got, -, hgot⟩ := hs.filledAt
  refine ⟨s₁, s₂, hs₁, hs₂, forall_congr' fun c => ?_⟩
  rw [h₁ c _ (hgot c), h₂ c _ (hgot c), Option.some.injEq]
  cases hc : onDomainWall c with
  | true => simp
  | false =>
    obtain ⟨w, hw, hhas, hmax, hunique, hpush⟩ := pushAll_of_not_onDomainWall prm hc
    simp only [Bool.false_eq_true, if_false, map_eq_self_iff, hpush, push_eq_self hmax, true_implies]
    constructor
    · intro h w' hw' hhas' ps hps x hx
      rw [hunique w' hw' hhas']
      rw [hgot, Option.some.injEq] at hps
      exact h x (hps ▸ hx)
    · intro h x hx
      exact h w hw hhas _ (hgot c) x hx

/-! ### `ProcessCollisions2` -/

/-- The particle is beyond the wall `domainMax` of an axis. -/
def Beyond (prm : Params K) (i : Axis) (x : Body K) : Prop := prm.domainMax i < x.p i

instance (prm : Params K) (i : Axis) (x : Body K) : Decidable (Beyond prm i x) :=
  inferInstanceAs (Decidable (prm.domainMax i < x.p i))

/-- Some walls one after another. -/
def reflects (prm : Params K) (c : Index nx ny nz) (ws : List Wall) (x : Body K) : Body K :=
  ws.foldl (fun x w => if w.has c = true then reflect prm w x.p x else x) x

theorem reflect_p_of_ne {w : Wall} {i : Axis} (h : w.axis ≠ i) (pos : Vec3 K) (x : Body K) :
    (reflect prm w pos x).p i = x.p i := by
  by_cases hin : inside prm w pos < 0
  · rw [reflect, if_pos hin]
    exact Function.update_of_ne h.symm ..
  · rw [reflect, if_neg hin]

theorem reflects_p {c : Index nx ny nz} {i : Axis} : ∀ (ws : List Wall) (x : Body K),
    (∀ w ∈ ws, w.has c = true → w.axis ≠ i) → (reflects prm c ws x).p i = x.p i
  | [], _, _ => rfl
  | w :: ws, x, h => by
    rw [reflects, List.foldl_cons]
    refine (reflects_p ws _ fun w' hw' => h w' (List.mem_cons_of_mem _ hw')).trans ?_
    split_ifs with hw
    · exact reflect_p_of_ne (h w (List.mem_cons_self ..) hw) ..
    · rfl

/-- The walls that a cell is on are of different axes, if the grid has two cells in each direction. -/
theorem walls_pairwise (hx : 2 ≤ nx) (hy : 2 ≤ ny) (hz : 2 ≤ nz) (c : Index nx ny nz) :
    walls.Pairwise fun w w' => w.has c = true → w'.has c = true → w.axis ≠ w'.axis := by
  have hopp : ∀ i, Wall.has ⟨i, false⟩ c = true → Wall.has ⟨i, true⟩ c = false := by
    intro i h₀
    refine beq_eq_false_iff_ne.2 fun h₁ => ?_
    have h₀ : i.coord c = 0 := beq_iff_eq.1 h₀
    have h₁ : i.coord c = i.size nx ny nz - 1 := h₁
    cases i <;> simp only [Axis.size] at h₁ <;> omega
  simp only [walls, List.pairwise_cons, List.mem_cons, List.not_mem_nil, or_false, forall_eq_or_imp, forall_eq]
  simp
  exact ⟨hopp .x, hopp .y, hopp .z⟩

theorem reflect_congr {w : Wall} {pos pos' : Vec3 K} (h : pos w.axis = pos' w.axis) (x : Body K) :
    reflect prm w pos x = reflect prm w pos' x := by
  have hin : inside prm w pos = inside prm w pos' := by simp only [inside, h]
  rw [reflect, reflect, hin]

/-- The position anew for each wall, or the same for all. -/
theorem reflects_eq {c : Index nx ny nz} {pos : Vec3 K} : ∀ (ws : List Wall) (x : Body K),
    (ws.Pairwise fun w w' => w.has c = true → w'.has c = true → w.axis ≠ w'.axis) →
    (∀ w ∈ ws, w.has c = true → pos w.axis = x.p w.axis) →
    reflects prm c ws x = ws.foldl (fun x w => if w.has c = true then reflect prm w pos x else x) x
  | [], _, _, _ => rfl
  | w :: ws, x, hpair, hpos => by
    rw [List.pairwise_cons] at hpair
    by_cases hw : w.has c = true
    · simp only [reflects, List.foldl_cons, hw, if_true]
      rw [reflect_congr (hpos w (List.mem_cons_self ..) hw)]
      refine reflects_eq ws _ hpair.2 fun w' hw' hhas => ?_
      rw [reflect_p_of_ne (hpair.1 w' hw' hw hhas), hpos w' (List.mem_cons_of_mem _ hw') hhas]
    · simp only [reflects, List.foldl_cons, hw, if_false, Bool.false_eq_true]
      exact reflects_eq ws x hpair.2 fun w' hw' => hpos w' (List.mem_cons_of_mem _ hw')

theorem reflectAll_eq (hx : 2 ≤ nx) (hy : 2 ≤ ny) (hz : 2 ≤ nz) (c : Index nx ny nz) (x : Body K) :
    reflectAll prm c x.p x = reflects prm c walls x :=
  (reflects_eq walls x (walls_pairwise hx hy hz c) fun _ _ _ => rfl).symm

theorem reflect_of_inside {w : Wall} {x : Body K} (h : ¬inside prm w x.p < 0) : reflect prm w x.p x = x := if_neg h

variable [IsStrictOrderedRing K]

/-- A particle that has been reflected is inside. -/
theorem inside_reflect (w : Wall) (x : Body K) : ¬inside prm w (reflect prm w x.p x).p < 0 := by
  simp only [reflect]
  by_cases hin : inside prm w x.p < 0
  · rw [if_pos hin]
    simp only [inside] at hin ⊢
    split_ifs at hin ⊢ with hmax <;> simp only [Function.update_self] <;> linarith
  · rwa [if_neg hin]

theorem settles_reflect (prm : Params K) (w : Wall) : Settles (fun x => reflect prm w x.p x)
    (fun x => if w = ⟨.y, true⟩ then decide (inside prm w x.p < 0) else true) := by
  refine .inr ⟨fun x => reflect_of_inside (inside_reflect w x), fun x hx => ?_⟩
  by_cases hw : w = ⟨.y, true⟩
  · simp only [hw, if_true]
    exact decide_eq_false (inside_reflect _ x)
  · simp [hw] at hx

theorem inside_domainMaxY (x : Body K) : inside prm ⟨.y, true⟩ x.p < 0 ↔ Beyond prm .y x := by
  simp only [inside, Beyond, if_true]
  exact sub_neg

/-- A particle beyond the wall is put to another place. -/
theorem reflect_domainMaxY {x : Body K} (h : Beyond prm .y x) : (reflect prm ⟨.y, true⟩ x.p x).p .y < x.p .y := by
  have hin := (inside_domainMaxY x).2 h
  simp only [reflect, if_pos hin, if_true, Function.update_self]
  simp only [inside, if_true] at hin ⊢
  linarith

/-- The walls before and after that along `domainMax.y`. -/
def firstWalls : List Wall := [⟨.x, false⟩, ⟨.x, true⟩, ⟨.y, false⟩]

def lastWalls : List Wall := [⟨.z, false⟩, ⟨.z, true⟩]

theorem walls_eq : walls = firstWalls ++ ⟨.y, true⟩ :: lastWalls := rfl

omit [IsStrictOrderedRing K] in
theorem reflects_walls {c : Index nx ny nz} (hc : Wall.has ⟨.y, true⟩ c = true) (x : Body K) :
    reflects prm c walls x = reflects prm c lastWalls
      (reflect prm ⟨.y, true⟩ (reflects prm c firstWalls x).p (reflects prm c firstWalls x)) := by
  rw [walls_eq, reflects, List.foldl_append, List.foldl_cons, if_pos hc]
  rfl

omit [IsStrictOrderedRing K] in
/-- The first walls do not move a particle in this direction. -/
theorem reflects_firstWalls (prm : Params K) (hy : 2 ≤ ny) {c : Index nx ny nz}
    (hc : Wall.has ⟨.y, true⟩ c = true) (x : Body K) : (reflects prm c firstWalls x).p .y = x.p .y := by
  refine reflects_p _ x fun w hw hhas => ?_
  simp only [firstWalls, List.mem_cons, List.not_mem_nil, or_false] at hw
  rcases hw with rfl | rfl | rfl
  · simp
  · simp
  · have h₀ : c.2.1.val = 0 := beq_iff_eq.1 hhas
    have h₁ : c.2.1.val = ny - 1 := beq_iff_eq.1 hc
    omega

omit [IsStrictOrderedRing K] in
theorem reflects_lastWalls (c : Index nx ny nz) (x : Body K) : (reflects prm c lastWalls x).p .y = x.p .y :=
  reflects_p _ x (by simp [lastWalls])

/-- The loops of the serial pass for the particles of a cell. -/
def serialCell (prm : Params K) (c : Index nx ny nz) (ps : List (Body K)) : List (Body K) :=
  walls.foldl (fun ps w => if w.has c = true then visit (fun x => reflect prm w x.p x)
    (fun x => if w = ⟨.y, true⟩ then decide (inside prm w x.p < 0) else true) ps else ps) ps

omit [IsStrictOrderedRing K] in
theorem serialCell_of_not {c : Index nx ny nz} (hc : Wall.has ⟨.y, true⟩ c ≠ true) (ps : List (Body K)) :
    serialCell prm c ps = ps.map (reflects prm c walls) := by
  refine foldl_map_visit walls ps fun w _ hw x => if_neg ?_
  rintro rfl
  exact hc hw

/-- Along `domainMax.y` the particles that the pointer does not come to are not put back. -/
theorem serialCell_of_has (hy : 2 ≤ ny) {c : Index nx ny nz} (hc : Wall.has ⟨.y, true⟩ c = true)
    (ps : List (Body K)) : serialCell prm c ps = ps.mapIdx fun j x =>
      if reached (fun x => decide (Beyond prm .y x)) ps j = true then reflects prm c walls x
      else reflects prm c lastWalls (reflects prm c firstWalls x) := by
  have hgoes : ∀ x : Body K, decide (inside prm ⟨.y, true⟩ (reflects prm c firstWalls x).p < 0) =
      decide (Beyond prm .y x) := fun x => by
    rw [decide_eq_decide, inside_domainMaxY, Beyond, reflects_firstWalls prm hy hc, Beyond]
  have hfirst : ∀ w ∈ firstWalls, w ≠ ⟨.y, true⟩ := by decide
  have hlast : ∀ w ∈ lastWalls, w ≠ ⟨.y, true⟩ := by decide
  rw [serialCell, walls_eq, List.foldl_append, List.foldl_cons, if_pos hc,
    foldl_map_visit firstWalls _ fun w hw _ _ => if_neg (hfirst w hw),
    foldl_map_visit lastWalls _ fun w hw _ _ => if_neg (hlast w hw), visit_of_map]
  refine List.ext_getElem? fun j => ?_
  rw [List.getElem?_map, List.getElem?_mapIdx, List.getElem?_mapIdx, Option.map_map]
  refine Option.map_congr fun x _ => ?_
  simp only [if_true, Function.comp_apply]
  rw [apply_ite (fun x => lastWalls.foldl (fun x w => if w.has c = true then reflect prm w x.p x else x) x),
    ← walls_eq, reflects_walls hc, ← funext hgoes]
  rfl

/-- All particles beyond the wall `domainMax.y` are in structures that the pointer comes to. -/
def Followed (prm : Params K) (ps : List (Body K)) : Prop :=
  ∀ j x, ps[j]? = some x → Beyond prm .y x → ∀ b < j / 16, ∃ y, ps[16 * b + 15]? = some y ∧ Beyond prm .y y

omit [Field K] [IsStrictOrderedRing K] in
theorem reached_iff {ps : List (Body K)} {j : ℕ} : reached (fun x => decide (Beyond prm .y x)) ps j = true ↔
    ∀ b < j / 16, ∃ y, ps[16 * b + 15]? = some y ∧ Beyond prm .y y := by
  simp [reached, List.all_eq_true, Option.any_eq_true]

theorem serialCell_eq_iff (hy : 2 ≤ ny) {c : Index nx ny nz} (hc : Wall.has ⟨.y, true⟩ c = true)
    (ps : List (Body K)) : serialCell prm c ps = ps.map (reflects prm c walls) ↔ Followed prm ps := by
  have hbeyond : ∀ x : Body K, Beyond prm .y (reflects prm c firstWalls x) ↔ Beyond prm .y x := fun x => by
    rw [Beyond, reflects_firstWalls prm hy hc, Beyond]
  rw [serialCell_of_has hy hc]
  constructor
  · intro h j x hx hbey
    rw [← reached_iff]
    by_contra hr
    have hj := congrArg (fun l => l[j]?) h
    simp only [List.getElem?_mapIdx, List.getElem?_map, hx, Option.map_some, if_neg hr, Option.some.injEq] at hj
    -- the particle is at its old place in one of the results
    have hp := congrFun (congrArg Body.p hj) .y
    rw [reflects_walls hc, reflects_lastWalls, reflects_lastWalls] at hp
    exact absurd hp (reflect_domainMaxY ((hbeyond x).2 hbey)).ne'
  · intro h
    refine List.ext_getElem? fun j => ?_
    rw [List.getElem?_mapIdx, List.getElem?_map]
    refine Option.map_congr fun x hx => ?_
    split_ifs with hr
    · rfl
    · have hnot : ¬Beyond prm .y x := fun hbey => hr (reached_iff.2 (h j x hx hbey))
      rw [reflects_walls hc, reflect_of_inside]
      rwa [inside_domainMaxY, hbeyond]

theorem processCollisions2_spec (prm : Params K) (hs : Settled s lists) : ∃ s', processCollisions2 prm s = some s' ∧
    ∀ c ps, s.particles c = some ps → s'.particles c = some (serialCell prm c ps) := by
  obtain ⟨got, hf, hgot⟩ := hs.filledAt
  obtain ⟨slot, hwalls, hf'⟩ := Filled.walls hs _ _ (settles_reflect prm) walls hf
  refine ⟨s.advance slot, by rw [processCollisions2, hwalls]; rfl, fun c ps hps => ?_⟩
  obtain rfl : got c = ps := Option.some.inj ((hgot c).symm.trans hps)
  exact hf'.particles (hs.advance slot) c

omit [IsStrictOrderedRing K] in
theorem processCollisions2MT_spec (prm : Params K) (hx : 2 ≤ nx) (hy : 2 ≤ ny) (hz : 2 ≤ nz) (hs : Settled s lists)
    (gs : Grids nx ny nz T) {order : List T} (hnd : order.Nodup) (hall : ∀ t, t ∈ order) :
    ∃ s', inOrder s (processCollisions2MT prm s gs) order = some s' ∧
      ∀ c ps, s.particles c = some ps → s'.particles c = some (ps.map (reflects prm c walls)) := by
  obtain ⟨got, hf, hgot⟩ := hs.filledAt
  obtain ⟨slot, hthreads, hf'⟩ := Filled.threads hs gs (fun c x => reflectAll prm c x.p x) (fun _ => true) order
    hnd hf
  simp only [List.filter_true] at hthreads
  refine ⟨s.advance slot, by rw [inOrder]; simp only [processCollisions2MT, hthreads]; rfl, fun c ps hps => ?_⟩
  obtain rfl : got c = ps := Option.some.inj ((hgot c).symm.trans hps)
  have hc : ∃ t ∈ order, c ∈ (gs.grid t).cells := by
    obtain ⟨t, ht⟩ := gs.all c
    exact ⟨t, hall t, ht⟩
  rw [hf'.particles (hs.advance slot)]
  simp only [hc, and_true, if_true, reflectAll_eq hx hy hz]

theorem processCollisions2_iff (prm : Params K) (hx : 2 ≤ nx) (hy : 2 ≤ ny) (hz : 2 ≤ nz) (hs : Settled s lists)
    (gs : Grids nx ny nz T) (order : List T) (hnd : order.Nodup) (hall : ∀ t, t ∈ order) :
    ∃ s₁ s₂, processCollisions2 prm s = some s₁ ∧ inOrder s (processCollisions2MT prm s gs) order = some s₂ ∧
      ((∀ c, s₁.particles c = s₂.particles c) ↔
        ∀ c, c.2.1.val = ny - 1 → ∀ ps, s.particles c = some ps → Followed prm ps) := by
  obtain ⟨s₁, hs₁, h₁⟩ := processCollisions2_spec prm hs
  obtain ⟨s₂, hs₂, h₂⟩ := processCollisions2MT_spec prm hx hy hz hs gs hnd hall
  obtain ⟨got, -, hgot⟩ := hs.filledAt
  refine ⟨s₁, s₂, hs₁, hs₂, forall_congr' fun c => ?_⟩
  rw [h₁ c _ (hgot c), h₂ c _ (hgot c), Option.some.injEq]
  have hwall : Wall.has ⟨.y, true⟩ c = true ↔ c.2.1.val = ny - 1 := beq_iff_eq
  rw [← hwall]
  by_cases hc : Wall.has ⟨.y, true⟩ c = true
  · rw [serialCell_eq_iff hy hc]
    constructor
    · rintro h - ps hps
      rw [hgot, Option.some.injEq] at hps
      exact hps ▸ h
    · exact fun h => h hc _ (hgot c)
  · rw [serialCell_of_not hc]
    exact iff_of_true rfl fun h => absurd h hc

end

/-! ### When the passes have the same results -/

section
variable {K : Type*} [Field K] [LinearOrder K] {nx ny nz : ℕ} {T : Type*} (prm : Params K)
  {s : State (Index nx ny nz) T (Body K)} {lists : Place (Index nx ny nz) T → List (Addr (Index nx ny nz))}

/-- CORRECT: both passes of `ProcessCollisions` come to an end, and they change the particles in the same way if and
    only if the wall `domainMax.y` or `domainMax.z` does nothing to the particles of the cells that are on this
    wall and on no other. -/
theorem processCollisionsMT_eq_iff (hs : Settled s lists) (gs : Grids nx ny nz T) {order : List T}
    (hnd : order.Nodup) (hall : ∀ t, t ∈ order) : ∃ s₁ s₂, processCollisions prm s = some s₁ ∧
      inOrder s (processCollisionsMT prm s gs) order = some s₂ ∧
      ((∀ c, s₁.particles c = s₂.particles c) ↔
        ∀ c ps x, s.particles c = some ps → x ∈ ps →
          c.2.2.val ≠ 0 → c.2.2.val ≠ nx - 1 → c.2.1.val ≠ 0 → c.1.val ≠ 0 →
            (c.2.1.val = ny - 1 → c.1.val ≠ nz - 1 → Spared prm .y x) ∧
            (c.2.1.val ≠ ny - 1 → c.1.val = nz - 1 → Spared prm .z x)) := by
  obtain ⟨s₁, s₂, hs₁, hs₂, hiff⟩ := processCollisions_iff prm hs gs order hnd hall
  refine ⟨s₁, s₂, hs₁, hs₂, hiff.trans (forall_congr' fun c => ?_)⟩
  have hy : Wall.has ⟨.y, true⟩ c = true ↔ c.2.1.val = ny - 1 := beq_iff_eq
  have hz : Wall.has ⟨.z, true⟩ c = true ↔ c.1.val = nz - 1 := beq_iff_eq
  constructor
  · intro h ps x hps hx hx₀ hx₁ hy₀ hz₀
    refine ⟨fun hy₁ hz₁ => ?_, fun hy₁ hz₁ => ?_⟩
    · exact h (onDomainWall_eq_false.2 ⟨⟨hx₀, hy₀, hz₀, hx₁⟩, fun h => hz₁ (h.1 hy₁)⟩) ⟨.y, true⟩ (by decide)
        (hy.2 hy₁) ps hps x hx
    · exact h (onDomainWall_eq_false.2 ⟨⟨hx₀, hy₀, hz₀, hx₁⟩, fun h => hy₁ (h.2 hz₁)⟩) ⟨.z, true⟩ (by decide)
        (hz.2 hz₁) ps hps x hx
  · intro h hc w hw hhas ps hps x hx
    obtain ⟨⟨hx₀, hy₀, hz₀, hx₁⟩, hone⟩ := onDomainWall_eq_false.1 hc
    obtain ⟨hspy, hspz⟩ := h ps x hps hx hx₀ hx₁ hy₀ hz₀
    simp only [walls, List.mem_cons, List.not_mem_nil, or_false] at hw
    rcases hw with rfl | rfl | rfl | rfl | rfl | rfl
    · exact absurd (beq_iff_eq.1 hhas) hx₀
    · exact absurd (beq_iff_eq.1 hhas) hx₁
    · exact absurd (beq_iff_eq.1 hhas) hy₀
    · exact hspy (hy.1 hhas) fun hz₁ => hone (iff_of_true (hy.1 hhas) hz₁)
    · exact absurd (beq_iff_eq.1 hhas) hz₀
    · exact hspz (fun hy₁ => hone (iff_of_true hy₁ (hz.1 hhas))) (hz.1 hhas)

end

/-- The constants of fluid.hpp. -/
def constants : Params ℚ where
  domainMin i := match i with
    | .x => -65 / 1000
    | .y => -80 / 1000
    | .z => -65 / 1000
  domainMax i := match i with
    | .x => 65 / 1000
    | .y => 100 / 1000
    | .z => 65 / 1000
  timeStep := 1 / 1000
  parSize := 2 / 10000
  epsilon := 1 / 10000000000
  stiffnessCollisions := 30000
  damping := 128

/-- A particle at rest. -/
def atRest (y : ℚ) : Body ℚ := ⟨fun i => if i = .y then y else 0, 0, 0, 0⟩

theorem settled_of_initSim {I P : Type*} [DecidableEq I] [Fintype I] {G : ℕ} [NeZero G] {bin : P → I}
    {slot : Addr I → ℕ → P} {cnumPars2 : I → ℕ} {last : I → Addr I} {particles : List P} {s : State I (Fin G) P}
    (hs : initSim bin slot cnumPars2 last particles = some s) : ∃ lists, Settled s lists := by
  obtain ⟨lists, got, h⟩ := loaded_of_initSim hs
  exact ⟨lists, h.settled⟩

/-- Two grids, of one and of two layers of cells. -/
def threeByThree : Grids 3 2 3 (Fin (2 * 1)) :=
  initGrids 2 (Cuts.round 3 2 Nat.two_pos (by decide)) (Cuts.round 3 1 Nat.one_pos (by decide))

/-- One particle in the middle of the box, and one in the middle of the wall `domainMax.y`. -/
def oneAtWall : Option (State (Index 3 2 3) (Fin (2 * 1)) (Body ℚ)) :=
  initSim (fun x => if x.p .y = 0 then (1, 0, 1) else (1, 1, 1)) (fun _ _ => atRest 0) (fun _ => 0) (.head true)
    [atRest 0, atRest (1 / 10)]

theorem isSome_oneAtWall : oneAtWall.isSome = true := by decide +kernel

theorem processCollisionsMT_eq_iff_one : ∃ lists, Settled (oneAtWall.get isSome_oneAtWall) lists ∧
    ∃ s₁ s₂, processCollisions constants (oneAtWall.get isSome_oneAtWall) = some s₁ ∧
      inOrder (oneAtWall.get isSome_oneAtWall) (processCollisionsMT constants (oneAtWall.get isSome_oneAtWall)
        threeByThree) [1, 0] = some s₂ ∧
      ((∀ c, s₁.particles c = s₂.particles c) ↔ ∀ (c : Index 3 2 3) (ps : List (Body ℚ)) (x : Body ℚ),
        (oneAtWall.get isSome_oneAtWall).particles c = some ps → x ∈ ps →
          c.2.2.val ≠ 0 → c.2.2.val ≠ 3 - 1 → c.2.1.val ≠ 0 → c.1.val ≠ 0 →
            (c.2.1.val = 2 - 1 → c.1.val ≠ 3 - 1 → Spared constants .y x) ∧
            (c.2.1.val ≠ 2 - 1 → c.1.val = 3 - 1 → Spared constants .z x)) := by
  obtain ⟨lists, hs⟩ := settled_of_initSim (Option.some_get isSome_oneAtWall).symm
  exact ⟨lists, hs, processCollisionsMT_eq_iff constants hs threeByThree (by decide) (by decide)⟩

/-- The serial pass pushes this particle, the threaded one leaves its cell out. -/
theorem processCollisionsMT_leaves_out : ∃ (s : State (Index 3 2 3) (Fin (2 * 1)) (Body ℚ))
    (lists : Place (Index 3 2 3) (Fin (2 * 1)) → List (Addr (Index 3 2 3))), Settled s lists ∧
      ∃ s₁ s₂, processCollisions constants s = some s₁ ∧
        inOrder s (processCollisionsMT constants s threeByThree) [0, 1] = some s₂ ∧
        ∃ c, s₁.particles c ≠ s₂.particles c := by
  obtain ⟨lists, hs⟩ := settled_of_initSim (Option.some_get isSome_oneAtWall).symm
  obtain ⟨s₁, s₂, hs₁, hs₂, hiff⟩ := processCollisions_iff constants hs threeByThree [0, 1]
    (by decide) (by decide)
  refine ⟨_, lists, hs, s₁, s₂, hs₁, hs₂, not_forall.1 (mt hiff.1 fun h => ?_)⟩
  obtain ⟨ps, hps⟩ : ∃ ps, (oneAtWall.get isSome_oneAtWall).particles (1, 1, 1) = some ps :=
    Option.isSome_iff_exists.1 (by decide +kernel)
  have hmap : ((oneAtWall.get isSome_oneAtWall).particles (1, 1, 1)).map (List.map fun x =>
      (x.predict constants .y, x.v .y)) = some [(1 / 10, 0)] := by decide +kernel
  rw [hps, Option.map_some, Option.some.injEq] at hmap
  obtain ⟨x, rfl, hx⟩ := List.map_eq_singleton_iff.1 hmap
  obtain ⟨hpos, hv⟩ := Prod.mk.inj hx
  have := h (1, 1, 1) (by decide) ⟨.y, true⟩ (by decide) (by decide) _ hps x (List.mem_singleton_self x)
  simp only [Spared, hpos, hv] at this
  norm_num [constants] at this

section
variable {K : Type*} [Field K] [LinearOrder K] [IsStrictOrderedRing K] {nx ny nz : ℕ} {T : Type*} (prm : Params K)
  {s : State (Index nx ny nz) T (Body K)} {lists : Place (Index nx ny nz) T → List (Addr (Index nx ny nz))}

/-- CORRECT: both passes of `ProcessCollisions2` come to an end without reading past the end of a list, and they
    leave the particles in the same places if and only if in each cell along the wall `domainMax.y` the particles
    beyond the wall come only behind full structures whose 16th particle is beyond the wall as well. -/
theorem processCollisions2MT_eq_iff (hx : 2 ≤ nx) (hy : 2 ≤ ny) (hz : 2 ≤ nz) (hs : Settled s lists)
    (gs : Grids nx ny nz T) {order : List T} (hnd : order.Nodup) (hall : ∀ t, t ∈ order) :
    ∃ s₁ s₂, processCollisions2 prm s = some s₁ ∧ inOrder s (processCollisions2MT prm s gs) order = some s₂ ∧
      ((∀ c, s₁.particles c = s₂.particles c) ↔
        ∀ c ps, c.2.1.val = ny - 1 → s.particles c = some ps → ∀ j x, ps[j]? = some x → prm.domainMax .y < x.p .y →
          ∀ b < j / 16, ∃ y, ps[16 * b + 15]? = some y ∧ prm.domainMax .y < y.p .y) := by
  obtain ⟨s₁, s₂, hs₁, hs₂, hiff⟩ := processCollisions2_iff prm hx hy hz hs gs order hnd hall
  exact ⟨s₁, s₂, hs₁, hs₂, hiff.trans (forall_congr' fun c => forall_comm)⟩

end

/-- Two grids of four cells each. -/
def twoByTwo : Grids 2 2 2 (Fin (2 * 1)) :=
  initGrids 2 halves (Cuts.round 2 1 Nat.one_pos (by decide))

/-- 17 particles in a cell along the wall `domainMax.y`, the last of them beyond the wall. -/
def oneBeyond : Option (State (Index 2 2 2) (Fin (2 * 1)) (Body ℚ)) :=
  initSim (fun _ => (0, 1, 0)) (fun _ _ => atRest 0) (fun _ => 0) (.head true)
    (List.replicate 16 (atRest 0) ++ [atRest (101 / 1000)])

theorem isSome_oneBeyond : oneBeyond.isSome = true := by decide +kernel

theorem processCollisions2MT_eq_iff_one : ∃ lists, Settled (oneBeyond.get isSome_oneBeyond) lists ∧
    ∃ s₁ s₂, processCollisions2 constants (oneBeyond.get isSome_oneBeyond) = some s₁ ∧
      inOrder (oneBeyond.get isSome_oneBeyond) (processCollisions2MT constants (oneBeyond.get isSome_oneBeyond)
        twoByTwo) [1, 0] = some s₂ ∧
      ((∀ c, s₁.particles c = s₂.particles c) ↔ ∀ (c : Index 2 2 2) (ps : List (Body ℚ)),
        c.2.1.val = 2 - 1 → (oneBeyond.get isSome_oneBeyond).particles c = some ps →
          ∀ (j : ℕ) (x : Body ℚ), ps[j]? = some x → constants.domainMax .y < x.p .y →
            ∀ b < j / 16, ∃ y : Body ℚ, ps[16 * b + 15]? = some y ∧ constants.domainMax .y < y.p .y) := by
  obtain ⟨lists, hs⟩ := settled_of_initSim (Option.some_get isSome_oneBeyond).symm
  exact ⟨lists, hs, processCollisions2MT_eq_iff constants (Nat.le_refl 2) (Nat.le_refl 2) (Nat.le_refl 2) hs twoByTwo
    (by decide) (by decide)⟩

/-- The serial pass leaves this particle beyond the wall. -/
theorem processCollisions2_stays : ∃ (s : State (Index 2 2 2) (Fin (2 * 1)) (Body ℚ))
    (lists : Place (Index 2 2 2) (Fin (2 * 1)) → List (Addr (Index 2 2 2))), Settled s lists ∧
      ∃ s₁ s₂, processCollisions2 constants s = some s₁ ∧
        inOrder s (processCollisions2MT constants s twoByTwo) [0, 1] = some s₂ ∧
        ∃ c, s₁.particles c ≠ s₂.particles c := by
  obtain ⟨lists, hs⟩ := settled_of_initSim (Option.some_get isSome_oneBeyond).symm
  obtain ⟨s₁, s₂, hs₁, hs₂, hiff⟩ := processCollisions2_iff constants (Nat.le_refl 2) (Nat.le_refl 2)
    (Nat.le_refl 2) hs twoByTwo [0, 1] (by decide) (by decide)
  refine ⟨_, lists, hs, s₁, s₂, hs₁, hs₂, not_forall.1 (mt hiff.1 fun h => ?_)⟩
  obtain ⟨ps, hps⟩ : ∃ ps, (oneBeyond.get isSome_oneBeyond).particles (0, 1, 0) = some ps :=
    Option.isSome_iff_exists.1 (by decide +kernel)
  have hmap : ((oneBeyond.get isSome_oneBeyond).particles (0, 1, 0)).map (List.map fun x => x.p .y) =
      some (List.replicate 16 0 ++ [101 / 1000]) := by decide +kernel
  rw [hps, Option.map_some, Option.some.injEq] at hmap
  have hget : ∀ j : ℕ, ps[j]?.map (fun x => x.p .y) = (List.replicate 16 0 ++ [(101 : ℚ) / 1000])[j]? := fun j => by
    rw [← List.getElem?_map, hmap]
  obtain ⟨x, hx, hpos⟩ := Option.map_eq_some_iff.1 ((hget 16).trans rfl)
  obtain ⟨y, hy, hbey⟩ := h (0, 1, 0) rfl ps hps 16 x hx (by rw [Beyond, hpos]; norm_num [constants]) 0 (by decide)
  have hzero := (hget 15).symm.trans (congrArg (Option.map fun x => x.p .y) hy)
  obtain hzero : 0 = y.p .y := Option.some.inj hzero
  rw [Beyond, ← hzero] at hbey
  norm_num [constants] at hbey

end Turkey.Fluid
