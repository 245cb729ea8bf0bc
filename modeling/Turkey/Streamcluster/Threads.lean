import Turkey.Schemes.Barriers
import Turkey.Streamcluster.Pgain

/-! `pgain` as its threads run it: every access to a variable that they share is a step of its own, and the threads
    meet at nine barriers.

    The working memory has a row for every thread and a global row behind them. A thread finds in it what an
    earlier phase has written: the count of its centers and then their offset, what its points would save by the
    closing of each center, and at the end of the row how many centers it would close and what that costs. -/

namespace Turkey.Pgain
open Turkey.ParallelFor Turkey.Barriers

/-- The variables that the threads share. -/
inductive Loc where
  | cost (i : ℕ)
  | assign (i : ℕ)
  | isCenter (i : ℕ)
  | centerTable (i : ℕ)
  | switchMembership (i : ℕ)
  | workMem (k : ℕ)
  | glCostOfOpeningX
  | glNumberOfCentersToClose
  | numcenters
  deriving DecidableEq

/-- What is at a place of the shared memory. -/
abbrev Val (K : Type) : Loc → Type
  | .cost _ => K
  | .assign _ => ℕ
  | .isCenter _ => Bool
  | .centerTable _ => ℕ
  | .switchMembership _ => Bool
  | .workMem _ => K
  | .glCostOfOpeningX => K
  | .glNumberOfCentersToClose => ℕ
  | .numcenters => ℤ

/-- The variables of a thread that it has in several phases, and what it returns. -/
structure Locals (K : Type) where
  stride : ℕ
  costOfOpeningX : K
  result : K

/-- A read of a shared variable. -/
abbrev load {K : Type} (l : Loc) : Prog Loc (Val K) (Val K l) := Prog.get l

/-- A write of a shared variable. -/
abbrev save {K : Type} (l : Loc) (v : Val K l) : Prog Loc (Val K) Unit := Prog.set l v

section Model
variable {K : Type} [CommRing K] [LinearOrder K] [FloorSemiring K] (c : Config K) (s : State K) (pid : ℕ)

/-- Thread 0 allocates the working memory. -/
def allocate : Prog Loc (Val K) (Locals K) := do
  let numcenters : ℤ ← load .numcenters
  if pid = 0 then
    save .glCostOfOpeningX 0
    save .glNumberOfCentersToClose 0
  return ⟨stride numcenters, 0, 0⟩

/-- The centers in the block of the thread, counted. -/
def countCenters (l : Locals K) : Prog Loc (Val K) (Locals K) := do
  let count ← (c.blocks.block pid).foldlM (fun (count : ℕ) i => do
    let isCenter : Bool ← load (.isCenter i)
    if isCenter then
      save (.centerTable i) count
      return count + 1
    else return count) 0
  save (.workMem (pid * l.stride)) (count : K)
  return l

/-- Thread 0 makes offsets of the counts. -/
def sumCounts (l : Locals K) : Prog Loc (Val K) (Locals K) := do
  if pid = 0 then
    let _ ← (List.range c.nproc).foldlM (fun (accum : ℕ) p => do
      let tmp : K ← load (.workMem (p * l.stride))
      save (.workMem (p * l.stride)) (accum : K)
      return accum + ⌊tmp⌋₊) 0
    return l
  else return l

/-- `memset` of a row of the working memory -/
def clearRow (stride row : ℕ) : Prog Loc (Val K) Unit :=
  (List.range stride).foldlM (fun _ k => save (.workMem (row * stride + k)) 0) ()

/-- Every center in the block of the thread gets its number in the table. -/
def placeCenters (l : Locals K) : Prog Loc (Val K) (Locals K) := do
  (c.blocks.block pid).foldlM (fun _ i => do
    let isCenter : Bool ← load (.isCenter i)
    if isCenter then
      let entry : ℕ ← load (.centerTable i)
      let offset : K ← load (.workMem (pid * l.stride))
      save (.centerTable i) (entry + ⌊offset⌋₊)
    else pure ()) ()
  (c.blocks.block pid).foldlM (fun _ i => save (.switchMembership i) false) ()
  clearRow l.stride pid
  if pid = 0 then clearRow l.stride c.nproc else pure ()
  return l

/-- The points of the block that are nearer to `x`, and what each center would gain by closing. -/
def lowerCenters (l : Locals K) : Prog Loc (Val K) (Locals K) := do
  let costOfOpeningX ← (c.blocks.block pid).foldlM (fun (costOfOpeningX : K) i => do
    let currentCost : K ← load (.cost i)
    if xCost c s i < currentCost then
      save (.switchMembership i) true
      return costOfOpeningX + (xCost c s i - currentCost)
    else
      let assign : ℕ ← load (.assign i)
      let entry : ℕ ← load (.centerTable assign)
      let lower : K ← load (.workMem (pid * l.stride + entry))
      save (.workMem (pid * l.stride + entry)) (lower + (currentCost - xCost c s i))
      return costOfOpeningX) l.costOfOpeningX
  return { l with costOfOpeningX := costOfOpeningX }

/-- What all threads have found for center `i`. -/
def lowAt (stride i : ℕ) : Prog Loc (Val K) K :=
  (List.range c.nproc).foldlM (fun (low : K) p => do
    let entry : ℕ ← load (.centerTable i)
    let lower : K ← load (.workMem (entry + p * stride))
    return low + lower) c.z

/-- The gain of a center, from the rows of all threads. -/
def closeCenter (stride : ℕ) (r : ℕ × K) (i : ℕ) : Prog Loc (Val K) (ℕ × K) := do
  let isCenter : Bool ← load (.isCenter i)
  if isCenter then
    let low ← lowAt c stride i
    let entry : ℕ ← load (.centerTable i)
    save (.workMem (c.nproc * stride + entry)) low
    return if 0 < low then (r.1 + 1, r.2 - low) else r
  else return r

/-- The centers of the block that are to be closed. -/
def closeCenters (l : Locals K) : Prog Loc (Val K) (Locals K) := do
  let r ← (c.blocks.block pid).foldlM (closeCenter c l.stride) (0, l.costOfOpeningX)
  save (.workMem (pid * l.stride + (l.stride - 2))) (r.1 : K)
  save (.workMem (pid * l.stride + (l.stride - 2 + 1))) r.2
  return l

/-- Thread 0 adds up what all threads have found. -/
def addCosts (l : Locals K) : Prog Loc (Val K) (Locals K) := do
  if pid = 0 then
    save .glCostOfOpeningX c.z
    (List.range c.nproc).foldlM (fun _ p => do
      let number : ℕ ← load .glNumberOfCentersToClose
      let closed : K ← load (.workMem (p * l.stride + (l.stride - 2)))
      save .glNumberOfCentersToClose (number + ⌊closed⌋₊)
      let cost : K ← load .glCostOfOpeningX
      let costOfOpeningX : K ← load (.workMem (p * l.stride + (l.stride - 2 + 1)))
      save .glCostOfOpeningX (cost + costOfOpeningX)) ()
    return l
  else return l

/-- The first loop of the opening. -/
def assignPoints (l : Locals K) : Prog Loc (Val K) Unit :=
  (c.blocks.block pid).foldlM (fun _ i => do
    let assign : ℕ ← load (.assign i)
    let entry : ℕ ← load (.centerTable assign)
    let low : K ← load (.workMem (c.nproc * l.stride + entry))
    let switch : Bool ← load (.switchMembership i)
    if switch ∨ 0 < low then
      save (.cost i) ((s.p i).weight * dist (s.p i) (s.p c.x) c.dim)
      save (.assign i) c.x
    else pure ()) ()

/-- The second loop of the opening. -/
def dropCenters (l : Locals K) : Prog Loc (Val K) Unit :=
  (c.blocks.block pid).foldlM (fun _ i => do
    let isCenter : Bool ← load (.isCenter i)
    if isCenter then
      let entry : ℕ ← load (.centerTable i)
      let low : K ← load (.workMem (c.nproc * l.stride + entry))
      if 0 < low then save (.isCenter i) false else pure ()
    else pure ()) ()

/-- The center is opened: the block of the thread is assigned anew. -/
def openCenterX (l : Locals K) : Prog Loc (Val K) Unit := do
  assignPoints c s pid l
  dropCenters c pid l
  if c.blocks.k1 pid ≤ c.x ∧ c.x < c.blocks.k2 pid then save (.isCenter c.x) true else pure ()
  if pid = 0 then
    let numcenters : ℤ ← load .numcenters
    let number : ℕ ← load .glNumberOfCentersToClose
    save .numcenters (numcenters + 1 - number)
  else pure ()

/-- The center is opened if that is cheaper. -/
def decideX (l : Locals K) : Prog Loc (Val K) (Locals K) := do
  let cost : K ← load .glCostOfOpeningX
  if cost < 0 then openCenterX c s pid l
  else if pid = 0 then save .glCostOfOpeningX 0
  else pure ()
  return l

/-- What the call returns. -/
def leave (l : Locals K) : Prog Loc (Val K) (Locals K) := do
  let cost : K ← load .glCostOfOpeningX
  return { l with result := -cost }

/-- The threads of `pgain`. `s` has the weights and coordinates of the points, which stay the same. -/
def team : Team c.nproc Loc (Val K) (Locals K) where
  phases := 9
  body j pid l :=
    match j with
    | 0 => allocate pid
    | 1 => countCenters c pid l
    | 2 => sumCounts c pid l
    | 3 => placeCenters c pid l
    | 4 => lowerCenters c s pid l
    | 5 => closeCenters c pid l
    | 6 => addCosts c pid l
    | 7 => decideX c s pid l
    | _ => leave l

/-- What the threads share. -/
structure Shared (K : Type) where
  state : State K
  workMem : ℕ → K
  glCostOfOpeningX : K
  glNumberOfCentersToClose : ℕ

/-- The shared memory with these values. -/
def Shared.mem (a : Shared K) : ∀ l, Val K l
  | .cost i => (a.state.p i).cost
  | .assign i => (a.state.p i).assign
  | .isCenter i => a.state.isCenter i
  | .centerTable i => a.state.centerTable i
  | .switchMembership i => a.state.switchMembership i
  | .workMem k => a.workMem k
  | .glCostOfOpeningX => a.glCostOfOpeningX
  | .glNumberOfCentersToClose => a.glNumberOfCentersToClose
  | .numcenters => a.state.numcenters

end Model

/-! ### Writes -/

section Writes
variable {K : Type} (a : Shared K) (i : ℕ)

/-- The memory after a write, place by place. -/
theorem mem_update {a' : Shared K} {l : Loc} {v : Val K l} (hl : a'.mem l = v)
    (hother : ∀ l' ≠ l, a'.mem l' = a.mem l') :
    Function.update a.mem l v = a'.mem := by
  funext l'
  rcases eq_or_ne l' l with rfl | hne
  · rw [Function.update_self, hl]
  · rw [Function.update_of_ne hne, hother l' hne]

@[simp] theorem mem_cost (v : K) : Function.update a.mem (.cost i) v = Shared.mem { a with state := { a.state with
    p := Function.update a.state.p i { a.state.p i with cost := v } } } := by
  refine mem_update a (by simp [Shared.mem]) fun l hl => ?_
  cases l with
  | cost j => simp [Shared.mem, Function.update_of_ne (show j ≠ i from fun h => hl (h ▸ rfl))]
  | assign j => rcases eq_or_ne j i with rfl | hj <;> simp [Shared.mem, *]
  | _ => rfl

@[simp] theorem mem_assign (v : ℕ) : Function.update a.mem (.assign i) v = Shared.mem { a with state := { a.state with
    p := Function.update a.state.p i { a.state.p i with assign := v } } } := by
  refine mem_update a (by simp [Shared.mem]) fun l hl => ?_
  cases l with
  | assign j => simp [Shared.mem, Function.update_of_ne (show j ≠ i from fun h => hl (h ▸ rfl))]
  | cost j => rcases eq_or_ne j i with rfl | hj <;> simp [Shared.mem, *]
  | _ => rfl

@[simp] theorem mem_isCenter (v : Bool) : Function.update a.mem (.isCenter i) v =
    Shared.mem { a with state := { a.state with isCenter := Function.update a.state.isCenter i v } } := by
  refine mem_update a (by simp [Shared.mem]) fun l hl => ?_
  cases l with
  | isCenter j => simp [Shared.mem, Function.update_of_ne (show j ≠ i from fun h => hl (h ▸ rfl))]
  | _ => rfl

@[simp] theorem mem_centerTable (v : ℕ) : Function.update a.mem (.centerTable i) v =
    Shared.mem { a with state := { a.state with centerTable := Function.update a.state.centerTable i v } } := by
  refine mem_update a (by simp [Shared.mem]) fun l hl => ?_
  cases l with
  | centerTable j => simp [Shared.mem, Function.update_of_ne (show j ≠ i from fun h => hl (h ▸ rfl))]
  | _ => rfl

@[simp] theorem mem_switchMembership (v : Bool) : Function.update a.mem (.switchMembership i) v =
    Shared.mem { a with
      state := { a.state with switchMembership := Function.update a.state.switchMembership i v } } := by
  refine mem_update a (by simp [Shared.mem]) fun l hl => ?_
  cases l with
  | switchMembership j => simp [Shared.mem, Function.update_of_ne (show j ≠ i from fun h => hl (h ▸ rfl))]
  | _ => rfl

@[simp] theorem mem_workMem (v : K) : Function.update a.mem (.workMem i) v =
    Shared.mem { a with workMem := Function.update a.workMem i v } := by
  refine mem_update a (by simp [Shared.mem]) fun l hl => ?_
  cases l with
  | workMem j => simp [Shared.mem, Function.update_of_ne (show j ≠ i from fun h => hl (h ▸ rfl))]
  | _ => rfl

@[simp] theorem mem_glCostOfOpeningX (v : K) :
    Function.update a.mem .glCostOfOpeningX v = Shared.mem { a with glCostOfOpeningX := v } :=
  mem_update a rfl fun l hl => by cases l <;> first | rfl | exact absurd rfl hl

@[simp] theorem mem_glNumberOfCentersToClose (v : ℕ) :
    Function.update a.mem .glNumberOfCentersToClose v = Shared.mem { a with glNumberOfCentersToClose := v } :=
  mem_update a rfl fun l hl => by cases l <;> first | rfl | exact absurd rfl hl

@[simp] theorem mem_numcenters (v : ℤ) : Function.update a.mem .numcenters v =
    Shared.mem { a with state := { a.state with numcenters := v } } :=
  mem_update a rfl fun l hl => by cases l <;> first | rfl | exact absurd rfl hl

end Writes

/-! ### The threads alone -/

section Alone
variable {K : Type} [CommRing K] {c : Config K} {s : State K} (pid : ℕ) (a : Shared K) (l : Locals K)

/-- The iterations of a thread. -/
def iterationsOf (c : Config K) (pid : ℕ) : List (ℕ × ℕ) := (c.blocks.block pid).map (Prod.mk pid)

theorem alone_allocate : (allocate pid).alone a.mem = (⟨stride a.state.numcenters, 0, 0⟩, Shared.mem
    (if pid = 0 then { a with glCostOfOpeningX := 0, glNumberOfCentersToClose := 0 } else a)) := by
  by_cases h : pid = 0
  · simp [allocate, h, Shared.mem]
  · simp [allocate, h, Shared.mem]

theorem alone_countCenters (t : Table) (ht : t.count pid = 0) (hs : a.state.isCenter = s.isCenter)
    (hat : a.state.centerTable = t.centerTable) :
    (countCenters c pid l).alone a.mem = (l, Shared.mem { a with
      state := { a.state with centerTable := ((iterationsOf c pid).foldl (countCenter s) t).centerTable }
      workMem := Function.update a.workMem (pid * l.stride)
        (((iterationsOf c pid).foldl (countCenter s) t).count pid : K) }) := by
  rw [countCenters, Prog.bind_eq, Prog.alone_bind,
    Prog.alone_foldlM_eq (x := t) (g := fun t i => countCenter s t (pid, i))
    (r := fun t => t.count pid)
    (e := fun t => Shared.mem { a with state := { a.state with centerTable := t.centerTable } }) ht.symm ?_ ?_]
  · rw [iterationsOf, List.foldl_map]
    simp
  · rw [← hat]
  · intro i _ t
    by_cases hi : s.isCenter i
    · simp [Shared.mem, hs, countCenter, hi]
    · simp [Shared.mem, hs, countCenter, hi]

theorem alone_clearRow (stride row : ℕ) : (clearRow stride row).alone a.mem = ((), Shared.mem { a with
    workMem := forEach (fun k => row * stride + k) (fun _ _ => 0) (List.range stride) a.workMem }) := by
  rw [clearRow, Prog.alone_foldlM_eq (x := a.workMem) (r := fun _ => ())
    (g := fun w k => Function.update w (row * stride + k) 0)
    (e := fun w => Shared.mem { a with workMem := w }) rfl rfl ?_]
  · rfl
  · simp

theorem alone_leave : (leave l).alone a.mem = ({ l with result := -a.glCostOfOpeningX }, a.mem) := by
  simp [leave, Shared.mem]

variable [LinearOrder K] [FloorSemiring K]

theorem alone_sumCounts : (sumCounts c pid l).alone a.mem = (l, Shared.mem
    (if pid = 0 then { a with workMem := (offsets c l.stride a.workMem).1 } else a)) := by
  by_cases h : pid = 0
  · simp only [sumCounts, if_pos h]
    rw [Prog.bind_eq, Prog.alone_bind, Prog.alone_foldlM_eq (x := (a.workMem, 0)) (r := Prod.snd)
      (e := fun x => Shared.mem { a with workMem := x.1 })
      (g := fun (x : (ℕ → K) × ℕ) p => (Function.update x.1 (p * l.stride) (x.2 : K),
        x.2 + ⌊x.1 (p * l.stride)⌋₊)) ?_ ?_ ?_]
    · rfl
    · rfl
    · rfl
    · simp [Shared.mem]
  · simp only [sumCounts, if_neg h]
    rfl

theorem alone_placeCenters (hs : a.state.isCenter = s.isCenter) : (placeCenters c pid l).alone a.mem =
    (l, Shared.mem { a with
    state := { a.state with
      centerTable := forEach Prod.snd (fun q entry =>
        if s.isCenter q.2 then entry + ⌊a.workMem (pid * l.stride)⌋₊ else entry)
          (iterationsOf c pid) a.state.centerTable
      switchMembership := forEach Prod.snd (fun _ _ => false) (iterationsOf c pid) a.state.switchMembership }
    workMem :=
      let w := forEach (fun k => pid * l.stride + k) (fun _ _ => 0) (List.range l.stride) a.workMem
      if pid = 0 then forEach (fun k => c.nproc * l.stride + k) (fun _ _ => 0) (List.range l.stride) w else w }) := by
  simp only [placeCenters, Prog.bind_eq, Prog.alone_bind]
  rw [Prog.alone_foldlM_eq (x := a.state.switchMembership) (r := fun _ => ())
      (e := fun w => Shared.mem { a with state := { a.state with
        centerTable := forEach Prod.snd (fun q entry =>
          if s.isCenter q.2 then entry + ⌊a.workMem (pid * l.stride)⌋₊ else entry)
            (iterationsOf c pid) a.state.centerTable
        switchMembership := w } })
      (g := fun w i => Function.update w i false) ?_ ?_ ?_]
  · dsimp only
    rw [alone_clearRow]
    by_cases h : pid = 0
    · simp only [if_pos h, Prog.alone_bind]
      rw [alone_clearRow]
      simp [iterationsOf, forEach, List.foldl_map]
    · simp [h, iterationsOf, forEach, List.foldl_map]
  · rfl
  · rw [Prog.alone_foldlM_eq (x := a.state.centerTable) (r := fun _ => ())
      (e := fun t => Shared.mem { a with state := { a.state with centerTable := t } })
      (g := fun t i => Function.update t i (if s.isCenter i then t i + ⌊a.workMem (pid * l.stride)⌋₊
        else t i)) ?_ ?_ ?_]
    · simp [iterationsOf, forEach, List.foldl_map]
    · rfl
    · rfl
    · intro i _ t
      by_cases hi : s.isCenter i
      · simp [Shared.mem, hs, hi]
      · simp [Shared.mem, hs, hi]
  · simp

variable {table : ℕ → ℕ} (hstride : l.stride = stride s.numcenters) (htable : a.state.centerTable = table)
include hstride htable

omit [FloorSemiring K] in
theorem alone_lowerCenters (x : Lower K) (hp : a.state.p = s.p)
    (hswitch : a.state.switchMembership = x.switchMembership)
    (hwork : a.workMem = x.workMem) (hcost : l.costOfOpeningX = x.costOfOpeningX pid) :
    (lowerCenters c s pid l).alone a.mem =
      ({ l with costOfOpeningX := ((iterationsOf c pid).foldl (lowerStep c s table) x).costOfOpeningX pid },
        Shared.mem { a with
        state := { a.state with
          switchMembership := ((iterationsOf c pid).foldl (lowerStep c s table) x).switchMembership }
        workMem := ((iterationsOf c pid).foldl (lowerStep c s table) x).workMem }) := by
  rw [lowerCenters, Prog.bind_eq, Prog.alone_bind, Prog.alone_foldlM_eq (x := x) (r := fun x => x.costOfOpeningX pid)
    (g := fun x i => lowerStep c s table x (pid, i))
    (e := fun x => Shared.mem { a with
      state := { a.state with switchMembership := x.switchMembership }, workMem := x.workMem }) ?_ ?_ ?_]
  · rw [iterationsOf, List.foldl_map]
    rfl
  · exact hcost
  · rw [← hswitch, ← hwork]
  · intro i _ x
    by_cases hi : xCost c s i < (s.p i).cost
    · have step : lowerStep c s table x (pid, i) = { x with
          switchMembership := Function.update x.switchMembership i true
          costOfOpeningX := Function.update x.costOfOpeningX pid
            (x.costOfOpeningX pid + (xCost c s i - (s.p i).cost)) } := if_pos hi
      simp [Shared.mem, hp, hi, step]
    · have step : lowerStep c s table x (pid, i) = { x with
          workMem := Function.update x.workMem (pid * stride s.numcenters + table (s.p i).assign)
            (x.workMem (pid * stride s.numcenters + table (s.p i).assign) + ((s.p i).cost - xCost c s i)) } :=
        if_neg hi
      simp [Shared.mem, hp, hi, step, hstride, htable]

omit [FloorSemiring K] [LinearOrder K] in
theorem alone_lowAt (i : ℕ) : (lowAt c l.stride i).alone a.mem = (lowOf c s table a.workMem i, a.mem) := by
  refine Prog.alone_foldlM_eq (x := c.z) (r := id) (e := fun _ => a.mem)
    (g := fun low p => low + a.workMem (table i + p * stride s.numcenters)) rfl rfl ?_
  simp [Shared.mem, hstride, htable]

omit [FloorSemiring K] in
theorem alone_closeCenters (x : Close K) (hcenter : a.state.isCenter = s.isCenter) (hwork : a.workMem = x.workMem)
    (hnumber : x.numberOfCentersToClose pid = 0) (hcost : l.costOfOpeningX = x.costOfOpeningX pid) :
    (closeCenters c pid l).alone a.mem = (l, Shared.mem { a with
      workMem := Function.update (Function.update ((iterationsOf c pid).foldl (closeStep c s table) x).workMem
        (pid * l.stride + (l.stride - 2))
        (((iterationsOf c pid).foldl (closeStep c s table) x).numberOfCentersToClose pid : K))
        (pid * l.stride + (l.stride - 2 + 1)) (((iterationsOf c pid).foldl
          (closeStep c s table) x).costOfOpeningX pid) }) := by
  rw [closeCenters, Prog.bind_eq, Prog.alone_bind, Prog.alone_foldlM_eq (x := x)
    (r := fun x => (x.numberOfCentersToClose pid, x.costOfOpeningX pid))
    (g := fun x i => closeStep c s table x (pid, i))
    (e := fun x => Shared.mem { a with workMem := x.workMem }) ?_ ?_ ?_]
  · rw [iterationsOf, List.foldl_map]
    simp
  · rw [hnumber, hcost]
  · rw [← hwork]
  · intro i _ x
    by_cases hi : s.isCenter i
    · have hlow : (lowAt c l.stride i).alone (Shared.mem { a with workMem := x.workMem }) =
          (lowOf c s table x.workMem i, Shared.mem { a with workMem := x.workMem }) :=
        alone_lowAt { a with workMem := x.workMem } l hstride htable i
      simp only [hstride] at hlow
      by_cases hpos : 0 < lowOf c s table x.workMem i
      · have step : closeStep c s table x (pid, i) = ⟨Function.update x.workMem
            (c.nproc * stride s.numcenters + table i) (lowOf c s table x.workMem i),
            Function.update x.numberOfCentersToClose pid (x.numberOfCentersToClose pid + 1),
            Function.update x.costOfOpeningX pid (x.costOfOpeningX pid - lowOf c s table x.workMem i)⟩ := by
          simp only [closeStep, hi, hpos, if_true]
        simp [closeCenter, Shared.mem, hcenter, hi, hlow, hpos, step, hstride, htable]
      · have step : closeStep c s table x (pid, i) = ⟨Function.update x.workMem
            (c.nproc * stride s.numcenters + table i) (lowOf c s table x.workMem i),
            x.numberOfCentersToClose, x.costOfOpeningX⟩ := by
          simp only [closeStep, hi, hpos, if_true, if_false]
        simp [closeCenter, Shared.mem, hcenter, hi, hlow, hpos, step, hstride, htable]
    · simp [closeCenter, Shared.mem, hcenter, closeStep, hi]

omit hstride htable in
/-- Two loops in one. -/
theorem foldl_mk {α β : Type} (f : α → ℕ → α) (g : β → ℕ → β) : ∀ (l : List ℕ) (x : α) (y : β),
    l.foldl (fun r i => (f r.1 i, g r.2 i)) (x, y) = (l.foldl f x, l.foldl g y)
  | [], _, _ => rfl
  | i :: l, x, y => foldl_mk f g l (f x i) (g y i)

omit htable in
theorem alone_addCosts (hwork : a.workMem = results c s table) (hnumber : a.glNumberOfCentersToClose = 0) :
    (addCosts c pid l).alone a.mem = (l, Shared.mem (if pid = 0 then { a with
      glCostOfOpeningX := glCostOfOpeningX c s table
      glNumberOfCentersToClose := glNumberOfCentersToClose c s table } else a)) := by
  by_cases h : pid = 0
  · simp only [addCosts, if_pos h, Prog.bind_eq, Prog.alone_bind]
    rw [Prog.alone_foldlM_eq (x := ((0 : ℕ), c.z)) (r := fun _ => ())
      (e := fun x => Shared.mem { a with glNumberOfCentersToClose := x.1, glCostOfOpeningX := x.2 })
      (g := fun x p => (x.1 + ⌊results c s table (p * stride s.numcenters + (stride s.numcenters - 2))⌋₊,
        x.2 + results c s table (p * stride s.numcenters + (stride s.numcenters - 2 + 1)))) ?_ ?_ ?_]
    · rw [foldl_mk (fun n p => n + ⌊results c s table (p * stride s.numcenters + (stride s.numcenters - 2))⌋₊)
        fun cost p => cost + results c s table (p * stride s.numcenters + (stride s.numcenters - 2 + 1))]
      rfl
    · rfl
    · simp [← hnumber]
    · simp [Shared.mem, hwork, hstride]
  · simp only [addCosts, if_neg h]
    rfl

omit [FloorSemiring K] in
theorem alone_assignPoints (hwork : a.workMem = results c s table)
    (hswitch : a.state.switchMembership = (lower c s table).switchMembership) :
    (assignPoints c s pid l).alone a.mem = ((), Shared.mem { a with state := { a.state with
      p := forEach Prod.snd (fun q p =>
        if (lower c s table).switchMembership q.2 = true ∨ 0 < glLower c s table p.assign then
          { p with cost := (s.p q.2).weight * dist (s.p q.2) (s.p c.x) c.dim, assign := c.x }
        else p) (iterationsOf c pid) a.state.p } }) := by
  rw [assignPoints, Prog.alone_foldlM_eq (x := a.state.p) (r := fun _ => ())
    (e := fun w => Shared.mem { a with state := { a.state with p := w } })
    (g := fun w i => Function.update w i
      (if (lower c s table).switchMembership i = true ∨ 0 < glLower c s table (w i).assign then
        { w i with cost := (s.p i).weight * dist (s.p i) (s.p c.x) c.dim, assign := c.x }
      else w i)) rfl rfl ?_]
  · rw [iterationsOf, forEach, List.foldl_map]
  · intro i _ w
    dsimp only
    by_cases hi : (lower c s table).switchMembership i = true ∨ 0 < glLower c s table (w i).assign
    · rw [if_pos hi]
      simp only [glLower] at hi
      simp [Shared.mem, hwork, hswitch, hstride, htable, hi]
    · rw [if_neg hi, Function.update_eq_self]
      simp only [glLower] at hi
      simp [Shared.mem, hwork, hswitch, hstride, htable, hi]

omit [FloorSemiring K] in
theorem alone_dropCenters (hwork : a.workMem = results c s table) :
    (dropCenters c pid l).alone a.mem = ((), Shared.mem { a with state := { a.state with
      isCenter := forEach Prod.snd (fun q (isCenter : Bool) =>
        if isCenter ∧ 0 < glLower c s table q.2 then false else isCenter)
          (iterationsOf c pid) a.state.isCenter } }) := by
  rw [dropCenters, Prog.alone_foldlM_eq (x := a.state.isCenter) (r := fun _ => ())
    (e := fun w => Shared.mem { a with state := { a.state with isCenter := w } })
    (g := fun w i => Function.update w i (if w i ∧ 0 < glLower c s table i then false else w i)) rfl rfl ?_]
  · rw [iterationsOf, forEach, List.foldl_map]
  · intro i _ w
    dsimp only
    by_cases hc : w i = true ∧ 0 < glLower c s table i
    · rw [if_pos hc]
      simp only [glLower] at hc
      simp [Shared.mem, hwork, hstride, htable, hc]
    · rw [if_neg hc, Function.update_eq_self]
      by_cases hw : w i
      · simp only [glLower, hw, true_and] at hc
        simp [Shared.mem, hwork, hstride, htable, hw, hc]
      · simp [Shared.mem, hw]

omit [FloorSemiring K] in
theorem alone_openCenterX (hwork : a.workMem = results c s table)
    (hswitch : a.state.switchMembership = (lower c s table).switchMembership) :
    (openCenterX c s pid l).alone a.mem = ((), Shared.mem { a with state := { a.state with
      p := forEach Prod.snd (fun q p =>
        if (lower c s table).switchMembership q.2 = true ∨ 0 < glLower c s table p.assign then
          { p with cost := (s.p q.2).weight * dist (s.p q.2) (s.p c.x) c.dim, assign := c.x }
        else p) (iterationsOf c pid) a.state.p
      isCenter :=
        let isCenter := forEach Prod.snd (fun q (isCenter : Bool) =>
          if isCenter ∧ 0 < glLower c s table q.2 then false else isCenter) (iterationsOf c pid) a.state.isCenter
        if c.blocks.k1 pid ≤ c.x ∧ c.x < c.blocks.k2 pid then Function.update isCenter c.x true else isCenter
      numcenters :=
        if pid = 0 then a.state.numcenters + 1 - a.glNumberOfCentersToClose else a.state.numcenters } }) := by
  rw [openCenterX, Prog.bind_eq, Prog.alone_bind, alone_assignPoints pid a l hstride htable hwork hswitch]
  rw [Prog.bind_eq, Prog.alone_bind, @alone_dropCenters K _ c s pid _ l _ table hstride ?_ ?_]
  · by_cases hx : c.blocks.k1 pid ≤ c.x ∧ c.x < c.blocks.k2 pid
    · by_cases h : pid = 0
      · simp only [if_pos hx, if_pos h]
        simp [Shared.mem]
      · simp [hx, h]
    · by_cases h : pid = 0
      · simp only [if_neg hx, if_pos h]
        simp [Shared.mem]
      · simp [hx, h]
  · exact htable
  · exact hwork

omit hstride htable [FloorSemiring K] in
/-- Nothing is saved: thread 0 sets the cost to 0. -/
theorem alone_decideX_of_not (h : ¬a.glCostOfOpeningX < 0) : (decideX c s pid l).alone a.mem =
    (l, Shared.mem (if pid = 0 then { a with glCostOfOpeningX := 0 } else a)) := by
  have hcost : ¬a.mem .glCostOfOpeningX < (0 : K) := h
  by_cases hpid : pid = 0
  · simp [decideX, hcost, hpid]
  · simp [decideX, hcost, hpid]

omit hstride htable [FloorSemiring K] in
theorem alone_decideX (h : a.glCostOfOpeningX < 0) :
    (decideX c s pid l).alone a.mem = (l, ((openCenterX c s pid l).alone a.mem).2) := by
  have hcost : a.mem .glCostOfOpeningX < (0 : K) := h
  simp [decideX, hcost]

end Alone
end Turkey.Pgain
