import Turkey.Fluidanimate.Cellpool

/-! The rebuilding of the grid (`RebuildGrid` of the serial version, `RebuildGridMT` of the others): every particle
    of the lists of `cells2` is copied to the list of the cell of `cells` that its position is in, and the
    structures of the old lists are given back to the pool of the thread as soon as they have been read, so
    that the new lists can use them.

    A step of a thread is the part of the loop between two accesses to what it shares with other threads: it
    takes the lock of the cell if that is a border cell, reads the end of the list, takes a new structure,
    counts the particle and releases the lock, copies the particle. The serial version is one thread that does
    all cells and takes no lock. -/

namespace Turkey.Fluid

/-- How the cells are divided among the threads: `work t` are the cells whose lists thread `t` reads, in this
    order. `cfl i d` is what the check of a particle that goes from `i` to `d` demands. A cell that is not a
    border cell is reached by particles of one thread only. -/
structure Mode (I T : Type*) where
  border : I → Bool
  cfl : I → I → Bool
  work : T → List I
  nodup : ∀ t, (work t).Nodup
  all : ∀ i, ∃ t, i ∈ work t
  only : ∀ i t t', i ∈ work t → i ∈ work t' → t = t'
  exclusive : ∀ d i i' t t', border d = false → cfl i d → cfl i' d → i ∈ work t → i' ∈ work t' → t = t'

/-- The variables of a thread in the list of cell `index2`; `rest` are the cells that come after it. -/
structure Local (I : Type*) where
  index2 : I
  cell2 : Option (Addr I)
  j : ℕ
  rest : List I
  deriving DecidableEq

/-- What a thread has done for the particle it is at. -/
inductive Stage (I : Type*) where
  | entered
  | loaded (cell : Addr I) (np : ℕ)
  | grown (cell : Addr I) (np : ℕ)
  | counted (cell : Addr I) (np : ℕ)
  deriving DecidableEq

inductive Pc (I : Type*) where
  | idle (rest : List I)
  | loop (v : Local I)
  | move (v : Local I) (index : I) (stage : Stage I)
  deriving DecidableEq

/-- `cells` is the array of this number, `cells2` the other one; `cnumPars` and `cnumPars2` go with them. -/
structure State (I T P : Type*) where
  mem : Mem I T P
  cells : Bool
  cnumPars : Bool → I → ℕ
  last : I → Addr I
  lock : I → Option T
  pc : T → Pc I

variable {I T P : Type*} [DecidableEq I] [DecidableEq T]

def State.setPc (s : State I T P) (t : T) (pc : Pc I) : State I T P := { s with pc := Function.update s.pc t pc }

/-- The number of particles in a cell. -/
def State.num (s : State I T P) (i : I) : ℕ := s.cnumPars s.cells i

section Step
variable (bin : P → I) (mode : Mode I T) (s : State I T P) (t : T)

/-- The destination of the next particle, and the lock of a border cell; `none` while it is taken, and after
    an exit because of the check. -/
def enter (v : Local I) : Option (State I T P) :=
  v.cell2.bind fun cell2 =>
    let index := bin (s.mem.slot cell2 (v.j % 16))
    if mode.cfl v.index2 index then
      if mode.border index then
        if s.lock index = none then
          some { s.setPc t (.move v index .entered) with lock := Function.update s.lock index (some t) }
        else none
      else some (s.setPc t (.move v index .entered))
    else none

/-- A new structure if the last one is full. -/
def grow (v : Local I) (index : I) (cell : Addr I) (np : ℕ) : Option (State I T P) :=
  if np % 16 = 0 ∧ s.num index ≠ 0 then
    (cellpoolGetcell s.mem t).map fun (new, m) => { s.setPc t (.move v index (.grown new np)) with
      mem := { m with next := Function.update m.next cell (some new) }
      last := Function.update s.last index new }
  else some (s.setPc t (.move v index (.grown cell np)))

/-- The counter of the cell, and the end of the critical section. -/
def count (v : Local I) (index : I) (cell : Addr I) (np : ℕ) : State I T P :=
  { s.setPc t (.move v index (.counted cell np)) with
    cnumPars := Function.update s.cnumPars s.cells (Function.update (s.cnumPars s.cells) index (s.num index + 1))
    lock := if mode.border index then Function.update s.lock index none else s.lock }

/-- The structure `cell2`, which has been read, goes to the pool unless it is an entry of the array. -/
def giveBack (m : Mem I T P) (v : Local I) (cell2 : Addr I) : Mem I T P :=
  if cell2 = .head (!s.cells) v.index2 then m else cellpoolReturncell m t cell2

/-- The copy, and the pointer to the next structure at the end of one. -/
def copy (v : Local I) (cell : Addr I) (np : ℕ) (cell2 : Addr I) : State I T P :=
  let x := s.mem.slot cell2 (v.j % 16)
  let m := { s.mem with slot := Function.update s.mem.slot cell (Function.update (s.mem.slot cell) (np % 16) x) }
  if v.j % 16 = 15 then
    { s.setPc t (.loop { v with cell2 := m.next cell2, j := v.j + 1 }) with mem := giveBack s t m v cell2 }
  else { s.setPc t (.loop { v with j := v.j + 1 }) with mem := m }

/-- The last structure of a list. -/
def finish (v : Local I) : State I T P :=
  { s.setPc t (.idle v.rest) with
    mem := match v.cell2 with
      | none => s.mem
      | some cell2 => giveBack s t s.mem v cell2 }

def step : Option (State I T P) :=
  match s.pc t with
  | .idle [] => none
  | .idle (i :: rest) => some (s.setPc t (.loop ⟨i, some (.head (!s.cells) i), 0, rest⟩))
  | .loop v => if v.j < s.cnumPars (!s.cells) v.index2 then enter bin mode s t v else some (finish s t v)
  | .move v index .entered => some (s.setPc t (.move v index (.loaded (s.last index) (s.num index))))
  | .move v index (.loaded cell np) => grow s t v index cell np
  | .move v index (.grown cell np) => some (count mode s t v index cell np)
  | .move v _ (.counted cell np) => v.cell2.map (copy s t v cell np)

end Step

end Turkey.Fluid
