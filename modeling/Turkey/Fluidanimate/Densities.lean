import Mathlib.Algebra.BigOperators.Ring.Finset
import Turkey.Fluidanimate.Tiling
import Turkey.Fluidanimate.Walls
import Turkey.Schemes.Accumulate

/-! The density pass of `ComputeForces`, and `ComputeDensitiesMT`.

    The pass looks at each particle of a cell together with the particles of this cell and of the neighbouring
    cells with a smaller index. In order to count a pair once it compares the addresses of the two positions:
    the pair is taken if that of the neighbour is the smaller one. In the threaded version the addition to a
    density of a border cell is made under a mutex. Numbers are exact. -/

namespace Turkey.Fluid
open Turkey.Chains Turkey.Accumulate

section Model
variable {nx ny nz : ℕ}

/-- The place of a cell in the arrays. -/
def number (c : Index nx ny nz) : ℕ := (c.1.val * ny + c.2.1.val) * nx + c.2.2.val

/-- Where the structures are in memory. They do not overlap, and those of an array are in its order. -/
structure Layout (nx ny nz : ℕ) where
  loc : Addr (Index nx ny nz) → ℕ
  sizeofCell : ℕ
  sizeofVec3 : ℕ
  pos : 0 < sizeofVec3
  fits : 16 * sizeofVec3 ≤ sizeofCell
  apart : ∀ a b, a ≠ b → loc a + sizeofCell ≤ loc b ∨ loc b + sizeofCell ≤ loc a
  array : Bool → ℕ
  heads : ∀ b c, loc (.head b c) = array b + sizeofCell * number c

/-- A slot of a structure. -/
abbrev Slot (nx ny nz : ℕ) := Addr (Index nx ny nz) × ℕ

/-- `&cell->p[k]` -/
def Layout.address (L : Layout nx ny nz) (x : Slot nx ny nz) : ℕ := L.loc x.1 + L.sizeofVec3 * x.2

/-- A particle that a loop has come to: its cell, its number in the cell and its slot. -/
structure Seen (nx ny nz : ℕ) where
  cell : Index nx ny nz
  par : ℕ
  slot : Slot nx ny nz
  deriving DecidableEq

def Seen.key (x : Seen nx ny nz) : Index nx ny nz × ℕ := (x.cell, x.par)

/-- The loop over the next `n` particles of a list from particle `j` on. -/
def slots {I : Type*} (next : Addr I → Option (Addr I)) : ℕ → ℕ → Option (Addr I) → Option (List (Addr I × ℕ))
  | 0, _, _ => some []
  | n + 1, j, cell => cell.bind fun c =>
    (slots next n (j + 1) (if j % 16 = 15 then next c else some c)).map ((c, j % 16) :: ·)

/-- A cell with these coordinates. -/
def cellAt (k j i : ℤ) : Option (Index nx ny nz) :=
  if h : (0 ≤ k ∧ k < nz) ∧ (0 ≤ j ∧ j < ny) ∧ 0 ≤ i ∧ i < nx then
    some (⟨k.toNat, by omega⟩, ⟨j.toNat, by omega⟩, ⟨i.toNat, by omega⟩)
  else none

/-- `GetNeighborCells` (and `InitNeighCellList`): the cell itself, and its neighbours of smaller index that have
    particles. -/
def getNeighborCells (cnumPars : Index nx ny nz → ℕ) (c : Index nx ny nz) : List (Index nx ny nz) :=
  c :: ([-1, 0, 1] ×ˢ [-1, 0, 1] ×ˢ [-1, 0, 1]).filterMap fun (di, dj, dk) =>
    (cellAt (c.1.val + dk) (c.2.1.val + dj) (c.2.2.val + di)).filter fun d =>
      number d < number c ∧ cnumPars d ≠ 0

variable {T K : Type*} [Field K] [LinearOrder K]

def getLengthSq (v : Vec3 K) : K := v .x * v .x + v .y * v .y + v .z * v .z

variable (L : Layout nx ny nz) (hSq : K) (s : State (Index nx ny nz) T (Body K))

/-- The particles of a cell, as the loops come to them. -/
def State.seen (c : Index nx ny nz) : Option (List (Seen nx ny nz)) :=
  (slots s.mem.next (s.num c) 0 (some (.head s.cells c))).map (List.mapIdx fun j x => ⟨c, j, x⟩)

def State.distSq (x y : Slot nx ny nz) : K := getLengthSq ((s.mem.slot x.1 x.2).p - (s.mem.slot y.1 y.2).p)

/-- The pairs for which the body of the loops does its two additions, for the particles of a cell. -/
def cellPairs (c : Index nx ny nz) : Option (List (Seen nx ny nz × Seen nx ny nz)) :=
  if s.num c = 0 then some []
  else
    (s.seen c).bind fun cell => ((getNeighborCells s.num c).mapM s.seen).map fun neighs =>
      cell.flatMap fun x => neighs.flatMap fun neigh =>
        (neigh.filter fun y => L.address y.slot < L.address x.slot ∧ s.distSq x.slot y.slot < hSq).map (Prod.mk x)

/-- The two additions of a pair. A density of a border cell has a mutex. -/
def pairAdditions (border : Index nx ny nz → Bool) (p : Seen nx ny nz × Seen nx ny nz) :
    List (Addition (Slot nx ny nz) (Index nx ny nz × ℕ) K) :=
  let t := hSq - s.distSq p.1.slot p.2.slot
  let tc := t * t * t
  let mutex (x : Seen nx ny nz) := if border x.cell then some (x.cell, x.par % 128) else none
  [⟨p.1.slot, mutex p.1, tc⟩, ⟨p.2.slot, mutex p.2, tc⟩]

/-- The pairs of these cells, in this order. -/
def cellsPairs (cells : List (Index nx ny nz)) : Option (List (Seen nx ny nz × Seen nx ny nz)) :=
  (cells.mapM (cellPairs L hSq s)).map List.flatten

/-- The cells in the order of the arrays. -/
def allCells : List (Index nx ny nz) := List.finRange nz ×ˢ List.finRange ny ×ˢ List.finRange nx

/-- The loop that sets the densities of these cells to zero. -/
def initDensities (cells : List (Index nx ny nz)) (density : Slot nx ny nz → K) : Option (Slot nx ny nz → K) :=
  (cells.mapM s.seen).map fun l => l.flatten.foldl (fun density x => Function.update density x.slot 0) density

/-- The density pass of `ComputeForces`. -/
def computeDensities (density : Slot nx ny nz → K) : Option (Slot nx ny nz → K) :=
  (initDensities s allCells density).bind fun density => (cellsPairs L hSq s allCells).map fun ps =>
    addAll (ps.flatMap (pairAdditions hSq s fun _ => false)) density

variable [NeZero nx] [NeZero ny] [NeZero nz] [Fintype T]

/-- What a thread adds in `ComputeDensitiesMT`. -/
def threadAdditions (gs : Grids nx ny nz T) (t : T) :
    Option (List (Addition (Slot nx ny nz) (Index nx ny nz × ℕ) K)) :=
  (cellsPairs L hSq s (gs.grid t).cells).map (List.flatMap (pairAdditions hSq s gs.border))

end Model

/-! ### The loops -/

section Loops
variable {nx ny nz : ℕ} {T K : Type*} {s : State (Index nx ny nz) T (Body K)}
  {lists : Place (Index nx ny nz) T → List (Addr (Index nx ny nz))}

theorem number_lt {c d : Index nx ny nz} : number c < number d ↔ c.1.val < d.1.val ∨ c.1.val = d.1.val ∧
    (c.2.1.val < d.2.1.val ∨ c.2.1.val = d.2.1.val ∧ c.2.2.val < d.2.2.val) := by
  obtain ⟨k, j, i⟩ := c
  obtain ⟨k', j', i'⟩ := d
  have hflat : ∀ {n : ℕ} (a b : ℕ) (i j : Fin n), a * n + i.val < b * n + j.val ↔ a < b ∨ a = b ∧ i.val < j.val := by
    intro n a b i j
    have hi := i.isLt
    have hj := j.isLt
    rcases Nat.lt_trichotomy a b with h | rfl | h
    · have := Nat.mul_le_mul_right n (Nat.succ_le_of_lt h)
      rw [Nat.succ_mul] at this
      exact iff_of_true (by omega) (.inl h)
    · omega
    · have := Nat.mul_le_mul_right n (Nat.succ_le_of_lt h)
      rw [Nat.succ_mul] at this
      exact iff_of_false (by omega) (by omega)
  have hinj : ∀ {n : ℕ} (a b : ℕ) (i j : Fin n), a * n + i.val = b * n + j.val ↔ a = b ∧ i.val = j.val := by
    intro n a b i j
    have h₁ := hflat a b i j
    have h₂ := hflat b a j i
    omega
  rw [number, number, hflat, hflat, hinj]
  omega

theorem number_injective : Function.Injective (number : Index nx ny nz → ℕ) := by
  intro c d h
  have h₁ := mt number_lt.2 (Nat.lt_irrefl _ ∘ (h ▸ ·) : ¬number c < number d)
  have h₂ := mt number_lt.2 (Nat.lt_irrefl _ ∘ (h ▸ ·) : ¬number d < number c)
  obtain ⟨k, j, i⟩ := c
  obtain ⟨k', j', i'⟩ := d
  simp only [Prod.mk.injEq, Fin.ext_iff]
  dsimp only at h₁ h₂
  omega

/-- The slot of a particle. -/
def slotOf (lists : Place (Index nx ny nz) T → List (Addr (Index nx ny nz))) (s : State (Index nx ny nz) T (Body K))
    (X : Index nx ny nz × ℕ) : Slot nx ny nz :=
  ((lists (.dst X.1))[X.2 / 16]?.getD (.head s.cells X.1), X.2 % 16)

theorem slots_eq {I : Type*} {next : Addr I → Option (Addr I)} {l : List (Addr I)} (hl : Linked next l)
    (a₀ : Addr I) :
    ∀ n j, (∀ k < j + n, k / 16 < l.length) → slots next n j l[j / 16]? =
      some ((List.range' j n).map fun k => (l[k / 16]?.getD a₀, k % 16))
  | 0, _, _ => rfl
  | n + 1, j, hlen => by
    have hlt := hlen j (by omega)
    have ha : l[j / 16]? = some l[j / 16] := List.getElem?_eq_getElem hlt
    have hnext : (if j % 16 = 15 then next l[j / 16] else some l[j / 16]) = l[(j + 1) / 16]? := by
      split_ifs with h15
      · rw [hl.next_eq ha, show (j + 1) / 16 = j / 16 + 1 by omega]
      · rw [← ha, show (j + 1) / 16 = j / 16 by omega]
    rw [slots, ha, Option.bind_some, hnext, slots_eq hl a₀ n (j + 1) fun k hk => hlen k (by omega)]
    simp [List.range'_succ, ha]

/-- The particles of a cell. -/
def seenOf (lists : Place (Index nx ny nz) T → List (Addr (Index nx ny nz))) (s : State (Index nx ny nz) T (Body K))
    (c : Index nx ny nz) : List (Seen nx ny nz) :=
  (List.range (s.num c)).map fun j => ⟨c, j, slotOf lists s (c, j)⟩

theorem Settled.seen (hs : Settled s lists) (c : Index nx ny nz) : s.seen c = some (seenOf lists s c) := by
  obtain ⟨l, hl, -⟩ := hs.dst c
  have hhead : some (.head s.cells c) = (lists (.dst c))[0 / 16]? := by rw [hl]; rfl
  have hlen : ∀ k < 0 + s.num c, k / 16 < (lists (.dst c)).length := fun k hk => by
    rw [hs.length]
    exact lt_blocks (by omega)
  rw [State.seen, hhead, slots_eq (hs.owned.places.linked (.dst c)) (.head s.cells c) _ 0 hlen, Option.map_some,
    Option.some.injEq, seenOf, ← List.range_eq_range']
  refine List.ext_getElem (by simp) fun j _ _ => ?_
  simp [slotOf]

/-- Different particles are in different slots. -/
theorem Settled.slotOf_inj (hs : Settled s lists) {X Y : Index nx ny nz × ℕ} (hX : X.2 < s.num X.1)
    (hY : Y.2 < s.num Y.1) (h : slotOf lists s X = slotOf lists s Y) : X = Y := by
  have hget : ∀ {X : Index nx ny nz × ℕ}, X.2 < s.num X.1 →
      (lists (.dst X.1))[X.2 / 16]? = some (slotOf lists s X).1 := by
    intro X hX
    have hlt : X.2 / 16 < (lists (.dst X.1)).length := by
      rw [hs.length]
      exact lt_blocks hX
    simp [slotOf, List.getElem?_eq_getElem hlt]
  have hx := hget hX
  have hy := hget hY
  rw [h] at hx
  have hcell : X.1 = Y.1 :=
    Place.dst.inj (hs.owned.places.apart _ _ _ (List.mem_of_getElem? hx) (List.mem_of_getElem? hy))
  have hmod : X.2 % 16 = Y.2 % 16 := congrArg Prod.snd h
  rw [hcell] at hx
  obtain ⟨hlt, hx⟩ := List.getElem?_eq_some_iff.1 hx
  obtain ⟨hlt', hy⟩ := List.getElem?_eq_some_iff.1 hy
  have hdiv : X.2 / 16 = Y.2 / 16 := ((hs.owned.places.nodup _).getElem_inj_iff).1 (hx.trans hy.symm)
  exact Prod.ext hcell (by omega)

theorem mapM_eq_some {α β : Type*} {f : α → Option β} {g : α → β} : ∀ (l : List α), (∀ a ∈ l, f a = some (g a)) →
    l.mapM f = some (l.map g)
  | [], _ => rfl
  | a :: l, h => by
    rw [List.mapM_cons, h a (List.mem_cons_self ..), mapM_eq_some l fun b hb => h b (List.mem_cons_of_mem _ hb)]
    rfl

theorem cellAt_eq_some {k j i : ℤ} {d : Index nx ny nz} :
    cellAt k j i = some d ↔ k = d.1.val ∧ j = d.2.1.val ∧ i = d.2.2.val := by
  obtain ⟨dk, dj, di⟩ := d
  have hk := dk.isLt
  have hj := dj.isLt
  have hi := di.isLt
  rw [cellAt]
  split_ifs with h
  · simp only [Option.some.injEq, Prod.mk.injEq, Fin.ext_iff]
    omega
  · exact iff_of_false nofun (by omega)

theorem mem_getNeighborCells {num : Index nx ny nz → ℕ} {c d : Index nx ny nz} :
    d ∈ getNeighborCells num c ↔ d = c ∨ (Adjacent c d ∧ number d < number c) ∧ num d ≠ 0 := by
  rw [getNeighborCells, List.mem_cons, List.mem_filterMap]
  refine or_congr_right ⟨?_, ?_⟩
  · rintro ⟨⟨di, dj, dk⟩, hmem, hd⟩
    obtain ⟨hdi, hmem⟩ := List.mem_product.1 hmem
    obtain ⟨hdj, hdk⟩ := List.mem_product.1 hmem
    simp only [Option.filter_eq_some_iff, cellAt_eq_some] at hd
    obtain ⟨⟨hk, hj, hi⟩, hd⟩ := hd
    obtain ⟨hlt, hnum⟩ := of_decide_eq_true hd
    refine ⟨⟨⟨?_, ?_, ?_⟩, hlt⟩, hnum⟩
    · rw [← hk, sub_add_cancel_left, abs_neg]
      exact mem_steps.1 hdk
    · rw [← hj, sub_add_cancel_left, abs_neg]
      exact mem_steps.1 hdj
    · rw [← hi, sub_add_cancel_left, abs_neg]
      exact mem_steps.1 hdi
  · rintro ⟨⟨⟨hk, hj, hi⟩, hlt⟩, hnum⟩
    rw [abs_sub_comm] at hk hj hi
    refine ⟨(d.2.2.val - c.2.2.val, d.2.1.val - c.2.1.val, d.1.val - c.1.val), ?_, ?_⟩
    · exact List.mem_product.2 ⟨mem_steps.2 hi, List.mem_product.2 ⟨mem_steps.2 hj, mem_steps.2 hk⟩⟩
    · simp only [Option.filter_eq_some_iff, cellAt_eq_some]
      exact ⟨⟨by omega, by omega, by omega⟩, decide_eq_true ⟨hlt, hnum⟩⟩

theorem nodup_getNeighborCells (num : Index nx ny nz → ℕ) (c : Index nx ny nz) : (getNeighborCells num c).Nodup := by
  rw [getNeighborCells, List.nodup_cons]
  constructor
  · rw [List.mem_filterMap]
    rintro ⟨d, -, hd⟩
    exact Nat.lt_irrefl _ (of_decide_eq_true (Option.filter_eq_some_iff.1 hd).2).1
  · refine List.Nodup.filterMap ?_ (by decide)
    rintro ⟨di, dj, dk⟩ ⟨di', dj', dk'⟩ b hb hb'
    have h := cellAt_eq_some.1 (Option.filter_eq_some_iff.1 hb).1
    have h' := cellAt_eq_some.1 (Option.filter_eq_some_iff.1 hb').1
    simp only [Prod.mk.injEq]
    omega

theorem mem_seenOf {c : Index nx ny nz} {x : Seen nx ny nz} :
    x ∈ seenOf lists s c ↔ x.cell = c ∧ x.par < s.num c ∧ x.slot = slotOf lists s x.key := by
  obtain ⟨d, j, a⟩ := x
  simp only [seenOf, List.mem_map, List.mem_range, Seen.mk.injEq, Seen.key]
  constructor
  · rintro ⟨j', hlt, rfl, rfl, rfl⟩
    exact ⟨rfl, hlt, rfl⟩
  · rintro ⟨rfl, hlt, rfl⟩
    exact ⟨j, hlt, rfl, rfl, rfl⟩

theorem nodup_seenOf (c : Index nx ny nz) : (seenOf lists s c).Nodup :=
  List.nodup_range.map fun _ _ h => (Seen.mk.inj h).2.1

end Loops

/-! ### The pairs that are taken -/

section Pairs
variable {nx ny nz : ℕ} {T K : Type*} [Field K] [LinearOrder K] {s : State (Index nx ny nz) T (Body K)}
  {lists : Place (Index nx ny nz) T → List (Addr (Index nx ny nz))} (L : Layout nx ny nz) (hSq : K)

/-- The particle is in its cell. -/
def State.Valid (s : State (Index nx ny nz) T (Body K)) (X : Index nx ny nz × ℕ) : Prop := X.2 < s.num X.1

/-- The loops take `Y` as a neighbour of `X`. -/
def Taken (s : State (Index nx ny nz) T (Body K)) (lists : Place (Index nx ny nz) T → List (Addr (Index nx ny nz)))
    (X Y : Index nx ny nz × ℕ) : Prop :=
  (s.Valid X ∧ s.Valid Y) ∧ (Y.1 = X.1 ∨ Adjacent X.1 Y.1 ∧ number Y.1 < number X.1) ∧
    L.address (slotOf lists s Y) < L.address (slotOf lists s X) ∧
      s.distSq (slotOf lists s X) (slotOf lists s Y) < hSq

def pairsOf (s : State (Index nx ny nz) T (Body K)) (lists : Place (Index nx ny nz) T → List (Addr (Index nx ny nz)))
    (c : Index nx ny nz) : List (Seen nx ny nz × Seen nx ny nz) :=
  (seenOf lists s c ×ˢ (getNeighborCells s.num c).flatMap (seenOf lists s)).filter fun p =>
    L.address p.2.slot < L.address p.1.slot ∧ s.distSq p.1.slot p.2.slot < hSq

def keys (p : Seen nx ny nz × Seen nx ny nz) : (Index nx ny nz × ℕ) × (Index nx ny nz × ℕ) := (p.1.key, p.2.key)

theorem cellPairs_eq (hs : Settled s lists) (c : Index nx ny nz) :
    cellPairs L hSq s c = some (pairsOf L hSq s lists c) := by
  rw [cellPairs]
  split_ifs with hnum
  · simp [pairsOf, seenOf, hnum]
  · rw [hs.seen, Option.bind_some, mapM_eq_some _ fun d _ => hs.seen d, Option.map_some, Option.some.injEq, pairsOf]
    -- a filter in the inner loop is a filter of all pairs
    induction seenOf lists s c with
    | nil => rfl
    | cons x xs ih =>
      rw [List.flatMap_cons, ih, List.product_cons, List.filter_append, List.filter_map]
      congr 1
      induction getNeighborCells s.num c with
      | nil => rfl
      | cons d ds ih =>
        rw [List.map_cons, List.flatMap_cons, List.flatMap_cons, List.filter_append, List.map_append, ih]
        rfl

theorem mem_pairsOf {c : Index nx ny nz} {p : Seen nx ny nz × Seen nx ny nz} :
    p ∈ pairsOf L hSq s lists c ↔ p.1 ∈ seenOf lists s c ∧ p.2 ∈ seenOf lists s p.2.cell ∧
      Taken L hSq s lists p.1.key p.2.key := by
  obtain ⟨x, y⟩ := p
  simp only [pairsOf, List.mem_filter, List.mem_product, List.mem_flatMap, decide_eq_true_eq, Taken, State.Valid]
  constructor
  · rintro ⟨⟨hx, d, hd, hy⟩, hlt, hdist⟩
    obtain ⟨rfl, hxn, hxs⟩ := mem_seenOf.1 hx
    obtain ⟨rfl, hyn, hys⟩ := mem_seenOf.1 hy
    refine ⟨hx, hy, ⟨hxn, hyn⟩, (mem_getNeighborCells.1 hd).imp id And.left, ?_, ?_⟩
    · rwa [← hys, ← hxs]
    · rwa [← hys, ← hxs]
  · rintro ⟨hx, hy, ⟨hxn, hyn⟩, hcell, hlt, hdist⟩
    have hxs := (mem_seenOf.1 hx).2.2
    have hys := (mem_seenOf.1 hy).2.2
    rw [← hxs, ← hys] at hlt hdist
    refine ⟨⟨hx, y.cell, mem_getNeighborCells.2 ?_, hy⟩, hlt, hdist⟩
    have hx' := (mem_seenOf.1 hx).1
    have hcell : y.cell = x.cell ∨ Adjacent x.cell y.cell ∧ number y.cell < number x.cell := hcell
    rw [hx'] at hcell
    exact hcell.imp id fun h => ⟨h, Nat.ne_of_gt (Nat.lt_of_le_of_lt (Nat.zero_le _) hyn)⟩

theorem nodup_pairsOf (c : Index nx ny nz) : (pairsOf L hSq s lists c).Nodup := by
  refine ((nodup_seenOf c).product (List.nodup_flatMap.2 ⟨fun d _ => nodup_seenOf d, ?_⟩)).filter _
  refine (nodup_getNeighborCells s.num c).imp fun {d e} hne x hx hx' => hne ?_
  rw [← (mem_seenOf.1 hx).1, (mem_seenOf.1 hx').1]

omit [Field K] [LinearOrder K] in
/-- A particle that is seen is known by its cell and its number. -/
theorem eq_of_key {c d : Index nx ny nz} {x y : Seen nx ny nz} (hx : x ∈ seenOf lists s c) (hy : y ∈ seenOf lists s d)
    (h : x.key = y.key) : x = y := by
  have hxs := (mem_seenOf.1 hx).2.2
  have hys := (mem_seenOf.1 hy).2.2
  rw [h, ← hys] at hxs
  obtain ⟨cell, par, slot⟩ := x
  obtain ⟨cell', par', slot'⟩ := y
  simp only [Seen.key, Prod.mk.injEq] at h
  simp only [Seen.mk.injEq]
  exact ⟨h.1, h.2, hxs⟩

theorem nodup_keys (c : Index nx ny nz) : ((pairsOf L hSq s lists c).map keys).Nodup := by
  refine (nodup_pairsOf L hSq c).map_on fun p hp q hq h => ?_
  obtain ⟨hp₁, hp₂, -⟩ := (mem_pairsOf L hSq).1 hp
  obtain ⟨hq₁, hq₂, -⟩ := (mem_pairsOf L hSq).1 hq
  exact Prod.ext (eq_of_key hp₁ hq₁ (Prod.mk.inj h).1) (eq_of_key hp₂ hq₂ (Prod.mk.inj h).2)

theorem mem_keys {c : Index nx ny nz} {X Y : Index nx ny nz × ℕ} :
    (X, Y) ∈ (pairsOf L hSq s lists c).map keys ↔ X.1 = c ∧ Taken L hSq s lists X Y := by
  rw [List.mem_map]
  constructor
  · rintro ⟨p, hp, hkeys⟩
    obtain ⟨hx, -, htaken⟩ := (mem_pairsOf L hSq).1 hp
    obtain ⟨rfl, rfl⟩ := Prod.mk.inj hkeys
    exact ⟨(mem_seenOf.1 hx).1, htaken⟩
  · rintro ⟨rfl, htaken⟩
    refine ⟨(⟨X.1, X.2, slotOf lists s X⟩, ⟨Y.1, Y.2, slotOf lists s Y⟩), (mem_pairsOf L hSq).2 ⟨?_, ?_, htaken⟩, rfl⟩
    · exact mem_seenOf.2 ⟨rfl, htaken.1.1, rfl⟩
    · exact mem_seenOf.2 ⟨rfl, htaken.1.2, rfl⟩

end Pairs

/-! ### The sums -/

section Sums
variable {nx ny nz : ℕ} {T K : Type*} [Field K] [LinearOrder K] {s : State (Index nx ny nz) T (Body K)}
  {lists : Place (Index nx ny nz) T → List (Addr (Index nx ny nz))} (L : Layout nx ny nz) (hSq : K)

theorem sum_of_nodup {α M : Type*} [AddCommMonoid M] {l : List α} {S : Finset α} {P : α → Prop} [DecidablePred P]
    (hl : l.Nodup) (hmem : ∀ a, a ∈ l ↔ P a) (hS : ∀ a, P a → a ∈ S) (g : α → M) :
    (l.map g).sum = ∑ a ∈ S, if P a then g a else 0 := by
  classical
  rw [← List.sum_toFinset g hl, ← Finset.sum_filter]
  congr 1
  ext a
  simp only [List.mem_toFinset, Finset.mem_filter, hmem]
  exact ⟨fun h => ⟨hS a h, h⟩, And.right⟩

/-- All particles. -/
def State.pars (s : State (Index nx ny nz) T (Body K)) : Finset (Index nx ny nz × ℕ) :=
  Finset.univ.biUnion fun c => (Finset.range (s.num c)).image (Prod.mk c)

omit [Field K] [LinearOrder K] in
theorem mem_pars {X : Index nx ny nz × ℕ} : X ∈ s.pars ↔ s.Valid X := by
  obtain ⟨c, j⟩ := X
  simp [State.pars, State.Valid]

/-- What a pair adds. -/
def tcOf (s : State (Index nx ny nz) T (Body K)) (x y : Slot nx ny nz) : K :=
  (hSq - s.distSq x y) * (hSq - s.distSq x y) * (hSq - s.distSq x y)

section Pairwise
variable {M : Type*} [AddCommMonoid M] {g g' : Slot nx ny nz → Slot nx ny nz → M}
  {adds : Seen nx ny nz × Seen nx ny nz → List (Addition (Slot nx ny nz) (Index nx ny nz × ℕ) M)}

/-- A pair adds `g` to what the first of its particles has and `g'` to what the second one has. -/
def AddsPairwise (adds : Seen nx ny nz × Seen nx ny nz → List (Addition (Slot nx ny nz) (Index nx ny nz × ℕ) M))
    (g g' : Slot nx ny nz → Slot nx ny nz → M) : Prop :=
  ∀ p x, total (adds p) x = (if p.1.slot = x then g p.1.slot p.2.slot else 0) +
    if p.2.slot = x then g' p.1.slot p.2.slot else 0

open Classical in
/-- What the pairs of a cell add for a particle. -/
theorem total_pairsOf (hadds : AddsPairwise adds g g') (hs : Settled s lists) {Z : Index nx ny nz × ℕ}
    (hZ : s.Valid Z) (c : Index nx ny nz) :
    total ((pairsOf L hSq s lists c).flatMap adds) (slotOf lists s Z) =
      ∑ p ∈ s.pars ×ˢ s.pars, if p.1.1 = c ∧ Taken L hSq s lists p.1 p.2 then
        (if p.1 = Z then g (slotOf lists s p.1) (slotOf lists s p.2) else 0) +
          (if p.2 = Z then g' (slotOf lists s p.1) (slotOf lists s p.2) else 0) else 0 := by
  have hslot : ∀ {d : Index nx ny nz} {x : Seen nx ny nz}, x ∈ seenOf lists s d →
      (slotOf lists s x.key = slotOf lists s Z ↔ x.key = Z) := by
    intro d x hx
    obtain ⟨rfl, hlt, -⟩ := mem_seenOf.1 hx
    exact ⟨fun h => hs.slotOf_inj hlt hZ h, fun h => by rw [h]⟩
  have hbody : ∀ p ∈ pairsOf L hSq s lists c, total (adds p) (slotOf lists s Z) =
      (if (keys p).1 = Z then g (slotOf lists s (keys p).1) (slotOf lists s (keys p).2) else 0) +
        (if (keys p).2 = Z then g' (slotOf lists s (keys p).1) (slotOf lists s (keys p).2) else 0) := by
    intro p hp
    obtain ⟨hx, hy, -⟩ := (mem_pairsOf L hSq).1 hp
    simp only [hadds p, keys, (mem_seenOf.1 hx).2.2, (mem_seenOf.1 hy).2.2]
    congr 1
    · exact if_congr (hslot hx) rfl rfl
    · exact if_congr (hslot hy) rfl rfl
  have hpars : ∀ p : (Index nx ny nz × ℕ) × (Index nx ny nz × ℕ), p.1.1 = c ∧ Taken L hSq s lists p.1 p.2 →
      p ∈ s.pars ×ˢ s.pars := by
    rintro ⟨X, Y⟩ ⟨-, htaken⟩
    exact Finset.mem_product.2 ⟨mem_pars.2 htaken.1.1, mem_pars.2 htaken.1.2⟩
  have hsum := sum_of_nodup (nodup_keys L hSq c) (fun p => mem_keys L hSq) hpars fun p =>
    (if p.1 = Z then g (slotOf lists s p.1) (slotOf lists s p.2) else 0) +
      (if p.2 = Z then g' (slotOf lists s p.1) (slotOf lists s p.2) else 0)
  rw [List.map_map] at hsum
  rw [total_flatMap, List.map_congr_left hbody]
  exact hsum

open Classical in
/-- What all pairs add for a particle. -/
theorem sum_total (hadds : AddsPairwise adds g g') (hs : Settled s lists) {Z : Index nx ny nz × ℕ} (hZ : s.Valid Z) :
    ∑ c, total ((pairsOf L hSq s lists c).flatMap adds) (slotOf lists s Z) =
      ∑ Y ∈ s.pars, ((if Taken L hSq s lists Z Y then g (slotOf lists s Z) (slotOf lists s Y) else 0) +
        if Taken L hSq s lists Y Z then g' (slotOf lists s Y) (slotOf lists s Z) else 0) := by
  have hcell : ∀ p : (Index nx ny nz × ℕ) × (Index nx ny nz × ℕ), ∀ f : M,
      (∑ c, if p.1.1 = c ∧ Taken L hSq s lists p.1 p.2 then f else 0) =
        if Taken L hSq s lists p.1 p.2 then f else 0 := by
    intro p f
    simp only [ite_and, Finset.sum_ite_eq, Finset.mem_univ, if_true]
  simp only [total_pairsOf L hSq hadds hs hZ]
  rw [Finset.sum_comm]
  simp only [hcell]
  rw [Finset.sum_product, Finset.sum_add_distrib]
  have hsplit : ∀ X Y, (if Taken L hSq s lists X Y then
      (if X = Z then g (slotOf lists s X) (slotOf lists s Y) else 0) +
        (if Y = Z then g' (slotOf lists s X) (slotOf lists s Y) else 0) else 0) =
      (if X = Z then if Taken L hSq s lists X Y then g (slotOf lists s X) (slotOf lists s Y) else 0 else 0) +
        if Y = Z then if Taken L hSq s lists X Y then g' (slotOf lists s X) (slotOf lists s Y) else 0
          else 0 := by
    intro X Y
    split_ifs <;> simp
  simp only [hsplit, Finset.sum_add_distrib]
  congr 1
  · rw [Finset.sum_comm]
    simp only [Finset.sum_ite_eq', mem_pars, hZ, if_true]
  · simp only [Finset.sum_ite_eq', mem_pars, hZ, if_true]

end Pairwise

omit [LinearOrder K] in
theorem addsPairwise_pairAdditions (border : Index nx ny nz → Bool) :
    AddsPairwise (pairAdditions hSq s border) (tcOf hSq s) (tcOf hSq s) := by
  intro p x
  simp only [pairAdditions, total_cons, total_nil, add_zero, tcOf]

end Sums

end Turkey.Fluid
