import Mathlib.Algebra.GroupWithZero.Nat
import Mathlib.Data.Fintype.Prod
import Mathlib.Data.List.ProdSigma
import Mathlib.Logic.Equiv.Fin.Basic
import Turkey.Fluidanimate.Rebuild

/-! The cells of the domain and how `InitSim` divides them among the threads: each thread has a box of cells, its
    grid, and a cell with a neighbour in another grid is a border cell. Particles go at most to a neighbour
    of their cell, so that one that reaches a cell inside a grid comes from the same grid. -/

namespace Turkey.Fluid

/-- Cell `(k, j, i)` is number `(k*ny + j)*nx + i` of the arrays. In the source that number and `nx*ny*nz` are `int`s,
    which overflow from 2^31 cells on; here they do not. -/
abbrev Index (nx ny nz : ℕ) := Fin nz × Fin ny × Fin nx

/-- A coordinate is confined to the domain. -/
def confine (n : ℕ) [NeZero n] (c : ℤ) : Fin n :=
  Fin.ofNat n (if c < 0 then 0 else if c > (n : ℤ) - 1 then n - 1 else c.toNat)

theorem confine_val {n : ℕ} [NeZero n] (i : Fin n) : confine n i.val = i := by
  have hi := i.isLt
  apply Fin.ext
  rw [confine, if_neg (by omega), if_neg (by omega), Int.toNat_natCast, Fin.val_ofNat, Nat.mod_eq_of_lt hi]

section Cells
variable {nx ny nz : ℕ}

def coords (c : Index nx ny nz) : ℤ × ℤ × ℤ := (c.1.val, c.2.1.val, c.2.2.val)

/-- What the loops over `dk`, `dj` and `di` add to the coordinates of a cell. -/
def near : List (ℤ × ℤ × ℤ) := [-1, 0, 1] ×ˢ [-1, 0, 1] ×ˢ [-1, 0, 1]

/-- The check of the Courant–Friedrichs–Lewy condition: the source is a neighbour of the destination. -/
def cflCond (source dest : Index nx ny nz) : Bool := near.any fun d => decide (coords dest + d = coords source)

section
variable [NeZero nx] [NeZero ny] [NeZero nz]

def confineCell (c : ℤ × ℤ × ℤ) : Index nx ny nz := (confine nz c.1, confine ny c.2.1, confine nx c.2.2)

theorem confineCell_coords (c : Index nx ny nz) : confineCell (coords c) = c := by
  obtain ⟨k, j, i⟩ := c
  simp only [confineCell, coords, confine_val]

end

/-! ### Grids -/

structure Grid where
  sx : ℕ
  ex : ℕ
  sy : ℕ
  ey : ℕ
  sz : ℕ
  ez : ℕ

/-- A loop from `s` to `e`. -/
def between (n s e : ℕ) : List (Fin n) := (List.finRange n).filter fun i => s ≤ i.val ∧ i.val < e

theorem mem_between {n s e : ℕ} {i : Fin n} : i ∈ between n s e ↔ s ≤ i.val ∧ i.val < e := by
  rw [between, List.mem_filter, decide_eq_true_iff]
  exact and_iff_right (List.mem_finRange i)

theorem nodup_between (n s e : ℕ) : (between n s e).Nodup := (List.nodup_finRange n).filter _

/-- The cells of a grid, in the order in which the loops of its thread go through them. -/
def Grid.cells (g : Grid) : List (Index nx ny nz) :=
  between nz g.sz g.ez ×ˢ between ny g.sy g.ey ×ˢ between nx g.sx g.ex

theorem Grid.nodup_cells (g : Grid) : (g.cells : List (Index nx ny nz)).Nodup :=
  (nodup_between ..).product ((nodup_between ..).product (nodup_between ..))

end Cells

/-- The grids of the threads: every cell is in exactly one. -/
structure Grids (nx ny nz : ℕ) (T : Type*) where
  grid : T → Grid
  all : ∀ c : Index nx ny nz, ∃ t, c ∈ (grid t).cells
  only : ∀ (c : Index nx ny nz) t t', c ∈ (grid t).cells → c ∈ (grid t').cells → t = t'

/-! ### The grids of `InitSim` -/

/-- The ends of the parts into which one dimension of the domain is cut. `lt` is an assert of `InitSim`. -/
structure Cuts (n divs : ℕ) where
  cut : ℕ → ℕ
  zero : cut 0 = 0
  lt : ∀ i < divs, cut i < cut (i + 1)
  last : cut divs = n

/-- Part `i` ends at `n / divs * (i + 1) + 0.5`, rounded down. The number of parts is a power of 2, so that the
    division is exact. -/
def Cuts.round (n divs : ℕ) (hpos : 0 < divs) (hle : divs ≤ n) : Cuts n divs where
  cut i := (2 * (n * i) + divs) / (2 * divs)
  zero := by rw [Nat.mul_zero, Nat.div_eq_of_lt (by omega)]
  lt i _ := by
    have hdiv := Nat.div_mul_le_self (2 * (n * i) + divs) (2 * divs)
    refine Nat.lt_of_succ_le ((Nat.le_div_iff_mul_le (by omega)).2 ?_)
    rw [Nat.succ_mul, Nat.mul_add_one]
    omega
  last := by
    have : 2 * (n * divs) + divs = divs + 2 * divs * n := by
      rw [Nat.mul_assoc, Nat.mul_comm n divs, Nat.add_comm]
    rw [this, Nat.add_mul_div_left _ _ (by omega), Nat.div_eq_of_lt (by omega), Nat.zero_add]

section Cuts
variable {n divs : ℕ}

theorem Cuts.exists_part (X : Cuts n divs) {k : ℕ} : ∀ m ≤ divs, k < X.cut m →
    ∃ i < m, X.cut i ≤ k ∧ k < X.cut (i + 1)
  | 0, _, hk => absurd (X.zero ▸ hk) (Nat.not_lt_zero k)
  | m + 1, hm, hk => by
    by_cases h : k < X.cut m
    · obtain ⟨i, hi, hpart⟩ := X.exists_part m (by omega) h
      exact ⟨i, by omega, hpart⟩
    · exact ⟨m, by omega, by omega, hk⟩

theorem Cuts.mono (X : Cuts n divs) {i : ℕ} : ∀ j, i ≤ j → j ≤ divs → X.cut i ≤ X.cut j
  | 0, hi, _ => by rw [Nat.le_zero.1 hi]
  | j + 1, hi, hj => by
    rcases Nat.le_or_eq_of_le_succ hi with h | rfl
    · exact Nat.le_trans (X.mono j h (by omega)) (Nat.le_of_lt (X.lt j hj))
    · exact Nat.le_refl _

theorem Cuts.part_unique (X : Cuts n divs) {i j k : ℕ} (hi : i < divs) (hj : j < divs)
    (hki : X.cut i ≤ k ∧ k < X.cut (i + 1)) (hkj : X.cut j ≤ k ∧ k < X.cut (j + 1)) : i = j := by
  rcases Nat.lt_trichotomy i j with h | h | h
  · have : X.cut (i + 1) ≤ X.cut j := X.mono j h (Nat.le_of_lt hj)
    omega
  · exact h
  · have : X.cut (j + 1) ≤ X.cut i := X.mono i h (Nat.le_of_lt hi)
    omega

end Cuts

/-- Grid `gi` has part `gi / ZDIVS` of the first dimension and part `gi % ZDIVS` of the third. -/
def initGrid {nx nz XDIVS ZDIVS : ℕ} (ny : ℕ) (X : Cuts nx XDIVS) (Z : Cuts nz ZDIVS) (gi : Fin (XDIVS * ZDIVS)) :
    Grid where
  sx := X.cut gi.divNat
  ex := X.cut (gi.divNat + 1)
  sy := 0
  ey := ny
  sz := Z.cut gi.modNat
  ez := Z.cut (gi.modNat + 1)

theorem Grid.mem_cells {nx ny nz : ℕ} {g : Grid} {c : Index nx ny nz} : c ∈ g.cells ↔
    (g.sz ≤ c.1.val ∧ c.1.val < g.ez) ∧ (g.sy ≤ c.2.1.val ∧ c.2.1.val < g.ey) ∧
      g.sx ≤ c.2.2.val ∧ c.2.2.val < g.ex := by
  obtain ⟨k, j, i⟩ := c
  rw [Grid.cells, List.mem_product, List.mem_product, mem_between, mem_between, mem_between]

def initGrids {nx nz XDIVS ZDIVS : ℕ} (ny : ℕ) (X : Cuts nx XDIVS) (Z : Cuts nz ZDIVS) :
    Grids nx ny nz (Fin (XDIVS * ZDIVS)) where
  grid := initGrid ny X Z
  all c := by
    obtain ⟨k, j, i⟩ := c
    obtain ⟨x, hx, hi⟩ := X.exists_part (k := i.val) XDIVS (Nat.le_refl _) (by rw [X.last]; exact i.isLt)
    obtain ⟨z, hz, hk⟩ := Z.exists_part (k := k.val) ZDIVS (Nat.le_refl _) (by rw [Z.last]; exact k.isLt)
    refine ⟨finProdFinEquiv (⟨x, hx⟩, ⟨z, hz⟩), Grid.mem_cells.2 ?_⟩
    have heq := finProdFinEquiv.symm_apply_apply ((⟨x, hx⟩, ⟨z, hz⟩) : Fin XDIVS × Fin ZDIVS)
    rw [finProdFinEquiv_symm_apply, Prod.mk.injEq] at heq
    simp only [initGrid, heq]
    exact ⟨hk, ⟨Nat.zero_le _, j.isLt⟩, hi⟩
  only c t t' h h' := by
    rw [Grid.mem_cells] at h h'
    have hx := X.part_unique t.divNat.isLt t'.divNat.isLt h.2.2 h'.2.2
    have hz := Z.part_unique t.modNat.isLt t'.modNat.isLt h.1 h'.1
    apply finProdFinEquiv.symm.injective
    rw [finProdFinEquiv_symm_apply, finProdFinEquiv_symm_apply, Fin.ext hx, Fin.ext hz]

/-! ### The two ways to rebuild the grid -/

section Modes
variable {nx ny nz : ℕ} {T : Type*}

/-- `RebuildGrid` with pool `k`: all cells are done by one thread. The check of the particles is optional; here it
    is left out, so that they may go anywhere. -/
def serialMode [DecidableEq T] (k : T) : Mode (Index nx ny nz) T where
  border _ := false
  cfl _ _ := true
  work t := if t = k then List.finRange nz ×ˢ List.finRange ny ×ˢ List.finRange nx else []
  nodup t := by
    split_ifs
    · exact (List.nodup_finRange nz).product ((List.nodup_finRange ny).product (List.nodup_finRange nx))
    · exact List.nodup_nil
  all c := by
    refine ⟨k, ?_⟩
    obtain ⟨k', j, i⟩ := c
    rw [if_pos rfl, List.mem_product, List.mem_product]
    exact ⟨List.mem_finRange k', List.mem_finRange j, List.mem_finRange i⟩
  only c t t' h h' := by
    split_ifs at h h' with ht ht'
    · rw [ht, ht']
    all_goals contradiction
  exclusive d c c' t t' _ _ _ h h' := by
    split_ifs at h h' with ht ht'
    · rw [ht, ht']
    all_goals contradiction

variable [NeZero nx] [NeZero ny] [NeZero nz] [Fintype T]

/-- The cells with a neighbour in another grid. -/
def Grids.border (g : Grids nx ny nz T) (c : Index nx ny nz) : Bool :=
  decide (∃ t, c ∈ (g.grid t).cells ∧
    ∃ d ∈ near, (confineCell (coords c + d) : Index nx ny nz) ∉ (g.grid t).cells)

/-- A particle that goes to a cell inside a grid comes from this grid. -/
theorem Grids.mem_of_not_border (g : Grids nx ny nz T) {source dest : Index nx ny nz} {t : T}
    (hb : g.border dest = false) (hcfl : cflCond source dest = true) (ht : dest ∈ (g.grid t).cells) :
    source ∈ (g.grid t).cells := by
  rw [cflCond, List.any_eq_true] at hcfl
  obtain ⟨d, hd, heq⟩ := hcfl
  rw [border, decide_eq_false_iff_not] at hb
  by_contra hsource
  refine hb ⟨t, ht, d, hd, ?_⟩
  rwa [of_decide_eq_true heq, confineCell_coords]

/-- `RebuildGridMT`: every thread does its grid. -/
def Grids.mode (g : Grids nx ny nz T) : Mode (Index nx ny nz) T where
  border := g.border
  cfl := cflCond
  work t := (g.grid t).cells
  nodup t := (g.grid t).nodup_cells
  all := g.all
  only := g.only
  exclusive d c c' t t' hb hc hc' ht ht' := by
    obtain ⟨u, hu⟩ := g.all d
    exact (g.only c t u ht (g.mem_of_not_border hb hc hu)).trans
      (g.only c' t' u ht' (g.mem_of_not_border hb hc' hu)).symm

end Modes

end Turkey.Fluid
