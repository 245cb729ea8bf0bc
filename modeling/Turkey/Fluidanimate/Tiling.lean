import Mathlib.Algebra.Order.Floor.Semifield
import Mathlib.Data.List.OfFn
import Mathlib.Data.Rat.Floor
import Turkey.Fluidanimate.Grids

/-! How `InitSim` (turkey.cpp) divides the domain: the numbers of parts from the number of threads, the edges of
    the grids, and the array `border`.

    The edges are rounded multiples of a quotient, here in exact arithmetic. An assert that fails ends the
    program, and so does a number of threads that is not a power of 2. The border scan confines the coordinates
    of the neighbours to the domain and leaves its loops at the first neighbour outside the grid. -/

namespace Turkey.Fluid

/-! ### `hmgweight` and the divisions -/

/-- The loop of `hmgweight`: the number of set bits of `x`, and the position of the lowest one. -/
def hmgweightLoop (x weight count : ℕ) (lsb : ℤ) : ℕ × ℤ :=
  if 0 < x then
    if x % 2 = 1 then hmgweightLoop (x / 2) (weight + 1) (count + 1) (if lsb = -1 then count else lsb)
    else hmgweightLoop (x / 2) weight (count + 1) lsb
  else (weight, lsb)
termination_by x

def hmgweight (x : ℕ) : ℕ × ℤ := hmgweightLoop x 0 0 (-1)

/-- The exit and the asserts of `InitSim`. -/
inductive Abort where
  /-- Number of threads must be a power of 2 -/
  | threads
  /-- `XDIVS * ZDIVS == threadnum` -/
  | divs
  /-- `nx >= XDIVS && nz >= ZDIVS` -/
  | sizes
  /-- `sx < ex` -/
  | x
  /-- `sz < ez` -/
  | z
  /-- `gi == NUM_GRIDS` -/
  | grids
  deriving DecidableEq

/-- `XDIVS` and `ZDIVS`. -/
def divisions (threadnum : ℕ) : Except Abort (ℕ × ℕ) :=
  let (weight, lsb) := hmgweight threadnum
  if weight ≠ 1 then .error .threads
  else
    let XDIVS := 1 <<< (lsb.toNat / 2)
    let ZDIVS := 1 <<< (lsb.toNat / 2)
    let XDIVS := if XDIVS * ZDIVS ≠ threadnum then XDIVS * 2 else XDIVS
    if XDIVS * ZDIVS = threadnum then .ok (XDIVS, ZDIVS) else .error .divs

theorem hmgweightLoop_pow : ∀ k weight count : ℕ,
    hmgweightLoop (2 ^ k) weight count (-1) = (weight + 1, ((count + k : ℕ) : ℤ))
  | 0, weight, count => by
    rw [hmgweightLoop, if_pos (by simp), if_pos (by simp), hmgweightLoop]
    simp
  | k + 1, weight, count => by
    have half : 2 ^ (k + 1) / 2 = 2 ^ k := by rw [pow_succ, Nat.mul_div_cancel _ (by decide)]
    have even : 2 ^ (k + 1) % 2 ≠ 1 := by rw [pow_succ, Nat.mul_mod_left]; decide
    rw [hmgweightLoop, if_pos (by positivity), if_neg even, half, hmgweightLoop_pow k weight (count + 1)]
    simp only [Prod.mk.injEq, Nat.cast_inj, true_and]
    omega

/-- The first number of parts is at most twice the second. -/
theorem divisions_pow (k : ℕ) : divisions (2 ^ k) = .ok (2 ^ ((k + 1) / 2), 2 ^ (k / 2)) := by
  have hloop : hmgweight (2 ^ k) = (1, (k : ℤ)) := by
    rw [hmgweight, hmgweightLoop_pow, Nat.zero_add, Nat.zero_add]
  have hpow : ∀ a b, 2 ^ a * 2 ^ b = 2 ^ k ↔ a + b = k := fun a b => by
    rw [← pow_add, Nat.pow_right_inj (by decide)]
  simp only [divisions, hloop, Int.toNat_natCast, Nat.shiftLeft_eq, Nat.one_mul, ne_eq, not_true_eq_false,
    if_false, hpow]
  rcases Nat.even_or_odd' k with ⟨m, rfl | rfl⟩
  · have half : 2 * m / 2 = m := by omega
    have up : (2 * m + 1) / 2 = m := by omega
    simp [half, up, hpow, ← two_mul]
  · have half : (2 * m + 1) / 2 = m := by omega
    have up : (2 * m + 1 + 1) / 2 = m + 1 := by omega
    have odd : m + m ≠ 2 * m + 1 := by omega
    have even : m + 1 + m = 2 * m + 1 := by omega
    simp only [half, up, odd, not_false_eq_true, if_true, ← pow_succ, hpow, even]

/-! ### The grids -/

/-- `(int)((fptype)n / (fptype)divs * (i+1) + 0.5)` -/
def edge (n divs i : ℕ) : ℕ := ⌊(n : ℚ) / divs * (i + 1) + 1 / 2⌋₊

/-- A grid at the place `gi`; `ez` is where the one before it ends. -/
def nextZ (ny nz ZDIVS sx ex : ℕ) (s : ℕ × List Grid) (j : ℕ) : Except Abort (ℕ × List Grid) :=
  let sz := s.1
  let ez := edge nz ZDIVS j
  if sz < ez then .ok (ez, s.2 ++ [⟨sx, ex, 0, ny, sz, ez⟩]) else .error .z

/-- The grids of part `i` of the first dimension. -/
def nextX (nx ny nz XDIVS ZDIVS : ℕ) (s : ℕ × List Grid) (i : ℕ) : Except Abort (ℕ × List Grid) :=
  let sx := s.1
  let ex := edge nx XDIVS i
  if sx < ex then do
    let (_, grids) ← (List.range ZDIVS).foldlM (nextZ ny nz ZDIVS sx ex) (0, s.2)
    return (ex, grids)
  else .error .x

/-- The array `grids`. -/
def makeGrids (nx ny nz XDIVS ZDIVS : ℕ) : Except Abort (List Grid) :=
  if XDIVS ≤ nx ∧ ZDIVS ≤ nz then do
    let (_, grids) ← (List.range XDIVS).foldlM (nextX nx ny nz XDIVS ZDIVS) (0, [])
    if grids.length = XDIVS * ZDIVS then .ok grids else .error .grids
  else .error .sizes

/-- The rounded multiples are the ends of the parts of `Cuts.round`. -/
theorem edge_eq {n divs i : ℕ} (hpos : 0 < divs) (hle : divs ≤ n) :
    edge n divs i = (Cuts.round n divs hpos hle).cut (i + 1) := by
  have hdivs : (divs : ℚ) ≠ 0 := Nat.cast_ne_zero.2 hpos.ne'
  have hquot : (n : ℚ) / divs * (i + 1) + 1 / 2 = ((2 * (n * (i + 1)) + divs : ℕ) : ℚ) / ((2 * divs : ℕ) : ℚ) := by
    push_cast
    field_simp
  rw [edge, hquot, Nat.floor_div_eq_div]
  rfl

section Grids
variable {nx ny nz XDIVS ZDIVS : ℕ} (X : Cuts nx XDIVS) (Z : Cuts nz ZDIVS)

theorem foldlM_nextZ (hZ : ∀ j, edge nz ZDIVS j = Z.cut (j + 1)) (sx ex : ℕ) (gs : List Grid) : ∀ m ≤ ZDIVS,
    (List.range m).foldlM (nextZ ny nz ZDIVS sx ex) (0, gs) =
      .ok (Z.cut m, gs ++ (List.range m).map fun j => ⟨sx, ex, 0, ny, Z.cut j, Z.cut (j + 1)⟩)
  | 0, _ => by simp [Z.zero, pure, Except.pure]
  | m + 1, hm => by
    rw [List.range_succ, List.foldlM_append, foldlM_nextZ hZ sx ex gs m (by omega)]
    simp [nextZ, hZ, Z.lt m (by omega), bind, Except.bind, pure, Except.pure]

theorem foldlM_nextX (ny : ℕ) (hX : ∀ i, edge nx XDIVS i = X.cut (i + 1))
    (hZ : ∀ j, edge nz ZDIVS j = Z.cut (j + 1)) :
    ∀ m ≤ XDIVS, (List.range m).foldlM (nextX nx ny nz XDIVS ZDIVS) (0, []) =
      .ok (X.cut m, (List.range m).flatMap fun i => (List.range ZDIVS).map fun j =>
        ⟨X.cut i, X.cut (i + 1), 0, ny, Z.cut j, Z.cut (j + 1)⟩)
  | 0, _ => by simp [X.zero, pure, Except.pure]
  | m + 1, hm => by
    have lt := X.lt m (by omega)
    rw [List.range_succ, List.foldlM_append, foldlM_nextX ny hX hZ m (by omega)]
    simp [nextX, hX, lt, foldlM_nextZ Z hZ _ _ _ ZDIVS (Nat.le_refl _), bind, Except.bind, pure, Except.pure]

/-- The two loops make the grids of `initGrid`, one behind the other. -/
theorem flatMap_eq_ofFn : ((List.range XDIVS).flatMap fun i => (List.range ZDIVS).map fun j =>
    (⟨X.cut i, X.cut (i + 1), 0, ny, Z.cut j, Z.cut (j + 1)⟩ : Grid)) = List.ofFn (initGrid ny X Z) := by
  have hrange : ∀ {α : Type} (n : ℕ) (f : ℕ → α), (List.range n).map f = List.ofFn fun i : Fin n => f i := by
    intro α n f
    rw [List.ofFn_eq_map, ← List.map_coe_finRange_eq_range, List.map_map]
    rfl
  rw [List.ofFn_mul, List.flatMap_def, hrange]
  congr 2
  funext i
  rw [hrange]
  congr 1
  funext j
  have hpos : 0 < ZDIVS := Nat.lt_of_le_of_lt (Nat.zero_le _) j.isLt
  have hdiv : (i.val * ZDIVS + j.val) / ZDIVS = i.val := by
    rw [Nat.mul_comm, Nat.mul_add_div hpos, Nat.div_eq_of_lt j.isLt, Nat.add_zero]
  have hmod : (i.val * ZDIVS + j.val) % ZDIVS = j.val := by
    rw [Nat.mul_comm, Nat.mul_add_mod, Nat.mod_eq_of_lt j.isLt]
  simp [initGrid, Fin.coe_divNat, Fin.coe_modNat, hdiv, hmod]

theorem makeGrids_eq (ny : ℕ) (hx : 0 < XDIVS) (hz : 0 < ZDIVS) (hlx : XDIVS ≤ nx) (hlz : ZDIVS ≤ nz) :
    makeGrids nx ny nz XDIVS ZDIVS =
      .ok (List.ofFn (initGrid ny (Cuts.round nx XDIVS hx hlx) (Cuts.round nz ZDIVS hz hlz))) := by
  have hfold := foldlM_nextX (Cuts.round nx XDIVS hx hlx) (Cuts.round nz ZDIVS hz hlz)
    ny (fun _ => edge_eq hx hlx) (fun _ => edge_eq hz hlz) XDIVS (Nat.le_refl _)
  rw [flatMap_eq_ofFn] at hfold
  rw [makeGrids, if_pos ⟨hlx, hlz⟩, hfold]
  simp [bind, Except.bind]

end Grids

/-! ### The border -/

/-- `if(c < 0) c = 0; else if(c > (n-1)) c = n-1;` -/
def clamp (n : ℕ) (c : ℤ) : ℤ := if c < 0 then 0 else if c > (n : ℤ) - 1 then n - 1 else c

def outside (g : Grid) (ck cj ci : ℤ) : Bool :=
  ci < g.sx || ci ≥ g.ex || cj < g.sy || cj ≥ g.ey || ck < g.sz || ck ≥ g.ez

section Border
variable {nx ny nz : ℕ}

/-- The loops over `dk`, `dj` and `di`, each of which is left as soon as there is a neighbour outside. -/
def scan (g : Grid) (c : Index nx ny nz) : Bool :=
  [-1, 0, 1].any fun dk => [-1, 0, 1].any fun dj => [-1, 0, 1].any fun di =>
    outside g (clamp nz (c.1 + dk)) (clamp ny (c.2.1 + dj)) (clamp nx (c.2.2 + di))

/-- The array `border`; it has any values before. -/
def markBorder (grids : List Grid) (border : Index nx ny nz → Bool) : Index nx ny nz → Bool :=
  grids.foldl (fun border g => g.cells.foldl (fun border c => Function.update border c (scan g c)) border) border

def Adjacent (c d : Index nx ny nz) : Prop :=
  |(c.1.val : ℤ) - d.1.val| ≤ 1 ∧ |(c.2.1.val : ℤ) - d.2.1.val| ≤ 1 ∧ |(c.2.2.val : ℤ) - d.2.2.val| ≤ 1

/-- A coordinate goes to a neighbouring one, also when it is confined. -/
theorem clamp_near {n : ℕ} (i : Fin n) {d : ℤ} (hd : |d| ≤ 1) :
    ∃ j : Fin n, clamp n (i + d) = j.val ∧ |(i.val : ℤ) - j.val| ≤ 1 := by
  have hi := i.isLt
  rw [abs_le] at hd
  have hlt : (clamp n (i + d)).toNat < n := by
    simp only [clamp]
    split_ifs <;> omega
  refine ⟨⟨(clamp n (i + d)).toNat, hlt⟩, ?_, ?_⟩
  · simp only [clamp]
    split_ifs <;> omega
  · rw [abs_le]
    simp only [clamp]
    split_ifs <;> omega

theorem clamp_val {n : ℕ} (j : Fin n) : clamp n j.val = j.val := by
  have hj := j.isLt
  rw [clamp, if_neg (by omega), if_neg (by omega)]

theorem mem_steps {d : ℤ} : d ∈ [(-1 : ℤ), 0, 1] ↔ |d| ≤ 1 := by
  simp only [List.mem_cons, List.not_mem_nil, or_false, abs_le]
  omega

theorem outside_iff {g : Grid} {c : Index nx ny nz} : outside g c.1.val c.2.1.val c.2.2.val = true ↔ c ∉ g.cells := by
  rw [Grid.mem_cells]
  simp only [outside, Bool.or_eq_true, decide_eq_true_eq]
  omega

/-- The scan finds a cell at `c` or next to it that is not in the grid. -/
theorem scan_iff {g : Grid} {c : Index nx ny nz} : scan g c = true ↔ ∃ d, Adjacent c d ∧ d ∉ g.cells := by
  simp only [scan, List.any_eq_true, mem_steps]
  constructor
  · rintro ⟨dk, hk, dj, hj, di, hi, hout⟩
    obtain ⟨k, hk, hck⟩ := clamp_near c.1 hk
    obtain ⟨j, hj, hcj⟩ := clamp_near c.2.1 hj
    obtain ⟨i, hi, hci⟩ := clamp_near c.2.2 hi
    rw [hk, hj, hi] at hout
    exact ⟨(k, j, i), ⟨hck, hcj, hci⟩, outside_iff.1 hout⟩
  · rintro ⟨d, ⟨hk, hj, hi⟩, hout⟩
    refine ⟨d.1.val - c.1.val, ?_, d.2.1.val - c.2.1.val, ?_, d.2.2.val - c.2.2.val, ?_, ?_⟩
    · rwa [abs_sub_comm]
    · rwa [abs_sub_comm]
    · rwa [abs_sub_comm]
    · simp only [add_sub_cancel, clamp_val]
      exact outside_iff.2 hout

/-- A grid changes its own cells. -/
theorem foldl_scan (g : Grid) (c : Index nx ny nz) : ∀ (cs : List (Index nx ny nz)) (border : Index nx ny nz → Bool),
    cs.foldl (fun border c => Function.update border c (scan g c)) border c = if c ∈ cs then scan g c else border c
  | [], _ => by simp
  | d :: cs, border => by
    rw [List.foldl_cons, foldl_scan g c cs]
    by_cases hd : c = d
    · subst hd
      simp
    · simp [hd]

/-- A cell that is in one grid has the value that this grid gives it. -/
theorem markBorder_apply {c : Index nx ny nz} {b : Bool} : ∀ (grids : List Grid) (border : Index nx ny nz → Bool)
    (_ : ∀ g ∈ grids, c ∈ g.cells → scan g c = b) (_ : border c = b ∨ ∃ g ∈ grids, c ∈ g.cells),
    markBorder grids border c = b
  | [], border, _, h => by simpa [markBorder] using h
  | g :: grids, border, hval, h => by
    rw [markBorder, List.foldl_cons]
    refine markBorder_apply grids _ (fun g' hg' => hval g' (List.mem_cons_of_mem _ hg')) ?_
    rw [foldl_scan]
    by_cases hc : c ∈ g.cells
    · rw [if_pos hc]
      exact .inl (hval g (List.mem_cons_self ..) hc)
    · rw [if_neg hc]
      refine h.imp id ?_
      rintro ⟨g', hg', hc'⟩
      rcases List.mem_cons.1 hg' with rfl | hg'
      · exact absurd hc' hc
      · exact ⟨g', hg', hc'⟩

/-- Any grids of which each cell is in exactly one. -/
theorem Grids.markBorder_iff {G : ℕ} (gs : Grids nx ny nz (Fin G)) (border : Index nx ny nz → Bool)
    (c : Index nx ny nz) : markBorder (List.ofFn gs.grid) border c = true ↔
      ∃ d t t', Adjacent c d ∧ c ∈ (gs.grid t).cells ∧ d ∈ (gs.grid t').cells ∧ t ≠ t' := by
  obtain ⟨t, ht⟩ := gs.all c
  have hval : markBorder (List.ofFn gs.grid) border c = scan (gs.grid t) c := by
    refine markBorder_apply _ _ (fun g hg hc => ?_) (.inr ⟨gs.grid t, ?_, ht⟩)
    · obtain ⟨t', rfl⟩ := List.mem_ofFn.1 hg
      rw [gs.only c t' t hc ht]
    · exact List.mem_ofFn.2 ⟨t, rfl⟩
  rw [hval, scan_iff]
  constructor
  · rintro ⟨d, hd, hout⟩
    obtain ⟨t', ht'⟩ := gs.all d
    refine ⟨d, t, t', hd, ht, ht', ?_⟩
    rintro rfl
    exact hout ht'
  · rintro ⟨d, u, t', hd, hu, ht', hne⟩
    refine ⟨d, hd, fun hin => hne ?_⟩
    exact (gs.only c u t hu ht).trans (gs.only d t t' hin ht')

/-- The cells with a neighbour in another grid, as `RebuildGridMT` has them. -/
theorem Grids.border_iff [NeZero nx] [NeZero ny] [NeZero nz] {T : Type*} [Fintype T] (gs : Grids nx ny nz T)
    (c : Index nx ny nz) : gs.border c = true ↔
      ∃ d t t', Adjacent c d ∧ c ∈ (gs.grid t).cells ∧ d ∈ (gs.grid t').cells ∧ t ≠ t' := by
  rw [border, decide_eq_true_iff]
  have hconfine : ∀ {n : ℕ} [NeZero n] (i : ℤ), ((confine n i).val : ℤ) = clamp n i := by
    intro n _ i
    have hn := NeZero.pos n
    have hlt : (if i < 0 then 0 else if i > (n : ℤ) - 1 then n - 1 else i.toNat) < n := by split_ifs <;> omega
    rw [confine, Fin.val_ofNat, Nat.mod_eq_of_lt hlt, clamp]
    split_ifs <;> omega
  constructor
  · rintro ⟨t, hc, d, hd, hout⟩
    obtain ⟨hdk, hd⟩ := List.mem_product.1 hd
    obtain ⟨hdj, hdi⟩ := List.mem_product.1 hd
    obtain ⟨k, hk, hck⟩ := clamp_near c.1 (mem_steps.1 hdk)
    obtain ⟨j, hj, hcj⟩ := clamp_near c.2.1 (mem_steps.1 hdj)
    obtain ⟨i, hi, hci⟩ := clamp_near c.2.2 (mem_steps.1 hdi)
    have heq : confineCell (coords c + d) = ((k, j, i) : Index nx ny nz) := by
      rw [confineCell, Prod.mk.injEq, Prod.mk.injEq]
      refine ⟨Fin.ext ?_, Fin.ext ?_, Fin.ext ?_⟩
      · exact Int.ofNat.inj ((hconfine _).trans hk)
      · exact Int.ofNat.inj ((hconfine _).trans hj)
      · exact Int.ofNat.inj ((hconfine _).trans hi)
    rw [heq] at hout
    obtain ⟨t', ht'⟩ := gs.all (k, j, i)
    refine ⟨(k, j, i), t, t', ⟨hck, hcj, hci⟩, hc, ht', ?_⟩
    rintro rfl
    exact hout ht'
  · rintro ⟨d, t, t', ⟨hk, hj, hi⟩, hc, hd, hne⟩
    refine ⟨t, hc, coords d - coords c, ?_, fun hin => hne (gs.only d t t' ?_ hd)⟩
    · rw [abs_sub_comm] at hk hj hi
      exact List.mem_product.2 ⟨mem_steps.2 hk, List.mem_product.2 ⟨mem_steps.2 hj, mem_steps.2 hi⟩⟩
    · rwa [add_sub_cancel, confineCell_coords] at hin

end Border

/-! ### `InitSim` -/

/-- The grids and the border for this number of threads. -/
def initTiling (threadnum nx ny nz : ℕ) (border : Index nx ny nz → Bool) :
    Except Abort (List Grid × (Index nx ny nz → Bool)) := do
  let (XDIVS, ZDIVS) ← divisions threadnum
  let grids ← makeGrids nx ny nz XDIVS ZDIVS
  return (grids, markBorder grids border)

/-- Every cell is in exactly one of the grids, and the border cells are those with a neighbour in another. -/
structure Tiled {nx ny nz : ℕ} (threadnum : ℕ) (grids : List Grid) (border : Index nx ny nz → Bool) : Prop where
  number : grids.length = threadnum
  inside : ∀ g ∈ grids, g.sx < g.ex ∧ g.ex ≤ nx ∧ g.sy = 0 ∧ g.ey = ny ∧ g.sz < g.ez ∧ g.ez ≤ nz
  cells : ∀ c : Index nx ny nz, ∃! gi : Fin grids.length, c ∈ (grids.get gi).cells
  border : ∀ c, border c = true ↔ ∃ (d : Index nx ny nz) (gi gj : Fin grids.length), Adjacent c d ∧
    c ∈ (grids.get gi).cells ∧ d ∈ (grids.get gj).cells ∧ gi ≠ gj

theorem initGrids_tiled {nx nz XDIVS ZDIVS threadnum : ℕ} (ny : ℕ) (X : Cuts nx XDIVS) (Z : Cuts nz ZDIVS)
    (number : XDIVS * ZDIVS = threadnum) (border : Index nx ny nz → Bool) :
    Tiled threadnum (List.ofFn (initGrid ny X Z)) (markBorder (List.ofFn (initGrid ny X Z)) border) := by
  subst number
  have hlen : (List.ofFn (initGrid ny X Z)).length = XDIVS * ZDIVS := List.length_ofFn
  have hget : ∀ gi : Fin (List.ofFn (initGrid ny X Z)).length, (List.ofFn (initGrid ny X Z)).get gi =
      (initGrids ny X Z).grid (gi.cast hlen) := fun gi => by rw [List.get_ofFn]; rfl
  refine ⟨hlen, fun g hg => ?_, fun c => ?_, fun c => ?_⟩
  · obtain ⟨gi, rfl⟩ := List.mem_ofFn.1 hg
    have hx : (X.cut (gi.divNat + 1)) ≤ X.cut XDIVS := X.mono _ gi.divNat.isLt (Nat.le_refl _)
    have hz : (Z.cut (gi.modNat + 1)) ≤ Z.cut ZDIVS := Z.mono _ gi.modNat.isLt (Nat.le_refl _)
    rw [X.last] at hx
    rw [Z.last] at hz
    exact ⟨X.lt _ gi.divNat.isLt, hx, rfl, rfl, Z.lt _ gi.modNat.isLt, hz⟩
  · obtain ⟨t, ht⟩ := (initGrids ny X Z).all c
    refine ⟨t.cast hlen.symm, ?_, fun gi hgi => ?_⟩
    · dsimp only
      rw [hget]
      exact ht
    · dsimp only at hgi
      rw [hget] at hgi
      rw [← (initGrids ny X Z).only c _ _ hgi ht]
      rfl
  · refine (Grids.markBorder_iff (initGrids ny X Z) border c).trans ?_
    simp only [hget]
    constructor
    · rintro ⟨d, t, t', hd, ht, ht', hne⟩
      exact ⟨d, t.cast hlen.symm, t'.cast hlen.symm, hd, ht, ht', fun heq => hne (Fin.cast_injective _ heq)⟩
    · rintro ⟨d, gi, gj, hd, hi, hj, hne⟩
      exact ⟨d, _, _, hd, hi, hj, fun heq => hne (Fin.cast_injective _ heq)⟩

/-- CORRECT: with a number of threads that is a power of 2 and as many cells in the two dimensions as they are
    divided into parts, no assert fails, every cell is in exactly one grid and `border` is true for the cells
    with a neighbour in another. -/
theorem initTiling_tiled (k : ℕ) {nx ny nz : ℕ} (hx : 2 ^ ((k + 1) / 2) ≤ nx) (hz : 2 ^ (k / 2) ≤ nz)
    (border : Index nx ny nz → Bool) : divisions (2 ^ k) = .ok (2 ^ ((k + 1) / 2), 2 ^ (k / 2)) ∧
      2 ^ ((k + 1) / 2) * 2 ^ (k / 2) = 2 ^ k ∧
      ∃ grids border', initTiling (2 ^ k) nx ny nz border = .ok (grids, border') ∧ Tiled (2 ^ k) grids border' := by
  have number : 2 ^ ((k + 1) / 2) * 2 ^ (k / 2) = 2 ^ k := by
    rw [← pow_add]
    congr 1
    omega
  have hgrids := makeGrids_eq ny (by positivity) (by positivity) hx hz
  refine ⟨divisions_pow k, number, _, _, ?_, initGrids_tiled ny (Cuts.round nx _ (by positivity) hx)
    (Cuts.round nz _ (by positivity) hz) number border⟩
  rw [initTiling, divisions_pow]
  simp only [bind, Except.bind, hgrids]
  rfl

theorem initTiling_tiled_eight : divisions (2 ^ 3) = .ok (2 ^ ((3 + 1) / 2), 2 ^ (3 / 2)) ∧
    2 ^ ((3 + 1) / 2) * 2 ^ (3 / 2) = 2 ^ 3 ∧ ∃ grids border', initTiling (2 ^ 3) 5 2 3 (fun _ => true) =
      .ok (grids, border') ∧ Tiled (2 ^ 3) grids border' :=
  initTiling_tiled 3 (by decide) (by decide) fun _ => true

end Turkey.Fluid
