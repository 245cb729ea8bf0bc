import Mathlib.Algebra.Order.Group.Abs
import Mathlib.Algebra.Order.Ring.Int
import Mathlib.Data.List.GetD
import Turkey.Canneal.Netlist
import Turkey.Schemes.WireLength

/-! The routing cost of canneal, in exact integers: `netlist::total_routing_cost`, which adds up what every
    element pays for its nets and halves the sum, and `annealer_thread::calculate_delta_routing_cost`, by
    which a thread decides whether two elements change places. -/

namespace Turkey.Netlist
open Turkey.WireLength

/-- `present_loc` of an element. -/
def Graph.loc (g : Graph) (i : ℕ) : ℕ × ℕ := g.presentLoc.getD i (0, 0)

/-- The distance between two locations. -/
def manhattan (p q : ℕ × ℕ) : ℤ := |(p.1 : ℤ) - q.1| + |(p.2 : ℤ) - q.2|

/-- A loop over the neighbours of an element, which adds the distances from a location. -/
def Graph.distances (g : Graph) (loc : ℕ × ℕ) (neighbours : List ℕ) : ℤ :=
  (neighbours.map fun j => manhattan loc (g.loc j)).sum

/-- `netlist_elem::routing_cost_given_loc` -/
def Graph.routingCostGivenLoc (g : Graph) (i : ℕ) (loc : ℕ × ℕ) : ℤ :=
  let faninCost := g.distances loc (g.fanin i)
  let fanoutCost := g.distances loc (g.fanout i)
  faninCost + fanoutCost

/-- `netlist_elem::swap_cost` -/
def Graph.swapCost (g : Graph) (i : ℕ) (oldLoc newLoc : ℕ × ℕ) : ℤ :=
  let noSwap := g.distances oldLoc (g.fanin i) + g.distances oldLoc (g.fanout i)
  let yesSwap := g.distances newLoc (g.fanin i) + g.distances newLoc (g.fanout i)
  yesSwap - noSwap

/-- `annealer_thread::calculate_delta_routing_cost` -/
def Graph.calculateDeltaRoutingCost (g : Graph) (a b : ℕ) : ℤ :=
  g.swapCost a (g.loc a) (g.loc b) + g.swapCost b (g.loc b) (g.loc a)

/-- The sum that `total_routing_cost` halves. -/
def Graph.rval (g : Graph) : ℤ :=
  ((List.range g.presentLoc.length).map fun i => g.routingCostGivenLoc i (g.loc i)).sum

/-- `netlist::total_routing_cost` -/
def Graph.totalRoutingCost (g : Graph) : ℤ := g.rval / 2

/-- `netlist::swap_locations`, by itself. -/
def Graph.swapLocations (g : Graph) (a b : ℕ) : Graph :=
  { g with presentLoc := (g.presentLoc.set a (g.loc b)).set b (g.loc a) }

/-- The fan-outs are the converse of the fan-ins, and both are elements of the chip. -/
structure Graph.Symmetric (g : Graph) : Prop where
  fanout : ∀ i j, (g.fanout j).count i = (g.fanin i).count j
  inside : ∀ i, ∀ j ∈ g.fanin i, i < g.presentLoc.length ∧ j < g.presentLoc.length

/-- The nets from `i` to `j`, where `j` is a fan-in of `i`. -/
def Graph.nets (g : Graph) (i j : ℕ) : ℤ := (g.fanin i).count j

/-- The distance of two elements where they are. -/
def Graph.distance (g : Graph) (i j : ℕ) : ℤ := manhattan (g.loc i) (g.loc j)

theorem manhattan_comm (p q : ℕ × ℕ) : manhattan p q = manhattan q p := by
  simp only [manhattan]
  rw [abs_sub_comm (p.1 : ℤ), abs_sub_comm (p.2 : ℤ)]

theorem manhattan_self (p : ℕ × ℕ) : manhattan p p = 0 := by
  simp [manhattan]

theorem manhattan_eq_zero {p q : ℕ × ℕ} (h : manhattan p q = 0) : p = q := by
  have h₁ := abs_nonneg ((p.1 : ℤ) - q.1)
  have h₂ := abs_nonneg ((p.2 : ℤ) - q.2)
  rw [manhattan] at h
  have fst := abs_eq_zero.1 (by omega : |(p.1 : ℤ) - q.1| = 0)
  have snd := abs_eq_zero.1 (by omega : |(p.2 : ℤ) - q.2| = 0)
  exact Prod.ext (by omega) (by omega)

/-! ### The cost of an element -/

variable {g : Graph}

/-- A loop over a list, by how often each value occurs. -/
theorem sum_map_eq_sum_count {ι : Type*} [DecidableEq ι] [BEq ι] [LawfulBEq ι] {s : Finset ι} (f : ι → ℤ) :
    ∀ {l : List ι}, (∀ j ∈ l, j ∈ s) → (l.map f).sum = ∑ j ∈ s, (l.count j : ℤ) * f j
  | [], _ => by simp
  | i :: l, h => by
    rw [List.forall_mem_cons] at h
    have first : ∑ j ∈ s, (if i == j then 1 else 0 : ℤ) * f j = f i := by
      simp only [beq_iff_eq, ite_mul, one_mul, zero_mul, Finset.sum_ite_eq, h.1, if_true]
    rw [List.map_cons, List.sum_cons, sum_map_eq_sum_count f h.2, ← first, ← Finset.sum_add_distrib]
    refine Finset.sum_congr rfl fun j _ => ?_
    rw [List.count_cons, Nat.cast_add, add_mul, add_comm]
    split_ifs <;> rfl

theorem Graph.Symmetric.fanout_lt (h : g.Symmetric) {i j : ℕ} (hi : i ∈ g.fanout j) : i < g.presentLoc.length := by
  have count := List.count_pos_iff.2 hi
  rw [h.fanout] at count
  exact (h.inside i j (List.count_pos_iff.1 count)).1

theorem Graph.Symmetric.routingCostGivenLoc_eq (h : g.Symmetric) (i k : ℕ) :
    g.routingCostGivenLoc i (g.loc k) = costAt (Finset.range g.presentLoc.length) g.nets g.distance i k := by
  simp only [routingCostGivenLoc, distances]
  rw [sum_map_eq_sum_count _ fun j hj => Finset.mem_range.2 (h.inside i j hj).2,
    sum_map_eq_sum_count _ fun j hj => Finset.mem_range.2 (h.fanout_lt hj), ← Finset.sum_add_distrib]
  refine Finset.sum_congr rfl fun j _ => ?_
  rw [h.fanout j i, ← add_mul]
  rfl

theorem Graph.distance_comm (i j : ℕ) : g.distance i j = g.distance j i := manhattan_comm ..

theorem Graph.distance_self (i : ℕ) : g.distance i i = 0 := manhattan_self _

/-- Every net is counted at both of its ends. -/
theorem Graph.Symmetric.rval_eq (h : g.Symmetric) :
    g.rval = 2 * wireLength (Finset.range g.presentLoc.length) g.nets g.distance := by
  rw [← sum_costAt _ _ g.distance_comm, rval]
  simp only [h.routingCostGivenLoc_eq]
  exact (Multiset.sum_coe _).symm

theorem Graph.Symmetric.totalRoutingCost_eq (h : g.Symmetric) :
    g.totalRoutingCost = wireLength (Finset.range g.presentLoc.length) g.nets g.distance := by
  rw [totalRoutingCost, h.rval_eq, Int.mul_ediv_cancel_left _ (by decide)]

theorem Graph.Symmetric.calculateDeltaRoutingCost_eq (h : g.Symmetric) (a b : ℕ) :
    g.calculateDeltaRoutingCost a b =
      costAt (Finset.range g.presentLoc.length) g.nets g.distance a b -
        costAt (Finset.range g.presentLoc.length) g.nets g.distance a a +
      (costAt (Finset.range g.presentLoc.length) g.nets g.distance b a -
        costAt (Finset.range g.presentLoc.length) g.nets g.distance b b) := by
  simp only [← h.routingCostGivenLoc_eq]
  rfl

/-! ### Two elements change places -/

theorem Graph.loc_swapLocations {a b : ℕ} (ha : a < g.presentLoc.length) (hb : b < g.presentLoc.length) (i : ℕ) :
    (g.swapLocations a b).loc i = g.loc (Equiv.swap a b i) := by
  simp only [loc, swapLocations, List.getD_eq_getElem?_getD, List.getElem?_set, List.length_set]
  rcases eq_or_ne i b with rfl | hib
  · simp [hb, Equiv.swap_apply_right]
  rcases eq_or_ne i a with rfl | hia
  · simp [ha, hib.symm, Equiv.swap_apply_left]
  · simp [hib.symm, hia.symm, Equiv.swap_apply_of_ne_of_ne hia hib]

theorem Graph.length_swapLocations (a b : ℕ) :
    (g.swapLocations a b).presentLoc.length = g.presentLoc.length := by
  simp only [swapLocations, List.length_set]

theorem Graph.distance_swapLocations {a b : ℕ} (ha : a < g.presentLoc.length) (hb : b < g.presentLoc.length) :
    (g.swapLocations a b).distance = fun i j => g.distance (Equiv.swap a b i) (Equiv.swap a b j) := by
  funext i j
  simp only [distance, loc_swapLocations ha hb]

theorem Graph.nets_swapLocations (a b : ℕ) : (g.swapLocations a b).nets = g.nets := rfl

theorem Graph.Symmetric.swapLocations (h : g.Symmetric) (a b : ℕ) : (g.swapLocations a b).Symmetric where
  fanout := h.fanout
  inside := by
    rw [length_swapLocations]
    exact h.inside

/-- What the prediction of a thread differs by from the change of the total. -/
theorem Graph.Symmetric.delta_error (h : g.Symmetric) {a b : ℕ} (ha : a < g.presentLoc.length)
    (hb : b < g.presentLoc.length) (hab : a ≠ b) : g.calculateDeltaRoutingCost a b =
      (g.swapLocations a b).totalRoutingCost - g.totalRoutingCost +
        2 * (g.distance a b * (g.nets a a + g.nets b b - (g.nets a b + g.nets b a))) := by
  have after : (g.swapLocations a b).totalRoutingCost = wireLength (Finset.range g.presentLoc.length) g.nets
      fun i j => g.distance (Equiv.swap a b i) (Equiv.swap a b j) := by
    rw [(h.swapLocations a b).totalRoutingCost_eq, length_swapLocations]
    rw [distance_swapLocations ha hb, nets_swapLocations]
  rw [after, h.totalRoutingCost_eq, h.calculateDeltaRoutingCost_eq,
    wireLength_swap _ _ g.distance_comm g.distance_self (Finset.mem_range.2 ha) (Finset.mem_range.2 hb) hab]
  ring

/-- CORRECT: the predicted change is the true one if and only if the two elements have the same location, or
    there are as many nets from one of them to the other as from one of them to itself. -/
theorem delta_eq_iff (h : g.Symmetric) {a b : ℕ} (ha : a < g.presentLoc.length) (hb : b < g.presentLoc.length)
    (hab : a ≠ b) :
    g.calculateDeltaRoutingCost a b = (g.swapLocations a b).totalRoutingCost - g.totalRoutingCost ↔
      g.loc a = g.loc b ∨
        (g.fanin a).count a + (g.fanin b).count b = (g.fanin a).count b + (g.fanin b).count a := by
  rw [h.delta_error ha hb hab, add_eq_left, mul_eq_zero, mul_eq_zero]
  simp only [Graph.nets, OfNat.ofNat_ne_zero, false_or]
  refine or_congr ⟨manhattan_eq_zero, fun hloc => ?_⟩ (by omega)
  rw [Graph.distance, hloc, manhattan_self]

/-! ### The graph of a file -/

/-- The nets of a file: element `i` has element `j` as fan-in. -/
def netList (data : List Element) : List (ℕ × ℕ) := (faninList data).map (Prod.map id place)

/-- What the constructor and the swaps after it leave. -/
structure Wired (maxX maxY : ℕ) (nets : List (ℕ × ℕ)) (g : Graph) : Prop where
  fanout : ∀ i j, (g.fanin i).count j = (g.fanout j).count i
  location : ∀ x < maxX, ∀ y < maxY, ∃! i, i < maxX * maxY ∧ g.loc i = (x, y)
  even : 2 ∣ g.rval
  cost : g.totalRoutingCost = (nets.map fun (i, j) => manhattan (g.loc i) (g.loc j)).sum

theorem readData_length : ∀ {n : ℕ} {file : List Word} {data : List Element}, readData n file = some data →
    data.length = n ∧ ∀ e ∈ data, e.n.length = 5
  | 0, file, data, h => by
    obtain rfl := Option.some.inj h
    simp
  | n + 1, id :: type :: a :: b :: c :: d :: e :: file, data, h => by
    obtain ⟨rest, hrest, rfl⟩ := Option.map_eq_some_iff.1 h
    obtain ⟨length, five⟩ := readData_length hrest
    exact ⟨congrArg Nat.succ length, List.forall_mem_cons.2 ⟨rfl, five⟩⟩

theorem length_netList {data : List Element} (five : ∀ e ∈ data, e.n.length = 5) :
    (netList data).length = 5 * data.length := by
  have lines : ∀ p ∈ data.zipIdx, (p.1.n.map (Prod.mk p.2)).length = 5 := by
    rintro ⟨e, i⟩ he
    rw [List.length_map]
    exact five e (List.fst_mem_of_mem_zipIdx he)
  rw [netList, List.length_map, faninList, List.length_flatMap, List.map_congr_left lines, List.map_const',
    List.sum_replicate, List.length_zipIdx, nsmul_eq_mul, Nat.cast_id, Nat.mul_comm]

theorem locations_eq {maxX maxY : ℕ} {locs : List (ℕ × ℕ)} (h : locations maxX maxY = some locs) :
    locs = List.range maxX ×ˢ List.range maxY := by
  simp only [locations, Option.bind_eq_some_iff, Option.map_eq_some_iff] at h
  obtain ⟨xs, hxs, cols, hcols, rfl⟩ := h
  obtain ⟨-, rfl⟩ := intIndices_eq_some.1 hxs
  rcases hy : intIndices maxY with _ | ys
  · rcases Nat.eq_zero_or_pos maxX with rfl | pos
    · obtain rfl := Option.some.inj hcols
      rfl
    · have some_x : List.range maxX ≠ [] := by
        rw [Ne, List.range_eq_nil]
        omega
      simp only [hy, Option.map_none, mapM_none some_x, reduceCtorEq] at hcols
  · obtain ⟨-, rfl⟩ := intIndices_eq_some.1 hy
    simp only [hy, Option.map_some, mapM_some, Option.some.injEq] at hcols
    rw [← hcols]
    exact List.flatMap_def.symm

theorem presentLoc_foldlM {c : ℕ} : ∀ (edges : List (ℕ × Word)) {g g' : Graph},
    edges.foldlM (connect c) g = some g' → g'.presentLoc = g.presentLoc
  | [], g, g', h => by rw [Option.some.inj h]
  | (i, w) :: edges, g, g', h => by
    obtain ⟨g₁, hstep, h⟩ := Option.bind_eq_some_iff.1 h
    obtain ⟨-, rfl⟩ := connect_eq_some.1 hstep
    exact (presentLoc_foldlM edges h : g'.presentLoc = (g.edge i (place w)).presentLoc)

/-- The constructor returns if and only if its `int`s can count the lines, the rows and the columns, the
    chip is not larger than an `unsigned` and the numbers are places on the chip. -/
theorem netlist_eq_some {numElements maxX maxY : Word} {file : List Word} {data : List Element} {g : Graph}
    (hdata : readData numElements.toNat file = some data) (room : numElements < maxX * maxY) :
    netlist (numElements :: maxX :: maxY :: file) = some g ↔
      (numElements.toNat ≤ 2 ^ 31 ∧ maxX.toNat ≤ 2 ^ 31 ∧ maxY.toNat ≤ 2 ^ 31 ∧
        maxX.toNat * maxY.toNat < 2 ^ 32) ∧
      (faninList data).foldlM (connect (maxX * maxY).toNat)
        ⟨List.range maxX.toNat ×ˢ List.range maxY.toNat, fun _ => [], fun _ => []⟩ = some g := by
  have chip : (maxX * maxY).toNat = maxX.toNat * maxY.toNat % 2 ^ 32 := BitVec.toNat_mul ..
  have chip_pos : 0 < maxX.toNat * maxY.toNat % 2 ^ 32 := by
    rw [BitVec.lt_def, chip] at room
    omega
  have x_pos : 0 < maxX.toNat := by
    refine Nat.pos_of_ne_zero fun h => ?_
    rw [h, Nat.zero_mul] at chip_pos
    exact absurd chip_pos (by decide)
  simp only [netlist, if_pos room, hdata, Option.bind_some]
  constructor
  · intro h
    obtain ⟨locs, hlocs, h⟩ := Option.bind_eq_some_iff.1 h
    obtain ⟨x_le, y_le, length⟩ := length_of_locations x_pos hlocs
    rw [Option.ite_none_right_eq_some, length, chip] at h
    obtain ⟨fits, h⟩ := h
    obtain ⟨is, his, h⟩ := Option.bind_eq_some_iff.1 h
    obtain ⟨n_le, -⟩ := intIndices_eq_some.1 his
    refine ⟨⟨n_le, x_le, y_le, ?_⟩, ?_⟩
    · exact Nat.lt_of_le_of_lt fits (Nat.mod_lt _ (by decide))
    · rw [chip, ← locations_eq hlocs]
      exact h
  · rintro ⟨⟨n_le, x_le, y_le, chip_lt⟩, h⟩
    obtain ⟨locs, hlocs⟩ := locations_isSome x_le y_le
    rw [hlocs, Option.bind_some, if_pos, intIndices_eq_some.2 ⟨n_le, rfl⟩, Option.bind_some, locations_eq hlocs]
    · exact h
    · rw [(length_of_locations x_pos hlocs).2.2, chip, Nat.mod_eq_of_lt chip_lt]

/-- The nets that the lists hold, added up. -/
theorem sum_nets {n : ℕ} {nets : List (ℕ × ℕ)} (inside : ∀ p ∈ nets, p.1 < n ∧ p.2 < n)
    (count : ∀ i j, (g.fanin i).count j = nets.count (i, j)) (d : ℕ → ℕ → ℤ) :
    (nets.map fun (i, j) => d i j).sum = wireLength (Finset.range n) g.nets d := by
  rw [wireLength, ← Finset.sum_product' _ _ fun i j => g.nets i j * d i j]
  simp only [Graph.nets, count, Prod.mk.eta]
  refine sum_map_eq_sum_count _ fun p hp => ?_
  obtain ⟨hi, hj⟩ := inside p hp
  exact Finset.mem_product.2 ⟨Finset.mem_range.2 hi, Finset.mem_range.2 hj⟩

/-- Invariant of the swaps: the lists are those of the file, and every location has its element. -/
structure Laid (maxX maxY : ℕ) (nets : List (ℕ × ℕ)) (g : Graph) : Prop where
  length : g.presentLoc.length = maxX * maxY
  location : ∀ x < maxX, ∀ y < maxY, ∃! i, i < maxX * maxY ∧ g.loc i = (x, y)
  inside : ∀ p ∈ nets, p.1 < maxX * maxY ∧ p.2 < maxX * maxY
  fanin : ∀ i j, (g.fanin i).count j = nets.count (i, j)
  fanout : ∀ i j, (g.fanout j).count i = nets.count (i, j)

namespace Laid
variable {maxX maxY : ℕ} {nets : List (ℕ × ℕ)}

theorem symmetric (h : Laid maxX maxY nets g) : g.Symmetric where
  fanout i j := by rw [h.fanout, h.fanin]
  inside i j hj := by
    have count := List.count_pos_iff.2 hj
    rw [h.fanin] at count
    rw [h.length]
    exact h.inside _ (List.count_pos_iff.1 count)

theorem wired (h : Laid maxX maxY nets g) : Wired maxX maxY nets g where
  fanout i j := by rw [h.fanin, h.fanout]
  location := h.location
  even := ⟨_, h.symmetric.rval_eq⟩
  cost := by
    rw [h.symmetric.totalRoutingCost_eq, h.length]
    exact (sum_nets h.inside h.fanin g.distance).symm

/-- The constructor has given the locations to the elements in their order. -/
theorem of_foldlM {numElements : ℕ} {file : List Word} {data : List Element}
    (hdata : readData numElements file = some data) (room : numElements < maxX * maxY)
    (h : (faninList data).foldlM (connect (maxX * maxY))
      ⟨List.range maxX ×ˢ List.range maxY, fun _ => [], fun _ => []⟩ = some g) :
    Laid maxX maxY (netList data) g := by
  obtain ⟨inChip, count⟩ := of_foldlM_connect _ h
  have presentLoc : g.presentLoc = List.range maxX ×ˢ List.range maxY := presentLoc_foldlM _ h
  have length : g.presentLoc.length = maxX * maxY := by
    rw [presentLoc, List.length_product, List.length_range, List.length_range]
  have nodup : g.presentLoc.Nodup := by
    rw [presentLoc]
    exact List.nodup_range.product List.nodup_range
  refine ⟨length, fun x hx y hy => ?_, ?_, fun i j => ?_, fun i j => ?_⟩
  · have mem : (x, y) ∈ g.presentLoc := by
      rw [presentLoc]
      exact List.mem_product.2 ⟨List.mem_range.2 hx, List.mem_range.2 hy⟩
    obtain ⟨i, hi, hget⟩ := List.mem_iff_getElem.1 mem
    refine ⟨i, ⟨length ▸ hi, ?_⟩, ?_⟩
    · rw [Graph.loc, List.getD_eq_getElem _ _ hi, hget]
    · rintro k ⟨hk, hloc⟩
      rw [← length] at hk
      rw [Graph.loc, List.getD_eq_getElem _ _ hk, ← hget] at hloc
      exact (nodup.getElem_inj_iff).1 hloc
  · intro p hp
    obtain ⟨⟨i, w⟩, hmem, rfl⟩ := List.mem_map.1 hp
    obtain ⟨⟨e, k⟩, he, hmem'⟩ := List.mem_flatMap.1 hmem
    obtain ⟨v, -, hv⟩ := List.mem_map.1 hmem'
    obtain ⟨rfl, rfl⟩ := Prod.mk.inj hv
    have line := List.snd_lt_of_mem_zipIdx he
    have num := inChip_iff.1 (inChip _ hmem)
    rw [Prod.map_apply, id_eq, place_eq]
    rw [(readData_length hdata).1] at line
    have lt := v.isLt
    constructor <;> dsimp only at * <;> omega
  · rw [(count i j).1, List.count_nil, Nat.zero_add, netList]
  · rw [(count i j).2, List.count_nil, Nat.zero_add, netList]

theorem of_netlist {numElements maxX maxY : Word} {file : List Word} {data : List Element}
    (hdata : readData numElements.toNat file = some data) (room : numElements < maxX * maxY)
    (h : netlist (numElements :: maxX :: maxY :: file) = some g) :
    Laid maxX.toNat maxY.toNat (netList data) g := by
  obtain ⟨⟨-, -, -, chip_lt⟩, h⟩ := (netlist_eq_some hdata room).1 h
  have chip : (maxX * maxY).toNat = maxX.toNat * maxY.toNat := by
    rw [BitVec.toNat_mul, Nat.mod_eq_of_lt chip_lt]
  rw [BitVec.lt_def, chip] at room
  rw [chip] at h
  exact of_foldlM hdata room h

theorem swapLocations (h : Laid maxX maxY nets g) {a b : ℕ} (ha : a < maxX * maxY) (hb : b < maxX * maxY) :
    Laid maxX maxY nets (g.swapLocations a b) where
  length := by rw [Graph.length_swapLocations, h.length]
  location x hx y hy := by
    have keeps (i : ℕ) (hi : i < maxX * maxY) : Equiv.swap a b i < maxX * maxY := by
      rw [Equiv.swap_apply_def]
      split_ifs <;> assumption
    obtain ⟨i, ⟨hi, hloc⟩, unique⟩ := h.location x hx y hy
    rw [← h.length] at ha hb
    refine ⟨Equiv.swap a b i, ⟨keeps i hi, ?_⟩, ?_⟩
    · rw [Graph.loc_swapLocations ha hb, Equiv.swap_apply_self, hloc]
    · rintro k ⟨hk, hk'⟩
      rw [Graph.loc_swapLocations ha hb] at hk'
      rw [← unique _ ⟨keeps k hk, hk'⟩, Equiv.swap_apply_self]
  inside := h.inside
  fanin := h.fanin
  fanout := h.fanout

theorem swaps : ∀ (swaps : List (ℕ × ℕ)) {g : Graph}, Laid maxX maxY nets g →
    (∀ p ∈ swaps, p.1 < maxX * maxY ∧ p.2 < maxX * maxY) →
    Laid maxX maxY nets (swaps.foldl (fun g p => g.swapLocations p.1 p.2) g)
  | [], _, h, _ => h
  | (a, b) :: rest, _, h, inside => by
    rw [List.forall_mem_cons] at inside
    exact swaps rest (h.swapLocations inside.1.1 inside.1.2) inside.2

end Laid

theorem inChip_of_data {c : ℕ} {data : List Element}
    (h : ∀ e ∈ data, ∀ w ∈ e.n, 1 ≤ w.toInt ∧ w.toInt ≤ c) : ∀ p ∈ faninList data, InChip c p.2 := by
  intro p hp
  obtain ⟨⟨e, k⟩, he, hmem⟩ := List.mem_flatMap.1 hp
  obtain ⟨w, hw, rfl⟩ := List.mem_map.1 hmem
  have num := h e (List.fst_mem_of_mem_zipIdx he) w hw
  rw [BitVec.toInt_eq_toNat_cond] at num
  have lt := w.isLt
  refine inChip_iff.2 (?_ : 0 < w.toNat ∧ w.toNat ≤ 2 ^ 31 ∧ w.toNat ≤ c)
  split_ifs at num <;> omega

/-- CORRECT: for every file whose numbers are places on the chip, and which has fewer elements than the
    chip, the constructor returns as long as its `int`s count the rows, the columns and the elements and an
    `unsigned` holds the chip. After it and any swaps, the cost is the length of the nets of the file. -/
theorem total_routing_cost_is_wire_length (numElements maxX maxY : Word) (file : List Word)
    (data : List Element) (hdata : readData numElements.toNat file = some data)
    (room : numElements < maxX * maxY)
    (inChip : ∀ e ∈ data, ∀ w ∈ e.n, 1 ≤ w.toInt ∧ w.toInt ≤ (maxX * maxY).toNat) :
    ((∃ g, netlist (numElements :: maxX :: maxY :: file) = some g) ↔
      numElements.toNat ≤ 2 ^ 31 ∧ maxX.toNat ≤ 2 ^ 31 ∧ maxY.toNat ≤ 2 ^ 31 ∧
        maxX.toNat * maxY.toNat < 2 ^ 32) ∧
    (netList data).length = 5 * numElements.toNat ∧
    ∀ g, netlist (numElements :: maxX :: maxY :: file) = some g → ∀ swaps : List (ℕ × ℕ),
      (∀ p ∈ swaps, p.1 < (maxX * maxY).toNat ∧ p.2 < (maxX * maxY).toNat ∧ p.1 ≠ p.2) →
      Wired maxX.toNat maxY.toNat (netList data) (swaps.foldl (fun g p => g.swapLocations p.1 p.2) g) := by
  obtain ⟨length, five⟩ := readData_length hdata
  refine ⟨⟨fun ⟨g, h⟩ => ((netlist_eq_some hdata room).1 h).1, fun sizes => ?_⟩, ?_, fun g h swaps hswaps => ?_⟩
  · obtain ⟨g, h⟩ := foldlM_connect (faninList data)
      ⟨List.range maxX.toNat ×ˢ List.range maxY.toNat, fun _ => [], fun _ => []⟩ (inChip_of_data inChip)
    exact ⟨g, (netlist_eq_some hdata room).2 ⟨sizes, h⟩⟩
  · rw [length_netList five, length]
  · have chip_lt := ((netlist_eq_some hdata room).1 h).1.2.2.2
    rw [BitVec.toNat_mul, Nat.mod_eq_of_lt chip_lt] at hswaps
    exact ((Laid.of_netlist hdata room h).swaps swaps fun p hp => ⟨(hswaps p hp).1, (hswaps p hp).2.1⟩).wired

/-- One element, with the element next to it as its five fan-ins. -/
def pair (maxX : Word) : List Word := [1, maxX, 1, 1, 0, 2, 2, 2, 2, 2]

theorem total_routing_cost_pair : ∃ g, netlist (pair 2) = some g ∧
    Wired 2 1 (List.replicate 5 (0, 1)) (g.swapLocations 0 1) := by
  have inChip : ∀ e ∈ [(⟨1, 0, [2, 2, 2, 2, 2]⟩ : Element)], ∀ w ∈ e.n,
      1 ≤ w.toInt ∧ w.toInt ≤ ((2 : Word) * 1).toNat := by
    intro e he w hw
    obtain rfl := List.mem_singleton.1 he
    obtain rfl : w = 2 := by simpa using hw
    decide
  obtain ⟨exact, -, wired⟩ := total_routing_cost_is_wire_length 1 2 1 [1, 0, 2, 2, 2, 2, 2] _ rfl (by decide) inChip
  obtain ⟨g, h⟩ := exact.2 (by decide)
  exact ⟨g, h, wired g h [(0, 1)] (by decide)⟩

/-- The nets of elements 0 and 1 join the two: no swap of them changes the total. -/
theorem delta_pair : ∃ g, netlist (pair 2) = some g ∧ g.Symmetric ∧ g.presentLoc.length = 2 ∧
    g.calculateDeltaRoutingCost 0 1 = -10 ∧ (g.swapLocations 0 1).totalRoutingCost - g.totalRoutingCost = 0 := by
  have eval : (netlist (pair 2)).map (fun g => (g.calculateDeltaRoutingCost 0 1,
      (g.swapLocations 0 1).totalRoutingCost - g.totalRoutingCost)) = some (-10, 0) := by decide
  obtain ⟨g, hg, h⟩ := Option.map_eq_some_iff.1 eval
  have laid := Laid.of_netlist rfl (by decide) hg
  obtain ⟨delta, change⟩ := Prod.mk.inj h
  exact ⟨g, hg, laid.symmetric, laid.length, delta, change⟩

/-- With a third element, which has no nets, the swap of elements 1 and 2 is predicted. -/
theorem delta_eq_pair : ∃ g, netlist (pair 3) = some g ∧
    g.calculateDeltaRoutingCost 1 2 = (g.swapLocations 1 2).totalRoutingCost - g.totalRoutingCost := by
  have eval : (netlist (pair 3)).map (fun g => ((g.fanin 1).count 1 + (g.fanin 2).count 2,
      (g.fanin 1).count 2 + (g.fanin 2).count 1)) = some (0, 0) := by decide
  obtain ⟨g, hg, h⟩ := Option.map_eq_some_iff.1 eval
  have laid := Laid.of_netlist rfl (by decide) hg
  obtain ⟨left, right⟩ := Prod.mk.inj h
  refine ⟨g, hg, (delta_eq_iff laid.symmetric ?_ ?_ (by decide)).2 (.inr (left.trans right.symm))⟩
  · rw [laid.length]
    decide
  · rw [laid.length]
    decide

end Turkey.Netlist
