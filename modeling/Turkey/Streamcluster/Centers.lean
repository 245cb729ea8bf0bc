import Mathlib.Algebra.Group.End
import Mathlib.Algebra.Group.Nat.Defs
import Mathlib.Data.Int.Notation
import Mathlib.Data.List.GetD
import Mathlib.Logic.Equiv.Basic

/-! The centers of streamcluster: `streamCluster` reads the stream in chunks into one block, clusters every
    chunk and keeps its medians as intermediate centers, clusters these and prints the medians that are left
    with the numbers in `centerIDs`.

    The local search shuffles the array of points before it clusters them. A point is a weight and a pointer
    into the block, so that shuffling moves the pointers, and they stay where they are when the next chunk
    is read. What the search finds by computing with floating-point numbers (how often it shuffles, which
    point is assigned to which, how many centers it reports) is given here, as are the draws. Weights and
    coordinates carry the number of the point of the stream that they belong to. -/

namespace Turkey.Streamcluster

/-- A value, and the number of the point it belongs to; `none` in memory that nobody has written. -/
structure Tagged (α : Type*) where
  val : α
  origin : Option ℕ
  deriving DecidableEq

/-- `Point`; `coord` is the place in the block that the pointer points to. -/
structure Point (W : Type*) where
  weight : Tagged W
  coord : ℕ
  assign : ℕ

/-- `Points`, with the block that its pointers point into. -/
structure Points (W V : Type*) where
  num : ℕ
  p : ℕ → Point W
  block : ℕ → Tagged V

/-- The floating-point arithmetic of `contcenters`: the weights of a median and of a point of its cluster
    together, and the median moved towards the point. -/
structure Arithmetic (W V : Type*) where
  one : W
  add : W → W → W
  blend : W → V → W → V → V

/-- What a local search on `num` points draws in its first shuffle and in those of its further tries, and
    what it finds. -/
structure Search (num : ℕ) where
  draws : ℕ → ℕ
  again : List (ℕ → ℕ)
  assign : ℕ → ℕ
  assign_lt : ∀ i < num, assign i < num
  kfinal : ℤ

/-- The arguments of `streamCluster`, and the search for every call and number of points. -/
structure Config (W V : Type*) where
  arith : Arithmetic W V
  chunksize : ℕ
  centersize : ℤ
  kmax : ℤ
  search : ℕ → (num : ℕ) → Search num

variable {W V α : Type*} (c : Config W V)

/-! ### The local search -/

def shuffle (num : ℕ) (draw : ℕ → ℕ) (p : ℕ → α) : ℕ → α :=
  (List.range (num - 1)).foldl (fun p i => p ∘ Equiv.swap i (draw i % (num - i) + i)) p

/-- `localSearch`, as far as the points are concerned. -/
def localSearch (points : Points W V) (found : Search points.num) : Points W V :=
  if points.num ≤ c.kmax then
    { points with p := fun i => if i < points.num then { points.p i with assign := i } else points.p i }
  else
    let p := (found.draws :: found.again).foldl (fun p draw => shuffle points.num draw p) points.p
    { points with p := fun i => if i < points.num then { p i with assign := found.assign i } else p i }

/-- Point `i` in the loop of `contcenters`. -/
def contcenter (points : Points W V) (i : ℕ) : Points W V :=
  let m := (points.p i).assign
  if m = i then points
  else
    let mid := points.p m
    let mean := c.arith.blend mid.weight.val (points.block mid.coord).val (points.p i).weight.val
      (points.block (points.p i).coord).val
    { points with
      block := Function.update points.block mid.coord { points.block mid.coord with val := mean }
      p := Function.update points.p m
        { mid with weight := { mid.weight with val := c.arith.add mid.weight.val (points.p i).weight.val } } }

def contcenters (points : Points W V) : Points W V := (List.range points.num).foldl (contcenter c) points

/-- The places `i` with `is_a_median[i]`. -/
def medians (points : Points W V) : List ℕ :=
  (List.range points.num).filter fun i => (List.range points.num).any fun j => (points.p j).assign = i

/-! ### The stream -/

/-- `centers`, `centerIDs` and the variables of the loop. -/
structure State (W V : Type*) where
  points : Points W V
  centers : Points W V
  centerIDs : ℕ → ℕ
  offset : ℕ

def State.new (heap : ℕ → V) : State W V where
  points := ⟨0, fun i => ⟨⟨c.arith.one, none⟩, i, 0⟩, fun i => ⟨heap i, none⟩⟩
  centers := ⟨0, fun i => ⟨⟨c.arith.one, none⟩, i, 0⟩, fun i => ⟨heap i, none⟩⟩
  centerIDs := fun _ => 0
  offset := 0

/-- One center of `copycenters`: the median at place `i`. `none` if there is no room for it. -/
def copycenter (s : State W V) (i : ℕ) : Option (State W V) :=
  let k := s.centers.num
  if k < c.centersize then
    let center := s.centers.p k
    some { s with
      centers := {
        num := k + 1
        p := Function.update s.centers.p k { center with weight := (s.points.p i).weight }
        block := Function.update s.centers.block center.coord (s.points.block (s.points.p i).coord) }
      centerIDs := Function.update s.centerIDs k (i + s.offset) }
  else none

def copycenters (s : State W V) : Option (State W V) := (medians s.points).foldlM (copycenter c) s

/-- `read` into the block, and the weights; `before` points have been read so far. -/
def readChunk (points : Points W V) (before : ℕ) (chunk : List V) : Points W V :=
  let block := fun m => match chunk[m]? with
    | some v => ⟨v, some (before + m)⟩
    | none => points.block m
  { num := chunk.length
    p := fun i =>
      if i < chunk.length then { points.p i with weight := ⟨c.arith.one, (block (points.p i).coord).origin⟩ }
      else points.p i
    block := block }

/-- The loop over the chunks of the stream; `feof` holds after the last one. `none` is an exit with an
    error, or an access out of bounds. -/
def clusterChunks (call before : ℕ) : List (List V) → State W V → Option (State W V)
  | [], s => some s
  | chunk :: stream, s =>
    if c.chunksize < chunk.length ∨ (chunk.length < c.chunksize ∧ stream ≠ []) then none
    else
      let read := readChunk c s.points before chunk
      let found := c.search call read.num
      let points := contcenters c (localSearch c read found)
      if c.centersize < found.kfinal + s.centers.num then none
      else
        (copycenters c { s with points := points }).bind fun s =>
          clusterChunks (call + 1) (before + chunk.length) stream { s with offset := s.offset + chunk.length }

/-- What `outcenterIDs` prints for one center. -/
structure Printed (W V : Type*) where
  id : ℕ
  weight : Tagged W
  coord : Tagged V
  deriving DecidableEq

/-- The format of the number is `%u`. -/
def outcenterIDs (centers : Points W V) (centerIDs : ℕ → ℕ) : List (Printed W V) :=
  (medians centers).map fun i =>
    ⟨centerIDs i % 2 ^ 32, (centers.p i).weight, centers.block (centers.p i).coord⟩

def streamCluster (heap : ℕ → V) (stream : List (List V)) : Option (List (Printed W V)) :=
  (clusterChunks c 0 0 stream (State.new c heap)).map fun s =>
    let found := c.search stream.length s.centers.num
    outcenterIDs (contcenters c (localSearch c s.centers found)) s.centerIDs

/-- The number is that of the point which the weight and the coordinates belong to. -/
def Printed.Right (line : Printed W V) : Prop := line.weight.origin = some line.id ∧ line.coord.origin = some line.id

/-! ### When the numbers are right -/

/-- The place that the point at a place comes from, after one shuffle. -/
def shufflePerm (num : ℕ) (draw : ℕ → ℕ) : Equiv.Perm ℕ :=
  (List.range (num - 1)).foldl (fun π i => π * Equiv.swap i (draw i % (num - i) + i)) 1

/-- The same after a search, which leaves few points alone. -/
def Search.perm {num : ℕ} (found : Search num) (kmax : ℤ) : Equiv.Perm ℕ :=
  if num ≤ kmax then 1 else (found.draws :: found.again).foldl (fun π draw => π * shufflePerm num draw) 1

def Search.medians {num : ℕ} (found : Search num) (kmax : ℤ) : List ℕ :=
  (List.range num).filter fun i =>
    (List.range num).any fun j => (if num ≤ kmax then j else found.assign j) = i

/-- The intermediate centers of the stream: the number that is stored, and the number of the point.
    The pointer at place `j` points to the place of the block that all shuffles together give, and the last
    chunk may be too short to reach it: then the point of the chunk before is still there. -/
def intermediate (call before : ℕ) (π : Equiv.Perm ℕ) : List (List V) → List (ℕ × ℕ)
  | [] => []
  | chunk :: stream =>
    let found := c.search call chunk.length
    let π := π * found.perm c.kmax
    let number := fun m => if m < chunk.length then before + m else before + m - c.chunksize
    (found.medians c.kmax).map (fun j => (before + j, number (π j))) ++
      intermediate (call + 1) (before + chunk.length) π stream

/-- The number that is stored for a place which is printed is the number of the point that the last search
    has moved there. -/
def Unmoved (stream : List (List V)) : Prop :=
  let centers := intermediate c 0 0 1 stream
  let found := c.search stream.length centers.length
  ∀ i ∈ found.medians c.kmax, (centers.getD i (0, 0)).1 % 2 ^ 32 = (centers.getD (found.perm c.kmax i) (0, 0)).2

/-! ### Shuffling -/

theorem foldl_comp_perm {β : Type*} (f : β → Equiv.Perm ℕ) (q : ℕ → α) : ∀ (l : List β) (π : Equiv.Perm ℕ),
    l.foldl (fun p b => p ∘ f b) (q ∘ π) = q ∘ (l.foldl (fun π b => π * f b) π : Equiv.Perm ℕ)
  | [], _ => rfl
  | b :: l, π => by
    rw [List.foldl_cons, List.foldl_cons, Function.comp_assoc, ← Equiv.Perm.coe_mul]
    exact foldl_comp_perm f q l (π * f b)

theorem shuffle_eq (num : ℕ) (draw : ℕ → ℕ) (p : ℕ → α) : shuffle num draw p = p ∘ shufflePerm num draw :=
  foldl_comp_perm _ p _ 1

/-- A product of permutations of the places below `num`. -/
theorem foldl_mul_lt {β : Type*} {f : β → Equiv.Perm ℕ} {num : ℕ} : ∀ {l : List β} {π : Equiv.Perm ℕ},
    (∀ b ∈ l, ∀ i < num, f b i < num) → (∀ i < num, π i < num) →
      ∀ i < num, (l.foldl (fun π b => π * f b) π : Equiv.Perm ℕ) i < num
  | [], _, _, hπ => hπ
  | b :: l, π, hf, hπ => by
    rw [List.forall_mem_cons] at hf
    rw [List.foldl_cons]
    exact foldl_mul_lt hf.2 fun i hi => hπ _ (hf.1 i hi)

theorem shufflePerm_lt {num : ℕ} (draw : ℕ → ℕ) : ∀ i < num, shufflePerm num draw i < num := by
  refine foldl_mul_lt (fun k hk i hi => ?_) fun i hi => hi
  have hk : k < num - 1 := List.mem_range.1 hk
  have hj : draw k % (num - k) < num - k := Nat.mod_lt _ (by omega)
  rw [Equiv.swap_apply_def]
  split_ifs <;> omega

theorem Search.perm_lt {num : ℕ} (found : Search num) (kmax : ℤ) : ∀ i < num, found.perm kmax i < num := by
  rw [Search.perm]
  split_ifs
  · exact fun i hi => hi
  · exact foldl_mul_lt (fun draw _ => shufflePerm_lt draw) fun i hi => hi

/-! ### What a search and the means leave of the points -/

/-- The points without the floating-point values. -/
structure Shape where
  num : ℕ
  coord : ℕ → ℕ
  assign : ℕ → ℕ
  weightOf : ℕ → Option ℕ
  coordOf : ℕ → Option ℕ

def Points.shape (points : Points W V) : Shape where
  num := points.num
  coord i := (points.p i).coord
  assign i := (points.p i).assign
  weightOf i := (points.p i).weight.origin
  coordOf m := (points.block m).origin

/-- A change that a projection does not see. -/
theorem proj_update {β γ : Type*} {g : β → γ} {f : ℕ → β} {m : ℕ} {v : β} (h : g v = g (f m)) :
    (fun j => g (Function.update f m v j)) = fun j => g (f j) := by
  funext j
  by_cases hj : j = m
  · rw [hj, Function.update_self, h]
  · rw [Function.update_of_ne hj]

theorem shape_contcenter (points : Points W V) (i : ℕ) : (contcenter c points i).shape = points.shape := by
  rw [contcenter]
  split_ifs
  · rfl
  · simp only [Points.shape, Shape.mk.injEq, true_and]
    exact ⟨proj_update (g := Point.coord) rfl, proj_update (g := Point.assign) rfl,
      proj_update (g := fun q : Point W => q.weight.origin) rfl, proj_update (g := Tagged.origin) rfl⟩

theorem shape_contcenters (points : Points W V) : (contcenters c points).shape = points.shape := by
  suffices h : ∀ (l : List ℕ) (q : Points W V), (l.foldl (contcenter c) q).shape = q.shape from h _ _
  intro l
  induction l with
  | nil => exact fun q => rfl
  | cons i l ih =>
    intro q
    rw [List.foldl_cons, ih, shape_contcenter]

theorem medians_of_shape {points points' : Points W V} (h : points.shape = points'.shape) :
    medians points = medians points' := by
  have num : points.num = points'.num := congrArg Shape.num h
  have assign : ∀ j, (points.p j).assign = (points'.p j).assign := congrFun (congrArg Shape.assign h)
  simp only [medians, num, assign]

theorem localSearch_num (points : Points W V) (found : Search points.num) :
    (localSearch c points found).num = points.num := by
  rw [localSearch]
  split_ifs <;> rfl

theorem localSearch_block (points : Points W V) (found : Search points.num) :
    (localSearch c points found).block = points.block := by
  rw [localSearch]
  split_ifs <;> rfl

theorem localSearch_p (points : Points W V) (found : Search points.num) (i : ℕ) :
    ((localSearch c points found).p i).coord = (points.p (found.perm c.kmax i)).coord ∧
    ((localSearch c points found).p i).weight = (points.p (found.perm c.kmax i)).weight := by
  rw [localSearch, Search.perm]
  split_ifs
  · dsimp only
    split_ifs <;> exact ⟨rfl, rfl⟩
  · have moved : (found.draws :: found.again).foldl (fun p draw => shuffle points.num draw p) points.p =
        points.p ∘ ((found.draws :: found.again).foldl (fun π draw => π * shufflePerm points.num draw) 1 :
          Equiv.Perm ℕ) := by
      simp only [shuffle_eq]
      exact foldl_comp_perm _ points.p _ 1
    rw [moved]
    dsimp only
    split_ifs <;> exact ⟨rfl, rfl⟩

theorem medians_localSearch (points : Points W V) (found : Search points.num) :
    medians (localSearch c points found) = found.medians c.kmax := by
  rw [medians, Search.medians, localSearch_num]
  refine List.filter_congr fun i _ => ?_
  rw [Bool.eq_iff_iff, List.any_eq_true, List.any_eq_true]
  refine exists_congr fun j => and_congr_right fun hj => ?_
  have assign : ((localSearch c points found).p j).assign = if points.num ≤ c.kmax then j else found.assign j := by
    rw [localSearch]
    split_ifs
    · exact congrArg Point.assign (if_pos (List.mem_range.1 hj))
    · exact congrArg Point.assign (if_pos (List.mem_range.1 hj))
  rw [assign]

/-! ### The intermediate centers -/

/-- The centers are stored one after the other, each with its number and that of its point. -/
structure Stored (stored : List (ℕ × ℕ)) (s : State W V) : Prop where
  num : s.centers.num = stored.length
  coord : ∀ k, (s.centers.p k).coord = k
  id : ∀ k e, stored[k]? = some e → s.centerIDs k = e.1
  weightOf : ∀ k e, stored[k]? = some e → (s.centers.p k).weight.origin = some e.2
  coordOf : ∀ k e, stored[k]? = some e → (s.centers.block k).origin = some e.2

variable {c}

/-- An update at the end of what is stored. -/
theorem update_stored {β : Type*} {stored : List (ℕ × ℕ)} {e : ℕ × ℕ} {f : ℕ → β} {v : β} {P : β → ℕ × ℕ → Prop}
    (hf : ∀ k e, stored[k]? = some e → P (f k) e) (hv : P v e) (k : ℕ) (e' : ℕ × ℕ)
    (hk : (stored ++ [e])[k]? = some e') : P (Function.update f stored.length v k) e' := by
  rcases Nat.lt_trichotomy k stored.length with h | rfl | h
  · rw [List.getElem?_append_left h] at hk
    rw [Function.update_of_ne (Nat.ne_of_lt h)]
    exact hf k e' hk
  · rw [List.getElem?_append_right (Nat.le_refl _), Nat.sub_self] at hk
    rw [Function.update_self, ← Option.some.inj hk]
    exact hv
  · rw [List.getElem?_eq_none (by simp; omega)] at hk
    cases hk

theorem Stored.copycenter {stored : List (ℕ × ℕ)} {s s' : State W V} (h : Stored stored s) {i n : ℕ}
    (hweight : (s.points.p i).weight.origin = some n)
    (hcoord : (s.points.block (s.points.p i).coord).origin = some n) (hs : copycenter c s i = some s') :
    Stored (stored ++ [(i + s.offset, n)]) s' ∧ s'.points = s.points ∧ s'.offset = s.offset := by
  simp only [Streamcluster.copycenter, Option.ite_none_right_eq_some] at hs
  obtain rfl := Option.some.inj hs.2
  rw [h.coord, h.num]
  refine ⟨⟨?_, fun k => ?_, ?_, ?_, ?_⟩, rfl, rfl⟩
  · rw [List.length_append, List.length_singleton]
  · dsimp only
    by_cases hk : k = stored.length
    · rw [hk, Function.update_self]
    · rw [Function.update_of_ne hk]
      exact h.coord k
  · exact update_stored (P := fun v e => v = e.1) h.id rfl
  · exact update_stored (P := fun (v : Point W) e => v.weight.origin = some e.2) h.weightOf hweight
  · exact update_stored (P := fun (v : Tagged V) e => v.origin = some e.2) h.coordOf hcoord

theorem Stored.foldlM_copycenter : ∀ {l : List ℕ} {stored : List (ℕ × ℕ)} {s s' : State W V} {number : ℕ → ℕ},
    Stored stored s → (∀ i ∈ l, (s.points.p i).weight.origin = some (number i) ∧
      (s.points.block (s.points.p i).coord).origin = some (number i)) →
      l.foldlM (Streamcluster.copycenter c) s = some s' →
      Stored (stored ++ l.map fun i => (i + s.offset, number i)) s' ∧ s'.points = s.points ∧ s'.offset = s.offset
  | [], stored, s, s', number, h, _, hs => by
    obtain rfl := Option.some.inj hs
    rw [List.map_nil, List.append_nil]
    exact ⟨h, rfl, rfl⟩
  | i :: l, stored, s, s', number, h, hl, hs => by
    rw [List.forall_mem_cons] at hl
    rw [List.foldlM_cons] at hs
    obtain ⟨s₁, hs₁, hs⟩ := Option.bind_eq_some_iff.1 hs
    obtain ⟨h₁, points, offset⟩ := h.copycenter hl.1.1 hl.1.2 hs₁
    have ih := h₁.foldlM_copycenter (by rw [points]; exact hl.2) hs
    rw [points, offset, List.append_assoc] at ih
    exact ih

/-! ### The loop over the chunks -/

variable (c) in
/-- The loop before a chunk: the pointers have been moved by `π`, and the block has the last chunk, which
    was a full one. -/
structure Looped (before : ℕ) (π : Equiv.Perm ℕ) (s : State W V) : Prop where
  offset : s.offset = before
  coord : ∀ i, (s.points.p i).coord = π i
  inside : ∀ i < c.chunksize, π i < c.chunksize
  first : before < c.chunksize → π = 1
  old : c.chunksize ≤ before → ∀ m < c.chunksize, (s.points.block m).origin = some (before + m - c.chunksize)

theorem readChunk_block (points : Points W V) (before : ℕ) (chunk : List V) (m : ℕ) :
    ((readChunk c points before chunk).block m).origin =
      if m < chunk.length then some (before + m) else (points.block m).origin := by
  simp only [readChunk]
  split_ifs with hm
  · rw [List.getElem?_eq_getElem hm]
  · rw [List.getElem?_eq_none (Nat.not_lt.1 hm)]

/-- The point at a place of the chunk, after the search. -/
theorem Looped.origin {before : ℕ} {π : Equiv.Perm ℕ} {s : State W V} (h : Looped c before π s) {chunk : List V}
    (hlen : chunk.length ≤ c.chunksize) (found : Search chunk.length) {j : ℕ} (hj : j < chunk.length) :
    let m := (π * found.perm c.kmax) j
    ((readChunk c s.points before chunk).block m).origin =
      some (if m < chunk.length then before + m else before + m - c.chunksize) := by
  intro m
  have hperm := found.perm_lt c.kmax j hj
  have hm : m < c.chunksize := h.inside _ (Nat.lt_of_lt_of_le hperm hlen)
  rw [readChunk_block]
  split_ifs with hlt
  · rfl
  · refine h.old (Nat.not_lt.1 fun short => hlt ?_) m hm
    have : m = found.perm c.kmax j := by
      simp only [m, h.first short, one_mul]
    rw [this]
    exact hperm

/-- What the search and the means leave of the points of a chunk. -/
theorem Looped.searched {before : ℕ} {π : Equiv.Perm ℕ} {s : State W V} (h : Looped c before π s) {chunk : List V}
    (found : Search chunk.length) {points : Points W V}
    (hp : points = contcenters c (localSearch c (readChunk c s.points before chunk) found)) :
    medians points = found.medians c.kmax ∧ (∀ i, (points.p i).coord = (π * found.perm c.kmax) i) ∧
    (∀ m, (points.block m).origin = ((readChunk c s.points before chunk).block m).origin) ∧
    ∀ i < chunk.length, (points.p i).weight.origin = (points.block (points.p i).coord).origin := by
  set read := readChunk c s.points before chunk with hread
  have shape : points.shape = (localSearch c read found).shape := by rw [hp, shape_contcenters]
  have coord : ∀ i, (points.p i).coord = (π * found.perm c.kmax) i := by
    intro i
    have hi := congrFun (congrArg Shape.coord shape) i
    have hc : (read.p (found.perm c.kmax i)).coord = (s.points.p (found.perm c.kmax i)).coord := by
      simp only [hread, readChunk]
      split_ifs <;> rfl
    exact hi.trans ((localSearch_p c read found i).1.trans (hc.trans (h.coord _)))
  have block : ∀ m, (points.block m).origin = (read.block m).origin := by
    intro m
    have hm : (points.block m).origin = ((localSearch c read found).block m).origin :=
      congrFun (congrArg Shape.coordOf shape) m
    exact hm.trans (congrArg (fun b => (b m).origin) (localSearch_block c read found))
  refine ⟨(medians_of_shape shape).trans (medians_localSearch c read found), coord, block, fun i hi => ?_⟩
  have hw : (points.p i).weight.origin = (read.p (found.perm c.kmax i)).weight.origin :=
    (congrFun (congrArg Shape.weightOf shape) i).trans (congrArg Tagged.origin (localSearch_p c read found i).2)
  have hread : (read.p (found.perm c.kmax i)).weight.origin = (read.block (π (found.perm c.kmax i))).origin := by
    rw [← h.coord]
    exact congrArg (fun q : Point W => q.weight.origin) (if_pos (found.perm_lt c.kmax i hi))
  rw [hw, hread, block, coord]
  rfl

/-- The centers that a run of the loop adds. -/
theorem Stored.clusterChunks : ∀ {stream : List (List V)} {call before : ℕ} {π : Equiv.Perm ℕ} {s s' : State W V}
    {stored : List (ℕ × ℕ)}, Stored stored s → Looped c before π s →
      Streamcluster.clusterChunks c call before stream s = some s' →
      Stored (stored ++ intermediate c call before π stream) s'
  | [], _, _, _, s, s', stored, h, _, hs => by
    obtain rfl := Option.some.inj hs
    rw [intermediate, List.append_nil]
    exact h
  | chunk :: stream, call, before, π, s, s', stored, h, hloop, hs => by
    simp only [Streamcluster.clusterChunks] at hs
    split_ifs at hs with hlen hroom
    obtain ⟨s₁, hcopy, hs⟩ := Option.bind_eq_some_iff.1 hs
    have hle : chunk.length ≤ c.chunksize := by omega
    obtain ⟨hmedians, coord, block, weight⟩ := hloop.searched (c.search call chunk.length) rfl
    set found := c.search call chunk.length
    set points := contcenters c (localSearch c (readChunk c s.points before chunk) found)
    set number := fun m => if m < chunk.length then before + m else before + m - c.chunksize
    have origin : ∀ i ∈ medians points, (points.p i).weight.origin = some (number ((π * found.perm c.kmax) i)) ∧
        (points.block (points.p i).coord).origin = some (number ((π * found.perm c.kmax) i)) := by
      intro i hi
      rw [hmedians] at hi
      have hi : i < chunk.length := List.mem_range.1 (List.mem_filter.1 hi).1
      rw [weight i hi, block, coord]
      exact ⟨hloop.origin hle found hi, hloop.origin hle found hi⟩
    have h₀ : Stored stored { s with points := points } := ⟨h.num, h.coord, h.id, h.weightOf, h.coordOf⟩
    obtain ⟨h₁, points₁, offset₁⟩ := h₀.foldlM_copycenter origin hcopy
    have new : ((medians points).map fun i => (i + s.offset, number ((π * found.perm c.kmax) i))) =
        (found.medians c.kmax).map fun j => (before + j, number ((π * found.perm c.kmax) j)) := by
      rw [hmedians, hloop.offset]
      simp only [Nat.add_comm]
    have h₂ : Stored (stored ++ (found.medians c.kmax).map fun j => (before + j, number ((π * found.perm c.kmax) j)))
        { s₁ with offset := s₁.offset + chunk.length } := by
      rw [← new]
      exact ⟨h₁.num, h₁.coord, h₁.id, h₁.weightOf, h₁.coordOf⟩
    rw [intermediate, ← List.append_assoc]
    cases stream with
    | nil =>
      obtain rfl := Option.some.inj hs
      rw [intermediate, List.append_nil]
      exact h₂
    | cons next stream =>
      -- a chunk that is not the last is a full one
      have full : chunk.length = c.chunksize := by
        simp only [ne_eq, reduceCtorEq, not_false_eq_true, and_true] at hlen
        omega
      refine h₂.clusterChunks ⟨?_, fun i => ?_, fun i hi => ?_, fun short => ?_, fun _ m hm => ?_⟩ hs
      · rw [offset₁, hloop.offset]
      · rw [points₁]
        exact coord i
      · exact hloop.inside _ (full ▸ found.perm_lt c.kmax i (full ▸ hi))
      · omega
      · rw [points₁, block, readChunk_block, if_pos (full ▸ hm)]
        congr 1
        omega

/-! ### The result -/

theorem stored_new (heap : ℕ → V) : Stored [] (State.new c heap) where
  num := rfl
  coord _ := rfl
  id _ _ h := nomatch h
  weightOf _ _ h := nomatch h
  coordOf _ _ h := nomatch h

theorem looped_new (heap : ℕ → V) : Looped c 0 1 (State.new c heap) where
  offset := rfl
  coord _ := rfl
  inside _ hi := hi
  first _ := rfl
  old h m hm := absurd hm (by omega)

/-- What the last search and the means leave of the centers that are stored. -/
theorem Stored.searched {stored : List (ℕ × ℕ)} {s : State W V} (h : Stored stored s) (found : Search s.centers.num)
    {centers : Points W V} (hc : centers = contcenters c (localSearch c s.centers found)) {i : ℕ} {e : ℕ × ℕ}
    (hi : stored[found.perm c.kmax i]? = some e) :
    (centers.p i).weight.origin = some e.2 ∧ (centers.block (centers.p i).coord).origin = some e.2 := by
  have shape : centers.shape = (localSearch c s.centers found).shape := by rw [hc, shape_contcenters]
  have weight : (centers.p i).weight.origin = ((localSearch c s.centers found).p i).weight.origin :=
    congrFun (congrArg Shape.weightOf shape) i
  have coord : (centers.p i).coord = ((localSearch c s.centers found).p i).coord :=
    congrFun (congrArg Shape.coord shape) i
  have block : ∀ m, (centers.block m).origin = ((localSearch c s.centers found).block m).origin :=
    congrFun (congrArg Shape.coordOf shape)
  rw [weight, block, coord, (localSearch_p c s.centers found i).1, (localSearch_p c s.centers found i).2,
    localSearch_block, h.coord]
  exact ⟨h.weightOf _ e hi, h.coordOf _ e hi⟩

theorem Stored.right_iff {stored : List (ℕ × ℕ)} {s : State W V} (h : Stored stored s)
    (search : (num : ℕ) → Search num) :
    (∀ line ∈ outcenterIDs (contcenters c (localSearch c s.centers (search s.centers.num))) s.centerIDs,
      line.Right) ↔ ∀ i ∈ (search stored.length).medians c.kmax, (stored.getD i (0, 0)).1 % 2 ^ 32 =
        (stored.getD ((search stored.length).perm c.kmax i) (0, 0)).2 := by
  rw [← h.num]
  set found := search s.centers.num
  set centers := contcenters c (localSearch c s.centers found) with hc
  have hmedians : medians centers = found.medians c.kmax := by
    rw [medians_of_shape (shape_contcenters c _), medians_localSearch]
  rw [outcenterIDs, List.forall_mem_map, hmedians]
  refine forall₂_congr fun i hi => ?_
  have hi : i < s.centers.num := List.mem_range.1 (List.mem_filter.1 hi).1
  have hperm : found.perm c.kmax i < stored.length := Nat.lt_of_lt_of_eq (found.perm_lt c.kmax i hi) h.num
  rw [h.num] at hi
  obtain ⟨weight, coord⟩ := h.searched found hc (List.getElem?_eq_getElem hperm)
  rw [List.getD_eq_getElem _ _ hi, List.getD_eq_getElem _ _ hperm, Printed.Right, weight, coord,
    h.id i _ (List.getElem?_eq_getElem hi)]
  simp only [Option.some.injEq, and_self]
  exact eq_comm

/-- A search on few points shuffles nothing. -/
theorem Search.perm_of_le {num : ℕ} (found : Search num) {kmax : ℤ} (h : num ≤ kmax) : found.perm kmax = 1 := if_pos h

/-- Where no search shuffles, what is stored is the number of the point. -/
theorem intermediate_of_few : ∀ {stream : List (List V)} {call before : ℕ},
    (∀ chunk ∈ stream, (chunk.length : ℤ) ≤ c.kmax) → ∀ x ∈ intermediate c call before 1 stream,
      x.1 = x.2 ∧ x.1 < before + stream.flatten.length
  | [], _, _, _, x, hx => absurd hx List.not_mem_nil
  | chunk :: stream, call, before, hfew, x, hx => by
    rw [List.forall_mem_cons] at hfew
    rw [intermediate, (c.search call chunk.length).perm_of_le hfew.1, mul_one, List.mem_append] at hx
    rw [List.flatten_cons, List.length_append]
    rcases hx with hx | hx
    · obtain ⟨j, hj, rfl⟩ := List.mem_map.1 hx
      have hlt : j < chunk.length := List.mem_range.1 (List.mem_filter.1 hj).1
      exact ⟨(if_pos hlt).symm, by dsimp only; omega⟩
    · have ih := intermediate_of_few hfew.2 x hx
      exact ⟨ih.1, by omega⟩

/-- Nothing is moved when no search shuffles and fewer than 2^32 points are read. -/
theorem unmoved_of_few {stream : List (List V)} (hchunks : ∀ chunk ∈ stream, (chunk.length : ℤ) ≤ c.kmax)
    (hcenters : ((intermediate c 0 0 1 stream).length : ℤ) ≤ c.kmax) (hfew : stream.flatten.length < 2 ^ 32) :
    Unmoved c stream := by
  intro i hi
  have hlt : i < (intermediate c 0 0 1 stream).length := List.mem_range.1 (List.mem_filter.1 hi).1
  obtain ⟨hsame, hbound⟩ := intermediate_of_few hchunks _ (List.getElem_mem hlt)
  rw [Search.perm_of_le _ hcenters, Equiv.Perm.one_apply, List.getD_eq_getElem _ _ hlt, ← hsame]
  exact Nat.mod_eq_of_lt (by omega)

/-- CORRECT: the numbers that are printed are right if and only if the number that is stored for every printed
    place is the one of the point that the shuffles have brought there. -/
theorem printed_right_iff (c : Config W V) (heap : ℕ → V) (stream : List (List V)) {lines : List (Printed W V)}
    (h : streamCluster c heap stream = some lines) : (∀ line ∈ lines, line.Right) ↔ Unmoved c stream := by
  obtain ⟨s, hs, rfl⟩ := Option.map_eq_some_iff.1 h
  have stored := (stored_new heap).clusterChunks (looped_new heap) hs
  rw [List.nil_append] at stored
  exact stored.right_iff (c.search stream.length)

/-- Two points that stay two centers; a shuffle whose draw is odd exchanges them. -/
def twoPoints (draw : ℕ → ℕ) : Config ℕ ℕ where
  arith := ⟨1, (· + ·), fun w x v y => (w * x + v * y) / (w + v)⟩
  chunksize := 3
  centersize := 10
  kmax := 1
  search call _ := ⟨fun _ => draw call, [], id, fun _ hi => hi, 2⟩

/-- Both searches exchange the points: the numbers are right again. -/
theorem printed_right_two : streamCluster (twoPoints fun _ => 1) (fun _ => 0) [[70, 80]] =
      some [⟨0, ⟨1, some 0⟩, ⟨70, some 0⟩⟩, ⟨1, ⟨1, some 1⟩, ⟨80, some 1⟩⟩] ∧
    Unmoved (twoPoints fun _ => 1) [[70, 80]] := by
  have run : streamCluster (twoPoints fun _ => 1) (fun _ => 0) [[70, 80]] =
      some [⟨0, ⟨1, some 0⟩, ⟨70, some 0⟩⟩, ⟨1, ⟨1, some 1⟩, ⟨80, some 1⟩⟩] := by decide
  refine ⟨run, (printed_right_iff (twoPoints fun _ => 1) _ _ run).1 ?_⟩
  rintro line hline
  simp only [List.mem_cons, List.not_mem_nil, or_false] at hline
  rcases hline with rfl | rfl <;> exact ⟨rfl, rfl⟩

/-- When only the first one does, 80 is printed under the number of 70. -/
theorem printed_wrong : ∃ lines, streamCluster (twoPoints fun call => 1 - call) (fun _ => 0) [[70, 80]] = some lines ∧
    ⟨0, ⟨1, some 1⟩, ⟨80, some 1⟩⟩ ∈ lines ∧ ¬ ∀ line ∈ lines, line.Right := by
  refine ⟨[⟨0, ⟨1, some 1⟩, ⟨80, some 1⟩⟩, ⟨1, ⟨1, some 0⟩, ⟨70, some 0⟩⟩], by decide, List.mem_cons_self .., ?_⟩
  intro right
  exact absurd (right _ (List.mem_cons_self ..)).1 (by decide)

end Turkey.Streamcluster
