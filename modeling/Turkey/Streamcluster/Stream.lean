import Turkey.Streamcluster.Location

/-! `streamCluster` with its searches, in exact arithmetic: the points of every chunk are clustered, `contcenters`
    moves every median to the mean of its cluster, and `copycenters` appends the medians to the intermediate
    centers, after a check that there is room for `kfinal` more.

    The weights of a cluster add up in its median, so that no weight is lost. The room is checked for as many
    centers as there are medians if the search has set `kfinal`; for a chunk of at most `kmax` points it still has
    the number of centers of an earlier search. -/

namespace Turkey.Pgain
open Turkey.ParallelFor Turkey.Run

/-- The arguments of `streamCluster`, the number of threads and the calls of `pgain`. -/
structure Streaming (K : Type) where
  nproc : ℕ
  pos : 0 < nproc
  dim : ℕ
  kmin : ℕ
  kmax : ℕ
  chunksize : ℕ
  centersize : ℕ
  log : ℕ → K
  calls : (b : Blocks) → ℕ → Call K b

/-- The points with `static long k`, the intermediate centers, and how many points have been read. -/
structure Stream (K : Type) where
  found : Found K
  centers : ℕ → Point K
  num : ℕ
  offset : ℕ
  feof : Bool

section Model
variable {K : Type} [Field K] [LinearOrder K] [FloorSemiring K] (c : Streaming K)

def Streaming.search (num : ℕ) : Search K where
  blocks := ⟨num, c.nproc, c.pos⟩
  dim := c.dim
  kmin := c.kmin
  kmax := c.kmax
  log := c.log
  calls := c.calls _

/-! ### The means -/

/-- Point `i` in the loop of `contcenters`. -/
def contcenter (dim : ℕ) (p : ℕ → Point K) (i : ℕ) : ℕ → Point K :=
  let m := (p i).assign
  if m ≠ i then
    let relweight := (p i).weight / ((p m).weight + (p i).weight)
    Function.update p m { p m with
      coord := fun ii =>
        if ii < dim then (p m).coord ii * (1 - relweight) + (p i).coord ii * relweight else (p m).coord ii
      weight := (p m).weight + (p i).weight }
  else p

def contcenters (num dim : ℕ) (p : ℕ → Point K) : ℕ → Point K := (List.range num).foldl (contcenter dim) p

/-- The places `i` with `is_a_median[i]`. -/
def medians (num : ℕ) (p : ℕ → Point K) : List ℕ :=
  (List.range num).filter fun i => (List.range num).any fun j => (p j).assign = i

/-- The median at place `i` becomes the next center. `none` if this is behind the end of the array. -/
def copycenter (p : ℕ → Point K) (centers : (ℕ → Point K) × ℕ) (i : ℕ) : Option ((ℕ → Point K) × ℕ) :=
  if centers.2 < c.centersize then
    some (Function.update centers.1 centers.2
      { centers.1 centers.2 with coord := (p i).coord, weight := (p i).weight }, centers.2 + 1)
  else none

def copycenters (num : ℕ) (p : ℕ → Point K) (centers : (ℕ → Point K) × ℕ) : Option ((ℕ → Point K) × ℕ) :=
  (medians num p).foldlM (copycenter c p) centers

/-! ### The chunks -/

/-- `read` into the block: the coordinates of the points that point to its first rows. All points that are read
    have weight 1, and no center is marked. -/
def Stream.readChunk (s : Stream K) (chunk : List (ℕ → K)) : Found K := { s.found with
  s := { s.found.s with
    p := fun i => { s.found.s.p i with
      coord := chunk.getD (s.found.row i) (s.found.s.p i).coord
      weight := if i < chunk.length then 1 else (s.found.s.p i).weight }
    isCenter := fun _ => false } }

/-- `localSearch(&points, ...)` on the chunk: what it has found, and `kfinal`. -/
def localSearch (fuel : ℕ) (s : Stream K) (chunk : List (ℕ → K)) : Except Stop (Found K × ℤ) :=
  pkmedian (c.search chunk.length) fuel (s.readChunk chunk)

/-- The centers after `copycenters`, if the program has not ended before; `none` for a write behind the end of the
    array of centers. -/
def keepMedians (s : Stream K) (num : ℕ) (r : Found K × ℤ) : Option ((ℕ → Point K) × ℕ) :=
  copycenters c num (contcenters num c.dim r.1.s.p) (s.centers, s.num)

/-- A chunk and `stream->feof()`. The result is `none` if the loop is over, after an exit with an error, as long as
    the search has not come to an end, and for a write behind the end of the array. -/
def clusterChunk (fuel : ℕ) (s : Stream K) (read : List (ℕ → K) × Bool) : Option (Stream K) :=
  if s.feof ∨ c.chunksize < read.1.length ∨ (read.1.length < c.chunksize ∧ ¬read.2) then none
  else
    match localSearch c fuel s read.1 with
    | .error _ => none
    | .ok r =>
      if c.centersize < r.2 + s.num then none
      else
        (keepMedians c s read.1.length r).map fun centers => {
          found := { r.1 with s := { r.1.s with p := contcenters read.1.length c.dim r.1.s.p } }
          centers := centers.1
          num := centers.2
          offset := s.offset + read.1.length
          feof := read.2 }

/-- Before the first chunk. Coordinates and centers are what is in the memory. -/
def Stream.new (heap centers : ℕ → Point K) (draws : ℕ → Draw) : Stream K where
  found := ⟨⟨heap, fun _ => false, 0, fun _ => 0, fun _ => false⟩, id, draws, 0⟩
  centers := fun i => { centers i with weight := 1 }
  num := 0
  offset := 0
  feof := false

/-- `localSearch(&centers, ...)` and `contcenters(&centers)`. -/
def clusterCenters (fuel : ℕ) (s : Stream K) : Except Stop (ℕ → Point K) :=
  (pkmedian (c.search s.num) fuel
    { s.found with s := { s.found.s with p := s.centers, isCenter := fun _ => false } }).map fun r =>
      contcenters s.num c.dim r.1.s.p

end Model

/-! ### What a search leaves -/

section Results
variable {K : Type} [Field K] [LinearOrder K] {num dim : ℕ} {p : ℕ → Point K}

/-- Every point is assigned to a point that is assigned to itself. -/
def Assigned (num : ℕ) (p : ℕ → Point K) : Prop :=
  ∀ i < num, (p i).assign < num ∧ (p (p i).assign).assign = (p i).assign

/-- The number of different values of `assign`. -/
def assigned (num : ℕ) (p : ℕ → Point K) : ℕ := ((Finset.range num).image fun i => (p i).assign).card

omit [Field K] [LinearOrder K] in
theorem mem_medians (h : Assigned num p) {m : ℕ} : m ∈ medians num p ↔ m < num ∧ (p m).assign = m := by
  simp only [medians, List.mem_filter, List.mem_range, List.any_eq_true, decide_eq_true_eq]
  constructor
  · rintro ⟨hm, j, hj, rfl⟩
    exact ⟨hm, (h j hj).2⟩
  · rintro ⟨hm, hself⟩
    exact ⟨hm, m, hm, hself⟩

omit [Field K] [LinearOrder K] in
theorem nodup_medians (num : ℕ) (p : ℕ → Point K) : (medians num p).Nodup := List.nodup_range.filter _

omit [Field K] [LinearOrder K] in
/-- There are as many medians as values. -/
theorem length_medians (h : Assigned num p) : (medians num p).length = assigned num p := by
  rw [← List.toFinset_card_of_nodup (nodup_medians num p), assigned]
  congr 1
  ext m
  rw [List.mem_toFinset, mem_medians h, Finset.mem_image]
  constructor
  · rintro ⟨hm, hself⟩
    exact ⟨m, Finset.mem_range.2 hm, hself⟩
  · rintro ⟨j, hj, rfl⟩
    exact h j (Finset.mem_range.1 hj)

variable [FloorSemiring K] [IsStrictOrderedRing K] {a : Search K} {f : Found K}

omit [LinearOrder K] [FloorSemiring K] [IsStrictOrderedRing K] in
theorem Consistent.assign_self {s : State K} (h : Consistent (a.config 0 0 0) s) : Assigned a.num s.p := by
  intro i hi
  obtain ⟨hlt, hcenter⟩ := (h.image (s.p i).assign).2 ⟨i, hi, rfl⟩
  exact ⟨hlt, h.self _ hlt hcenter⟩

/-- After a search, also after one that returns all points as facilities. -/
theorem pkmedian_assigned (hw : Weighted a.num f.s) (hclear : ∀ i, f.s.isCenter i = false) (fuel : ℕ) :
    Outcome (fun r => Rearranged a.num f.s r.1.s ∧ Assigned a.num r.1.s.p) (fun _ => True) (pkmedian a fuel f) := by
  rcases Nat.lt_or_ge a.kmax a.num with hnum | hnum
  · exact (pkmedian_outcome hnum hw hclear fuel).mono
      (fun r hr => ⟨hr.points, hr.consistent.assign_self⟩) fun _ _ => trivial
  · rw [pkmedian, if_pos hnum]
    have hp : ∀ i < a.num, ((allFacilities a.num f.s).p i).assign = i := fun i hi => by simp [allFacilities, hi]
    refine ⟨⟨1, fun _ hi => hi, fun i => ?_⟩, fun i hi => ?_⟩
    · simp only [allFacilities]
      split_ifs
      · exact ⟨rfl, rfl⟩
      · exact ⟨rfl, rfl⟩
    · simp only [hp i hi]
      exact ⟨hi, trivial⟩

end Results

/-! ### The room for the centers -/

section Room
variable {K : Type} [Field K] [LinearOrder K] [FloorSemiring K] {c : Streaming K}

omit [LinearOrder K] [FloorSemiring K] in
theorem assign_contcenters (num dim : ℕ) (p : ℕ → Point K) (i : ℕ) :
    (contcenters num dim p i).assign = (p i).assign := by
  suffices h : ∀ (l : List ℕ) (p : ℕ → Point K), (l.foldl (contcenter dim) p i).assign = (p i).assign from h _ p
  intro l
  induction l with
  | nil => exact fun p => rfl
  | cons k l ih =>
    intro p
    rw [List.foldl_cons, ih, contcenter]
    split_ifs
    · by_cases hi : i = (p k).assign
      · rw [hi]
        simp
      · rw [Function.update_of_ne hi]
    · rfl

omit [LinearOrder K] [FloorSemiring K] in
theorem medians_contcenters (num dim : ℕ) (p : ℕ → Point K) :
    medians num (contcenters num dim p) = medians num p := by
  simp only [medians, assign_contcenters]

omit [Field K] [LinearOrder K] [FloorSemiring K] in
/-- There is room for the centers if there is room for all. -/
theorem isSome_foldlM_copycenter (p : ℕ → Point K) : ∀ (l : List ℕ) (centers : (ℕ → Point K) × ℕ),
    centers.2 + l.length ≤ c.centersize → (l.foldlM (copycenter c p) centers).isSome = true
  | [], _, _ => rfl
  | i :: l, centers, h => by
    rw [List.length_cons] at h
    have hroom : centers.2 < c.centersize := by omega
    rw [List.foldlM_cons, copycenter, if_pos hroom]
    exact isSome_foldlM_copycenter p l _ (by dsimp only; omega)

variable [IsStrictOrderedRing K]

/-- `kfinal` is the number of centers, and if the check finds room `copycenters` writes to no index behind it. -/
def RoomChecked (c : Streaming K) (fuel : ℕ) (s : Stream K) (read : List (ℕ → K) × Bool) : Prop :=
  ∀ r, localSearch c fuel s read.1 = .ok r → r.2 = assigned read.1.length r.1.s.p ∧
    (r.2 + s.num ≤ c.centersize → (keepMedians c s read.1.length r).isSome = true)

omit [IsStrictOrderedRing K] in
theorem weighted_readChunk (s : Stream K) (chunk : List (ℕ → K)) :
    Weighted chunk.length (s.readChunk chunk).s := by
  intro k hk
  simp only [Stream.readChunk, hk, if_true]
  exact one_pos

theorem roomChecked_iff (c : Streaming K) (fuel : ℕ) (s : Stream K) (read : List (ℕ → K) × Bool) :
    RoomChecked c fuel s read ↔ c.kmax < read.1.length ∨ s.found.s.numcenters = read.1.length := by
  have hw := weighted_readChunk s read.1
  have hroom : ∀ r, localSearch c fuel s read.1 = .ok r → r.2 = assigned read.1.length r.1.s.p →
      r.2 + s.num ≤ c.centersize → (keepMedians c s read.1.length r).isSome = true := by
    intro r hr hk hle
    have hassigned : Assigned read.1.length r.1.s.p :=
      ((pkmedian_assigned (a := c.search read.1.length) hw (fun _ => rfl) fuel).ok hr).2
    refine isSome_foldlM_copycenter _ _ _ ?_
    rw [medians_contcenters, length_medians hassigned]
    dsimp only
    omega
  rcases Nat.lt_or_ge c.kmax read.1.length with hnum | hnum
  · refine iff_of_true (fun r hr => ?_) (.inl hnum)
    have hclustered := (pkmedian_outcome (a := c.search read.1.length) hnum hw (fun _ => rfl) fuel).ok hr
    have hk := hclustered.kfinal.trans hclustered.consistent.card_assign
    exact ⟨hk, hroom r hr hk⟩
  · -- all points are returned as facilities
    have hsearch : localSearch c fuel s read.1 = .ok ({ s.readChunk read.1 with
        s := allFacilities read.1.length (s.readChunk read.1).s }, s.found.s.numcenters) := if_pos hnum
    have hall : assigned read.1.length (allFacilities read.1.length (s.readChunk read.1).s).p = read.1.length := by
      rw [assigned, Finset.card_image_of_injOn, Finset.card_range]
      intro i hi j hj heq
      simpa [allFacilities, Finset.mem_range.1 hi, Finset.mem_range.1 hj] using heq
    rw [or_iff_right (not_lt.2 hnum)]
    constructor
    · intro h
      have hk := (h _ hsearch).1
      dsimp only at hk
      rwa [hall] at hk
    · intro hk r hr
      obtain rfl := Except.ok.inj (hsearch.symm.trans hr)
      have hk' : s.found.s.numcenters =
          assigned read.1.length (allFacilities read.1.length (s.readChunk read.1).s).p := by rw [hall, hk]
      exact ⟨hk', hroom _ hsearch hk'⟩

/-- CORRECT: in a run `kfinal` is always the number of centers, and the check protects the array of centers, if and
    only if every chunk has more than `kmax` points or as many as the last search has left centers. -/
theorem room_checked_iff (c : Streaming K) (fuel : ℕ) (heap centers : ℕ → Point K) (draws : ℕ → Draw)
    (reads : List (List (ℕ → K) × Bool)) :
    Meets (clusterChunk c fuel) (RoomChecked c fuel) (Stream.new heap centers draws) reads ↔
      Meets (clusterChunk c fuel) (fun s read => c.kmax < read.1.length ∨ s.found.s.numcenters = read.1.length)
        (Stream.new heap centers draws) reads := by
  have heq : RoomChecked c fuel = fun s read => c.kmax < read.1.length ∨ s.found.s.numcenters = read.1.length :=
    funext fun s => funext fun read => propext (roomChecked_iff c fuel s read)
  rw [heq]

end Room

/-- One thread, and at most one point in a chunk; there is no room for centers. -/
def noRoom : Streaming ℚ where
  nproc := 1
  pos := Nat.one_pos
  dim := 1
  kmin := 1
  kmax := 1
  chunksize := 1
  centersize := 0
  log := fun _ => 0
  calls := fun _ _ => ⟨fun _ => .byThread _, fun _ => 0⟩

def blank : Stream ℚ := Stream.new (fun _ => ⟨0, fun _ => 0, 0, 0⟩) (fun _ => ⟨0, fun _ => 0, 0, 0⟩) fun _ => 0

theorem room_checked_one : Meets (clusterChunk noRoom 0) (RoomChecked noRoom 0) blank [([fun _ => 0], true)] ↔
    Meets (clusterChunk noRoom 0) (fun s read => noRoom.kmax < read.1.length ∨ s.found.s.numcenters = read.1.length)
      blank [([fun _ => 0], true)] :=
  room_checked_iff noRoom 0 _ _ _ _

/-- One point is a center, but `kfinal` is 0: the check passes, and the center is written behind the end. -/
theorem room_not_checked : ¬Meets (clusterChunk noRoom 0) (RoomChecked noRoom 0) blank [([fun _ => 0], true)] ∧
    ∃ r, localSearch noRoom 0 blank [fun _ => 0] = .ok r ∧ r.2 + blank.num ≤ noRoom.centersize ∧
      keepMedians noRoom blank 1 r = none := by
  refine ⟨fun h => ?_, _, rfl, by decide, by rfl⟩
  rcases (roomChecked_iff noRoom 0 blank ([fun _ => 0], true)).1 h.1 with hnum | hk
  · exact absurd hnum (by decide)
  · exact absurd hk (by decide)

/-! ### The weights -/

section Weights
variable {K : Type} [Field K] [LinearOrder K] {num dim : ℕ} {p q : ℕ → Point K}

/-- The points of the cluster of `m` among the first `k`, and `m` itself. -/
def members (num : ℕ) (p : ℕ → Point K) (k m : ℕ) : Finset ℕ :=
  {j ∈ Finset.range num | (p j).assign = m ∧ (j < k ∨ j = m)}

/-- The medians after the first `k` points: their clusters so far are in them. -/
structure Merging (num dim : ℕ) (p : ℕ → Point K) (k : ℕ) (q : ℕ → Point K) : Prop where
  others : ∀ i, ¬(i < num ∧ (p i).assign = i) → q i = p i
  assign : ∀ i, (q i).assign = (p i).assign
  weight : ∀ m < num, (p m).assign = m → (q m).weight = ∑ j ∈ members num p k m, (p j).weight
  coord : ∀ m < num, (p m).assign = m → ∀ d < dim,
    (q m).weight * (q m).coord d = ∑ j ∈ members num p k m, (p j).weight * (p j).coord d

omit [Field K] [LinearOrder K] in
theorem members_zero {m : ℕ} (hm : m < num) (hself : (p m).assign = m) : members num p 0 m = {m} := by
  ext j
  simp only [members, Finset.mem_filter, Finset.mem_range, Nat.not_lt_zero, false_or, Finset.mem_singleton]
  constructor
  · exact fun h => h.2.2
  · rintro rfl
    exact ⟨hm, hself, rfl⟩

omit [Field K] [LinearOrder K] in
theorem members_num {m : ℕ} : members num p num m = {j ∈ Finset.range num | (p j).assign = m} := by
  refine Finset.filter_congr fun j hj => ?_
  rw [and_iff_left (.inl (Finset.mem_range.1 hj))]

omit [Field K] [LinearOrder K] in
/-- Point `k` comes into its cluster. -/
theorem members_succ {k m : ℕ} (hk : k < num) (hassign : (p k).assign = m) (hne : m ≠ k) :
    members num p (k + 1) m = insert k (members num p k m) ∧ k ∉ members num p k m := by
  constructor
  · ext j
    simp only [members, Finset.mem_filter, Finset.mem_range, Finset.mem_insert]
    constructor
    · rintro ⟨hj, ha, hlt⟩
      omega
    · rintro (rfl | ⟨hj, ha, hlt⟩)
      · exact ⟨hk, hassign, .inl (Nat.lt_succ_self j)⟩
      · exact ⟨hj, ha, hlt.imp_left Nat.lt_succ_of_lt⟩
  · intro hmem
    have := (Finset.mem_filter.1 hmem).2.2
    omega

omit [Field K] [LinearOrder K] in
theorem members_succ_of_ne {k m : ℕ} (h : (p k).assign ≠ m ∨ m = k) : members num p (k + 1) m =
    members num p k m := by
  refine Finset.filter_congr fun j hj => and_congr_right fun ha => ?_
  have hne : j = k → m = k := by
    rintro rfl
    exact h.resolve_left fun hne => hne ha
  omega

variable [IsStrictOrderedRing K]

theorem sum_members_pos (hw : ∀ i < num, 0 < (p i).weight) {k m : ℕ} (hm : m < num) (hself : (p m).assign = m) :
    0 < ∑ j ∈ members num p k m, (p j).weight :=
  Finset.sum_pos (fun j hj => hw j (Finset.mem_range.1 (Finset.mem_filter.1 hj).1))
    ⟨m, Finset.mem_filter.2 ⟨Finset.mem_range.2 hm, hself, .inr rfl⟩⟩

/-- Point `k` in the loop of `contcenters`. -/
theorem Merging.step {k : ℕ} (h : Merging num dim p k q) (ha : Assigned num p) (hw : ∀ i < num, 0 < (p i).weight)
    (hk : k < num) : Merging num dim p (k + 1) (contcenter dim q k) := by
  obtain ⟨hlt, hself⟩ := ha k hk
  by_cases hkm : (p k).assign = k
  · -- a median
    have hstay : contcenter dim q k = q := by
      rw [contcenter]
      dsimp only
      rw [h.assign k, if_neg (not_not.2 hkm)]
    have hmembers : ∀ m, members num p (k + 1) m = members num p k m := by
      intro m
      refine members_succ_of_ne ?_
      rw [hkm]
      exact (eq_or_ne k m).elim (fun heq => .inr heq.symm) .inl
    rw [hstay]
    exact ⟨h.others, h.assign, fun m hm hc => by rw [hmembers, h.weight m hm hc],
      fun m hm hc d hd => by rw [hmembers, h.coord m hm hc d hd]⟩
  · set m₀ := (p k).assign with hm₀
    have hq : q k = p k := h.others k fun hc => hkm hc.2
    have hW := h.weight m₀ hlt hself
    have hWpos : 0 < (q m₀).weight := hW ▸ sum_members_pos hw hlt hself
    have hsum : 0 < (q m₀).weight + (p k).weight := add_pos hWpos (hw k hk)
    have hstep : contcenter dim q k = Function.update q m₀ { q m₀ with
        coord := fun ii => if ii < dim then
          (q m₀).coord ii * (1 - (p k).weight / ((q m₀).weight + (p k).weight)) +
            (p k).coord ii * ((p k).weight / ((q m₀).weight + (p k).weight)) else (q m₀).coord ii
        weight := (q m₀).weight + (p k).weight } := by
      rw [contcenter]
      dsimp only
      rw [h.assign k, ← hm₀, if_pos hkm, hq]
    obtain ⟨hmembers, hnew⟩ := members_succ hk hm₀.symm hkm
    rw [hstep]
    refine ⟨fun i hi => ?_, fun i => ?_, fun m hm hc => ?_, fun m hm hc d hd => ?_⟩
    · have hne : i ≠ m₀ := by
        rintro rfl
        exact hi ⟨hlt, hself⟩
      rw [Function.update_of_ne hne, h.others i hi]
    · by_cases hi : i = m₀
      · rw [hi, Function.update_self]
        exact h.assign m₀
      · rw [Function.update_of_ne hi, h.assign i]
    · by_cases hm' : m = m₀
      · rw [hm', Function.update_self, hmembers, Finset.sum_insert hnew, ← hW, add_comm]
      · rw [Function.update_of_ne hm', h.weight m hm hc, members_succ_of_ne (.inl fun heq => hm' heq.symm)]
    · by_cases hm' : m = m₀
      · rw [hm', Function.update_self, hmembers, Finset.sum_insert hnew, ← h.coord m₀ hlt hself d hd]
        dsimp only
        rw [if_pos hd]
        field_simp
        ring
      · rw [Function.update_of_ne hm', h.coord m hm hc d hd, members_succ_of_ne (.inl fun heq => hm' heq.symm)]

/-- What `contcenters` makes of the points. -/
structure Merged (num dim : ℕ) (p q : ℕ → Point K) : Prop where
  others : ∀ i, ¬(i < num ∧ (p i).assign = i) → q i = p i
  assign : ∀ i, (q i).assign = (p i).assign
  weight : ∀ m < num, (p m).assign = m → (q m).weight = ∑ j ∈ Finset.range num with (p j).assign = m, (p j).weight
  mean : ∀ m < num, (p m).assign = m → ∀ d < dim, (q m).coord d =
    (∑ j ∈ Finset.range num with (p j).assign = m, (p j).weight * (p j).coord d) /
      ∑ j ∈ Finset.range num with (p j).assign = m, (p j).weight

theorem merging_contcenters (ha : Assigned num p) (hw : ∀ i < num, 0 < (p i).weight) : ∀ k ≤ num,
    Merging num dim p k ((List.range k).foldl (contcenter dim) p)
  | 0, _ => by
    refine ⟨fun _ _ => rfl, fun _ => rfl, fun m hm hc => ?_, fun m hm hc d _ => ?_⟩
    · rw [members_zero hm hc, Finset.sum_singleton]
      rfl
    · rw [members_zero hm hc, Finset.sum_singleton]
      rfl
  | k + 1, hk => by
    rw [List.range_succ, List.foldl_append]
    exact (merging_contcenters ha hw k (Nat.le_of_succ_le hk)).step ha hw hk

theorem merged_contcenters (dim : ℕ) (ha : Assigned num p) (hw : ∀ i < num, 0 < (p i).weight) :
    Merged num dim p (contcenters num dim p) := by
  have h : Merging num dim p num (contcenters num dim p) := merging_contcenters ha hw num le_rfl
  refine ⟨h.others, h.assign, fun m hm hc => ?_, fun m hm hc d hd => ?_⟩
  · rw [← members_num]
    exact h.weight m hm hc
  · have hpos := sum_members_pos hw (k := num) hm hc
    rw [← members_num, eq_div_iff hpos.ne', ← h.coord m hm hc d hd, ← h.weight m hm hc, mul_comm]

/-! ### Over a run -/

omit [LinearOrder K] [IsStrictOrderedRing K] in
/-- The clusters have all points. -/
theorem Merged.sum_medians (h : Merged num dim p q) (ha : Assigned num p) :
    ((medians num p).map fun m => (q m).weight).sum = ∑ j ∈ Finset.range num, (p j).weight := by
  have hmaps : ∀ j ∈ Finset.range num, (p j).assign ∈ (medians num p).toFinset := fun j hj =>
    List.mem_toFinset.2 ((mem_medians ha).2 (ha j (Finset.mem_range.1 hj)))
  rw [← List.sum_toFinset _ (nodup_medians num p), ← Finset.sum_fiberwise_of_maps_to hmaps]
  refine Finset.sum_congr rfl fun m hm => ?_
  obtain ⟨hlt, hself⟩ := (mem_medians ha).1 (List.mem_toFinset.1 hm)
  exact h.weight m hlt hself

theorem Merged.weight_pos (h : Merged num dim p q) (hw : ∀ i < num, 0 < (p i).weight) {i : ℕ} (hi : i < num) :
    0 < (q i).weight := by
  by_cases hself : (p i).assign = i
  · rw [h.weight i hi hself]
    exact Finset.sum_pos (fun j hj => hw j (Finset.mem_range.1 (Finset.mem_filter.1 hj).1))
      ⟨i, Finset.mem_filter.2 ⟨Finset.mem_range.2 hi, hself⟩⟩
  · rw [h.others i fun hc => hself hc.2]
    exact hw i hi

/-- The sum of the weights of the centers, all of them positive. -/
structure Weighs (centers : (ℕ → Point K) × ℕ) (w : K) : Prop where
  sum : ∑ k ∈ Finset.range centers.2, (centers.1 k).weight = w
  pos : ∀ k < centers.2, 0 < (centers.1 k).weight

omit [IsStrictOrderedRing K] in
theorem Weighs.copycenters {c : Streaming K} : ∀ (l : List ℕ) {centers centers' : (ℕ → Point K) × ℕ} {w : K},
    Weighs centers w → (∀ i ∈ l, 0 < (q i).weight) → l.foldlM (copycenter c q) centers = some centers' →
      Weighs centers' (w + (l.map fun i => (q i).weight).sum)
  | [], centers, centers', w, h, _, hl => by
    obtain rfl := Option.some.inj hl
    simpa using h
  | i :: l, centers, centers', w, h, hpos, hl => by
    rw [List.forall_mem_cons] at hpos
    rw [List.foldlM_cons, copycenter] at hl
    split_ifs at hl with hroom
    · have hnext : Weighs (Function.update centers.1 centers.2
          { centers.1 centers.2 with coord := (q i).coord, weight := (q i).weight }, centers.2 + 1)
          (w + (q i).weight) := by
        refine ⟨?_, fun k hk => ?_⟩
        · rw [Finset.sum_range_succ, ← h.sum]
          dsimp only
          rw [Function.update_self]
          congr 1
          refine Finset.sum_congr rfl fun k hk => ?_
          rw [Function.update_of_ne (Finset.mem_range.1 hk).ne]
        · dsimp only
          rcases Nat.lt_succ_iff_lt_or_eq.1 hk with hk | rfl
          · rw [Function.update_of_ne hk.ne]
            exact h.pos k hk
          · rw [Function.update_self]
            exact hpos.1
      rw [List.map_cons, List.sum_cons, ← add_assoc]
      exact hnext.copycenters l hpos.2 hl
    · cases hl

omit [LinearOrder K] [IsStrictOrderedRing K] in
theorem Rearranged.sum_weight {s s' : State K} (h : Rearranged num s s') :
    ∑ i ∈ Finset.range num, (s'.p i).weight = ∑ i ∈ Finset.range num, (s.p i).weight := by
  obtain ⟨π, hπ, hs⟩ := h
  conv_rhs => rw [← image_perm hπ]
  rw [Finset.sum_image fun i _ j _ heq => π.injective heq]
  exact Finset.sum_congr rfl fun i _ => (hs i).1

variable [FloorSemiring K] {c : Streaming K} {fuel : ℕ}

/-- A search and the means, on points with positive weights. -/
theorem search_sum {a : Search K} {f : Found K} {r : Found K × ℤ} (hw : Weighted a.num f.s)
    (hclear : ∀ i, f.s.isCenter i = false) (hr : pkmedian a fuel f = .ok r) (dim : ℕ) :
    ((medians a.num r.1.s.p).map fun m => (contcenters a.num dim r.1.s.p m).weight).sum =
      ∑ i ∈ Finset.range a.num, (f.s.p i).weight ∧
    ∀ i < a.num, 0 < (contcenters a.num dim r.1.s.p i).weight := by
  obtain ⟨hpoints, hassigned⟩ := (pkmedian_assigned hw hclear fuel).ok hr
  have hmerged := merged_contcenters dim hassigned (hpoints.weighted hw)
  rw [hmerged.sum_medians hassigned, hpoints.sum_weight]
  exact ⟨rfl, fun i hi => hmerged.weight_pos (hpoints.weighted hw) hi⟩

/-- The intermediate centers weigh as much as the points that have been read. -/
theorem weighs_clusterChunk {s s' : Stream K} {read : List (ℕ → K) × Bool}
    (h : Weighs (s.centers, s.num) (s.offset : K)) (hs : clusterChunk c fuel s read = some s') :
    Weighs (s'.centers, s'.num) (s'.offset : K) ∧ s'.offset = s.offset + read.1.length := by
  rw [clusterChunk] at hs
  split_ifs at hs
  cases hr : localSearch c fuel s read.1 with
  | error e => simp [hr] at hs
  | ok r =>
    simp only [hr, Option.ite_none_left_eq_some, Option.map_eq_some_iff] at hs
    obtain ⟨-, centers, hcenters, rfl⟩ := hs
    obtain ⟨hsum, hpos⟩ := search_sum (a := c.search read.1.length) (weighted_readChunk s read.1)
        (fun _ => rfl) hr c.dim
    have hone : ∑ i ∈ Finset.range read.1.length, ((s.readChunk read.1).s.p i).weight = (read.1.length : K) := by
      have hweight : ∀ i ∈ Finset.range read.1.length, ((s.readChunk read.1).s.p i).weight = 1 := fun i hi =>
        if_pos (Finset.mem_range.1 hi)
      rw [Finset.sum_congr rfl hweight, Finset.sum_const, Finset.card_range, nsmul_one]
    have hmem : ∀ i ∈ medians read.1.length (contcenters read.1.length c.dim r.1.s.p),
        0 < (contcenters read.1.length c.dim r.1.s.p i).weight := fun i hi =>
      hpos i (List.mem_range.1 (List.mem_filter.1 hi).1)
    have hnext := h.copycenters _ hmem hcenters
    rw [medians_contcenters] at hnext
    have htotal := hsum.trans hone
    refine ⟨?_, rfl⟩
    dsimp only
    rw [Nat.cast_add, ← htotal]
    exact hnext

theorem weighs_exec : ∀ {reads : List (List (ℕ → K) × Bool)} {s s' : Stream K},
    Weighs (s.centers, s.num) (s.offset : K) → exec (clusterChunk c fuel) s reads = some s' →
      Weighs (s'.centers, s'.num) (s'.offset : K) ∧ s'.offset = s.offset + (reads.map fun read => read.1.length).sum
  | [], s, s', h, hrun => by
    obtain rfl := Option.some.inj hrun
    exact ⟨h, rfl⟩
  | read :: reads, s, s', h, hrun => by
    obtain ⟨s₁, hstep, hrun⟩ := exec_cons_eq_some.1 hrun
    obtain ⟨h₁, hoffset⟩ := weighs_clusterChunk h hstep
    obtain ⟨h', hoffset'⟩ := weighs_exec h₁ hrun
    refine ⟨h', ?_⟩
    rw [hoffset', hoffset, List.map_cons, List.sum_cons, Nat.add_assoc]

/-- CORRECT: `contcenters` gives every median the weight of its cluster and moves it to the weighted mean, and
    leaves the other points; after any number of chunks the intermediate centers weigh as much as the points that
    have been read, and so do the final medians. -/
theorem weights_conserved (c : Streaming K) :
    (∀ (num dim : ℕ) (p : ℕ → Point K), Assigned num p → (∀ i < num, 0 < (p i).weight) →
      Merged num dim p (contcenters num dim p)) ∧
    ∀ (fuel : ℕ) (heap centers : ℕ → Point K) (draws : ℕ → Draw) (reads : List (List (ℕ → K) × Bool)) (s : Stream K),
      exec (clusterChunk c fuel) (Stream.new heap centers draws) reads = some s →
        ∑ k ∈ Finset.range s.num, (s.centers k).weight = ((reads.map fun read => read.1.length).sum : ℕ) ∧
        ∀ (fuel' : ℕ) (p : ℕ → Point K), clusterCenters c fuel' s = .ok p →
          ((medians s.num p).map fun m => (p m).weight).sum = ((reads.map fun read => read.1.length).sum : ℕ) := by
  refine ⟨fun num dim p ha hw => merged_contcenters dim ha hw, fun fuel heap centers draws reads s hrun => ?_⟩
  obtain ⟨hweighs, hoffset⟩ := weighs_exec (s := Stream.new heap centers draws) ⟨Nat.cast_zero.symm, nofun⟩ hrun
  have hread : s.offset = (reads.map fun read => read.1.length).sum := hoffset.trans (Nat.zero_add _)
  rw [← hread]
  refine ⟨hweighs.sum, fun fuel' p hp => ?_⟩
  set f : Found K := { s.found with s := { s.found.s with p := s.centers, isCenter := fun _ => false } } with hf
  have hw : Weighted (c.search s.num).num f.s := hweighs.pos
  rw [clusterCenters, ← hf] at hp
  cases hr : pkmedian (c.search s.num) fuel' f with
  | error e => simp [hr, Except.map] at hp
  | ok r =>
    rw [hr] at hp
    obtain rfl := Except.ok.inj hp
    rw [medians_contcenters]
    exact (search_sum hw (fun _ => rfl) hr c.dim).1.trans hweighs.sum

end Weights

/-- Two centers for three points at a time, and room for four. -/
def twoCenters : Streaming ℚ := { noRoom with
  kmin := 2
  kmax := 2
  chunksize := 3
  centersize := 4
  log := fun n => if n = 2 then 7 / 10 else 0 }

/-- Draws with which the first points keep their order, and a point that is near to a center stays with it. -/
def drawSome : ℕ → Draw := fun i => if i < 2 then 0 else 1000000000

/-- Two chunks of points. -/
def sixPoints : List (List (ℕ → ℚ) × Bool) :=
  [([fun _ => 0, fun _ => 1, fun _ => 10], false), ([fun _ => 20, fun _ => 21, fun _ => 30], true)]

/-- The first chunk, after its search. -/
def firstThree : ℕ → Point ℚ := fun i => ⟨1, fun _ => [0, 1, 10].getD i 0, if i = 2 then 2 else 0, 0⟩

/-- The intermediate centers, with their weights, and the number of the final medians. -/
def sixClustered : Option (Stream ℚ × List (ℚ × ℚ) × Option ℕ) :=
  (exec (clusterChunk twoCenters 1) (Stream.new (fun _ => ⟨0, fun _ => 0, 0, 0⟩) (fun _ => ⟨0, fun _ => 0, 0, 0⟩)
    drawSome) sixPoints).map fun s => (s, (List.range s.num).map fun k => ((s.centers k).weight, (s.centers k).coord 0),
      (clusterCenters twoCenters 2 s).toOption.map fun p => (medians s.num p).length)

/-- In each chunk two points have a common median, and the final search leaves two medians for the four centers. -/
theorem weights_conserved_six : Merged 3 1 firstThree (contcenters 3 1 firstThree) ∧
    ∃ s p, exec (clusterChunk twoCenters 1)
        (Stream.new (fun _ => ⟨0, fun _ => 0, 0, 0⟩) (fun _ => ⟨0, fun _ => 0, 0, 0⟩) drawSome) sixPoints = some s ∧
      (List.range s.num).map (fun k => ((s.centers k).weight, (s.centers k).coord 0)) =
        [(2, 1 / 2), (1, 10), (2, 41 / 2), (1, 30)] ∧
      clusterCenters twoCenters 2 s = .ok p ∧ (medians s.num p).length = 2 ∧
      ∑ k ∈ Finset.range s.num, (s.centers k).weight = (6 : ℕ) ∧
      ((medians s.num p).map fun m => (p m).weight).sum = (6 : ℕ) := by
  refine ⟨(weights_conserved twoCenters).1 3 1 firstThree (by rw [Assigned]; decide) fun _ _ => one_pos, ?_⟩
  have hrun : sixClustered.map Prod.snd = some ([(2, 1 / 2), (1, 10), (2, 41 / 2), (1, 30)], some 2) := by
    decide +kernel
  rw [sixClustered, Option.map_map, Option.map_eq_some_iff] at hrun
  obtain ⟨s, hs, hfound⟩ := hrun
  obtain ⟨hcenters, hmedians⟩ := Prod.mk.inj hfound
  obtain ⟨p, hp, hlength⟩ := Option.map_eq_some_iff.1 hmedians
  cases hsearch : clusterCenters twoCenters 2 s with
  | error e => simp [hsearch, Except.toOption] at hp
  | ok q =>
    obtain rfl : q = p := by simpa [hsearch, Except.toOption] using hp
    obtain ⟨hsum, hfinal⟩ := (weights_conserved twoCenters).2 1 _ _ _ _ s hs
    exact ⟨s, q, hs, hcenters, hsearch, hlength, hsum, hfinal 2 q hsearch⟩

end Turkey.Pgain
