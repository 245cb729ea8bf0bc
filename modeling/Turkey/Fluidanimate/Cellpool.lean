import Turkey.Schemes.Chains

/-! The `Cell` structures of fluidanimate and the pools they are taken from (cellpool.cpp).

    A cell of the grid has a list of structures with room for 16 particles each. The first structure of the
    list is an entry of one of the two arrays `cells` and `cells2`, the others come from a pool. A pool
    has a list of the structures that are free; it allocates a block of new ones when this list is empty.
    Asserts about alignment and about `NULL` are left out, and so is what `cellpool_destroy` needs to free the
    blocks. -/

namespace Turkey.Fluid
open Turkey.Chains

/-- The structures: the entries of the two arrays, and those the pools have allocated, in the order in which
    they were. -/
inductive Addr (I : Type*) where
  | head (array : Bool) (i : I)
  | pool (n : ℕ)
  deriving DecidableEq

/-- The structures in memory and the pools: `slot a k` has particle `k` of structure `a`, and `free t` is the
    first free structure of pool `t`. -/
structure Mem (I T P : Type*) where
  next : Addr I → Option (Addr I)
  slot : Addr I → ℕ → P
  free : T → Option (Addr I)
  alloc : T → ℕ
  allocated : ℕ

variable {I T P : Type*} [DecidableEq T]

/-- `cellpool_allocblock`: the first structure of a block of new ones, each linked to the next. -/
def cellpoolAllocblock (m : Mem I T P) (cells : ℕ) : Option (Addr I × Mem I T P) :=
  if 0 < cells then
    some (.pool m.allocated, { m with
      next := fun a => match a with
        | .head _ _ => m.next a
        | .pool n =>
          if m.allocated ≤ n ∧ n < m.allocated + cells then
            if n + 1 < m.allocated + cells then some (.pool (n + 1)) else none
          else m.next a
      allocated := m.allocated + cells })
  else none

/-- Pool `t` gets a block of `cells` structures. -/
def addBlock (m : Mem I T P) (t : T) (cells alloc : ℕ) : Option (Mem I T P) :=
  (cellpoolAllocblock m cells).map fun (block, m) =>
    { m with free := Function.update m.free t (some block), alloc := Function.update m.alloc t alloc }

/-- `cellpool_init`: there is no pool for no particles. -/
def cellpoolInit (m : Mem I T P) (t : T) (particles : ℕ) : Option (Mem I T P) :=
  if 0 < particles then
    let alloc := max 1024 (4 * (particles / 16))
    addBlock m t alloc alloc
  else none

variable [DecidableEq I]

def cellpoolGetcell (m : Mem I T P) (t : T) : Option (Addr I × Mem I T P) :=
  (if m.free t = none then addBlock m t (m.alloc t) (2 * m.alloc t) else some m).bind fun m =>
    (m.free t).map fun temp =>
      (temp, { m with free := Function.update m.free t (m.next temp), next := Function.update m.next temp none })

def cellpoolReturncell (m : Mem I T P) (t : T) (cell : Addr I) : Mem I T P :=
  { m with next := Function.update m.next cell (m.free t), free := Function.update m.free t (some cell) }

theorem update_slot {slot : Addr I → ℕ → P} {cell a : Addr I} {k j : ℕ} {x : P} :
    Function.update slot cell (Function.update (slot cell) k x) a j = if a = cell ∧ j = k then x else slot a j := by
  by_cases ha : a = cell
  · subst ha
    rw [Function.update_self, Function.update_apply]
    simp only [true_and]
  · rw [Function.update_of_ne ha, if_neg fun h => ha h.1]

/-! ### Where the structures are -/

/-- The lists that there are: the free structures of a pool, the structures of a cell, and those of a cell of
    the other array, as far as they have not been given back. -/
inductive Place (I T : Type*) where
  | free (t : T)
  | dst (i : I)
  | src (i : I)
  deriving DecidableEq

/-- Every structure that a pool has allocated is in exactly one of the lists. -/
structure Owned (m : Mem I T P) (lists : Place I T → List (Addr I)) : Prop where
  places : Places m.next lists
  free : ∀ t, m.free t = (lists (.free t)).head?
  pooled : ∀ t, ∀ a ∈ lists (.free t), ∃ n, a = .pool n
  all : ∀ n, In lists (.pool n) ↔ n < m.allocated

variable {m m' : Mem I T P} {lists : Place I T → List (Addr I)} {t : T}

/-- The structures of a block of new ones. -/
def block (base cells : ℕ) : List (Addr I) := (List.range' base cells).map .pool

omit [DecidableEq I] in
theorem mem_block {base cells : ℕ} {a : Addr I} :
    a ∈ (block base cells : List (Addr I)) ↔ ∃ n, (base ≤ n ∧ n < base + cells) ∧ a = .pool n := by
  rw [block, List.mem_map]
  refine exists_congr fun n => and_congr ?_ eq_comm
  rw [List.mem_range'_1]

omit [DecidableEq I] in
theorem linked_block {next : Addr I → Option (Addr I)} : ∀ (cells base : ℕ)
    (_ : ∀ n, base ≤ n → n + 1 < base + cells → next (.pool n) = some (.pool (n + 1)))
    (_ : ∀ n, n + 1 = base + cells → next (.pool n) = none), Linked next (block base cells : List (Addr I))
  | 0, _, _, _ => trivial
  | 1, base, _, last => ⟨last base rfl, trivial⟩
  | cells + 2, base, step, last => by
    refine ⟨step base (Nat.le_refl _) (by omega), linked_block (cells + 1) (base + 1) ?_ ?_⟩
    · exact fun n hn hlt => step n (by omega) (by omega)
    · exact fun n hn => last n (by omega)

/-- A new block in an empty list of free structures. -/
theorem Owned.addBlock (h : Owned m lists) {cells alloc : ℕ} (hfree : m.free t = none)
    (hm : Fluid.addBlock m t cells alloc = some m') :
    ∃ l, Owned m' (Function.update lists (.free t) l) ∧ m'.slot = m.slot := by
  simp only [Fluid.addBlock, cellpoolAllocblock, Option.map_eq_some_iff, Option.ite_none_right_eq_some] at hm
  obtain ⟨_, ⟨pos, hsome⟩, rfl⟩ := hm
  obtain rfl := Option.some.inj hsome
  have empty : lists (.free t) = [] := List.head?_eq_none_iff.1 ((h.free t).symm.trans hfree)
  have old : ∀ a, In lists a → ∀ n, m.allocated ≤ n → a ≠ .pool n := by
    rintro a ha n hn rfl
    exact absurd ((h.all n).1 ha) (by omega)
  refine ⟨block m.allocated cells, ⟨?_, fun t' => ?_, fun t' a ha => ?_, fun n => ?_⟩, rfl⟩
  · refine h.places.of_subset (P := fun a => ∃ n, m.allocated ≤ n ∧ a = .pool n) ?_ ?_ ?_ ?_ ?_
    · rintro a ⟨n, hn, ha⟩ hin
      exact old a hin n hn ha
    · intro a ha
      obtain ⟨n, hn, rfl⟩ := mem_block.1 ha
      exact .inr ⟨n, hn.1, rfl⟩
    · exact List.Nodup.map (fun _ _ hab => Addr.pool.inj hab) List.nodup_range'
    · refine linked_block cells m.allocated (fun n hn hlt => ?_) fun n hn => ?_
      · simp only
        rw [if_pos ⟨hn, by omega⟩, if_pos hlt]
      · simp only
        rw [if_pos ⟨by omega, by omega⟩, if_neg (by omega)]
    · intro q hq
      refine (h.places.linked q).congr fun a ha => ?_
      cases a with
      | head => rfl
      | pool n => exact if_neg fun hn => old _ ⟨q, ha⟩ n hn.1 rfl
  · by_cases ht : t' = t
    · subst ht
      obtain ⟨k, rfl⟩ := Nat.exists_eq_succ_of_ne_zero (Nat.ne_of_gt pos)
      dsimp only
      rw [Function.update_self, Function.update_self]
      rfl
    · have hq : Place.free t' ≠ (.free t : Place I T) := fun heq => ht (Place.free.inj heq)
      dsimp only
      rw [Function.update_of_ne ht, Function.update_of_ne hq]
      exact h.free t'
  · rw [mem_update] at ha
    split_ifs at ha
    · obtain ⟨n, -, rfl⟩ := mem_block.1 ha
      exact ⟨n, rfl⟩
    · exact h.pooled t' a ha
  · have split : (∃ q ≠ Place.free t, .pool n ∈ lists q) ↔ n < m.allocated := by
      rw [← h.all]
      constructor
      · rintro ⟨q, -, hn⟩
        exact ⟨q, hn⟩
      · rintro ⟨q, hn⟩
        refine ⟨q, ?_, hn⟩
        rintro rfl
        rw [empty] at hn
        cases hn
    rw [in_update, split, mem_block]
    simp only [Addr.pool.injEq]
    constructor
    · rintro (⟨k, hk, rfl⟩ | hn)
      · exact hk.2
      · omega
    · intro hn
      by_cases hlt : n < m.allocated
      · exact .inr hlt
      · exact .inl ⟨n, ⟨by omega, hn⟩, rfl⟩

/-- A structure from the pool becomes the last one of a cell. -/
theorem Owned.getcell (h : Owned m lists) {i : I} {a b : Addr I} (hb : (lists (.dst i)).getLast? = some b)
    (hm : cellpoolGetcell m t = some (a, m')) : ∃ l, (∃ n, a = .pool n) ∧ m'.slot = m.slot ∧
      Owned { m' with next := Function.update m'.next b (some a) }
        (Function.update (Function.update lists (.free t) l) (.dst i) (lists (.dst i) ++ [a])) := by
  obtain ⟨m₁, hm₁, hm⟩ := Option.bind_eq_some_iff.1 hm
  obtain ⟨l₁, h₁, slot₁⟩ : ∃ l, Owned m₁ (Function.update lists (.free t) l) ∧ m₁.slot = m.slot := by
    split_ifs at hm₁ with hfree
    · exact h.addBlock hfree hm₁
    · obtain rfl := Option.some.inj hm₁
      exact ⟨lists (.free t), by rwa [Function.update_eq_self], rfl⟩
  obtain ⟨temp, htemp, heq⟩ := Option.map_eq_some_iff.1 hm
  obtain ⟨rfl, rfl⟩ := Prod.mk.inj heq
  have root := h₁.free t
  rw [htemp, Function.update_self] at root
  obtain ⟨l, rfl⟩ : ∃ l, l₁ = temp :: l := by
    cases l₁ with
    | nil => cases root
    | cons c l => exact ⟨l, by rw [Option.some.inj root]⟩
  obtain ⟨places, fresh, hin⟩ := h₁.places.pop (Function.update_self ..)
  have linked := h₁.places.linked (.free t)
  rw [Function.update_self] at linked
  rw [Function.update_idem] at places fresh hin
  have hne : (Place.dst i : Place I T) ≠ .free t := nofun
  have hdst : (Function.update lists (.free t) l (.dst i)) = lists (.dst i) := Function.update_of_ne hne ..
  refine ⟨l, h₁.pooled t temp (by rw [Function.update_self]; exact List.mem_cons_self ..), slot₁, ?_⟩
  rw [← hdst] at hb ⊢
  refine ⟨(places.write fresh none).concat fresh (Function.update_self ..) hb, fun t' => ?_, fun t' c hc => ?_,
    fun n => ?_⟩
  · have hne' : (Place.free t' : Place I T) ≠ .dst i := nofun
    dsimp only
    rw [Function.update_of_ne hne']
    by_cases ht : t' = t
    · subst ht
      rw [Function.update_self, Function.update_self]
      exact linked.1
    · have hq : Place.free t' ≠ (.free t : Place I T) := fun heq => ht (Place.free.inj heq)
      have ht' := h₁.free t'
      rw [Function.update_of_ne hq] at ht'
      rw [Function.update_of_ne ht, Function.update_of_ne hq, ht']
  · have hne' : (Place.free t' : Place I T) ≠ .dst i := nofun
    rw [Function.update_of_ne hne'] at hc
    refine h₁.pooled t' c ?_
    rw [mem_update] at hc ⊢
    split_ifs at hc ⊢
    · exact List.mem_cons_of_mem _ hc
    · exact hc
  · rw [in_concat, ← hin]
    exact h₁.all n

/-- A structure that has been read is given back. -/
theorem Owned.returncell (h : Owned m lists) {i : I} {n : ℕ} {l : List (Addr I)}
    (hq : lists (.src i) = .pool n :: l) :
    Owned (cellpoolReturncell m t (.pool n)) (Function.update (Function.update lists (.src i) l) (.free t)
      (.pool n :: lists (.free t))) := by
  obtain ⟨places, fresh, hin⟩ := h.places.pop hq
  have hne : ∀ t', (Place.free t' : Place I T) ≠ .src i := fun _ => nofun
  have hfree : ∀ t', (Function.update lists (.src i) l (.free t')) = lists (.free t') :=
    fun t' => Function.update_of_ne (hne t') ..
  rw [← hfree t]
  refine ⟨?_, fun t' => ?_, fun t' a ha => ?_, fun k => ?_⟩
  · have := places.push fresh (.free t)
    rw [hfree, ← h.free] at this
    rw [hfree]
    exact this
  · by_cases ht : t' = t
    · subst ht
      simp only [cellpoolReturncell]
      rw [Function.update_self, Function.update_self, List.head?_cons]
    · have hq : Place.free t' ≠ (.free t : Place I T) := fun heq => ht (Place.free.inj heq)
      simp only [cellpoolReturncell]
      rw [Function.update_of_ne ht, Function.update_of_ne hq, hfree]
      exact h.free t'
  · rw [mem_update] at ha
    split_ifs at ha
    · rcases List.mem_cons.1 ha with rfl | ha
      · exact ⟨n, rfl⟩
      · rw [hfree] at ha
        exact h.pooled t a ha
    · rw [hfree] at ha
      exact h.pooled t' a ha
  · rw [in_push, ← hin]
    exact h.all k

/-- The first structure of a list that has been read is not given back. -/
theorem Owned.pop_head (h : Owned m lists) {i i' : I} {array : Bool} {l : List (Addr I)}
    (hq : lists (.src i) = .head array i' :: l) : Owned m (Function.update lists (.src i) l) := by
  obtain ⟨places, -, hin⟩ := h.places.pop hq
  have hne : ∀ t', (Place.free t' : Place I T) ≠ .src i := fun _ => nofun
  have hfree : ∀ t', (Function.update lists (.src i) l (.free t')) = lists (.free t') :=
    fun t' => Function.update_of_ne (hne t') ..
  refine ⟨places, fun t' => ?_, fun t' a ha => ?_, fun n => ?_⟩
  · rw [hfree]
    exact h.free t'
  · rw [hfree] at ha
    exact h.pooled t' a ha
  · rw [← h.all, hin]
    simp

end Turkey.Fluid
