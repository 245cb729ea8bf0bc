import Turkey.Fluidanimate.Invariant
import Turkey.Schemes.Run

/-! A frame of the simulation, as far as it changes the lists: the arrays are swapped, the new one is cleared
    (`ClearParticlesMT`, or the first loop of `RebuildGrid`), and the threads rebuild the grid in any
    interleaving until they have read all the old lists.

    Between two frames every structure that a pool has allocated is in a list of free ones or in the list of a
    cell (`Settled`). The pointers of the other array are what the last frame has left there. -/

namespace Turkey.Fluid
open Turkey.Run Turkey.Chains
variable {I T P : Type*}

/-! ### What is in a list -/

/-- The next `n` particles from particle `j` of a list on, read as `SaveFile` does. -/
def readList (m : Mem I T P) : ℕ → ℕ → Option (Addr I) → Option (List P)
  | 0, _, _ => some []
  | n + 1, j, cell => cell.bind fun c =>
    (readList m n (j + 1) (if j % 16 = 15 then m.next c else some c)).map (m.slot c (j % 16) :: ·)

/-- The particles of cell `i`. -/
def State.particles (s : State I T P) (i : I) : Option (List P) :=
  readList s.mem (s.num i) 0 (some (.head s.cells i))

/-- The particles are in the structures in this order, 16 in each but the last. -/
def Holds (m : Mem I T P) (l : List (Addr I)) (ps : List P) : Prop :=
  ∀ k x, ps[k]? = some x → ∃ a, l[k / 16]? = some a ∧ m.slot a (k % 16) = x

theorem readList_eq {m : Mem I T P} {l : List (Addr I)} {ps : List P} (hl : Linked m.next l) (h : Holds m l ps) :
    ∀ n j, j + n = ps.length → readList m n j l[j / 16]? = some (ps.drop j)
  | 0, j, hj => by rw [readList, ← Nat.add_zero j, hj, List.drop_length]
  | n + 1, j, hj => by
    have hlt : j < ps.length := by omega
    obtain ⟨a, ha, hslot⟩ := h j _ (List.getElem?_eq_getElem hlt)
    have hnext : (if j % 16 = 15 then m.next a else some a) = l[(j + 1) / 16]? := by
      split_ifs with h15
      · rw [hl.next_eq ha, show (j + 1) / 16 = j / 16 + 1 by omega]
      · rw [← ha, show (j + 1) / 16 = j / 16 by omega]
    rw [readList, ha, Option.bind_some, hnext, readList_eq hl h n (j + 1) (by omega), hslot, Option.map_some,
      ← List.drop_eq_getElem_cons]

/-- Whatever is in the structures of a list is a list of particles. -/
theorem exists_holds (m : Mem I T P) {l : List (Addr I)} {n : ℕ} (h : l.length = blocks n) :
    ∃ ps, ps.length = n ∧ Holds m l ps := by
  have hlt : ∀ k : Fin n, k.val / 16 < l.length := fun k => h ▸ lt_blocks k.isLt
  refine ⟨List.ofFn fun k : Fin n => m.slot (l.get ⟨k / 16, hlt k⟩) (k % 16), List.length_ofFn, fun k x hx => ?_⟩
  obtain ⟨hk, rfl⟩ := List.getElem?_eq_some_iff.1 hx
  rw [List.length_ofFn] at hk
  refine ⟨l.get ⟨k / 16, hlt ⟨k, hk⟩⟩, List.getElem?_eq_getElem _, ?_⟩
  rw [List.getElem_ofFn]

/-! ### Between two frames -/

/-- The lists of the cells and of the pools have all the structures, and a cell has as many as it needs. -/
structure Settled (s : State I T P) (lists : Place I T → List (Addr I)) : Prop where
  owned : Owned s.mem lists
  dst : ∀ i, ∃ l, lists (.dst i) = .head s.cells i :: l ∧ ∀ a ∈ l, ∃ n, a = .pool n
  src : ∀ i, lists (.src i) = []
  length : ∀ i, (lists (.dst i)).length = blocks (s.num i)

/-- The particles in the lists, as many as are counted. -/
structure Filled (s : State I T P) (lists : Place I T → List (Addr I)) (got : I → List P) : Prop where
  counted : ∀ i, (got i).length = s.num i
  holds : ∀ i, Holds s.mem (lists (.dst i)) (got i)

theorem Settled.filled {s : State I T P} {lists : Place I T → List (Addr I)} (h : Settled s lists) :
    ∃ got, Filled s lists got := by
  choose got counted holds using fun i => exists_holds s.mem (h.length i)
  exact ⟨got, counted, holds⟩

theorem Filled.particles {s : State I T P} {lists : Place I T → List (Addr I)} {got : I → List P}
    (h : Filled s lists got) (hs : Settled s lists) (i : I) : s.particles i = some (got i) := by
  obtain ⟨l, hl, -⟩ := hs.dst i
  have := readList_eq (hs.owned.places.linked (.dst i)) (h.holds i) (s.num i) 0 (by rw [h.counted]; omega)
  rwa [hl] at this

/-! ### The start of a frame -/

/-- The positions and velocities are changed, the lists are not. -/
def State.advance (s : State I T P) (slot : Addr I → ℕ → P) : State I T P :=
  { s with mem := { s.mem with slot := slot } }

def swap (s : State I T P) : State I T P := { s with cells := !s.cells }

variable [DecidableEq I]

def clearCell (s : State I T P) (i : I) : State I T P :=
  { s with
    cnumPars := Function.update s.cnumPars s.cells (Function.update (s.cnumPars s.cells) i 0)
    mem := { s.mem with next := Function.update s.mem.next (.head s.cells i) none }
    last := Function.update s.last i (.head s.cells i) }

/-- The cells are cleared in this order. -/
def clearParticles (s : State I T P) (order : List I) : State I T P := order.foldl clearCell s

theorem clearParticles_eq : ∀ (order : List I) (s : State I T P), clearParticles s order = { s with
    cnumPars := fun b i => if b = s.cells ∧ i ∈ order then 0 else s.cnumPars b i
    mem := { s.mem with next := fun a => if a ∈ order.map (.head s.cells) then none else s.mem.next a }
    last := fun i => if i ∈ order then .head s.cells i else s.last i }
  | [], s => by simp [clearParticles]
  | j :: order, s => by
    have ih := clearParticles_eq order (clearCell s j)
    rw [clearParticles] at ih
    rw [clearParticles, List.foldl_cons, ih]
    simp only [clearCell, State.mk.injEq, Mem.mk.injEq, true_and, and_true]
    refine ⟨?_, ?_, ?_⟩
    · funext a
      by_cases ha : a = .head s.cells j
      · simp [ha]
      · simp [ha]
    · funext b i
      by_cases hb : b = s.cells
      · subst hb
        by_cases hi : i = j
        · simp [hi]
        · simp [hi]
      · simp [hb]
    · funext i
      by_cases hi : i = j
      · simp [hi]
      · simp [hi]

/-- The state in which the threads begin to rebuild the grid. -/
def beginFrame (mode : Mode I T) (order : List I) (s : State I T P) : State I T P :=
  { clearParticles (swap s) order with pc := fun t => .idle (mode.work t) }

variable [DecidableEq T]

/-- A frame: every thread clears its cells, in any interleaving with the others, and then rebuilds its part of
    the grid, in any interleaving as well. -/
def Frame (bin : P → I) (mode : Mode I T) (s s' : State I T P) : Prop :=
  ∃ order ts, (∀ t, (mode.work t).Sublist order) ∧
    exec (step bin mode) (beginFrame mode order s) ts = some s' ∧ ∀ t, s'.pc t = .idle []

/-- The lists at the start of a frame: the new ones are empty but for the entries of the array. -/
def startLists (cells : Bool) (lists : Place I T → List (Addr I)) : Place I T → List (Addr I)
  | .free t => lists (.free t)
  | .dst i => [.head cells i]
  | .src i => lists (.dst i)

variable {s s' : State I T P} {lists : Place I T → List (Addr I)} {mode : Mode I T} {order : List I}

omit [DecidableEq I] [DecidableEq T] in
theorem Settled.startLists_apart (h : Settled s lists) {q q' : Place I T} {a : Addr I}
    (hq : a ∈ startLists (!s.cells) lists q) (hq' : a ∈ startLists (!s.cells) lists q') : q = q' := by
  have apart := h.owned.places.apart
  -- the entries of the new array are in no other list
  have fresh : ∀ i i', Addr.head (!s.cells) i ∉ lists (.dst i') := by
    intro i i' hi
    obtain ⟨l, hl, pool⟩ := h.dst i'
    rw [hl, List.mem_cons] at hi
    rcases hi with hi | hi
    · exact Bool.not_ne_self _ (Addr.head.inj hi).1
    · obtain ⟨n, hn⟩ := pool _ hi
      cases hn
  have notFree : ∀ i t, Addr.head (!s.cells) i ∉ lists (.free t) := by
    intro i t hi
    obtain ⟨n, hn⟩ := h.owned.pooled t _ hi
    cases hn
  cases q with
  | free t =>
    cases q' with
    | free t' => exact apart _ _ a hq hq'
    | dst i' =>
      obtain rfl := List.mem_singleton.1 hq'
      exact absurd hq (notFree _ _)
    | src i' => exact absurd (apart _ _ a hq hq') nofun
  | dst i =>
    obtain rfl := List.mem_singleton.1 hq
    cases q' with
    | free t' => exact absurd hq' (notFree _ _)
    | dst i' => rw [(Addr.head.inj (List.mem_singleton.1 hq')).2]
    | src i' => exact absurd hq' (fresh _ _)
  | src i =>
    cases q' with
    | free t' => exact absurd (apart _ _ a hq hq') nofun
    | dst i' =>
      obtain rfl := List.mem_singleton.1 hq'
      exact absurd hq (fresh _ _)
    | src i' => rw [Place.dst.inj (apart _ _ a hq hq')]

omit [DecidableEq I] [DecidableEq T] in
theorem Settled.in_startLists (h : Settled s lists) (n : ℕ) :
    In (startLists (!s.cells) lists) (.pool n) ↔ In lists (.pool n) := by
  constructor
  · rintro ⟨t | i | i, hn⟩
    · exact ⟨.free t, hn⟩
    · exact absurd (List.mem_singleton.1 hn) nofun
    · exact ⟨.dst i, hn⟩
  · rintro ⟨t | i | i, hn⟩
    · exact ⟨.free t, hn⟩
    · exact ⟨.src i, hn⟩
    · rw [h.src] at hn
      cases hn

omit [DecidableEq T] in
/-- What the clearing has done when every cell has been cleared. -/
theorem beginFrame_eq (hall : ∀ i, i ∈ order) : beginFrame mode order s = { s with
    cells := !s.cells
    cnumPars := fun b i => if b = !s.cells then 0 else s.cnumPars b i
    mem := { s.mem with next := fun a => if a ∈ order.map (.head (!s.cells)) then none else s.mem.next a }
    last := fun i => .head (!s.cells) i
    pc := fun t => .idle (mode.work t) } := by
  rw [beginFrame, clearParticles_eq]
  simp only [swap, hall, if_true, and_true]
  congr!

omit [DecidableEq T] in
/-- Only the entries of the new array are cleared, and they are in lists of their own. -/
theorem Settled.startLists_linked (h : Settled s lists) (hall : ∀ i, i ∈ order) : ∀ q, Linked
    (fun a => if a ∈ order.map (.head (!s.cells)) then none else s.mem.next a) (startLists (!s.cells) lists q)
  | .free t => by
    refine (h.owned.places.linked (.free t)).congr fun a ha => if_neg ?_
    obtain ⟨n, rfl⟩ := h.owned.pooled t a ha
    simp
  | .dst i => ⟨if_pos (List.mem_map_of_mem (hall i)), trivial⟩
  | .src i => by
    refine (h.owned.places.linked (.dst i)).congr fun a ha => if_neg ?_
    obtain ⟨l, hl, pool⟩ := h.dst i
    rw [hl, List.mem_cons] at ha
    rcases ha with rfl | ha
    · simp
    · obtain ⟨n, rfl⟩ := pool a ha
      simp

omit [DecidableEq T] in
theorem Settled.startLists_owned (h : Settled s lists) (hall : ∀ i, i ∈ order) : Owned (T := T) { s.mem with
    next := fun a => if a ∈ order.map (.head (!s.cells)) then none else s.mem.next a }
    (startLists (!s.cells) lists) := by
  refine ⟨⟨h.startLists_linked hall, ?_, fun q q' a => h.startLists_apart⟩, h.owned.free, h.owned.pooled,
    fun n => (h.in_startLists n).trans (h.owned.all n)⟩
  rintro (t | i | i)
  · exact h.owned.places.nodup (.free t)
  · exact List.nodup_singleton _
  · exact h.owned.places.nodup (.dst i)

variable [Fintype I] {bin : P → I}

omit [DecidableEq T] in
/-- The threads begin with the invariant. -/
theorem Settled.begin_inv (h : Settled s lists) {before : I → List P} (hb : Filled s lists before)
    (hall : ∀ i, i ∈ order) : Inv bin mode ⟨fun i => lists (.dst i), before⟩ (beginFrame mode order s)
      ⟨startLists (!s.cells) lists, fun _ => [], fun _ => 0⟩ := by
  rw [beginFrame_eq hall]
  refine ⟨h.startLists_owned hall, fun i => ⟨[], rfl, nofun⟩, fun i => rfl, fun i _ => ?_, fun i => ?_, nofun, nofun,
    fun i => ?_, fun i => ?_, fun i => ?_, fun i k x a hx ha _ => ?_, fun t i _ => ⟨rfl, rfl⟩, fun i hi => ?_,
    fun t => List.suffix_refl _, fun t => trivial, ?_⟩
  · simp only [State.num, if_true]
    rfl
  · simp only [State.num, if_true]
    rfl
  · dsimp only
    rw [Bool.not_not]
    exact h.dst i
  · dsimp only
    rw [hb.counted]
    exact h.length i
  · dsimp only
    rw [Bool.not_not, if_neg (Bool.self_ne_not _), hb.counted, State.num]
  · obtain ⟨a', ha', hslot⟩ := hb.holds i k x hx
    obtain rfl := Option.some.inj (ha.symm.trans ha')
    exact hslot
  · obtain ⟨t, ht⟩ := mode.all i
    exact absurd ht (hi t)
  · simp

omit [DecidableEq I] [DecidableEq T] in
/-- The lists after a frame. -/
theorem Inv.settled {old : Old I P} {g : Ghost I T P} (h : Inv bin mode old s g) (hpc : ∀ t, s.pc t = .idle []) :
    Settled s g.lists ∧ Filled s g.lists g.got ∧
      ∑ i, (g.got i : Multiset P) = ∑ i, (old.particles i : Multiset P) := by
  have hdone : ∀ i, g.lists (.src i) = [] ∧ g.read i = (old.particles i).length := fun i =>
    h.done i fun t ht => by
      rw [hpc] at ht
      cases ht
  refine ⟨⟨h.owned, h.dst, fun i => (hdone i).1, fun i => h.length i fun t v cell np ht => ?_⟩,
    ⟨h.got, fun i k x hx => ?_⟩, ?_⟩
  · rw [hpc] at ht
    cases ht
  · obtain ⟨a, ha, hslot | ⟨t, v, ht⟩⟩ := h.content i k x hx
    · exact ⟨a, ha, hslot⟩
    · rw [hpc] at ht
      cases ht
  · rw [h.conserved]
    refine Finset.sum_congr rfl fun i _ => ?_
    rw [(hdone i).2, List.take_length]

/-- A frame moves the particles that are in the lists before it to the cells they belong to. -/
theorem Frame.settled (hf : Frame bin mode s s') (h : Settled s lists) {before : I → List P}
    (hb : Filled s lists before) : ∃ lists' after, Settled s' lists' ∧ Filled s' lists' after ∧
      (∀ i, ∀ x ∈ after i, bin x = i) ∧ ∑ i, (after i : Multiset P) = ∑ i, (before i : Multiset P) := by
  obtain ⟨order, ts, hwork, hrun, hpc⟩ := hf
  have hall : ∀ i, i ∈ order := fun i => by
    obtain ⟨t, ht⟩ := mode.all i
    exact (hwork t).subset ht
  obtain ⟨g, hinv⟩ : ∃ g, Inv bin mode ⟨fun i => lists (.dst i), before⟩ s' g :=
    exec_inv (I := fun s => ∃ g, Inv bin mode ⟨fun i => lists (.dst i), before⟩ s g)
      (fun _ _ _ ⟨_, hI⟩ hs => hI.step hs) ⟨_, h.begin_inv hb hall⟩ hrun
  obtain ⟨settled, filled, hsum⟩ := hinv.settled hpc
  exact ⟨g.lists, g.got, settled, filled, hinv.binned, hsum⟩

/-- What a frame from `s` to `s'` keeps. `before` and `after` are the particles in the lists of the cells;
    `lists` are the lists of the free structures of each pool and of the structures of each cell. -/
structure Conserved (bin : P → I) (s s' : State I T P) (before after : I → List P) (lists : T ⊕ I → List (Addr I)) :
    Prop where
  readBefore : ∀ i, s.particles i = some (before i)
  readAfter : ∀ i, s'.particles i = some (after i)
  same : ∑ i, (after i : Multiset P) = ∑ i, (before i : Multiset P)
  binned : ∀ i, ∀ x ∈ after i, bin x = i
  counted : ∀ i, (after i).length = s'.num i
  linked : ∀ q, Linked s'.mem.next (lists q)
  pools : ∀ t, (lists (.inl t)).head? = s'.mem.free t
  cells : ∀ i, (lists (.inr i)).head? = some (.head s'.cells i)
  -- all structures of a cell but the last one are full, and the last one is not empty unless it is the only one
  full : ∀ i, s'.num i ≤ 16 * (lists (.inr i)).length ∧
    (1 < (lists (.inr i)).length → 16 * ((lists (.inr i)).length - 1) < s'.num i)
  nodup : ∀ q, (lists q).Nodup
  once : ∀ n, n < s'.mem.allocated → ∃! q, .pool n ∈ lists q
  allocated : ∀ n q, .pool n ∈ lists q → n < s'.mem.allocated

/-- The places of the structures between two frames. -/
def place : T ⊕ I → Place I T
  | .inl t => .free t
  | .inr i => .dst i

omit [DecidableEq I] [DecidableEq T] [Fintype I] in
theorem Settled.once (h : Settled s lists) {n : ℕ} (hn : n < s.mem.allocated) :
    ∃! q, .pool n ∈ lists (place q) := by
  have hinj : ∀ {q q' : T ⊕ I}, place q = place q' → q = q' := by
    rintro (t | i) (t' | i') heq <;> cases heq <;> rfl
  obtain ⟨q, hq⟩ : ∃ q, .pool n ∈ lists (place q) := by
    obtain ⟨t | i | i, hin⟩ := (h.owned.all n).2 hn
    · exact ⟨.inl t, hin⟩
    · exact ⟨.inr i, hin⟩
    · rw [h.src] at hin
      cases hin
  exact ⟨q, hq, fun q' hq' => hinj (h.owned.places.apart _ _ _ hq' hq)⟩

theorem Frame.conserved (hf : Frame bin mode s s') (h : Settled s lists) :
    ∃ lists', Settled s' lists' ∧ ∃ before after, Conserved bin s s' before after fun q => lists' (place q) := by
  obtain ⟨before, hb⟩ := h.filled
  obtain ⟨lists', after, h', ha, binned, same⟩ := hf.settled h hb
  refine ⟨lists', h', before, after, hb.particles h, ha.particles h', same, binned, ha.counted,
    fun q => h'.owned.places.linked _, fun t => (h'.owned.free t).symm, fun i => ?_, fun i => ?_,
    fun q => h'.owned.places.nodup _, fun n => h'.once, fun n q hn => (h'.owned.all n).1 ⟨_, hn⟩⟩
  · obtain ⟨l, hl, -⟩ := h'.dst i
    dsimp only [place]
    rw [hl]
    rfl
  · dsimp only [place]
    rw [h'.length, blocks]
    omega

end Turkey.Fluid
