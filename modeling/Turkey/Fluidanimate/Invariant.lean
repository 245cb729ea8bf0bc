import Mathlib.Algebra.BigOperators.Group.Finset.Piecewise
import Mathlib.Algebra.Order.Group.Multiset
import Turkey.Fluidanimate.Rebuild

/-! What the threads keep while they rebuild the grid.

    The invariant goes with ghost values: the lists of structures, the particles that have been counted for each
    cell, and how many particles of each old list have been. A thread may rely on the old list it is in, because
    it is the only one to read it, and on the end of a new list while it has the lock of the cell or all
    particles that come there are its own. -/

namespace Turkey.Fluid
open Turkey.Chains
variable {I T P : Type*} [DecidableEq I] [DecidableEq T]

/-- The number of structures in a list with `n` particles. -/
def blocks (n : ℕ) : ℕ := max 1 ((n + 15) / 16)

/-- The cells whose lists the thread has still to read, with the one it is in. -/
def Pc.todo : Pc I → List I
  | .idle rest => rest
  | .loop v => v.index2 :: v.rest
  | .move v _ _ => v.index2 :: v.rest

/-- The cells whose lists the thread has yet to begin. -/
def Pc.rest : Pc I → List I
  | .idle rest => rest
  | .loop v => v.rest
  | .move v _ _ => v.rest

/-- What was in the lists of `cells2` at the start. -/
structure Old (I P : Type*) where
  structures : I → List (Addr I)
  particles : I → List P

/-- The lists of structures; the particles that have been counted for a cell, and how many of an old list have
    been. -/
structure Ghost (I T P : Type*) where
  lists : Place I T → List (Addr I)
  got : I → List P
  read : I → ℕ

/-- The thread is where its variables say in the old list. -/
structure Cursor (old : Old I P) (g : Ghost I T P) (v : Local I) : Prop where
  src : g.lists (.src v.index2) = (old.structures v.index2).drop (v.j / 16)
  cell2 : v.cell2 = (g.lists (.src v.index2)).head?
  le : v.j ≤ (old.particles v.index2).length

/-- The thread has the lock of a border cell. -/
def HasLock (mode : Mode I T) (s : State I T P) (t : T) (index : I) : Prop :=
  mode.border index = true → s.lock index = some t

/-- What a thread relies on while it places particle `x`. -/
def Stage.Ok (mode : Mode I T) (s : State I T P) (g : Ghost I T P) (t : T) (v : Local I) (index : I) (x : P) :
    Stage I → Prop
  | .entered => g.read v.index2 = v.j ∧ HasLock mode s t index
  | .loaded cell np => g.read v.index2 = v.j ∧ HasLock mode s t index ∧ s.num index = np ∧ s.last index = cell
  | .grown cell np => g.read v.index2 = v.j ∧ HasLock mode s t index ∧ s.num index = np ∧ s.last index = cell ∧
      (g.lists (.dst index)).length = np / 16 + 1
  | .counted cell np => g.read v.index2 = v.j + 1 ∧ (g.got index)[np]? = some x ∧
      (g.lists (.dst index))[np / 16]? = some cell

def Pc.Ok (bin : P → I) (mode : Mode I T) (old : Old I P) (s : State I T P) (g : Ghost I T P) (t : T) : Pc I → Prop
  | .idle _ => True
  | .loop v => Cursor old g v ∧ g.read v.index2 = v.j
  | .move v index stage => Cursor old g v ∧ mode.cfl v.index2 index = true ∧
      ∃ x, (old.particles v.index2)[v.j]? = some x ∧ bin x = index ∧ stage.Ok mode s g t v index x

structure Inv [Fintype I] (bin : P → I) (mode : Mode I T) (old : Old I P) (s : State I T P) (g : Ghost I T P) :
    Prop where
  owned : Owned s.mem g.lists
  dst : ∀ i, ∃ l, g.lists (.dst i) = .head s.cells i :: l ∧ ∀ a ∈ l, ∃ n, a = .pool n
  last : ∀ i, (g.lists (.dst i)).getLast? = some (s.last i)
  length : ∀ i, (∀ t v cell np, s.pc t ≠ .move v i (.grown cell np)) → (g.lists (.dst i)).length = blocks (s.num i)
  got : ∀ i, (g.got i).length = s.num i
  binned : ∀ i, ∀ x ∈ g.got i, bin x = i
  content : ∀ i j x, (g.got i)[j]? = some x → ∃ a, (g.lists (.dst i))[j / 16]? = some a ∧
    (s.mem.slot a (j % 16) = x ∨ ∃ t v, s.pc t = .move v i (.counted a j))
  structures : ∀ i, ∃ l, old.structures i = .head (!s.cells) i :: l ∧ ∀ a ∈ l, ∃ n, a = .pool n
  sizes : ∀ i, (old.structures i).length = blocks (old.particles i).length
  particles : ∀ i, (old.particles i).length = s.cnumPars (!s.cells) i
  source : ∀ i k x a, (old.particles i)[k]? = some x → (old.structures i)[k / 16]? = some a →
    a ∈ g.lists (.src i) → s.mem.slot a (k % 16) = x
  rest : ∀ t, ∀ i ∈ (s.pc t).rest, g.lists (.src i) = old.structures i ∧ g.read i = 0
  done : ∀ i, (∀ t, i ∉ (s.pc t).todo) → g.lists (.src i) = [] ∧ g.read i = (old.particles i).length
  todo : ∀ t, (s.pc t).todo <:+ mode.work t
  threads : ∀ t, (s.pc t).Ok bin mode old s g t
  conserved : ∑ i, (g.got i : Multiset P) = ∑ i, ((old.particles i).take (g.read i) : Multiset P)

/-- The thread is between the lock and the release of the lock. -/
def Stage.Critical : Stage I → Prop
  | .entered => True
  | .loaded _ _ => True
  | .grown _ _ => True
  | .counted _ _ => False

section Steps
variable [Fintype I] {bin : P → I} {mode : Mode I T} {old : Old I P} {s s' : State I T P} {g g' : Ghost I T P} {t : T}

omit [DecidableEq I] [DecidableEq T]

theorem Inv.mem_work (h : Inv bin mode old s g) {u : T} {i : I} (hi : i ∈ (s.pc u).todo) : i ∈ mode.work u :=
  (h.todo u).subset hi

theorem Inv.unique (h : Inv bin mode old s g) {u : T} {i : I} (ht : i ∈ (s.pc t).todo) (hu : i ∈ (s.pc u).todo) :
    u = t :=
  mode.only i u t (h.mem_work hu) (h.mem_work ht)

theorem Inv.hasLock (h : Inv bin mode old s g) {v : Local I} {d : I} {stage : Stage I}
    (hpc : s.pc t = .move v d stage) (hstage : stage.Critical) : HasLock mode s t d := by
  have ok := h.threads t
  rw [hpc] at ok
  obtain ⟨-, -, x, -, -, ok⟩ := ok
  cases stage with
  | entered => exact ok.2
  | loaded => exact ok.2.1
  | grown => exact ok.2.1
  | counted => exact hstage.elim

/-- At most one thread is at the end of a list: it has the lock, or all particles that come here are its own. -/
theorem Inv.exclusive (h : Inv bin mode old s g) {u : T} {v w : Local I} {d : I} {stage stage' : Stage I}
    (ht : s.pc t = .move v d stage) (hu : s.pc u = .move w d stage') (hstage : stage.Critical)
    (hstage' : stage'.Critical) : u = t := by
  have okt := h.threads t
  have oku := h.threads u
  rw [ht] at okt
  rw [hu] at oku
  cases hb : mode.border d with
  | true =>
    have lock := h.hasLock ht hstage hb
    rw [h.hasLock hu hstage' hb] at lock
    exact Option.some.inj lock
  | false =>
    refine mode.exclusive d w.index2 v.index2 u t hb oku.2.1 okt.2.1 (h.mem_work ?_) (h.mem_work ?_)
    · rw [hu]
      exact List.mem_cons_self ..
    · rw [ht]
      exact List.mem_cons_self ..

theorem getElem?_mono {α : Type*} {l l' : List α} (h : l <+: l') {k : ℕ} {x : α} (hx : l[k]? = some x) :
    l'[k]? = some x := by
  obtain ⟨r, rfl⟩ := h
  rw [List.getElem?_append_left (List.getElem?_eq_some_iff.1 hx).1, hx]

omit [Fintype I] in
theorem Cursor.frame {v : Local I} (h : Cursor old g v) (hsrc : g'.lists (.src v.index2) = g.lists (.src v.index2)) :
    Cursor old g' v :=
  ⟨hsrc.trans h.src, h.cell2.trans (by rw [hsrc]), h.le⟩

omit [Fintype I] in
/-- What a thread relies on is kept by the others: the old list is its own, the end of the new list is its own
    while it is at it, and the new lists only get longer. -/
theorem Pc.Ok.frame {pc : Pc I} (ok : pc.Ok bin mode old s g t)
    (hsrc : ∀ i ∈ pc.todo, g'.lists (.src i) = g.lists (.src i) ∧ g'.read i = g.read i)
    (hcrit : ∀ v d stage, pc = .move v d stage → stage.Critical → HasLock mode s' t d ∧ s'.num d = s.num d ∧
      s'.last d = s.last d ∧ g'.lists (.dst d) = g.lists (.dst d))
    (hgrow : ∀ d, g.lists (.dst d) <+: g'.lists (.dst d) ∧ g.got d <+: g'.got d) : pc.Ok bin mode old s' g' t := by
  cases pc with
  | idle => trivial
  | loop v =>
    obtain ⟨src, read⟩ := hsrc v.index2 (List.mem_cons_self ..)
    exact ⟨ok.1.frame src, read.trans ok.2⟩
  | move v d stage =>
    obtain ⟨src, read⟩ := hsrc v.index2 (List.mem_cons_self ..)
    obtain ⟨cursor, cfl, x, hx, hbin, ok⟩ := ok
    refine ⟨cursor.frame src, cfl, x, hx, hbin, ?_⟩
    cases stage with
    | entered => exact ⟨read.trans ok.1, (hcrit v d _ rfl trivial).1⟩
    | loaded cell np =>
      obtain ⟨lock, num, last, -⟩ := hcrit v d _ rfl trivial
      exact ⟨read.trans ok.1, lock, num.trans ok.2.2.1, last.trans ok.2.2.2⟩
    | grown cell np =>
      obtain ⟨lock, num, last, lists⟩ := hcrit v d _ rfl trivial
      exact ⟨read.trans ok.1, lock, num.trans ok.2.2.1, last.trans ok.2.2.2.1, by rw [lists]; exact ok.2.2.2.2⟩
    | counted cell np =>
      exact ⟨read.trans ok.1, getElem?_mono (hgrow d).2 ok.2.1, getElem?_mono (hgrow d).1 ok.2.2⟩

variable [DecidableEq T]

omit [Fintype I] in
/-- A property of where the threads are, after a step of one of them. -/
theorem update_pc {Q : T → Pc I → Prop} {f : T → Pc I} {pc : Pc I} (ht : Q t pc) (hu : ∀ u ≠ t, Q u (f u)) (u : T) :
    Q u (Function.update f t pc u) := by
  by_cases hut : u = t
  · subst hut
    rwa [Function.update_self]
  · rw [Function.update_of_ne hut]
    exact hu u hut

/-- The list of a cell is as long as it should be, also when another thread has taken a step. -/
theorem Inv.length_update (h : Inv bin mode old s g) {pc : Pc I} {i : I}
    (hgrown : ∀ v cell np, s.pc t ≠ .move v i (.grown cell np))
    (hi : ∀ u v cell np, Function.update s.pc t pc u ≠ .move v i (.grown cell np)) :
    (g.lists (.dst i)).length = blocks (s.num i) := by
  refine h.length i fun u v cell np hu => ?_
  have hut : u ≠ t := by
    rintro rfl
    exact hgrown v cell np hu
  exact hi u v cell np ((Function.update_of_ne hut ..).trans hu)

omit [Fintype I] in
/-- A particle that another thread has counted and has yet to copy. -/
theorem counted_update {pc : Pc I} {i : I} {a : Addr I} {j : ℕ} (hcounted : ∀ v, s.pc t ≠ .move v i (.counted a j)) :
    (∃ u v, s.pc u = .move v i (.counted a j)) → ∃ u v, Function.update s.pc t pc u = .move v i (.counted a j) := by
  rintro ⟨u, v, hu⟩
  have hut : u ≠ t := by
    rintro rfl
    exact hcounted v hu
  exact ⟨u, v, (Function.update_of_ne hut ..).trans hu⟩

/-- A step that only changes where the thread is, and the locks. -/
theorem Inv.setPc (h : Inv bin mode old s g) {pc : Pc I} {lock : I → Option T} (htodo : pc.todo = (s.pc t).todo)
    (hrest : pc.rest ⊆ (s.pc t).rest) (hgrown : ∀ v i cell np, s.pc t ≠ .move v i (.grown cell np))
    (hcounted : ∀ v i cell np, s.pc t ≠ .move v i (.counted cell np))
    (hlock : ∀ u v d stage, u ≠ t → s.pc u = .move v d stage → stage.Critical → mode.border d = true →
      lock d = some u)
    (hok : pc.Ok bin mode old { s.setPc t pc with lock := lock } g t) :
    Inv bin mode old { s.setPc t pc with lock := lock } g := by
  refine ⟨h.owned, h.dst, h.last, fun i hi => h.length_update (fun v => hgrown v i) hi, h.got, h.binned,
    fun i j x hx => ?_, h.structures, h.sizes, h.particles, h.source, ?_, fun i hi => h.done i fun u hu => ?_, ?_,
    ?_, h.conserved⟩
  · obtain ⟨a, ha, hcontent⟩ := h.content i j x hx
    exact ⟨a, ha, hcontent.imp_right (counted_update fun v => hcounted v i a j)⟩
  · exact update_pc (Q := fun _ pc => ∀ i ∈ pc.rest, g.lists (.src i) = old.structures i ∧ g.read i = 0)
      (fun i hi => h.rest t i (hrest hi)) fun u _ => h.rest u
  · refine absurd ?_ (hi u)
    exact update_pc (Q := fun u pc => i ∈ (s.pc u).todo → i ∈ pc.todo) (fun hi => htodo ▸ hi) (fun _ _ hi => hi) u hu
  · exact update_pc (Q := fun u pc => pc.todo <:+ mode.work u) (htodo ▸ h.todo t) fun u _ => h.todo u
  · refine update_pc (Q := fun u pc => pc.Ok bin mode old _ g u) hok fun u hut => ?_
    refine (h.threads u).frame (fun _ _ => ⟨rfl, rfl⟩) (fun v d stage hpc hst => ?_) fun _ =>
      ⟨List.prefix_refl _, List.prefix_refl _⟩
    exact ⟨hlock u v d stage hut hpc hst, rfl, rfl, rfl⟩

theorem lt_blocks {n j : ℕ} (h : j < n) : j / 16 < blocks n := by
  rw [blocks]
  omega

omit [DecidableEq T] in
/-- The particle that a thread is at. -/
theorem Cursor.particle {v : Local I} (hv : Cursor old g v) (h : Inv bin mode old s g)
    (hj : v.j < (old.particles v.index2).length) : ∃ cell2, v.cell2 = some cell2 ∧
      cell2 ∈ g.lists (.src v.index2) ∧ (old.particles v.index2)[v.j]? = some (s.mem.slot cell2 (v.j % 16)) := by
  have hlt : v.j / 16 < (old.structures v.index2).length := by
    rw [h.sizes]
    exact lt_blocks hj
  have hget := List.getElem?_eq_getElem hlt
  have hhead : v.cell2 = some (old.structures v.index2)[v.j / 16] := by
    rw [hv.cell2, hv.src, List.head?_drop, hget]
  have hmem : (old.structures v.index2)[v.j / 16] ∈ g.lists (.src v.index2) :=
    List.mem_of_mem_head? (by rw [← hv.cell2, hhead]; rfl)
  refine ⟨_, hhead, hmem, ?_⟩
  rw [h.source _ _ _ _ (List.getElem?_eq_getElem hj) hget hmem]
  exact List.getElem?_eq_getElem hj

theorem Inv.start (h : Inv bin mode old s g) {i : I} {rest : List I} (hpc : s.pc t = .idle (i :: rest)) :
    Inv bin mode old (s.setPc t (.loop ⟨i, some (.head (!s.cells) i), 0, rest⟩)) g := by
  obtain ⟨src, read⟩ := h.rest t i (by rw [hpc]; exact List.mem_cons_self ..)
  obtain ⟨l, hl, -⟩ := h.structures i
  refine h.setPc (by rw [hpc]; rfl) (by rw [hpc]; exact List.subset_cons_self ..) (fun _ _ _ _ => by rw [hpc]; nofun)
    (fun _ _ _ _ => by rw [hpc]; nofun) (fun u v d stage _ hu hst => h.hasLock hu hst) ⟨⟨?_, ?_, Nat.zero_le _⟩, read⟩
  · simp only [Nat.zero_div, List.drop_zero]
    exact src
  · rw [src, hl]
    rfl

theorem Inv.enter (h : Inv bin mode old s g) [DecidableEq I] {v : Local I} (hpc : s.pc t = .loop v)
    (hj : v.j < s.cnumPars (!s.cells) v.index2) (hs : Fluid.enter bin mode s t v = some s') :
    Inv bin mode old s' g := by
  have ok := h.threads t
  rw [hpc] at ok
  rw [← h.particles] at hj
  obtain ⟨cell2, hcell2, -, hx⟩ := ok.1.particle h hj
  simp only [Fluid.enter, hcell2, Option.bind_some, Option.ite_none_right_eq_some] at hs
  obtain ⟨hcfl, hs⟩ := hs
  have htodo : (s.pc t).todo = v.index2 :: v.rest := by rw [hpc]; rfl
  have hrest : (s.pc t).rest = v.rest := by rw [hpc]; rfl
  split_ifs at hs with hborder hlock
  · obtain rfl := Option.some.inj hs
    refine h.setPc htodo.symm (by rw [hrest]; exact List.Subset.refl _) (fun _ _ _ _ => by rw [hpc]; nofun)
      (fun _ _ _ _ => by rw [hpc]; nofun) (fun u w d stage hut hu hst hb => ?_)
      ⟨ok.1, hcfl, _, hx, rfl, ok.2, fun _ => Function.update_self ..⟩
    -- another thread at the end of the list would have the lock
    have hd : d ≠ bin (s.mem.slot cell2 (v.j % 16)) := by
      rintro rfl
      rw [h.hasLock hu hst hb] at hlock
      cases hlock
    rw [Function.update_of_ne hd]
    exact h.hasLock hu hst hb
  · obtain rfl := Option.some.inj hs
    exact h.setPc htodo.symm (by rw [hrest]; exact List.Subset.refl _) (fun _ _ _ _ => by rw [hpc]; nofun)
      (fun _ _ _ _ => by rw [hpc]; nofun) (fun u w d stage _ hu hst => h.hasLock hu hst)
      ⟨ok.1, hcfl, _, hx, rfl, ok.2, fun hb => absurd hb hborder⟩

theorem Inv.load (h : Inv bin mode old s g) {v : Local I} {index : I} (hpc : s.pc t = .move v index .entered) :
    Inv bin mode old (s.setPc t (.move v index (.loaded (s.last index) (s.num index)))) g := by
  have ok := h.threads t
  rw [hpc] at ok
  obtain ⟨cursor, cfl, x, hx, hbin, read, lock⟩ := ok
  exact h.setPc (by rw [hpc]; rfl) (by rw [hpc]; exact List.Subset.refl _) (fun _ _ _ _ => by rw [hpc]; nofun)
    (fun _ _ _ _ => by rw [hpc]; nofun) (fun u w d stage _ hu hst => h.hasLock hu hst)
    ⟨cursor, cfl, x, hx, hbin, read, lock, rfl, rfl⟩

omit [DecidableEq T] in
/-- The list a thread is in is nowhere else among the lists that are left. -/
theorem Inv.ne_of_rest (h : Inv bin mode old s g) {v : Local I} (htodo : (s.pc t).todo = v.index2 :: v.rest)
    (hrest : (s.pc t).rest = v.rest) {u : T} {i : I} (hi : i ∈ (s.pc u).rest) : i ≠ v.index2 := by
  rintro rfl
  have hmem : v.index2 ∈ (s.pc t).todo := by rw [htodo]; exact List.mem_cons_self ..
  have hsub : (s.pc u).rest ⊆ (s.pc u).todo := by
    cases s.pc u with
    | idle => exact List.Subset.refl _
    | loop => exact List.subset_cons_self ..
    | move => exact List.subset_cons_self ..
  obtain rfl := h.unique hmem (hsub hi)
  have nodup := (mode.nodup u).sublist (h.todo u).sublist
  rw [htodo] at nodup
  rw [hrest] at hi
  exact (List.nodup_cons.1 nodup).1 hi

/-- The lists of the other threads after a step in one of them. -/
theorem Inv.sources (h : Inv bin mode old s g) (g' : Ghost I T P) {v : Local I}
    (htodo : (s.pc t).todo = v.index2 :: v.rest) (hrest : (s.pc t).rest = v.rest) (pc : Pc I) (hpc : pc.rest = v.rest)
    (hdone : pc.todo = v.index2 :: v.rest ∨ pc.todo = v.rest ∧ g'.lists (.src v.index2) = [] ∧
      g'.read v.index2 = (old.particles v.index2).length)
    (hg : ∀ i ≠ v.index2, g'.lists (.src i) = g.lists (.src i) ∧ g'.read i = g.read i) :
    (∀ u, ∀ i ∈ (Function.update s.pc t pc u).rest, g'.lists (.src i) = old.structures i ∧ g'.read i = 0) ∧
    (∀ i, (∀ u, i ∉ (Function.update s.pc t pc u).todo) →
      g'.lists (.src i) = [] ∧ g'.read i = (old.particles i).length) ∧
    ∀ u, (Function.update s.pc t pc u).todo <:+ mode.work u := by
  refine ⟨?_, fun i hi => ?_, ?_⟩
  · refine update_pc (Q := fun _ pc => ∀ i ∈ pc.rest, g'.lists (.src i) = old.structures i ∧ g'.read i = 0)
      (fun i hi => ?_) fun u _ i hi => ?_
    · rw [hpc, ← hrest] at hi
      have hne := h.ne_of_rest htodo hrest hi
      rw [(hg i hne).1, (hg i hne).2]
      exact h.rest t i hi
    · have hne := h.ne_of_rest htodo hrest hi
      rw [(hg i hne).1, (hg i hne).2]
      exact h.rest u i hi
  · by_cases hi' : i = v.index2
    · subst hi'
      rcases hdone with hpc' | ⟨-, hdone⟩
      · refine absurd ?_ (hi t)
        rw [Function.update_self, hpc']
        exact List.mem_cons_self ..
      · exact hdone
    · rw [(hg i hi').1, (hg i hi').2]
      refine h.done i fun u hu => hi u ?_
      refine update_pc (Q := fun u pc => i ∈ (s.pc u).todo → i ∈ pc.todo) (fun hi => ?_) (fun _ _ hi => hi) u hu
      rw [htodo, List.mem_cons] at hi
      rcases hdone with hpc' | ⟨hpc', -⟩
      · rw [hpc']
        exact List.mem_cons.2 hi
      · rw [hpc']
        exact hi.resolve_left hi'
  · refine update_pc (Q := fun u pc => pc.todo <:+ mode.work u) ?_ fun u _ => h.todo u
    have hsuf := h.todo t
    rw [htodo] at hsuf
    rcases hdone with hpc' | ⟨hpc', -⟩
    · rwa [hpc']
    · rw [hpc']
      exact (List.suffix_cons ..).trans hsuf

omit [DecidableEq T] in
/-- While a thread is at the end of a list and has taken no new structure, the list is as long as it should be. -/
theorem Inv.length_of_critical (h : Inv bin mode old s g) {v : Local I} {index : I} {stage : Stage I}
    (hpc : s.pc t = .move v index stage) (hstage : stage.Critical) (hgrown : ∀ cell np, stage ≠ .grown cell np) :
    (g.lists (.dst index)).length = blocks (s.num index) := by
  refine h.length index fun u w cell np hu => ?_
  obtain rfl := h.exclusive hpc hu hstage trivial
  rw [hpc] at hu
  exact hgrown cell np (Pc.move.inj hu).2.2

/-- A new structure at the end of a list. -/
theorem Inv.growNew [DecidableEq I] (h : Inv bin mode old s g) {v : Local I} {index : I} {cell new : Addr I} {np : ℕ}
    (hpc : s.pc t = .move v index (.loaded cell np)) (hfull : np % 16 = 0 ∧ s.num index ≠ 0) {m : Mem I T P}
    {l : List (Addr I)} (hnew : ∃ n, new = .pool n) (hslot : m.slot = s.mem.slot)
    (owned : Owned m (Function.update (Function.update g.lists (.free t) l) (.dst index)
      (g.lists (.dst index) ++ [new]))) :
    Inv bin mode old { s.setPc t (.move v index (.grown new np)) with
      mem := m, last := Function.update s.last index new }
      { g with
        lists := Function.update (Function.update g.lists (.free t) l) (.dst index) (g.lists (.dst index) ++ [new]) }
      := by
  have ok := h.threads t
  rw [hpc] at ok
  obtain ⟨cursor, cfl, x, hx, hbin, read, lock, num, last⟩ := ok
  have length := h.length_of_critical hpc trivial (fun _ _ => nofun)
  have htodo : (s.pc t).todo = v.index2 :: v.rest := by rw [hpc]; rfl
  have hrest : (s.pc t).rest = v.rest := by rw [hpc]; rfl
  set lists := Function.update (Function.update g.lists (.free t) l) (.dst index) (g.lists (.dst index) ++ [new])
    with hlists
  have hself : lists (.dst index) = g.lists (.dst index) ++ [new] := Function.update_self ..
  have hother : ∀ i ≠ index, lists (.dst i) = g.lists (.dst i) := by
    intro i hi
    have hne : (Place.dst i : Place I T) ≠ .dst index := fun heq => hi (Place.dst.inj heq)
    have hne' : (Place.dst i : Place I T) ≠ .free t := nofun
    rw [hlists, Function.update_of_ne hne, Function.update_of_ne hne']
  have hsrc : ∀ i, lists (.src i) = g.lists (.src i) := by
    intro i
    have hne : (Place.src i : Place I T) ≠ .dst index := nofun
    have hne' : (Place.src i : Place I T) ≠ .free t := nofun
    rw [hlists, Function.update_of_ne hne, Function.update_of_ne hne']
  have hgrow : ∀ i, g.lists (.dst i) <+: lists (.dst i) := by
    intro i
    by_cases hi : i = index
    · subst hi
      rw [hself]
      exact List.prefix_append ..
    · rw [hother i hi]
  obtain ⟨hrest', hdone', htodo'⟩ := h.sources { g with lists := lists } htodo hrest
    (.move v index (.grown new np)) rfl (.inl rfl) fun i _ => ⟨hsrc i, rfl⟩
  refine ⟨owned, fun i => ?_, fun i => ?_, fun i hi => ?_, h.got, h.binned, fun i j y hy => ?_, h.structures, h.sizes,
    h.particles, fun i k y a hy ha hmem => ?_, hrest', hdone', htodo', ?_, h.conserved⟩
  · obtain ⟨k, hk, hpool⟩ := h.dst i
    by_cases hi : i = index
    · subst hi
      refine ⟨k ++ [new], hself.trans (by rw [hk]; rfl), fun a ha => ?_⟩
      rcases List.mem_append.1 ha with ha | ha
      · exact hpool a ha
      · rw [List.mem_singleton.1 ha]
        exact hnew
    · exact ⟨k, (hother i hi).trans hk, hpool⟩
  · by_cases hi : i = index
    · subst hi
      dsimp only
      rw [hself, Function.update_self, List.getLast?_concat]
    · dsimp only
      rw [hother i hi, Function.update_of_ne hi]
      exact h.last i
  · have hi' : i ≠ index := by
      rintro rfl
      exact hi t v new np (Function.update_self ..)
    dsimp only
    rw [hother i hi']
    exact h.length_update (fun _ _ _ => by rw [hpc]; nofun) hi
  · obtain ⟨a, ha, hy⟩ := h.content i j y hy
    refine ⟨a, getElem?_mono (hgrow i) ha, hy.imp (fun hy => ?_) (counted_update fun _ => by rw [hpc]; nofun)⟩
    rw [hslot]
    exact hy
  · dsimp only at hmem ⊢
    rw [hsrc] at hmem
    rw [hslot]
    exact h.source i k y a hy ha hmem
  · refine update_pc (Q := fun u pc => pc.Ok bin mode old _ _ u) ?_ fun u hut => ?_
    · refine ⟨cursor.frame (hsrc _), cfl, x, hx, hbin, read, lock, num, Function.update_self .., ?_⟩
      dsimp only
      rw [hself, List.length_append, List.length_singleton, length, num, blocks]
      omega
    · refine (h.threads u).frame (fun i _ => ⟨hsrc i, rfl⟩) (fun w d stage hu hst => ?_) fun d =>
        ⟨hgrow d, List.prefix_refl _⟩
      have hd : d ≠ index := by
        rintro rfl
        exact hut (h.exclusive hpc hu trivial hst)
      exact ⟨h.hasLock hu hst, rfl, Function.update_of_ne hd .., hother d hd⟩

theorem Inv.grow [DecidableEq I] (h : Inv bin mode old s g) {v : Local I} {index : I} {cell : Addr I} {np : ℕ}
    (hpc : s.pc t = .move v index (.loaded cell np)) (hs : Fluid.grow s t v index cell np = some s') :
    ∃ g', Inv bin mode old s' g' := by
  have ok := h.threads t
  rw [hpc] at ok
  obtain ⟨cursor, cfl, x, hx, hbin, read, lock, num, last⟩ := ok
  have length := h.length_of_critical hpc trivial (fun _ _ => nofun)
  have htodo : (s.pc t).todo = v.index2 :: v.rest := by rw [hpc]; rfl
  have hrest : (s.pc t).rest = v.rest := by rw [hpc]; rfl
  rw [Fluid.grow] at hs
  split_ifs at hs with hfull
  · obtain ⟨⟨new, m⟩, hget, rfl⟩ := Option.map_eq_some_iff.1 hs
    obtain ⟨l, hnew, hslot, owned⟩ := h.owned.getcell (last ▸ h.last index) hget
    exact ⟨_, h.growNew hpc hfull hnew hslot owned⟩
  · obtain rfl := Option.some.inj hs
    refine ⟨g, h.setPc htodo.symm (by rw [hrest]; exact List.Subset.refl _) (fun _ _ _ _ => by rw [hpc]; nofun)
      (fun _ _ _ _ => by rw [hpc]; nofun) (fun u w d stage _ hu hst => h.hasLock hu hst)
      ⟨cursor, cfl, x, hx, hbin, read, lock, num, last, ?_⟩⟩
    rw [length, num, blocks]
    omega

omit [DecidableEq T] in
theorem sum_concat [DecidableEq I] (f : I → List P) (i : I) (x : P) :
    ∑ k, (Function.update f i (f i ++ [x]) k : Multiset P) = ∑ k, (f k : Multiset P) + {x} := by
  have split : ∀ k, (Function.update f i (f i ++ [x]) k : Multiset P) =
      (f k : Multiset P) + if k = i then {x} else 0 := by
    intro k
    by_cases hk : k = i
    · subst hk
      rw [Function.update_self, if_pos rfl, ← Multiset.coe_add, Multiset.coe_singleton]
    · rw [Function.update_of_ne hk, if_neg hk, add_zero]
  simp only [split, Finset.sum_add_distrib, Finset.sum_ite_eq', Finset.mem_univ, if_true]

omit [DecidableEq T] in
theorem sum_take_succ [DecidableEq I] (f : I → List P) (read : I → ℕ) {i : I} {x : P} (hx : (f i)[read i]? = some x) :
    ∑ k, ((f k).take (Function.update read i (read i + 1) k) : Multiset P) =
      ∑ k, ((f k).take (read k) : Multiset P) + {x} := by
  have take : (fun k => (f k).take (Function.update read i (read i + 1) k)) =
      Function.update (fun k => (f k).take (read k)) i ((f i).take (read i) ++ [x]) := by
    funext k
    by_cases hk : k = i
    · subst hk
      rw [Function.update_self, Function.update_self, List.take_add_one, hx]
      rfl
    · rw [Function.update_of_ne hk, Function.update_of_ne hk]
  exact (congrArg (fun f : I → List P => ∑ k, (f k : Multiset P)) take).trans
    (sum_concat (fun k => (f k).take (read k)) i x)

omit [Fintype I] [DecidableEq T] in
/-- The lists only get longer. -/
theorem concat_grows [DecidableEq I] (f : I → List P) (i : I) (l : List P) (k : I) :
    f k <+: Function.update f i (f i ++ l) k := by
  by_cases hk : k = i
  · subst hk
    rw [Function.update_self]
    exact List.prefix_append ..
  · rw [Function.update_of_ne hk]

omit [Fintype I] [DecidableEq T] in
/-- An entry of the lists after one of them has got another: it was there, or it is the new one. -/
theorem getElem?_concat_cases [DecidableEq I] {f : I → List P} {i k : I} {x y : P} {j : ℕ}
    (h : (Function.update f i (f i ++ [x]) k)[j]? = some y) :
    (f k)[j]? = some y ∨ k = i ∧ j = (f i).length ∧ y = x := by
  by_cases hk : k = i
  · subst hk
    rw [Function.update_self] at h
    rcases Nat.lt_or_ge j (f k).length with hj | hj
    · rw [List.getElem?_append_left hj] at h
      exact .inl h
    · have hj' : j = (f k).length := by
        have := (List.getElem?_eq_some_iff.1 h).1
        rw [List.length_append, List.length_singleton] at this
        omega
      rw [hj', List.getElem?_concat_length] at h
      exact .inr ⟨rfl, hj', (Option.some.inj h).symm⟩
  · rw [Function.update_of_ne hk] at h
    exact .inl h

omit [Fintype I] [DecidableEq T] in
theorem binned_concat [DecidableEq I] {got : I → List P} {x : P} (h : ∀ i, ∀ y ∈ got i, bin y = i) :
    ∀ i, ∀ y ∈ Function.update got (bin x) (got (bin x) ++ [x]) i, bin y = i := by
  intro i y hy
  obtain ⟨j, hj⟩ := List.mem_iff_getElem?.1 hy
  rcases getElem?_concat_cases hj with hold | ⟨rfl, -, rfl⟩
  · exact h i y (List.mem_of_getElem? hold)
  · rfl

/-- The step that counts the particle. -/
theorem Inv.count [DecidableEq I] (h : Inv bin mode old s g) {v : Local I} {index : I} {cell : Addr I} {np : ℕ}
    (hpc : s.pc t = .move v index (.grown cell np)) :
    ∃ g', Inv bin mode old (Fluid.count mode s t v index cell np) g' := by
  have ok := h.threads t
  rw [hpc] at ok
  obtain ⟨cursor, cfl, x, hx, rfl, read, lock, num, last, length⟩ := ok
  have htodo : (s.pc t).todo = v.index2 :: v.rest := by rw [hpc]; rfl
  have hrest : (s.pc t).rest = v.rest := by rw [hpc]; rfl
  have hnum : ∀ i, (Fluid.count mode s t v (bin x) cell np).num i = if i = bin x then np + 1 else s.num i := by
    intro i
    simp only [State.num, Fluid.count, State.setPc, Function.update_self, Function.update_apply]
    rw [← num]
    rfl
  have hcell : (g.lists (.dst (bin x)))[np / 16]? = some cell := by
    have hlast := h.last (bin x)
    rwa [List.getLast?_eq_getElem?, length, Nat.add_sub_cancel, last] at hlast
  have hgot : (g.got (bin x)).length = np := (h.got (bin x)).trans num
  set got := Function.update g.got (bin x) (g.got (bin x) ++ [x]) with hgot'
  set read' := Function.update g.read v.index2 (g.read v.index2 + 1) with hread'
  have hread : ∀ i ≠ v.index2, read' i = g.read i := fun i hi => Function.update_of_ne hi ..
  obtain ⟨hrest', hdone', htodo'⟩ := h.sources { g with got := got, read := read' } htodo hrest
    (.move v (bin x) (.counted cell np)) rfl (.inl rfl) fun i hi => ⟨rfl, hread i hi⟩
  refine ⟨{ g with got := got, read := read' }, h.owned, h.dst, h.last, fun i hi => ?_, fun i => ?_,
    binned_concat h.binned, fun i j y hy => ?_, h.structures, h.sizes, fun i => ?_, h.source, hrest', hdone', htodo',
    ?_, ?_⟩
  · rw [hnum]
    split_ifs with hi'
    · subst hi'
      rw [length, blocks]
      omega
    · refine h.length_update (fun w c k hw => ?_) hi
      rw [hpc] at hw
      exact hi' (Pc.move.inj hw).2.1.symm
  · rw [hnum]
    dsimp only
    split_ifs with hi
    · subst hi
      rw [hgot', Function.update_self, List.length_append, List.length_singleton, hgot]
    · rw [hgot', Function.update_of_ne hi]
      exact h.got i
  · rcases getElem?_concat_cases hy with hold | ⟨rfl, rfl, rfl⟩
    · obtain ⟨a, ha, hy⟩ := h.content i j y hold
      exact ⟨a, ha, hy.imp_right (counted_update fun _ => by rw [hpc]; nofun)⟩
    · rw [hgot]
      exact ⟨cell, hcell, .inr ⟨t, v, Function.update_self ..⟩⟩
  · have hne : (!s.cells) ≠ s.cells := Bool.not_ne_self _
    simp only [Fluid.count, State.setPc]
    rw [Function.update_of_ne hne]
    exact h.particles i
  · refine update_pc (Q := fun u pc => pc.Ok bin mode old _ _ u) ?_ fun u hut => ?_
    · refine ⟨cursor.frame rfl, cfl, x, hx, rfl, ?_, ?_, hcell⟩
      · dsimp only
        rw [hread', Function.update_self, read]
      · dsimp only
        rw [hgot', Function.update_self, ← hgot, List.getElem?_concat_length]
    · refine (h.threads u).frame (fun i hi => ⟨rfl, hread i ?_⟩) (fun w d stage hu hst => ?_) fun d =>
        ⟨List.prefix_refl _, concat_grows ..⟩
      · rintro rfl
        exact hut (h.unique (by rw [htodo]; exact List.mem_cons_self ..) hi)
      · have hd : d ≠ bin x := by
          rintro rfl
          exact hut (h.exclusive hpc hu trivial hst)
        refine ⟨fun hb => ?_, by rw [hnum, if_neg hd], rfl, rfl⟩
        have hlock := h.hasLock hu hst hb
        simp only [Fluid.count]
        split_ifs
        · rwa [Function.update_of_ne hd]
        · exact hlock
  · dsimp only
    rw [hgot', sum_concat, hread', sum_take_succ old.particles g.read (by rw [read]; exact hx), h.conserved]

/-- A structure of an old list that has been read leaves the list. -/
theorem Inv.giveBack [DecidableEq I] (h : Inv bin mode old s g) {m : Mem I T P} {v : Local I} {cell2 : Addr I}
    {l : List (Addr I)} (owned : Owned m g.lists) (hq : g.lists (.src v.index2) = cell2 :: l)
    (hmem : cell2 ∈ old.structures v.index2) :
    ∃ lists, Owned (Fluid.giveBack s t m v cell2) lists ∧ (Fluid.giveBack s t m v cell2).slot = m.slot ∧
      lists (.src v.index2) = l ∧ (∀ i ≠ v.index2, lists (.src i) = g.lists (.src i)) ∧
      ∀ i, lists (.dst i) = g.lists (.dst i) := by
  have hother : ∀ i ≠ v.index2, (Place.src i : Place I T) ≠ .src v.index2 := fun i hi heq => hi (Place.src.inj heq)
  have hdst : ∀ i, (Place.dst i : Place I T) ≠ .src v.index2 := fun _ => nofun
  obtain ⟨r, hr, hpool⟩ := h.structures v.index2
  rw [Fluid.giveBack]
  split_ifs with hhead
  · rw [hhead] at hq
    exact ⟨_, owned.pop_head hq, rfl, Function.update_self .., fun i hi => Function.update_of_ne (hother i hi) ..,
      fun i => Function.update_of_ne (hdst i) ..⟩
  · rw [hr, List.mem_cons] at hmem
    obtain ⟨n, rfl⟩ := hpool cell2 (hmem.resolve_left hhead)
    have hfree : ∀ i, (Place.src i : Place I T) ≠ .free t := fun _ => nofun
    have hfree' : ∀ i, (Place.dst i : Place I T) ≠ .free t := fun _ => nofun
    refine ⟨_, owned.returncell (t := t) hq, rfl, ?_, fun i hi => ?_, fun i => ?_⟩
    · rw [Function.update_of_ne (hfree _), Function.update_self]
    · rw [Function.update_of_ne (hfree i), Function.update_of_ne (hother i hi)]
    · rw [Function.update_of_ne (hfree' i), Function.update_of_ne (hdst i)]

/-- A step in which a thread goes on in an old list: structures leave this list, the new ones are as they were. -/
theorem Inv.leave (h : Inv bin mode old s g) {v : Local I} {pc : Pc I} {m : Mem I T P}
    {lists : Place I T → List (Addr I)} (htodo : (s.pc t).todo = v.index2 :: v.rest) (hrest : (s.pc t).rest = v.rest)
    (hgrown : ∀ w i c k, s.pc t ≠ .move w i (.grown c k)) (hpc : pc.rest = v.rest)
    (hdone : pc.todo = v.index2 :: v.rest ∨ pc.todo = v.rest ∧ lists (.src v.index2) = [] ∧
      g.read v.index2 = (old.particles v.index2).length)
    (owned : Owned m lists) (hother : ∀ i ≠ v.index2, lists (.src i) = g.lists (.src i))
    (hself : ∀ a ∈ lists (.src v.index2), a ∈ g.lists (.src v.index2)) (hdst : ∀ i, lists (.dst i) = g.lists (.dst i))
    (hsource : ∀ i, ∀ a ∈ g.lists (.src i), m.slot a = s.mem.slot a)
    (hcontent : ∀ i j y a, (g.got i)[j]? = some y → (g.lists (.dst i))[j / 16]? = some a →
      (s.mem.slot a (j % 16) = y ∨ ∃ u w, s.pc u = .move w i (.counted a j)) →
      m.slot a (j % 16) = y ∨ ∃ u w, Function.update s.pc t pc u = .move w i (.counted a j))
    (hok : pc.Ok bin mode old { s.setPc t pc with mem := m } { g with lists := lists } t) :
    Inv bin mode old { s.setPc t pc with mem := m } { g with lists := lists } := by
  obtain ⟨hrest', hdone', htodo'⟩ := h.sources { g with lists := lists } htodo hrest pc hpc hdone
    fun i hi => ⟨hother i hi, rfl⟩
  refine ⟨owned, fun i => ?_, fun i => ?_, fun i hi => ?_, h.got, h.binned, fun i j y hy => ?_, h.structures, h.sizes,
    h.particles, fun i k y a hy ha hmem => ?_, hrest', hdone', htodo', ?_, h.conserved⟩
  · dsimp only
    rw [hdst]
    exact h.dst i
  · dsimp only
    rw [hdst]
    exact h.last i
  · dsimp only
    rw [hdst]
    exact h.length_update (fun w => hgrown w i) hi
  · obtain ⟨a, ha, hy'⟩ := h.content i j y hy
    dsimp only
    exact ⟨a, by rw [hdst]; exact ha, hcontent i j y a hy ha hy'⟩
  · dsimp only at hmem ⊢
    have hmem' : a ∈ g.lists (.src i) := by
      by_cases hi : i = v.index2
      · subst hi
        exact hself a hmem
      · rwa [hother i hi] at hmem
    rw [hsource i a hmem']
    exact h.source i k y a hy ha hmem'
  · refine update_pc (Q := fun u pc => pc.Ok bin mode old _ _ u) hok fun u hut => ?_
    refine (h.threads u).frame (fun i hi => ⟨hother i ?_, rfl⟩) (fun w d stage hu hst =>
      ⟨h.hasLock hu hst, rfl, rfl, hdst d⟩) fun d => ⟨by dsimp only; rw [hdst], List.prefix_refl _⟩
    rintro rfl
    exact hut (h.unique (by rw [htodo]; exact List.mem_cons_self ..) hi)

/-- The step that copies the particle, whatever becomes of the old list. -/
theorem Inv.copied [DecidableEq I] (h : Inv bin mode old s g) {v : Local I} {index : I} {cell cell2 : Addr I} {np : ℕ}
    (hpc : s.pc t = .move v index (.counted cell np)) (hcell2 : v.cell2 = some cell2) {m : Mem I T P}
    {lists : Place I T → List (Addr I)} (owned : Owned m lists)
    (hslot : m.slot = Function.update s.mem.slot cell
      (Function.update (s.mem.slot cell) (np % 16) (s.mem.slot cell2 (v.j % 16))))
    (hself : lists (.src v.index2) = (old.structures v.index2).drop ((v.j + 1) / 16))
    (hother : ∀ i ≠ v.index2, lists (.src i) = g.lists (.src i)) (hdst : ∀ i, lists (.dst i) = g.lists (.dst i)) :
    Inv bin mode old { s.setPc t (.loop ⟨v.index2, (lists (.src v.index2)).head?, v.j + 1, v.rest⟩) with mem := m }
      { g with lists := lists } := by
  have ok := h.threads t
  rw [hpc] at ok
  obtain ⟨cursor, cfl, x, hx, hbin, read, hgot, hcell⟩ := ok
  have hj := (List.getElem?_eq_some_iff.1 hx).1
  have hxslot : s.mem.slot cell2 (v.j % 16) = x := by
    obtain ⟨c, hc, -, hx'⟩ := cursor.particle h hj
    rw [hcell2] at hc
    obtain rfl := Option.some.inj hc
    exact Option.some.inj (hx'.symm.trans hx)
  rw [hxslot] at hslot
  refine h.leave (by rw [hpc]; rfl) (by rw [hpc]; rfl) (fun _ _ _ _ => by rw [hpc]; nofun) rfl (.inl rfl) owned hother
    (fun a ha => ?_) hdst (fun i a ha => ?_) (fun i j y a hy ha hy' => ?_) ⟨⟨hself, rfl, hj⟩, read⟩
  · rw [hself] at ha
    rw [cursor.src]
    exact (List.drop_subset_drop_left _ (Nat.div_le_div_right (Nat.le_succ _))) ha
  · have hac : a ≠ cell := by
      rintro rfl
      have := h.owned.places.apart _ _ a ha (List.mem_of_getElem? hcell)
      cases this
    rw [hslot, Function.update_of_ne hac]
  · by_cases hplace : a = cell ∧ j % 16 = np % 16
    · -- the slot that is written is the one of particle `np`
      obtain ⟨rfl, hmod⟩ := hplace
      obtain ⟨hd, hdiv⟩ := h.owned.places.getElem_inj ha hcell
      obtain rfl := Place.dst.inj hd
      have hjnp : j = np := by omega
      subst hjnp
      refine .inl ?_
      rw [hslot, update_slot, if_pos ⟨rfl, rfl⟩]
      exact Option.some.inj (hgot.symm.trans hy)
    · refine hy'.imp (fun hy' => ?_) (counted_update fun w hw => ?_)
      · rw [hslot, update_slot, if_neg hplace]
        exact hy'
      · rw [hpc] at hw
        obtain ⟨-, -, hstage⟩ := Pc.move.inj hw
        obtain ⟨rfl, rfl⟩ := Stage.counted.inj hstage
        exact hplace ⟨rfl, rfl⟩

theorem Inv.copy [DecidableEq I] (h : Inv bin mode old s g) {v : Local I} {index : I} {cell cell2 : Addr I} {np : ℕ}
    (hpc : s.pc t = .move v index (.counted cell np)) (hcell2 : v.cell2 = some cell2) :
    ∃ g', Inv bin mode old (Fluid.copy s t v cell np cell2) g' := by
  have ok := h.threads t
  rw [hpc] at ok
  have cursor := ok.1
  set m : Mem I T P := { s.mem with
    slot := Function.update s.mem.slot cell
      (Function.update (s.mem.slot cell) (np % 16) (s.mem.slot cell2 (v.j % 16))) } with hm
  have owned : Owned m g.lists := ⟨h.owned.places, h.owned.free, h.owned.pooled, h.owned.all⟩
  obtain ⟨l, hl⟩ : ∃ l, g.lists (.src v.index2) = cell2 :: l := by
    have hhead := cursor.cell2.symm.trans hcell2
    exact ⟨_, List.eq_cons_of_mem_head? hhead⟩
  simp only [Fluid.copy]
  rw [← hm]
  split_ifs with hend
  · -- the end of a structure
    have hdrop : (old.structures v.index2).drop (v.j / 16) = cell2 :: l := cursor.src.symm.trans hl
    have hmem : cell2 ∈ old.structures v.index2 :=
      List.mem_of_mem_drop (by rw [hdrop]; exact List.mem_cons_self ..)
    obtain ⟨lists, owned', hslot, hself, hother, hdst⟩ := h.giveBack (t := t) owned hl hmem
    have hnext : m.next cell2 = (lists (.src v.index2)).head? := by
      have := h.owned.places.linked (.src v.index2)
      rw [hl] at this
      rw [hself]
      exact this.1
    have hself' : lists (.src v.index2) = (old.structures v.index2).drop ((v.j + 1) / 16) := by
      have hdiv : (v.j + 1) / 16 = v.j / 16 + 1 := by omega
      rw [hself, hdiv, ← List.drop_drop, hdrop]
      rfl
    rw [hnext]
    exact ⟨_, h.copied hpc hcell2 owned' hslot hself' hother hdst⟩
  · have hdiv : (v.j + 1) / 16 = v.j / 16 := by omega
    have hself : g.lists (.src v.index2) = (old.structures v.index2).drop ((v.j + 1) / 16) := by
      rw [hdiv]
      exact cursor.src
    have := h.copied hpc hcell2 owned rfl hself (fun _ _ => rfl) fun _ => rfl
    rw [← cursor.cell2] at this
    exact ⟨_, this⟩

/-- The step behind the last particle of a list. -/
theorem Inv.finished [DecidableEq I] (h : Inv bin mode old s g) {v : Local I} (hpc : s.pc t = .loop v) {m : Mem I T P}
    {lists : Place I T → List (Addr I)} (owned : Owned m lists) (hslot : m.slot = s.mem.slot)
    (hj : v.j = (old.particles v.index2).length) (hself : lists (.src v.index2) = [])
    (hother : ∀ i ≠ v.index2, lists (.src i) = g.lists (.src i)) (hdst : ∀ i, lists (.dst i) = g.lists (.dst i)) :
    Inv bin mode old { s.setPc t (.idle v.rest) with mem := m } { g with lists := lists } := by
  have ok := h.threads t
  rw [hpc] at ok
  refine h.leave (by rw [hpc]; rfl) (by rw [hpc]; rfl) (fun _ _ _ _ => by rw [hpc]; nofun) rfl
    (.inr ⟨rfl, hself, ok.2.trans hj⟩) owned hother (fun a ha => ?_) hdst (fun i a _ => by rw [hslot])
    (fun i j y a _ _ hy => ?_) trivial
  · rw [hself] at ha
    cases ha
  · rw [hslot]
    exact hy.imp_right (counted_update fun _ => by rw [hpc]; nofun)

theorem Inv.finish [DecidableEq I] (h : Inv bin mode old s g) {v : Local I} (hpc : s.pc t = .loop v)
    (hj : ¬ v.j < s.cnumPars (!s.cells) v.index2) : ∃ g', Inv bin mode old (Fluid.finish s t v) g' := by
  have ok := h.threads t
  rw [hpc] at ok
  have cursor := ok.1
  rw [← h.particles] at hj
  have hj' : v.j = (old.particles v.index2).length := Nat.le_antisymm cursor.le (Nat.not_lt.1 hj)
  have hlen : (g.lists (.src v.index2)).length ≤ 1 := by
    rw [cursor.src, List.length_drop, h.sizes, ← hj', blocks]
    omega
  rw [Fluid.finish]
  rcases hl : g.lists (.src v.index2) with _ | ⟨cell2, l⟩
  · have hcell2 : v.cell2 = none := by rw [cursor.cell2, hl]; rfl
    rw [hcell2]
    exact ⟨_, h.finished hpc h.owned rfl hj' hl (fun _ _ => rfl) fun _ => rfl⟩
  · have hcell2 : v.cell2 = some cell2 := by rw [cursor.cell2, hl]; rfl
    have hmem : cell2 ∈ old.structures v.index2 :=
      List.mem_of_mem_drop (by rw [← cursor.src, hl]; exact List.mem_cons_self ..)
    obtain ⟨lists, owned, hslot, hself, hother, hdst⟩ := h.giveBack (t := t) h.owned hl hmem
    have hnil : l = [] := by
      rw [hl, List.length_cons] at hlen
      exact List.length_eq_zero_iff.1 (by omega)
    rw [hcell2]
    exact ⟨_, h.finished hpc owned hslot hj' (hself.trans hnil) hother hdst⟩

theorem Inv.step [DecidableEq I] (h : Inv bin mode old s g) (hs : Fluid.step bin mode s t = some s') :
    ∃ g', Inv bin mode old s' g' := by
  rw [Fluid.step] at hs
  rcases hpc : s.pc t with (_ | ⟨i, rest⟩) | v | ⟨v, index, _ | ⟨cell, np⟩ | ⟨cell, np⟩ | ⟨cell, np⟩⟩ <;>
    simp only [hpc] at hs
  · cases hs
  · obtain rfl := Option.some.inj hs
    exact ⟨g, h.start hpc⟩
  · split_ifs at hs with hj
    · exact ⟨g, h.enter hpc hj hs⟩
    · obtain rfl := Option.some.inj hs
      exact h.finish hpc hj
  · obtain rfl := Option.some.inj hs
    exact ⟨g, h.load hpc⟩
  · exact h.grow hpc hs
  · obtain rfl := Option.some.inj hs
    exact h.count hpc
  · obtain ⟨cell2, hcell2, rfl⟩ := Option.map_eq_some_iff.1 hs
    exact h.copy hpc hcell2

end Steps

end Turkey.Fluid
