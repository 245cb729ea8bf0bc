import Mathlib.Algebra.Ring.Int.Defs
import Turkey.Fluidanimate.Frames
import Turkey.Fluidanimate.Grids

/-! The start of the simulation (`InitSim`) and whole runs of it.

    `InitSim` gives each thread a pool, and puts every particle of the input file behind the others in the list of
    its cell; it walks to the end of this list each time. The structures that the lists need come from the
    pools in turn. A run of the simulation goes on with any number of frames, serial or parallel, between
    which positions and velocities may change in any way. -/

namespace Turkey.Fluid
open Turkey.Run Turkey.Chains

section Load
variable {I P : Type*} [DecidableEq I] {G : ℕ} [NeZero G]

/-- The loop that goes to the last structure of a list. It makes less than `fuel` rounds. -/
def goToLast {T : Type*} (m : Mem I T P) : ℕ → Option (Addr I) → ℕ → Option (Addr I) × ℕ
  | 0, cell, np => (cell, np)
  | fuel + 1, cell, np => if np > 16 then goToLast m fuel (cell.bind m.next) (np - 16) else (cell, np)

/-- The particle is written to the structure and counted. -/
def store {T : Type*} (s : State I T P) (m : Mem I T P) (index : I) (cell : Addr I) (np : ℕ) (x : P) : State I T P :=
  { s with
    mem := { m with slot := Function.update m.slot cell (Function.update (m.slot cell) np x) }
    cnumPars := Function.update s.cnumPars s.cells (Function.update (s.cnumPars s.cells) index (s.num index + 1)) }

/-- A particle of the input file. -/
def loadParticle (bin : P → I) (s : State I (Fin G) P) (poolId : Fin G) (x : P) :
    Option (State I (Fin G) P × Fin G) :=
  let index := bin x
  match goToLast s.mem (s.num index) (some (.head s.cells index)) (s.num index) with
  | (none, _) => none
  | (some cell, np) =>
    if np % 16 = 0 ∧ s.num index ≠ 0 then
      (cellpoolGetcell s.mem poolId).map fun (new, m) =>
        (store s { m with next := Function.update m.next cell (some new) } index new (np - 16) x, poolId + 1)
    else some (store s s.mem index cell np x, poolId)

/-- The pools, each for its share of the particles. -/
def initPools (slot : Addr I → ℕ → P) (numParticles : ℕ) : Option (Mem I (Fin G) P) :=
  exec (fun m t => cellpoolInit m t (numParticles / G)) ⟨fun _ => none, slot, fun _ => none, fun _ => 0, 0⟩
    (List.finRange G)

/-- `slot`, `cnumPars2` and `last` are what is in memory that `InitSim` does not initialise. -/
def initSim (bin : P → I) (slot : Addr I → ℕ → P) (cnumPars2 : I → ℕ) (last : I → Addr I) (particles : List P) :
    Option (State I (Fin G) P) :=
  (initPools slot particles.length).bind fun m =>
    (exec (fun s x => loadParticle bin s.1 s.2 x)
      (⟨m, false, fun array => if array then cnumPars2 else fun _ => 0, last, fun _ => none, fun _ => .idle []⟩, 0)
      particles).map Prod.fst

omit [DecidableEq I] in
theorem goToLast_eq {T : Type*} {m : Mem I T P} {l : List (Addr I)} (hl : Linked m.next l) : ∀ fuel k np, np ≤ fuel →
    0 < np → goToLast m fuel l[k]? np = (l[k + (np - 1) / 16]?, (np - 1) % 16 + 1)
  | 0, _, _, hle, hpos => absurd hpos (by omega)
  | fuel + 1, k, np, hle, hpos => by
    rw [goToLast]
    split_ifs with h16
    · have hnext : l[k]?.bind m.next = l[k + 1]? := by
        cases ha : l[k]? with
        | none =>
          rw [List.getElem?_eq_none_iff] at ha
          exact (List.getElem?_eq_none (by omega)).symm
        | some a => exact hl.next_eq ha
      rw [hnext, goToLast_eq hl fuel (k + 1) (np - 16) (by omega) (by omega),
        show k + 1 + (np - 16 - 1) / 16 = k + (np - 1) / 16 by omega,
        show (np - 16 - 1) % 16 = (np - 1) % 16 by omega]
    · rw [show k + (np - 1) / 16 = k by omega, show (np - 1) % 16 + 1 = np by omega]

/-- A pool that may allocate does not run out of structures. -/
theorem getcell_total {T : Type*} [DecidableEq T] {m : Mem I T P} {t : T} (hpos : ∀ u, 0 < m.alloc u) :
    ∃ a m', cellpoolGetcell m t = some (a, m') ∧ ∀ u, 0 < m'.alloc u := by
  cases hfree : m.free t with
  | none =>
    simp only [cellpoolGetcell, hfree, if_true, addBlock, cellpoolAllocblock, if_pos (hpos t), Option.map_some,
      Option.bind_some, Function.update_self]
    refine ⟨_, _, rfl, fun u => ?_⟩
    by_cases hu : u = t
    · subst hu
      simp only [Function.update_self]
      have := hpos u
      omega
    · simp only [Function.update_of_ne hu]
      exact hpos u
  | some a =>
    refine ⟨a, { m with free := Function.update m.free t (m.next a), next := Function.update m.next a none },
      ?_, hpos⟩
    simp only [cellpoolGetcell, hfree, if_neg (Option.some_ne_none a), Option.bind_some, Option.map_some]

/-! ### The lists that are loaded -/

/-- The particles that have been read are in the lists of their cells. -/
structure Loaded [Fintype I] (bin : P → I) (s : State I (Fin G) P) (lists : Place I (Fin G) → List (Addr I))
    (got : I → List P) (particles : List P) : Prop where
  settled : Settled s lists
  filled : Filled s lists got
  binned : ∀ i, ∀ x ∈ got i, bin x = i
  same : ∑ i, (got i : Multiset P) = particles
  alloc : ∀ t, 0 < s.mem.alloc t

section Loaded
variable [Fintype I] {bin : P → I} {s : State I (Fin G) P} {lists : Place I (Fin G) → List (Addr I)}
  {got : I → List P} {particles : List P}

omit [NeZero G] [Fintype I] in
theorem store_num (m : Mem I (Fin G) P) (index : I) (cell : Addr I) (np : ℕ) (x : P) :
    (store s m index cell np x).num = Function.update s.num index (s.num index + 1) := by
  funext i
  simp only [store, State.num, Function.update_self]
  rfl

omit [NeZero G] in
/-- A particle is written behind the others, when there is a structure for it. -/
theorem Loaded.store (h : Loaded bin s lists got particles) {x : P} {m : Mem I (Fin G) P}
    {lists' : Place I (Fin G) → List (Addr I)} {cell : Addr I} (owned : Owned m lists') (hslot : m.slot = s.mem.slot)
    (alloc : ∀ t, 0 < m.alloc t) (hother : ∀ i ≠ bin x, lists' (.dst i) = lists (.dst i))
    (hsrc : ∀ i, lists' (.src i) = lists (.src i)) {extra : List (Addr I)}
    (hself : lists' (.dst (bin x)) = lists (.dst (bin x)) ++ extra) (hextra : ∀ a ∈ extra, ∃ n, a = .pool n)
    (hlength : (lists' (.dst (bin x))).length = blocks (s.num (bin x) + 1))
    (hcell : (lists' (.dst (bin x)))[s.num (bin x) / 16]? = some cell) :
    Loaded bin (Fluid.store s m (bin x) cell (s.num (bin x) % 16) x) lists'
      (Function.update got (bin x) (got (bin x) ++ [x])) (particles ++ [x]) := by
  have hgrow : ∀ i, lists (.dst i) <+: lists' (.dst i) := by
    intro i
    by_cases hi : i = bin x
    · subst hi
      rw [hself]
      exact List.prefix_append ..
    · rw [hother i hi]
  refine ⟨⟨⟨owned.places, owned.free, owned.pooled, owned.all⟩, fun i => ?_, fun i => ?_, fun i => ?_⟩,
    ⟨fun i => ?_, fun i k y hy => ?_⟩, binned_concat h.binned, ?_, alloc⟩
  · by_cases hi : i = bin x
    · subst hi
      obtain ⟨l, hl, pool⟩ := h.settled.dst (bin x)
      refine ⟨l ++ extra, by rw [hself, hl]; rfl, fun a ha => ?_⟩
      exact (List.mem_append.1 ha).elim (pool a) (hextra a)
    · rw [hother i hi]
      exact h.settled.dst i
  · rw [hsrc]
    exact h.settled.src i
  · rw [store_num]
    by_cases hi : i = bin x
    · subst hi
      rw [hlength, Function.update_self]
    · rw [hother i hi, Function.update_of_ne hi]
      exact h.settled.length i
  · rw [store_num]
    by_cases hi : i = bin x
    · subst hi
      rw [Function.update_self, Function.update_self, List.length_append, h.filled.counted]
      rfl
    · rw [Function.update_of_ne hi, Function.update_of_ne hi]
      exact h.filled.counted i
  · rcases getElem?_concat_cases hy with hold | ⟨rfl, rfl, rfl⟩
    · -- its slot is not the one that is written to
      obtain ⟨a, ha, hslot'⟩ := h.filled.holds i k y hold
      refine ⟨a, getElem?_mono (hgrow i) ha, ?_⟩
      simp only [Fluid.store]
      rw [update_slot, if_neg, hslot]
      · exact hslot'
      · rintro ⟨rfl, hmod⟩
        obtain ⟨hd, hdiv⟩ := owned.places.getElem_inj (getElem?_mono (hgrow i) ha) hcell
        obtain rfl := Place.dst.inj hd
        have hk := (List.getElem?_eq_some_iff.1 hold).1
        rw [h.filled.counted] at hk
        omega
    · rw [h.filled.counted]
      refine ⟨cell, hcell, ?_⟩
      simp only [Fluid.store]
      rw [update_slot, if_pos ⟨rfl, rfl⟩]
  · rw [sum_concat, h.same]
    rfl

omit [DecidableEq I] [NeZero G] in
/-- The structure at the end of a list that has particles, and how many there are in it. -/
theorem Loaded.goToLast (h : Loaded bin s lists got particles) {i : I} (hpos : 0 < s.num i) : ∃ cell,
    (lists (.dst i))[(s.num i - 1) / 16]? = some cell ∧ (lists (.dst i)).getLast? = some cell ∧
      Fluid.goToLast s.mem (s.num i) (some (.head s.cells i)) (s.num i) = (some cell, (s.num i - 1) % 16 + 1) := by
  obtain ⟨l, hl, -⟩ := h.settled.dst i
  have hlength := h.settled.length i
  rw [blocks] at hlength
  have hlast : (s.num i - 1) / 16 = (lists (.dst i)).length - 1 := by omega
  have hget := List.getElem?_eq_getElem (l := lists (.dst i)) (i := (s.num i - 1) / 16) (by omega)
  have hhead : some (.head s.cells i) = (lists (.dst i))[0]? := by rw [hl]; rfl
  refine ⟨_, hget, ?_, ?_⟩
  · rw [List.getLast?_eq_getElem?, ← hlast, hget]
  · rw [hhead, goToLast_eq (h.settled.owned.places.linked (.dst i)) _ 0 _ (Nat.le_refl _) hpos, Nat.zero_add, hget]

theorem Loaded.loadParticle (h : Loaded bin s lists got particles) (poolId : Fin G) (x : P) : ∃ s' lists' got',
    Fluid.loadParticle bin s poolId x = some s' ∧ Loaded bin s'.1 lists' got' (particles ++ [x]) := by
  have hlength := h.settled.length (bin x)
  rcases Nat.eq_zero_or_pos (s.num (bin x)) with hnum | hpos
  · -- the first particle of the cell
    obtain ⟨l, hl, -⟩ := h.settled.dst (bin x)
    have hstore := h.store (x := x) h.settled.owned rfl h.alloc (fun _ _ => rfl) (fun _ => rfl)
      (List.append_nil _).symm (by simp) (by rw [hlength, hnum]; rfl) (by rw [hnum, hl]; rfl)
    refine ⟨(Fluid.store s s.mem (bin x) _ _ x, poolId), _, _, ?_, hstore⟩
    simp only [Fluid.loadParticle, hnum, Fluid.goToLast, ne_eq, not_true_eq_false, and_false, if_false, Nat.zero_mod]
  · obtain ⟨cell, hcell, hlast, hgo⟩ := h.goToLast hpos
    simp only [Fluid.loadParticle, hgo]
    rw [blocks] at hlength
    by_cases hfull : s.num (bin x) % 16 = 0
    · rw [if_pos ⟨by omega, by omega⟩, show (s.num (bin x) - 1) % 16 + 1 - 16 = s.num (bin x) % 16 by omega]
      obtain ⟨new, m, hm, alloc⟩ := getcell_total (t := poolId) h.alloc
      obtain ⟨l, hnew, hslot, owned⟩ := h.settled.owned.getcell hlast hm
      have hsrc : ∀ i, (Place.src i : Place I (Fin G)) ≠ .dst (bin x) := fun _ => by simp
      have hsrc' : ∀ i, (Place.src i : Place I (Fin G)) ≠ .free poolId := fun _ => by simp
      have hdst' : ∀ i, (Place.dst i : Place I (Fin G)) ≠ .free poolId := fun _ => by simp
      rw [hm, Option.map_some]
      refine ⟨_, _, _, rfl, h.store owned hslot alloc (fun i hi => ?_) (fun i => ?_) (Function.update_self ..)
        ?_ ?_ ?_⟩
      · rw [Function.update_of_ne fun heq => hi (Place.dst.inj heq), Function.update_of_ne (hdst' i)]
      · rw [Function.update_of_ne (hsrc i), Function.update_of_ne (hsrc' i)]
      · intro a ha
        rwa [List.mem_singleton.1 ha]
      · rw [Function.update_self, List.length_append, List.length_singleton, blocks]
        omega
      · rw [Function.update_self, show s.num (bin x) / 16 = (lists (.dst (bin x))).length by omega,
          List.getElem?_concat_length]
    · rw [if_neg fun hand => hfull (by omega), show (s.num (bin x) - 1) % 16 + 1 = s.num (bin x) % 16 by omega]
      refine ⟨_, _, _, rfl, h.store h.settled.owned rfl h.alloc (fun _ _ => rfl) (fun _ => rfl)
        (List.append_nil _).symm (by simp) ?_ ?_⟩
      · rw [blocks]
        omega
      · rwa [show s.num (bin x) / 16 = (s.num (bin x) - 1) / 16 by omega]

theorem Loaded.exec : ∀ (xs : List P) {s : State I (Fin G) P × Fin G} {lists : Place I (Fin G) → List (Addr I)}
    {got : I → List P} {particles : List P}, Loaded bin s.1 lists got particles → ∃ s' lists' got',
      Run.exec (fun s x => Fluid.loadParticle bin s.1 s.2 x) s xs = some s' ∧
        Loaded bin s'.1 lists' got' (particles ++ xs)
  | [], s, lists, got, particles, h => ⟨s, lists, got, rfl, by rwa [List.append_nil]⟩
  | x :: xs, s, lists, got, particles, h => by
    obtain ⟨s₁, lists₁, got₁, hs₁, h₁⟩ := h.loadParticle s.2 x
    obtain ⟨s', lists', got', hs', h'⟩ := Loaded.exec xs h₁
    exact ⟨s', lists', got', exec_cons_eq_some.2 ⟨s₁, hs₁, hs'⟩, by rwa [List.append_cons]⟩

end Loaded

/-! ### The pools -/

omit [DecidableEq I] [NeZero G] in
theorem cellpoolInit_total (m : Mem I (Fin G) P) (t : Fin G) {n : ℕ} (hn : 0 < n) : ∃ m' k,
    cellpoolInit m t n = some m' ∧ addBlock m t k k = some m' ∧ 0 < k ∧ m'.alloc = Function.update m.alloc t k := by
  have hpos : 0 < max 1024 (4 * (n / 16)) := by omega
  simp only [cellpoolInit, addBlock, cellpoolAllocblock, if_pos hn, if_pos hpos, Option.map_some]
  refine ⟨_, _, rfl, ?_, hpos, rfl⟩
  rw [if_pos hpos, Option.map_some]

omit [NeZero G] in
/-- A pool gets its first block while it has no structures. -/
theorem Owned.initPools {n : ℕ} (hn : 0 < n) : ∀ (ts : List (Fin G)) {m : Mem I (Fin G) P}
    {lists : Place I (Fin G) → List (Addr I)},
    Owned m lists → ts.Nodup → (∀ t ∈ ts, lists (.free t) = []) → (∀ t, t ∉ ts → 0 < m.alloc t) → ∃ m' lists',
      exec (fun m t => cellpoolInit m t n) m ts = some m' ∧ Owned m' lists' ∧
        (∀ i, lists' (.dst i) = lists (.dst i) ∧ lists' (.src i) = lists (.src i)) ∧ ∀ t, 0 < m'.alloc t
  | [], m, lists, h, _, _, hpos => ⟨m, lists, rfl, h, fun _ => ⟨rfl, rfl⟩, fun t => hpos t List.not_mem_nil⟩
  | t :: ts, m, lists, h, nodup, hnil, hpos => by
    rw [List.nodup_cons] at nodup
    obtain ⟨m₁, k, hm₁, hblock, hk, halloc⟩ := cellpoolInit_total m t hn
    have hfree : m.free t = none := by
      rw [h.free, hnil t (List.mem_cons_self ..)]
      rfl
    obtain ⟨l, h₁, -⟩ := h.addBlock hfree hblock
    have hnil₁ : ∀ u ∈ ts, Function.update lists (.free t) l (.free u) = [] := by
      intro u hu
      have hne : (Place.free u : Place I (Fin G)) ≠ .free t := fun heq => nodup.1 (Place.free.inj heq ▸ hu)
      rw [Function.update_of_ne hne]
      exact hnil u (List.mem_cons_of_mem _ hu)
    have hpos₁ : ∀ u, u ∉ ts → 0 < m₁.alloc u := by
      intro u hu
      rw [halloc]
      by_cases hut : u = t
      · subst hut
        rwa [Function.update_self]
      · rw [Function.update_of_ne hut]
        exact hpos u (by rw [List.mem_cons, not_or]; exact ⟨hut, hu⟩)
    obtain ⟨m', lists', hm', h', hlists, hpos'⟩ := Owned.initPools hn ts h₁ nodup.2 hnil₁ hpos₁
    refine ⟨m', lists', exec_cons_eq_some.2 ⟨m₁, hm₁, hm'⟩, h', fun i => ?_, hpos'⟩
    have hdst : (Place.dst i : Place I (Fin G)) ≠ .free t := nofun
    have hsrc : (Place.src i : Place I (Fin G)) ≠ .free t := nofun
    rw [(hlists i).1, (hlists i).2, Function.update_of_ne hdst, Function.update_of_ne hsrc]
    exact ⟨rfl, rfl⟩

omit [DecidableEq I] [NeZero G] in
/-- Before there are pools, the lists have the entries of the array only. -/
theorem owned_start (slot : Addr I → ℕ → P) :
    Owned (⟨fun _ => none, slot, fun _ => none, fun _ => 0, 0⟩ : Mem I (Fin G) P) (startLists false fun _ => []) := by
  refine ⟨⟨?_, ?_, ?_⟩, fun t => rfl, fun t => nofun, fun n => ⟨?_, nofun⟩⟩
  · rintro (t | i | i)
    · trivial
    · exact ⟨rfl, trivial⟩
    · trivial
  · rintro (t | i | i)
    · exact List.nodup_nil
    · exact List.nodup_singleton _
    · exact List.nodup_nil
  · rintro (t | i | i) (t' | i' | i') a ha ha'
    all_goals first | cases ha; done | cases ha'; done | skip
    rw [(Addr.head.inj ((List.mem_singleton.1 ha).symm.trans (List.mem_singleton.1 ha'))).2]
  · rintro ⟨t | i | i, hn⟩
    · cases hn
    · cases List.mem_singleton.1 hn
    · cases hn

/-- `InitSim` reads every input file that has a particle for each pool, and afterwards the lists have the particles of
    the file. -/
theorem initSim_loaded [Fintype I] (bin : P → I) (slot : Addr I → ℕ → P) (cnumPars2 : I → ℕ) (last : I → Addr I)
    {particles : List P} (hlen : G ≤ particles.length) : ∃ (s : State I (Fin G) P) (lists : _) (got : _),
      initSim bin slot cnumPars2 last particles = some s ∧ Loaded bin s lists got particles := by
  obtain ⟨m, lists, hm, owned, hlists, hpos⟩ := Owned.initPools (Nat.div_pos hlen (Nat.pos_of_neZero G))
    (List.finRange G) (owned_start slot) (List.nodup_finRange G) (fun _ _ => rfl)
    fun t ht => absurd (List.mem_finRange t) ht
  have hstart : Loaded bin (⟨m, false, fun array => if array then cnumPars2 else fun _ => 0, last, fun _ => none,
      fun _ => .idle []⟩ : State I (Fin G) P) lists (fun _ => []) [] := by
    refine ⟨⟨owned, fun i => ⟨[], (hlists i).1, nofun⟩, fun i => (hlists i).2, fun i => ?_⟩,
      ⟨fun i => rfl, fun i => nofun⟩, fun i => nofun, ?_, hpos⟩
    · rw [(hlists i).1]
      simp only [State.num, Bool.false_eq_true, if_false]
      rfl
    · simp
  obtain ⟨s, lists', got, hs, h⟩ := Loaded.exec (s := (_, 0)) particles hstart
  refine ⟨s.1, lists', got, ?_, h⟩
  rw [initSim, initPools, hm, Option.bind_some, hs, Option.map_some]

/-- A file with fewer particles fails the assertion of the first pool. -/
theorem le_of_initSim {bin : P → I} {slot : Addr I → ℕ → P} {cnumPars2 : I → ℕ} {last : I → Addr I}
    {particles : List P} {s : State I (Fin G) P} (hs : initSim bin slot cnumPars2 last particles = some s) :
    G ≤ particles.length := by
  by_contra hlen
  have hnone : initPools (G := G) slot particles.length = none := by
    obtain ⟨n, rfl⟩ := Nat.exists_eq_succ_of_ne_zero (NeZero.ne G)
    rw [initPools, List.finRange_succ, exec, cellpoolInit, Nat.div_eq_of_lt (not_le.1 hlen), if_neg (lt_irrefl 0),
      Option.bind_none]
  rw [initSim, hnone, Option.bind_none] at hs
  cases hs

theorem loaded_of_initSim [Fintype I] {bin : P → I} {slot : Addr I → ℕ → P} {cnumPars2 : I → ℕ} {last : I → Addr I}
    {particles : List P} {s : State I (Fin G) P} (hs : initSim bin slot cnumPars2 last particles = some s) :
    ∃ lists got, Loaded bin s lists got particles := by
  obtain ⟨s₀, lists, got, hs₀, h⟩ := initSim_loaded (G := G) bin slot cnumPars2 last (le_of_initSim hs)
  obtain rfl := Option.some.inj (hs₀.symm.trans hs)
  exact ⟨lists, got, h⟩

end Load

/-! ### The simulation -/

section Simulation
variable {V : Type*} {nx ny nz G : ℕ} [NeZero nx] [NeZero ny] [NeZero nz] [NeZero G]

structure Particle (V : Type*) where
  p : V
  hv : V
  v : V

/-- The cell of a particle. `coord` are the coordinates `ck`, `cj` and `ci` that a position has before they are
    confined to the domain. -/
def cellOf (coord : V → ℤ × ℤ × ℤ) (x : Particle V) : Index nx ny nz := confineCell (coord x.p)

/-- How a frame rebuilds the grid: `RebuildGrid` with one of the pools, or `RebuildGridMT` with all of them. -/
inductive Rebuild (G : ℕ) where
  | serial (k : Fin G)
  | parallel

def Rebuild.mode (grids : Grids nx ny nz (Fin G)) : Rebuild G → Mode (Index nx ny nz) (Fin G)
  | .serial k => serialMode k
  | .parallel => grids.mode

/-- The states between two frames. -/
inductive Reachable (coord : V → ℤ × ℤ × ℤ) (grids : Grids nx ny nz (Fin G)) :
    State (Index nx ny nz) (Fin G) (Particle V) → Prop
  | init {slot cnumPars2 last particles s} : initSim (cellOf coord) slot cnumPars2 last particles = some s →
      Reachable coord grids s
  | frame {s s' slot} {r : Rebuild G} : Reachable coord grids s →
      Frame (cellOf coord) (r.mode grids) (s.advance slot) s' → Reachable coord grids s'

theorem Settled.advance {I T P : Type*} {s : State I T P} {lists : Place I T → List (Addr I)} (h : Settled s lists)
    (slot : Addr I → ℕ → P) : Settled (s.advance slot) lists :=
  ⟨⟨h.owned.places, h.owned.free, h.owned.pooled, h.owned.all⟩, h.dst, h.src, h.length⟩

variable {coord : V → ℤ × ℤ × ℤ} {grids : Grids nx ny nz (Fin G)} {s s' : State (Index nx ny nz) (Fin G) (Particle V)}

theorem Reachable.settled (h : Reachable coord grids s) : ∃ lists, Settled s lists := by
  induction h with
  | init hs =>
    obtain ⟨lists, got, h⟩ := loaded_of_initSim hs
    exact ⟨lists, h.settled⟩
  | frame _ hf ih =>
    obtain ⟨lists, h⟩ := ih
    obtain ⟨lists', h', -⟩ := hf.conserved (h.advance _)
    exact ⟨lists', h'⟩

/-- CORRECT: every frame of every run keeps the particles, puts each into the list of its cell, and leaves every
    structure of the pools in exactly one list. -/
theorem frames_conserved (hs : Reachable coord grids s) (r : Rebuild G)
    (slot : Addr (Index nx ny nz) → ℕ → Particle V)
    (hf : Frame (cellOf coord) (r.mode grids) (s.advance slot) s') : ∃ before after lists,
      Conserved (cellOf coord) (s.advance slot) s' before after lists := by
  obtain ⟨lists, h⟩ := hs.settled
  obtain ⟨lists', -, before, after, hc⟩ := hf.conserved (h.advance slot)
  exact ⟨before, after, _, hc⟩

/-- The cut between two cells. -/
def halves : Cuts 2 2 := Cuts.round 2 2 Nat.two_pos (by decide)

scoped instance neZero_cells : NeZero 2 := ⟨by decide⟩

scoped instance neZero_grids : NeZero (2 * 1) := ⟨by decide⟩

/-- Two grids of one cell each. -/
def twoGrids : Grids 2 1 1 (Fin (2 * 1)) :=
  initGrids 1 halves (Cuts.round 1 1 Nat.one_pos (by decide))

/-- A file with 17 particles in the first cell; the last one needs a structure of a pool. -/
def seventeen : Option (State (Index 2 1 1) (Fin (2 * 1)) (Particle (ℤ × ℤ × ℤ))) :=
  initSim (cellOf id) (fun _ _ => ⟨0, 0, 0⟩) (fun _ => 7) (.head true)
    ((List.range 17).map fun k => ⟨0, (k, 0, 0), 0⟩)

theorem isSome_seventeen : seventeen.isSome = true := by decide +kernel

/-- The frame in which they go to the second cell; thread 1, which has nothing to read, is done first. -/
def seventeenMoved : Option (State (Index 2 1 1) (Fin (2 * 1)) (Particle (ℤ × ℤ × ℤ))) :=
  exec (step (cellOf id) (Rebuild.parallel.mode twoGrids))
    (beginFrame (Rebuild.parallel.mode twoGrids) [(0, 0, 1), (0, 0, 0)]
      ((seventeen.get isSome_seventeen).advance fun _ k => ⟨(0, 0, 1), (k, 0, 0), 0⟩))
    (1 :: 1 :: List.replicate 87 0)

theorem isSome_seventeenMoved : seventeenMoved.isSome = true := by decide +kernel

theorem frames_conserved_seventeen : ∃ s slot s', Reachable id twoGrids s ∧
    Frame (cellOf id) (Rebuild.parallel.mode twoGrids) (s.advance slot) s' ∧ s'.num (0, 0, 1) = 17 ∧
      ∃ before after lists, Conserved (cellOf id) (s.advance slot) s' before after lists := by
  have hs : Reachable id twoGrids (seventeen.get isSome_seventeen) := .init (Option.some_get _).symm
  have hf : Frame (cellOf id) (Rebuild.parallel.mode twoGrids) ((seventeen.get isSome_seventeen).advance _)
      (seventeenMoved.get isSome_seventeenMoved) :=
    ⟨[(0, 0, 1), (0, 0, 0)], 1 :: 1 :: List.replicate 87 0, by decide, (Option.some_get _).symm, by decide +kernel⟩
  exact ⟨_, _, _, hs, hf, by decide +kernel, frames_conserved hs .parallel _ hf⟩

end Simulation

end Turkey.Fluid
