import Turkey.Streamcluster.Handshake

/-! The threads of `pspeedy` between two barriers. All of them are in the same stage of the same call, and it is
    thread 0 that opens a center while the others wait for it. Nobody waits when the flag is set without a thread to
    wake them: thread 0 can only set it when no thread is about to sleep, and then it calls all that do. -/

namespace Turkey.Handshake
open Turkey.ParallelFor Turkey.Pgain Turkey.Monitor Turkey.Run

/-- What all threads are doing, and for which point. -/
inductive Stage where
  | rest
  | seed
  | choose (j : ℕ)
  | offer (j : ℕ)
  | clear (j : ℕ)
  | finish
  | sum
  | collect

/-- The threads other than thread 0 wait for the flag or have seen it. -/
def Stage.Calling : Stage → Prop
  | .choose _ | .offer _ | .finish => True
  | _ => False

/-- Thread 0 says that it has opened a center or that there are no more points. -/
def Stage.Announces (last : Bool) : Stage → Prop
  | .offer _ => last = false
  | .finish => last = true
  | _ => False

/-- The barriers of a call before a stage, but for those of the centers that have been opened. -/
def Stage.barriers : Stage → ℕ
  | .rest | .offer _ => 0
  | .seed | .clear _ => 1
  | .choose _ | .finish => 2
  | .sum => 3
  | .collect => 4

section Model
variable {K : Type} [Field K] [LinearOrder K] (c : Calls K)

/-- Where thread `t` can be in a stage of call `m`, with the flag as it is. -/
inductive At (m : ℕ) (t : Fin c.nproc) (isOpen : Bool) : Stage → Pc → Prop where
  | enter : isOpen = false → m < c.calls → At m t isOpen .rest .enter
  | leave : isOpen = false → 0 < m → m ≤ c.calls → At m t isOpen .rest .leave
  | done : isOpen = false → m = c.calls → At m t isOpen .rest .done
  | init {k : ℕ} : isOpen = false → c.blocks.k1 t ≤ k → k ≤ c.blocks.k2 t → At m t isOpen .seed (.init k)
  | start : isOpen = false → At m t isOpen .seed .start
  | lock {g : Stage} : t.val ≠ 0 → g.Calling → At m t isOpen g .lock
  | test {g : Stage} : t.val ≠ 0 → g.Calling → At m t isOpen g .test
  | sleep {g : Stage} : t.val ≠ 0 → g.Calling → isOpen = false → At m t isOpen g .sleep
  | unlock {g : Stage} : t.val ≠ 0 → g.Calling → isOpen = true → At m t isOpen g .unlock
  | check {g : Stage} : t.val ≠ 0 → g.Calling → isOpen = true → At m t isOpen g .check
  | first : t.val = 0 → isOpen = false → At m t isOpen (.choose 1) .first
  | decide {j : ℕ} : t.val = 0 → isOpen = false → At m t isOpen (.choose j) .decide
  | advance {j : ℕ} : t.val = 0 → isOpen = false → At m t isOpen (.choose j) .advance
  | raise {g : Stage} {last : Bool} : t.val = 0 → g.Announces last → isOpen = false → At m t isOpen g (.raise last)
  | offer {g : Stage} {last : Bool} : t.val = 0 → g.Announces last → isOpen = false → At m t isOpen g (.offer last)
  | release {g : Stage} {last : Bool} : t.val = 0 → g.Announces last → isOpen = true → At m t isOpen g (.release last)
  | signal {g : Stage} {last : Bool} : t.val = 0 → g.Announces last → isOpen = true → At m t isOpen g (.signal last)
  | update {j k : ℕ} : isOpen = true → c.blocks.k1 t ≤ k → k ≤ c.blocks.k2 t → At m t isOpen (.offer j) (.update k)
  | applied {j : ℕ} : isOpen = true → At m t isOpen (.offer j) .applied
  | clear {j : ℕ} : t.val = 0 → At m t isOpen (.clear j) .clear
  | cleared {j : ℕ} : (t.val = 0 → isOpen = false) → At m t isOpen (.clear j) .cleared
  | gathered : isOpen = true → At m t isOpen .finish .gathered
  | reset : At m t isOpen .sum .reset
  | sum : isOpen = false → At m t isOpen .sum .sum
  | summed : isOpen = false → At m t isOpen .sum .summed
  | collect : t.val = 0 → isOpen = false → At m t isOpen .collect .collect
  | collected : isOpen = false → At m t isOpen .collect .collected

/-- How far a thread is in its block. -/
def reach (t : Fin c.nproc) : Pc → ℕ
  | .init k | .update k => k
  | .start | .applied => c.blocks.k2 t
  | _ => c.blocks.k1 t

/-- In every block the first points are the new ones already. -/
structure Mixed (old new p : ℕ → Point K) (pc : Fin c.nproc → Pc) : Prop where
  done : ∀ t : Fin c.nproc, ∀ k ∈ c.blocks.block t, k < reach c t (pc t) → p k = new k
  todo : ∀ t : Fin c.nproc, ∀ k ∈ c.blocks.block t, reach c t (pc t) ≤ k → p k = old k
  rest : ∀ k, c.blocks.num ≤ k → p k = old k

/-- The points and the centers are those of one thread, and so is what has been done with them. -/
structure Agrees (a : Memory c.nproc K) (s : State K) (is : List ℕ) : Prop where
  p : a.p = s.p
  kcenter : a.kcenter = s.numcenters
  opened : a.opened = is
  log : ∀ t, a.log t = iterations c t is

def zero : Fin c.nproc := ⟨0, c.blocks.pos⟩

/-- The centers that are opened up to point `i` of call `m`. -/
def openedUpTo (m i : ℕ) : List ℕ := openedBefore c m ++ openedIn c m i

/-- The points have their first center, but for the rest of each block. -/
structure Seeding (m : ℕ) (a : Memory c.nproc K) (pc : Fin c.nproc → Pc) : Prop where
  mixed : Mixed c (before c m).p (firstCenter c.blocks.serial c.dim (before c m)).p a.p pc
  kcenter : pc (zero c) = .start → a.kcenter = 1
  opened : a.opened = openedBefore c m
  log : ∀ t, a.log t = iterations c t (openedBefore c m)

/-- Thread 0 is at point `j`. -/
structure Choosing (m j : ℕ) (a : Memory c.nproc K) (pc : Fin c.nproc → Pc) : Prop where
  agrees : Agrees c a (upTo c m j) (openedUpTo c m j)
  one_le : 1 ≤ j
  le_max : j ≤ max 1 c.blocks.num
  decide : pc (zero c) = .decide → a.i = j
  advance : pc (zero c) = .advance → a.i + 1 = j

/-- A center is opened at point `j`. -/
structure Offering (m j : ℕ) (a : Memory c.nproc K) (pc : Fin c.nproc → Pc) : Prop where
  i : a.i = j
  one_le : 1 ≤ j
  lt : j < c.blocks.num
  mixed : Mixed c (upTo c m j).p (upTo c m (j + 1)).p a.p pc
  opens : OpensAt c m j
  kcenter : a.kcenter = (upTo c m (j + 1)).numcenters
  opened : a.opened = openedUpTo c m (j + 1)
  log : ∀ t, a.log t = iterations c t (openedUpTo c m j) ++
    (List.range' (c.blocks.k1 t) (reach c t (pc t) - c.blocks.k1 t)).map fun k => (k, j)

/-- What is in the memory in a stage. -/
def Data (m : ℕ) (a : Memory c.nproc K) (pc : Fin c.nproc → Pc) : Stage → Prop
  | .rest => Agrees c a (before c m) (openedBefore c m) ∧ (0 < m → a.totalcost = result c (m - 1))
  | .seed => Seeding c m a pc
  | .choose j => Choosing c m j a pc
  | .offer j => Offering c m j a pc
  | .clear j => Agrees c a (upTo c m (j + 1)) (openedUpTo c m (j + 1)) ∧ 1 ≤ j ∧ j < c.blocks.num ∧ a.i = j
  | .finish => Agrees c a (before c (m + 1)) (openedBefore c (m + 1)) ∧ c.blocks.num ≤ a.i
  | .sum => Agrees c a (before c (m + 1)) (openedBefore c (m + 1)) ∧
    ∀ t, pc t = .summed → a.costs t = ((c.blocks.block t).map fun k => (a.p k).cost).sum
  | .collect => Agrees c a (before c (m + 1)) (openedBefore c (m + 1)) ∧
    (∀ t : Fin c.nproc, a.costs t = ((c.blocks.block t).map fun k => (a.p k).cost).sum) ∧
    (pc (zero c) = .collected → a.totalcost = result c m)

/-- Thread 0 is about to call the threads that sleep. -/
def Announced (p : Pc) : Prop := ∃ last, p = .release last ∨ p = .signal last

/-- Invariant: all threads are in stage `g` of call `m`. -/
structure Inv (m : ℕ) (g : Stage) (s : Sys c.nproc (Memory c.nproc K) Pc) : Prop where
  place : ∀ t, At c m t s.mem.isOpen g (s.thread t).pc
  bound : g ≠ .rest → m < c.calls
  awake : ∀ t, (s.thread t).mode = .asleep → s.mem.isOpen = true → Announced (s.thread (zero c)).pc
  waits : ∀ t, s.waits t = 5 * m + 2 * s.mem.opened.length + g.barriers + if (s.thread t).mode = .arrived then 1
    else 0
  results : ∀ t, s.mem.results t = (List.range (m - if (s.thread t).pc = .leave then 1 else 0)).map (result c)
  data : Data c m s.mem (fun t => (s.thread t).pc) g

end Model

/-! ### Blocks that are partly done -/

section Mixed
variable {K : Type} [Field K] [LinearOrder K] {c : Calls K} {old new p p' : ℕ → Point K} {pc pc' : Fin c.nproc → Pc}

omit [LinearOrder K] [Field K] in
theorem Mixed.init (h : ∀ t, reach c t (pc t) = c.blocks.k1 t) : Mixed c p new p pc := by
  refine ⟨fun t k hk hlt => ?_, fun _ _ _ _ => rfl, fun _ _ => rfl⟩
  rw [h t] at hlt
  exact absurd (Blocks.mem_block.1 hk).1 (Nat.not_le.2 hlt)

omit [LinearOrder K] [Field K] in
theorem Mixed.eq_new (h : Mixed c old new p pc) (hreach : ∀ t, reach c t (pc t) = c.blocks.k2 t)
    (hrest : ∀ k, c.blocks.num ≤ k → new k = old k) : p = new := by
  funext k
  rcases Nat.lt_or_ge k c.blocks.num with hk | hk
  · obtain ⟨pid, hpid, hblock⟩ := Blocks.exists_block hk
    refine h.done ⟨pid, hpid⟩ k hblock ?_
    rw [hreach]
    exact (Blocks.mem_block.1 hblock).2
  · rw [h.rest k hk, hrest k hk]

omit [LinearOrder K] [Field K] in
theorem Mixed.congr (h : Mixed c old new p pc) (hreach : ∀ t, reach c t (pc' t) = reach c t (pc t)) :
    Mixed c old new p pc' := by
  refine ⟨fun t k hk hlt => ?_, fun t k hk hle => ?_, h.rest⟩
  · rw [hreach] at hlt
    exact h.done t k hk hlt
  · rw [hreach] at hle
    exact h.todo t k hk hle

omit [LinearOrder K] [Field K] in
/-- One more point of a block. -/
theorem Mixed.next (h : Mixed c old new p pc) {t : Fin c.nproc} {k : ℕ} {x : Pc} (hk : k ∈ c.blocks.block t)
    (hpc : reach c t (pc t) = k) (hx : reach c t x = k + 1) (hnew : p' k = new k) (hother : ∀ j ≠ k, p' j = p j) :
    Mixed c old new p' (Function.update pc t x) := by
  have hblock : ∀ {u : Fin c.nproc}, k ∈ c.blocks.block u → u = t := fun hu =>
    Fin.ext (Blocks.block_inj (Fin.isLt _) t.isLt hu hk)
  refine ⟨fun u j hj hlt => ?_, fun u j hj hle => ?_, fun j hj => ?_⟩
  · rcases eq_or_ne j k with rfl | hjk
    · exact hnew
    · rw [hother j hjk]
      refine h.done u j hj ?_
      rcases eq_or_ne u t with rfl | hut
      · rw [Function.update_self, hx] at hlt
        rw [hpc]
        omega
      · rwa [Function.update_of_ne hut] at hlt
  · rcases eq_or_ne u t with rfl | hut
    · rw [Function.update_self, hx] at hle
      rw [hother j (by omega)]
      refine h.todo u j hj ?_
      rw [hpc]
      omega
    · rw [Function.update_of_ne hut] at hle
      rw [hother j fun hjk => hut (hblock (hjk ▸ hj))]
      exact h.todo u j hj hle
  · have hlt := Blocks.lt_num t.isLt hk
    rw [hother j (by omega)]
    exact h.rest j hj

end Mixed

/-! ### Where the threads are -/

section At
variable {K : Type} [Field K] [LinearOrder K] {c : Calls K} {m : ℕ} {t : Fin c.nproc} {isOpen : Bool}
    {g g' : Stage} {p : Pc}

omit [LinearOrder K] [Field K] in
/-- A thread that waits for the flag while no center is opened. -/
theorem At.reach_choose {j : ℕ} (h : At c m t isOpen (.choose j) p) (ht : t.val ≠ 0) : reach c t p =
    c.blocks.k1 t := by
  cases h with
  | first h0 | decide h0 | advance h0 => exact absurd h0 ht
  | raise h0 _ _ | offer h0 _ _ | release h0 _ _ | signal h0 _ _ => exact absurd h0 ht
  | _ => rfl

omit [LinearOrder K] [Field K] in
/-- Thread 0 has made its decision, the others go on waiting. -/
theorem At.choose {j : ℕ} (h : At c m t false (.choose j) p) (ht : t.val ≠ 0) (hg : g.Calling) :
    At c m t false g p := by
  cases h with
  | first h0 | decide h0 | advance h0 => exact absurd h0 ht
  | raise h0 _ _ | offer h0 _ _ | release h0 _ _ | signal h0 _ _ => exact absurd h0 ht
  | lock _ _ => exact .lock ht hg
  | test _ _ => exact .test ht hg
  | sleep _ _ hopen => exact .sleep ht hg hopen
  | unlock _ _ hopen | check _ _ hopen => exact absurd hopen Bool.false_ne_true

omit [LinearOrder K] [Field K] in
/-- Thread 0 has set the flag. -/
theorem At.setOpen {last : Bool} (h : At c m t false g p) (ht : t.val ≠ 0) (hg : g.Announces last) (hp : p ≠ .sleep) :
    At c m t true g p := by
  cases h with
  | lock _ hg' => exact .lock ht hg'
  | test _ hg' => exact .test ht hg'
  | sleep => exact absurd rfl hp
  | raise h0 _ _ | offer h0 _ _ => exact absurd h0 ht
  | _ => simp [Stage.Announces] at *

omit [LinearOrder K] [Field K] in
theorem At.ne_leave (h : At c m t isOpen g p) (hg : g ≠ .rest) : p ≠ .leave := by
  rintro rfl
  cases h
  exact hg rfl

end At

/-! ### Steps -/

section Steps
variable {K : Type} [Field K] [LinearOrder K] {c : Calls K} {m : ℕ} {g g' : Stage}
  {s s' : Sys c.nproc (Memory c.nproc K) Pc} {t : Fin c.nproc}

omit [LinearOrder K] [Field K] in
theorem pcs_goto (s : Sys c.nproc (Memory c.nproc K) Pc) (t : Fin c.nproc) (p : Pc) :
    (fun u => ((s.goto t p).thread u).pc) = Function.update (fun u => (s.thread u).pc) t p := by
  funext u
  rcases eq_or_ne u t with rfl | hne
  · simp [Sys.goto]
  · simp [Sys.goto, Function.update_of_ne hne]

/-- In a stage of a call, a step to another place. -/
theorem Inv.goto (h : Inv c m g s) (hg : g ≠ .rest) (hg' : g' ≠ .rest) {p : Pc} {a : Memory c.nproc K}
    {holder : Option (Fin c.nproc)} (hmode : (s.thread t).mode ≠ .arrived) (hplace : At c m t a.isOpen g' p)
    (hothers : ∀ u ≠ t, At c m u a.isOpen g' (s.thread u).pc)
    (hawake : ∀ u ≠ t, (s.thread u).mode = .asleep → a.isOpen = true →
      Announced (if zero c = t then p else (s.thread (zero c)).pc))
    (hwaits : 2 * a.opened.length + g'.barriers = 2 * s.mem.opened.length + g.barriers)
    (hresults : a.results = s.mem.results) (hdata : Data c m a (Function.update (fun u => (s.thread u).pc) t p) g') :
    Inv c m g' (Sys.goto { s with mem := a, holder := holder } t p) := by
  have hplaces : ∀ u, At c m u a.isOpen g' ((Sys.goto { s with mem := a, holder := holder } t p).thread u).pc := by
    intro u
    rcases eq_or_ne u t with rfl | hne
    · simpa [Sys.goto] using hplace
    · simpa [Sys.goto, Function.update_of_ne hne] using hothers u hne
  refine ⟨hplaces, fun _ => h.bound hg, fun u hasleep hopen => ?_, fun u => ?_, fun u => ?_, ?_⟩
  · rcases eq_or_ne u t with rfl | hne
    · simp [Sys.goto] at hasleep
    · have hzero := hawake u hne (by simpa [Sys.goto, Function.update_of_ne hne] using hasleep) hopen
      rcases eq_or_ne (zero c) t with rfl | hzt
      · simpa [Sys.goto] using hzero
      · simpa [Sys.goto, Function.update_of_ne hzt, hzt] using hzero
  · have hu := h.waits u
    rcases eq_or_ne u t with rfl | hne
    · simp only [Sys.goto, Function.update_self, if_neg hmode] at hu ⊢
      simp
      omega
    · simp only [Sys.goto, Function.update_of_ne hne]
      omega
  · rw [if_neg ((hplaces u).ne_leave hg')]
    have hu := h.results u
    rw [if_neg ((h.place u).ne_leave hg)] at hu
    exact (congrFun hresults u).trans hu
  · rw [pcs_goto]
    exact hdata

/-- Nothing happens but that threads come to the barrier or wake up. -/
theorem Inv.samePlaces (h : Inv c m g s) (hmem : s'.mem = s.mem) (hpc : ∀ u, (s'.thread u).pc = (s.thread u).pc)
    (hasleep : ∀ u, (s'.thread u).mode = .asleep → (s.thread u).mode = .asleep)
    (hwaits : ∀ u, s'.waits u + (if (s.thread u).mode = .arrived then 1 else 0) =
      s.waits u + if (s'.thread u).mode = .arrived then 1 else 0) : Inv c m g s' := by
  refine ⟨fun u => ?_, h.bound, fun u hu hopen => ?_, fun u => ?_, fun u => ?_, ?_⟩
  · rw [hpc, hmem]
    exact h.place u
  · rw [hpc]
    exact h.awake u (hasleep u hu) (hmem ▸ hopen)
  · have hu := h.waits u
    have hu' := hwaits u
    rw [hmem]
    omega
  · rw [hpc, hmem]
    exact h.results u
  · simp only [hpc, hmem]
    exact h.data

theorem Inv.announced (h : Inv c m g s) {p : Pc} (hp : Announced (s.thread t).pc → Announced p) (u : Fin c.nproc)
    (hasleep : (s.thread u).mode = .asleep) (hopen : s.mem.isOpen = true) :
    Announced (if zero c = t then p else (s.thread (zero c)).pc) := by
  have hzero := h.awake u hasleep hopen
  split_ifs with heq
  · exact hp (heq ▸ hzero)
  · exact hzero

/-- While thread 0 opens a center or ends the loop, and the others wait for it, the points stay as they are. -/
theorem Data.still {a : Memory c.nproc K} {pc : Fin c.nproc → Pc} (h : Data c m a pc g) (hg : g.Calling) {p : Pc}
    (hzero : t = zero c → ∀ j, g ≠ .choose j) (hreach : reach c t p = reach c t (pc t)) :
    Data c m a (Function.update pc t p) g := by
  have hsame : ∀ u, reach c u (Function.update pc t p u) = reach c u (pc u) := by
    intro u
    rcases eq_or_ne u t with rfl | hne
    · rwa [Function.update_self]
    · rw [Function.update_of_ne hne]
  cases g with
  | choose j =>
    have hne : zero c ≠ t := fun heq => hzero heq.symm j rfl
    have h : Choosing c m j a pc := h
    refine Choosing.mk h.agrees h.one_le h.le_max ?_ ?_
    · rw [Function.update_of_ne hne]
      exact h.decide
    · rw [Function.update_of_ne hne]
      exact h.advance
  | offer j =>
    have h : Offering c m j a pc := h
    refine Offering.mk h.i h.one_le h.lt (h.mixed.congr hsame) h.opens h.kcenter h.opened fun u => ?_
    rw [hsame]
    exact h.log u
  | finish => exact h
  | _ => exact absurd hg id

omit [Field K] [LinearOrder K] in
theorem Agrees.setOpen {a : Memory c.nproc K} {st : State K} {is : List ℕ} (h : Agrees c a st is) (isOpen : Bool) :
    Agrees c { a with isOpen := isOpen } st is := ⟨h.p, h.kcenter, h.opened, h.log⟩

theorem Data.setOpen {a : Memory c.nproc K} {pc : Fin c.nproc → Pc} (h : Data c m a pc g) (isOpen : Bool) :
    Data c m { a with isOpen := isOpen } pc g := by
  cases g with
  | rest | clear j | finish | sum | collect => exact ⟨h.1.setOpen isOpen, h.2⟩
  | seed =>
    have h : Seeding c m a pc := h
    exact Seeding.mk h.mixed h.kcenter h.opened h.log
  | choose j =>
    have h : Choosing c m j a pc := h
    exact Choosing.mk (h.agrees.setOpen isOpen) h.one_le h.le_max h.decide h.advance
  | offer j =>
    have h : Offering c m j a pc := h
    exact Offering.mk h.i h.one_le h.lt h.mixed h.opens h.kcenter h.opened h.log

theorem Stage.Calling.ne_rest (hg : g.Calling) : g ≠ .rest := by
  rintro rfl
  exact hg

/-- A step that leaves the memory as it is, while the others wait for thread 0. -/
theorem Inv.still (h : Inv c m g s) (hg : g.Calling) {p : Pc} {holder : Option (Fin c.nproc)}
    (hmode : (s.thread t).mode = .running) (hplace : At c m t s.mem.isOpen g p)
    (hawake : Announced (s.thread t).pc → Announced p) (hzero : t.val = 0 → ∀ j, g ≠ .choose j)
    (hreach : reach c t p = reach c t (s.thread t).pc) : Inv c m g (Sys.goto { s with holder := holder } t p) := by
  refine h.goto hg.ne_rest hg.ne_rest (by simp [hmode]) hplace (fun u _ => h.place u)
    (fun u _ => h.announced hawake u)
    rfl rfl (h.data.still hg (fun heq => hzero ?_) hreach)
  rw [heq]
  rfl

theorem Inv.closed {j : ℕ} (h : Inv c m (.choose j) s) : s.mem.isOpen = false := by
  have hat := h.place (zero c)
  generalize (s.thread (zero c)).pc = p at hat
  cases hat with
  | lock h0 _ | test h0 _ | sleep h0 _ _ | unlock h0 _ _ | check h0 _ _ => exact absurd rfl h0
  | first _ hopen | decide _ hopen | advance _ hopen => exact hopen
  | raise _ hg _ | offer _ hg _ | release _ hg _ | signal _ hg _ => exact hg.elim

theorem Stage.Announces.calling {last : Bool} (hg : g.Announces last) : g.Calling := by
  cases g <;> trivial

/-! The other threads wait for the flag. -/

theorem Inv.lock (h : Inv c m g s) (hmode : (s.thread t).mode = .running) (hpc : (s.thread t).pc = .lock) :
    Inv c m g (Sys.goto { s with holder := some t } t .test) := by
  have hat := h.place t
  rw [hpc] at hat
  cases hat with
  | lock h0 hg =>
    exact h.still hg hmode (.test h0 hg) (by simp [hpc, Announced]) (fun heq => absurd heq h0) (by simp [hpc, reach])

theorem Inv.test (h : Inv c m g s) (hmode : (s.thread t).mode = .running) (hpc : (s.thread t).pc = .test) :
    Inv c m g (s.goto t (if s.mem.isOpen then .unlock else .sleep)) := by
  have hat := h.place t
  rw [hpc] at hat
  cases hat with
  | test h0 hg =>
    by_cases hopen : s.mem.isOpen = true
    · rw [if_pos hopen]
      exact h.still hg hmode (.unlock h0 hg hopen) (by simp [hpc, Announced]) (fun heq => absurd heq h0)
        (by simp [hpc, reach])
    · rw [if_neg hopen]
      exact h.still hg hmode (.sleep h0 hg (by simpa using hopen)) (by simp [hpc, Announced])
        (fun heq => absurd heq h0)
        (by simp [hpc, reach])

/-- The thread only sleeps while the flag is not set. -/
theorem Inv.sleep (h : Inv c m g s) (hpc : (s.thread t).pc = .sleep) (hmode : (s.thread t).mode = .running) :
    Inv c m g { s with thread := Function.update s.thread t ⟨.test, .asleep⟩, holder := none } := by
  have hat := h.place t
  rw [hpc] at hat
  cases hat with
  | sleep h0 hg hopen =>
    have hgoto : Inv c m g (Sys.goto { s with holder := none } t .test) :=
      h.still hg hmode (.test h0 hg) (by simp [hpc, Announced]) (fun heq => absurd heq h0) (by simp [hpc, reach])
    have hpcs : ∀ u, (Function.update s.thread t ⟨.test, .asleep⟩ u).pc =
        (Function.update s.thread t ⟨.test, .running⟩ u).pc := by
      intro u
      rcases eq_or_ne u t with rfl | hne
      · rw [Function.update_self, Function.update_self]
      · rw [Function.update_of_ne hne, Function.update_of_ne hne]
    refine ⟨fun u => hpcs u ▸ hgoto.place u, hgoto.bound, fun u _ hset => ?_, fun u => ?_, fun u => ?_, ?_⟩
    · exact absurd (hopen.symm.trans hset) Bool.false_ne_true
    · refine (hgoto.waits u).trans ?_
      rcases eq_or_ne u t with rfl | hne
      · simp [Sys.goto]
      · simp [Sys.goto, Function.update_of_ne hne]
    · dsimp only
      rw [hpcs u]
      exact hgoto.results u
    · have hdata := hgoto.data
      simp only [Sys.goto] at hdata
      simpa only [hpcs] using hdata

theorem Inv.unlock (h : Inv c m g s) (hmode : (s.thread t).mode = .running) (hpc : (s.thread t).pc = .unlock) :
    Inv c m g (Sys.goto { s with holder := none } t .check) := by
  have hat := h.place t
  rw [hpc] at hat
  cases hat with
  | unlock h0 hg hopen =>
    exact h.still hg hmode (.check h0 hg hopen) (by simp [hpc, Announced]) (fun heq => absurd heq h0)
      (by simp [hpc, reach])

/-- The thread has seen the flag: there is a center, or no more points. -/
theorem Inv.check (h : Inv c m g s) (hmode : (s.thread t).mode = .running) (hpc : (s.thread t).pc = .check) :
    Inv c m g (s.goto t (if c.blocks.num ≤ s.mem.i then .gathered else .update (c.blocks.k1 t))) := by
  have hat := h.place t
  rw [hpc] at hat
  cases hat with
  | check h0 hg hopen =>
    have hplace : At c m t s.mem.isOpen g (if c.blocks.num ≤ s.mem.i then .gathered
        else .update (c.blocks.k1 t)) := by
      cases g with
      | choose j => exact absurd (h.closed.symm.trans hopen) Bool.false_ne_true
      | offer j =>
        have hdata : Offering c m j s.mem _ := h.data
        rw [if_neg (Nat.not_le.2 (hdata.i ▸ hdata.lt))]
        exact .update hopen le_rfl (Blocks.k1_le_k2 t.isLt)
      | finish =>
        rw [if_pos h.data.2]
        exact .gathered hopen
      | _ => exact hg.elim
    refine h.still hg hmode hplace (by simp [hpc, Announced]) (fun heq => absurd heq h0) ?_
    rw [hpc]
    split_ifs <;> rfl

/-! Thread 0 sets the flag and calls the others. -/

theorem Inv.raise {last : Bool} (h : Inv c m g s) (hmode : (s.thread t).mode = .running)
    (hpc : (s.thread t).pc = .raise last) :
    Inv c m g (Sys.goto { s with holder := some t } t (.offer last)) := by
  have hat := h.place t
  rw [hpc] at hat
  cases hat with
  | raise h0 hg hopen =>
    exact h.still hg.calling hmode (.offer h0 hg hopen) (by simp [hpc, Announced])
      (fun _ j heq => by subst heq; exact hg) (by simp [hpc, reach])

theorem Inv.release {last : Bool} (h : Inv c m g s) (hmode : (s.thread t).mode = .running)
    (hpc : (s.thread t).pc = .release last) :
    Inv c m g (Sys.goto { s with holder := none } t (.signal last)) := by
  have hat := h.place t
  rw [hpc] at hat
  cases hat with
  | release h0 hg hopen =>
    exact h.still hg.calling hmode (.signal h0 hg hopen) (fun _ => ⟨last, .inr rfl⟩)
      (fun _ j heq => by subst heq; exact hg) (by simp [hpc, reach])

theorem eq_test_of_wait {p p' : Pc} (h : op c t p = .wait p') : p' = .test := by
  cases p with
  | sleep => exact (Op.wait.inj h).symm
  | init k | update k =>
    rw [op] at h
    split_ifs at h
  | _ => simp [op] at h

theorem ne_sleep (hsound : Sound (op c) holds s) (hmode : (s.thread t).mode = .running)
    (hheld : holds (s.thread t).pc = true) {u : Fin c.nproc} (hne : u ≠ t) : (s.thread u).pc ≠ .sleep := by
  intro hpc
  have hrunning : (s.thread u).mode = .running := by
    cases hmode' : (s.thread u).mode with
    | running => rfl
    | asleep | woken =>
      obtain ⟨p, hp⟩ := hsound.waiting u (by simp [hmode'])
      have htest := eq_test_of_wait hp
      simp [hpc] at htest
    | arrived =>
      obtain ⟨p, hp⟩ := hsound.arrived u hmode'
      simp [hpc, op] at hp
  have hu := (hsound.holder u).2 ⟨hrunning, by rw [hpc]; rfl⟩
  have ht := (hsound.holder t).2 ⟨hmode, hheld⟩
  exact hne (Option.some.inj (hu.symm.trans ht))

/-- No thread is about to sleep: thread 0 has the mutex. -/
theorem Inv.offer {last : Bool} (h : Inv c m g s) (hsound : Sound (op c) holds s)
    (hmode : (s.thread t).mode = .running)
    (hpc : (s.thread t).pc = .offer last) : Inv c m g
    (Sys.goto { s with mem := { s.mem with isOpen := true } } t (.release last)) := by
  have hat := h.place t
  rw [hpc] at hat
  cases hat with
  | offer h0 hg hopen =>
    have hdata : Data c m s.mem (Function.update (fun u => (s.thread u).pc) t (.release last)) g :=
      h.data.still hg.calling (fun _ j heq => by subst heq; exact hg) (by simp [hpc, reach])
    refine h.goto hg.calling.ne_rest hg.calling.ne_rest (by simp [hmode]) (.release h0 hg rfl) (fun u hne => ?_)
      (fun u _ _ _ => ?_) rfl rfl (hdata.setOpen true)
    · have hu := h.place u
      rw [hopen] at hu
      refine hu.setOpen (fun hu0 => hne (Fin.ext (hu0.trans h0.symm))) hg (ne_sleep hsound hmode ?_ hne)
      rw [hpc]
      rfl
    · rw [if_pos (Fin.ext h0.symm : zero c = t)]
      exact ⟨last, .inl rfl⟩

/-- All threads that sleep are called. -/
theorem Inv.signal {last : Bool} (h : Inv c m g s) (hmode : (s.thread t).mode = .running)
    (hpc : (s.thread t).pc = .signal last) :
    Inv c m g (Sys.goto { s with thread := fun u => (s.thread u).wake } t
      (if last then .gathered else .update (c.blocks.k1 t))) := by
  have hat := h.place t
  rw [hpc] at hat
  have hpcs : ∀ u, ((s.thread u).wake).pc = (s.thread u).pc := fun u => by
    rw [Thread.wake]
    split_ifs <;> rfl
  have hmodes : ∀ u, ((s.thread u).wake).mode ≠ .asleep := fun u => by
    rw [Thread.wake]
    split_ifs with hasleep
    · simp
    · exact hasleep
  have harrived : ∀ u, ((s.thread u).wake).mode = .arrived ↔ (s.thread u).mode = .arrived := fun u => by
    rw [Thread.wake]
    split_ifs with hasleep
    · simp [hasleep]
    · exact Iff.rfl
  have hwoken : Inv c m g { s with thread := fun u => (s.thread u).wake } :=
    h.samePlaces rfl hpcs (fun u hasleep => absurd hasleep (hmodes u)) fun u => by simp only [harrived]
  cases hat with
  | signal h0 hg hopen =>
    have hplace : At c m t s.mem.isOpen g (if last then .gathered else .update (c.blocks.k1 t)) := by
      cases g with
      | offer j =>
        obtain rfl : last = false := hg
        exact .update hopen le_rfl (Blocks.k1_le_k2 t.isLt)
      | finish =>
        obtain rfl : last = true := hg
        exact .gathered hopen
      | _ => exact hg.elim
    refine hwoken.goto hg.calling.ne_rest hg.calling.ne_rest (by simp [Thread.wake, hmode]) hplace
      (fun u _ => hwoken.place u) (fun u _ hasleep => absurd hasleep (hmodes u)) rfl rfl
      (hwoken.data.still hg.calling (fun _ j heq => by subst heq; exact hg) ?_)
    simp only [hpcs, hpc]
    split_ifs <;> rfl

/-! The points of a block. -/

omit [LinearOrder K] in
theorem dist_congr {x x' y y' : Point K} (hx : x.coord = x'.coord) (hy : y.coord = y'.coord) (dim : ℕ) :
    dist x y dim = dist x' y' dim := by
  simp only [Pgain.dist, hx, hy]

omit [LinearOrder K] [Field K] in
theorem Mixed.coord {old new p : ℕ → Point K} {pc : Fin c.nproc → Pc} (h : Mixed c old new p pc)
    (hsame : ∀ k, (new k).coord = (old k).coord) (k : ℕ) : (p k).coord = (old k).coord := by
  rcases Nat.lt_or_ge k c.blocks.num with hk | hk
  · obtain ⟨pid, hpid, hblock⟩ := Blocks.exists_block hk
    rcases Nat.lt_or_ge k (reach c ⟨pid, hpid⟩ (pc ⟨pid, hpid⟩)) with hlt | hge
    · rw [h.done ⟨pid, hpid⟩ k hblock hlt, hsame]
    · rw [h.todo ⟨pid, hpid⟩ k hblock hge]
  · rw [h.rest k hk]

theorem Seeding.next {a : Memory c.nproc K} {pc : Fin c.nproc → Pc} {k : ℕ} (h : Seeding c m a pc)
    (hk : k ∈ c.blocks.block t) (hpc : pc t = .init k) :
    Seeding c m (seedPoint c k a) (Function.update pc t (.init (k + 1))) := by
  have hcoord : ∀ k, (a.p k).coord = ((before c m).p k).coord :=
    h.mixed.coord fun k => (samePlaces_firstCenter c.blocks.serial c.dim (before c m) k).2
  have hold : a.p k = (before c m).p k := h.mixed.todo t k hk (by simp [hpc, reach])
  refine ⟨h.mixed.next hk (by simp [hpc, reach]) rfl ?_ fun j hj => ?_, fun hstart => ?_, h.opened, h.log⟩
  · have hlt : k < c.blocks.serial.num := show k < c.blocks.num from Blocks.lt_num t.isLt hk
    simp only [seedPoint, firstCenter, Function.update_self, if_pos hlt]
    rw [hold, dist_congr rfl (hcoord 0)]
  · exact Function.update_of_ne hj ..
  · rcases eq_or_ne (zero c) t with heq | hne
    · simp [heq] at hstart
    · rw [Function.update_of_ne hne] at hstart
      exact h.kcenter hstart

theorem Offering.next {j : ℕ} {a : Memory c.nproc K} {pc : Fin c.nproc → Pc} {k : ℕ} (h : Offering c m j a pc)
    (hk : k ∈ c.blocks.block t) (hpc : pc t = .update k) :
    Offering c m j (updatePoint c t k a) (Function.update pc t (.update (k + 1))) := by
  have hnew : upTo c m (j + 1) = openCenter c.blocks.serial c.dim (upTo c m j) j := by
    rw [upTo_succ c h.one_le, if_pos h.opens]
  have hcoord : ∀ k, (a.p k).coord = ((upTo c m j).p k).coord := by
    refine h.mixed.coord fun k => ?_
    rw [hnew]
    exact (samePlaces_openCenter c.blocks.serial c.dim (upTo c m j) j k).2
  have hold : a.p k = (upTo c m j).p k := h.mixed.todo t k hk (by simp [hpc, reach])
  refine ⟨h.i, h.one_le, h.lt, h.mixed.next hk (by simp [hpc, reach]) rfl ?_ fun i hi => ?_, h.opens, h.kcenter,
    h.opened,
    fun u => ?_⟩
  · have hlt : k < c.blocks.serial.num := show k < c.blocks.num from Blocks.lt_num t.isLt hk
    have hdist : dist (a.p j) (a.p k) c.dim = dist ((upTo c m j).p j) ((upTo c m j).p k) c.dim :=
      dist_congr (hcoord j) (hcoord k) c.dim
    rw [hnew]
    simp only [updatePoint, openCenter, h.i, hlt, true_and]
    rw [hdist, hold]
    split_ifs
    · rw [Function.update_self]
    · exact hold
  · simp only [updatePoint]
    split_ifs
    · exact Function.update_of_ne hi ..
    · rfl
  · simp only [updatePoint]
    rcases eq_or_ne u t with rfl | hne
    · have hle := (Blocks.mem_block.1 hk).1
      have hlength : k + 1 - c.blocks.k1 u = k - c.blocks.k1 u + 1 := by omega
      rw [Function.update_self, h.log u, Function.update_self, hpc, h.i]
      simp only [reach]
      rw [hlength, List.range'_1_concat, List.map_append, Nat.add_sub_cancel' hle, List.append_assoc]
      rfl
    · rw [Function.update_of_ne hne, Function.update_of_ne hne]
      exact h.log u

theorem Inv.init {k : ℕ} (h : Inv c m g s) (hmode : (s.thread t).mode = .running) (hpc : (s.thread t).pc = .init k)
    (hk : k < c.blocks.k2 t) : Inv c m g (Sys.goto { s with mem := seedPoint c k s.mem } t (.init (k + 1))) := by
  have hat := h.place t
  rw [hpc] at hat
  cases hat with
  | init hopen hle _ =>
    have hdata : Seeding c m s.mem _ := h.data
    exact h.goto (by simp) (by simp) (by simp [hmode]) (.init hopen (Nat.le_succ_of_le hle) hk) (fun u _ => h.place u)
      (fun u _ => h.announced (by simp [hpc, Announced]) u) rfl rfl (hdata.next (Blocks.mem_block.2 ⟨hle, hk⟩) hpc)

/-- At the end of the first loop. -/
theorem Inv.initDone {k : ℕ} (h : Inv c m g s) (hmode : (s.thread t).mode = .running)
    (hpc : (s.thread t).pc = .init k)
    (hk : ¬k < c.blocks.k2 t) :
    Inv c m g (Sys.goto { s with mem := if t.val = 0 then { s.mem with kcenter := 1 } else s.mem } t .start) := by
  have hat := h.place t
  rw [hpc] at hat
  cases hat with
  | init hopen _ hle =>
    obtain rfl : k = c.blocks.k2 t := by omega
    have hdata : Seeding c m s.mem _ := h.data
    have hsame : ∀ u, reach c u (Function.update (fun u => (s.thread u).pc) t .start u) =
        reach c u (s.thread u).pc := by
      intro u
      rcases eq_or_ne u t with rfl | hne
      · simp [hpc, reach]
      · rw [Function.update_of_ne hne]
    have hmixed := hdata.mixed.congr hsame
    by_cases h0 : t.val = 0
    · rw [if_pos h0]
      exact h.goto (by simp) (by simp) (by simp [hmode]) (.start hopen) (fun u _ => h.place u)
        (fun u _ => h.announced (by simp [hpc, Announced]) u) rfl rfl
        (Seeding.mk hmixed (fun _ => rfl) hdata.opened hdata.log)
    · rw [if_neg h0]
      refine h.goto (by simp) (by simp) (by simp [hmode]) (.start hopen) (fun u _ => h.place u)
        (fun u _ => h.announced (by simp [hpc, Announced]) u) rfl rfl
        (Seeding.mk hmixed (fun hstart => hdata.kcenter ?_) hdata.opened hdata.log)
      have hne : zero c ≠ t := fun heq => h0 (heq ▸ rfl)
      rwa [Function.update_of_ne hne] at hstart

theorem Inv.update {k : ℕ} (h : Inv c m g s) (hmode : (s.thread t).mode = .running)
    (hpc : (s.thread t).pc = .update k)
    (hk : k < c.blocks.k2 t) : Inv c m g (Sys.goto { s with mem := updatePoint c t k s.mem } t
      (.update (k + 1))) := by
  have hat := h.place t
  rw [hpc] at hat
  cases hat with
  | update hopen hle _ =>
    have hdata : Offering c m _ s.mem _ := h.data
    exact h.goto (by simp) (by simp) (by simp [hmode]) (.update hopen (Nat.le_succ_of_le hle) hk)
      (fun u _ => h.place u)
      (fun u _ => h.announced (by simp [hpc, Announced]) u) rfl rfl (hdata.next (Blocks.mem_block.2 ⟨hle, hk⟩) hpc)

theorem Inv.updateDone {k : ℕ} (h : Inv c m g s) (hmode : (s.thread t).mode = .running)
    (hpc : (s.thread t).pc = .update k)
    (hk : ¬k < c.blocks.k2 t) : Inv c m g (s.goto t .applied) := by
  have hat := h.place t
  rw [hpc] at hat
  cases hat with
  | update hopen _ hle =>
    refine h.still trivial hmode (.applied hopen) (by simp [hpc, Announced]) (fun _ _ => nofun) ?_
    rw [hpc]
    simp only [reach]
    omega

/-! The loop of thread 0. -/

theorem Inv.first (h : Inv c m g s) (hmode : (s.thread t).mode = .running) (hpc : (s.thread t).pc = .first) :
    Inv c m g (Sys.goto { s with mem := { s.mem with i := 1 } } t .decide) := by
  have hat := h.place t
  rw [hpc] at hat
  cases hat with
  | first h0 hopen =>
    have hdata : Choosing c m 1 s.mem _ := h.data
    obtain rfl : t = zero c := Fin.ext h0
    refine h.goto (by simp) (by simp) (by simp [hmode]) (.decide h0 hopen) (fun u _ => h.place u)
      (fun u _ => h.announced (by simp [hpc, Announced]) u) rfl rfl ?_
    have hagrees := hdata.agrees
    exact Choosing.mk ⟨hagrees.p, hagrees.kcenter, hagrees.opened, hagrees.log⟩ hdata.one_le hdata.le_max
      (fun _ => rfl)
      (by simp)

theorem Inv.advance (h : Inv c m g s) (hmode : (s.thread t).mode = .running) (hpc : (s.thread t).pc = .advance) :
    Inv c m g (Sys.goto { s with mem := { s.mem with i := s.mem.i + 1 } } t .decide) := by
  have hat := h.place t
  rw [hpc] at hat
  cases hat with
  | @advance j h0 hopen =>
    have hdata : Choosing c m j s.mem _ := h.data
    obtain rfl : t = zero c := Fin.ext h0
    refine h.goto (by simp) (by simp) (by simp [hmode]) (.decide h0 hopen) (fun u _ => h.place u)
      (fun u _ => h.announced (by simp [hpc, Announced]) u) rfl rfl ?_
    have hagrees := hdata.agrees
    exact Choosing.mk ⟨hagrees.p, hagrees.kcenter, hagrees.opened, hagrees.log⟩ hdata.one_le hdata.le_max
      (fun _ => hdata.advance hpc) (by simp)

theorem Inv.decide (h : Inv c m g s) (hmode : (s.thread t).mode = .running) (hpc : (s.thread t).pc = .decide) :
    ∃ g', Inv c m g' (Sys.goto { s with mem := (chooseNext c t s.mem).1 } t (chooseNext c t s.mem).2) := by
  have hat := h.place t
  rw [hpc] at hat
  cases hat with
  | @decide j h0 hopen =>
    have hdata : Choosing c m j s.mem _ := h.data
    obtain rfl : t = zero c := Fin.ext h0
    have hi : s.mem.i = j := hdata.decide hpc
    have hagrees := hdata.agrees
    have hcall : (s.mem.results (zero c)).length = m := by
      rw [h.results, hpc]
      simp
    have hreach : ∀ p, reach c (zero c) p = c.blocks.k1 (zero c) → ∀ u,
        reach c u (Function.update (fun u => (s.thread u).pc) (zero c) p u) = c.blocks.k1 u := by
      intro p hp u
      rcases eq_or_ne u (zero c) with rfl | hne
      · rwa [Function.update_self]
      · rw [Function.update_of_ne hne]
        exact (h.place u).reach_choose fun hu0 => hne (Fin.ext hu0)
    have hopens : OpensAt c m j ↔ unit (c.draws m (j - 1)) < (s.mem.p j).cost / c.z m := by
      rw [OpensAt, hagrees.p]
    rw [chooseNext, hcall, hi]
    by_cases hlt : j < c.blocks.num
    · by_cases hopens' : unit (c.draws m (j - 1)) < (s.mem.p j).cost / c.z m
      · -- a center is opened
        rw [if_pos hlt, if_pos hopens']
        have hsucc := upTo_succ c (m := m) hdata.one_le
        have hopened := openedIn_succ c (m := m) hdata.one_le
        rw [if_pos (hopens.2 hopens')] at hsucc hopened
        refine ⟨.offer j, h.goto (by simp) (by simp) (by simp [hmode]) (.raise h0 rfl hopen) (fun u hne => ?_)
          (fun u _ => h.announced (by simp [hpc, Announced]) u) ?_ rfl ?_⟩
        · have hu := h.place u
          rw [hopen] at hu ⊢
          exact hu.choose (fun hu0 => hne (Fin.ext hu0)) trivial
        · simp [Stage.barriers]
          omega
        · refine Offering.mk rfl hdata.one_le hlt ?_ (hopens.2 hopens') ?_ ?_ fun u => ?_
          · rw [← hagrees.p]
            exact Mixed.init (hreach _ rfl)
          · rw [hsucc]
            exact congrArg (· + 1) hagrees.kcenter
          · rw [openedUpTo, hopened, ← List.append_assoc]
            exact congrArg (· ++ [j]) hagrees.opened
          · rw [hreach _ rfl u, Nat.sub_self]
            exact (hagrees.log u).trans (List.append_nil _).symm
      · rw [if_pos hlt, if_neg hopens']
        have hsucc := upTo_succ c (m := m) hdata.one_le
        have hopened := openedIn_succ c (m := m) hdata.one_le
        rw [if_neg (mt hopens.1 hopens')] at hsucc hopened
        refine ⟨.choose (j + 1), h.goto (by simp) (by simp) (by simp [hmode]) (.advance h0 hopen) (fun u hne => ?_)
          (fun u _ => h.announced (by simp [hpc, Announced]) u) rfl rfl ?_⟩
        · have hu := h.place u
          rw [hopen] at hu ⊢
          exact hu.choose (fun hu0 => hne (Fin.ext hu0)) trivial
        · refine Choosing.mk ?_ (Nat.succ_pos j) (by omega) (by simp) (fun _ => congrArg (· + 1) hi)
          rw [hsucc, openedUpTo, hopened, List.append_nil]
          exact hagrees
    · -- there are no more points
      rw [if_neg hlt]
      obtain ⟨hupTo, hopened⟩ := upTo_last c (m := m) (Nat.le_of_not_lt hlt) hdata.le_max
      refine ⟨.finish, h.goto (by simp) (by simp) (by simp [hmode]) (.raise h0 rfl hopen) (fun u hne => ?_)
        (fun u _ => h.announced (by simp [hpc, Announced]) u) rfl rfl ⟨?_, ?_⟩⟩
      · have hu := h.place u
        rw [hopen] at hu ⊢
        exact hu.choose (fun hu0 => hne (Fin.ext hu0)) trivial
      · rw [← hupTo, ← hopened]
        exact hagrees
      · rw [hi]
        exact Nat.le_of_not_lt hlt

/-! The end of a round and of a call. -/

theorem Inv.clear (h : Inv c m g s) (hmode : (s.thread t).mode = .running) (hpc : (s.thread t).pc = .clear) :
    Inv c m g (Sys.goto { s with mem := { s.mem with isOpen := false } } t .cleared) := by
  have hat := h.place t
  rw [hpc] at hat
  cases hat with
  | @clear j h0 =>
    refine h.goto (by simp) (by simp) (by simp [hmode]) (.cleared fun _ => rfl) (fun u hne => ?_)
      (fun _ _ _ => nofun) rfl rfl (h.data.setOpen false)
    have hu := h.place u
    generalize (s.thread u).pc = p at hu
    cases hu with
    | clear hu0 => exact .clear hu0
    | cleared _ => exact .cleared fun _ => rfl
    | _ => contradiction

theorem Inv.reset (h : Inv c m g s) (hmode : (s.thread t).mode = .running) (hpc : (s.thread t).pc = .reset) :
    Inv c m g (Sys.goto { s with mem := { s.mem with isOpen := false } } t .sum) := by
  have hat := h.place t
  rw [hpc] at hat
  cases hat with
  | reset =>
    obtain ⟨hagrees, hcosts⟩ := h.data
    refine h.goto (by simp) (by simp) (by simp [hmode]) (.sum rfl) (fun u hne => ?_) (fun _ _ _ => nofun) rfl rfl
      ⟨hagrees.setOpen false, fun u hu => ?_⟩
    · have hu := h.place u
      generalize (s.thread u).pc = p at hu
      cases hu with
      | reset => exact .reset
      | sum _ => exact .sum rfl
      | summed _ => exact .summed rfl
      | _ => contradiction
    · rcases eq_or_ne u t with rfl | hne
      · simp at hu
      · rw [Function.update_of_ne hne] at hu
        exact hcosts u hu

theorem Inv.sum (h : Inv c m g s) (hmode : (s.thread t).mode = .running) (hpc : (s.thread t).pc = .sum) :
    Inv c m g (Sys.goto { s with mem := Handshake.addCosts c t s.mem } t .summed) := by
  have hat := h.place t
  rw [hpc] at hat
  cases hat with
  | sum hopen =>
    obtain ⟨hagrees, hcosts⟩ := h.data
    refine h.goto (by simp) (by simp) (by simp [hmode]) (.summed hopen) (fun u _ => h.place u)
      (fun u _ => h.announced (by simp [hpc, Announced]) u) rfl rfl
      ⟨⟨hagrees.p, hagrees.kcenter, hagrees.opened, hagrees.log⟩, fun u hu => ?_⟩
    simp only [Handshake.addCosts]
    rcases eq_or_ne u t with rfl | hne
    · rw [Function.update_self]
    · rw [Function.update_of_ne hne] at hu
      rw [Function.update_of_ne fun heq => hne (Fin.ext heq)]
      exact hcosts u hu

theorem Inv.collect (h : Inv c m g s) (hmode : (s.thread t).mode = .running) (hpc : (s.thread t).pc = .collect) :
    Inv c m g (Sys.goto { s with mem := collectCosts c t s.mem } t .collected) := by
  have hat := h.place t
  rw [hpc] at hat
  cases hat with
  | collect h0 hopen =>
    obtain ⟨hagrees, hcosts, -⟩ := h.data
    obtain rfl : t = zero c := Fin.ext h0
    refine h.goto (by simp) (by simp) (by simp [hmode]) (.collected hopen) (fun u _ => h.place u)
      (fun u _ => h.announced (by simp [hpc, Announced]) u) rfl rfl
      ⟨⟨hagrees.p, hagrees.kcenter, hagrees.opened, hagrees.log⟩, hcosts, fun _ => ?_⟩
    have hcall : (s.mem.results (zero c)).length = m := by
      rw [h.results, hpc]
      simp
    have hsum : ((List.range c.nproc).map s.mem.costs).sum = aggregate c.blocks fun k => (s.mem.p k).cost := by
      rw [aggregate]
      refine congrArg List.sum (List.map_congr_left fun pid hpid => ?_)
      exact hcosts ⟨pid, List.mem_range.1 hpid⟩
    simp only [collectCosts]
    rw [hcall, hsum, aggregate_eq, hagrees.kcenter, hagrees.p, result, pspeedy, aggregate_eq]
    rfl

theorem Inv.leave (h : Inv c m g s) (hmode : (s.thread t).mode = .running) (hpc : (s.thread t).pc = .leave) :
    Inv c m g (Sys.goto { s with mem := (returnCost c t s.mem).1 } t (returnCost c t s.mem).2) := by
  have hat := h.place t
  rw [hpc] at hat
  cases hat with
  | leave hopen hpos hle =>
    obtain ⟨hagrees, htotal⟩ := h.data
    have hold : s.mem.results t = (List.range (m - 1)).map (result c) := by
      rw [h.results, hpc]
      simp
    have hplace : At c m t s.mem.isOpen .rest (returnCost c t s.mem).2 := by
      have hlength : (s.mem.results t).length + 1 = m := by
        rw [hold, List.length_map, List.length_range]
        omega
      simp only [returnCost, hlength]
      split_ifs with hlt
      · exact .enter hopen hlt
      · exact .done hopen (by omega)
    have hnot : (returnCost c t s.mem).2 ≠ .leave := by
      simp only [returnCost]
      split_ifs <;> simp
    have hnew : (returnCost c t s.mem).1.results t = (List.range m).map (result c) := by
      obtain ⟨k, rfl⟩ := Nat.exists_eq_add_of_le' hpos
      simp only [returnCost, Function.update_self, hold, htotal hpos, Nat.add_sub_cancel, List.range_succ,
        List.map_append,
        List.map_cons, List.map_nil]
    refine ⟨fun u => ?_, h.bound, fun u _ hset => ?_, fun u => ?_, fun u => ?_,
      ⟨hagrees.p, hagrees.kcenter, hagrees.opened, hagrees.log⟩, htotal⟩
    · rcases eq_or_ne u t with rfl | hne
      · simpa [Sys.goto, returnCost] using hplace
      · simpa [Sys.goto, returnCost, Function.update_of_ne hne] using h.place u
    · exact absurd (hopen.symm.trans hset) Bool.false_ne_true
    · rcases eq_or_ne u t with rfl | hne
      · have hu := h.waits u
        simpa [Sys.goto, returnCost, hmode] using hu
      · simpa [Sys.goto, returnCost, Function.update_of_ne hne] using h.waits u
    · rcases eq_or_ne u t with rfl | hne
      · simpa [Sys.goto, hnot] using hnew
      · have hu := h.results u
        simpa [Sys.goto, returnCost, Function.update_of_ne hne] using hu

end Steps
end Turkey.Handshake
