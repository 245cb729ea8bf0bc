import Turkey.Streamcluster.Rounds

/-! The runs of the threads of `pspeedy`: from barrier to barrier they go from one stage to the next, nobody waits
    for ever, and what they leave behind is what one thread leaves behind. -/

namespace Turkey.Handshake
open Turkey.ParallelFor Turkey.Pgain Turkey.Monitor Turkey.Run

section Steps
variable {K : Type} [Field K] [LinearOrder K] {c : Calls K} {m : ℕ} {g : Stage}
  {s s' : Sys c.nproc (Memory c.nproc K) Pc} {t : Fin c.nproc}

omit [Field K] [LinearOrder K] in
theorem iterations_append (t : Fin c.nproc) (is is' : List ℕ) :
    iterations c t (is ++ is') = iterations c t is ++ iterations c t is' := List.flatMap_append

/-! ### All threads at the barrier -/

/-- The place of a thread that waits at the barrier at the end of a stage. -/
def Stage.last : Stage → Option Pc
  | .rest => some .enter
  | .seed => some .start
  | .choose _ => none
  | .offer _ => some .applied
  | .clear _ => some .cleared
  | .finish => some .gathered
  | .sum => some .summed
  | .collect => some .collected

theorem At.last {isOpen : Bool} {p p' : Pc} (h : At c m t isOpen g p) (hp : op c t p = .barrier p') : g.last =
    some p := by
  cases h with
  | init | update =>
    rw [op] at hp
    split_ifs at hp
  | enter | start | applied | cleared | gathered | summed | collected => rfl
  | _ => simp [op] at hp

omit [Field K] [LinearOrder K] in
/-- A thread that waits at the barrier has seen the flag. -/
theorem At.isOpen_of_last {isOpen : Bool} {p : Pc} (h : At c m t isOpen g p) (hg : g.Calling)
    (hlast : g.last = some p) :
    isOpen = true := by
  cases g with
  | choose j => exact nomatch hlast
  | offer j =>
    obtain rfl : Pc.applied = p := Option.some.inj hlast
    cases h with
    | applied hopen => exact hopen
  | finish =>
    obtain rfl : Pc.gathered = p := Option.some.inj hlast
    cases h with
    | gathered hopen => exact hopen
  | _ => exact hg.elim

/-- The threads after a barrier. -/
theorem inv_of_running {q : Fin c.nproc → Pc} (hplace : ∀ t, At c m t s.mem.isOpen g (q t))
    (hbound : g ≠ .rest → m < c.calls)
    (hwaits : ∀ t, s.waits t = 5 * m + 2 * s.mem.opened.length + g.barriers)
    (hresults : ∀ t, s.mem.results t = (List.range (m - if q t = .leave then 1 else 0)).map (result c))
    (hdata : Data c m s.mem q g) : Inv c m g { s with thread := fun t => ⟨q t, .running⟩ } :=
  ⟨hplace, hbound, nofun, hwaits, hresults, hdata⟩

theorem Inv.pass (h : Inv c m g s) (hsound : Sound (op c) holds s) (hall : ∀ t, (s.thread t).mode = .arrived) :
    ∃ m' g', Inv c m' g' { s with thread := fun t => ⟨(op c t (s.thread t).pc).past (s.thread t).pc, .running⟩ } := by
  have hlast : ∀ t, g.last = some (s.thread t).pc := fun t => by
    obtain ⟨p, hp⟩ := hsound.arrived t (hall t)
    exact (h.place t).last hp
  have hwaits : ∀ t, s.waits t = 5 * m + 2 * s.mem.opened.length + g.barriers + 1 := fun t => by
    rw [h.waits, if_pos (hall t)]
  have hold : ∀ q : Fin c.nproc → Pc, (∀ t, q t ≠ .leave) → ∀ t, s.mem.results t =
      (List.range (m - if q t = .leave then 1 else 0)).map (result c) := fun q hq t => by
    have hne : (s.thread t).pc ≠ .leave := fun heq => by
      have ht := hlast t
      rw [heq] at ht
      cases g <;> simp [Stage.last] at ht
    rw [h.results, if_neg hne, if_neg (hq t)]
  have hzero : (zero c).val = 0 := rfl
  have hat := h.place (zero c)
  cases g with
  | choose j => cases hlast (zero c)
  | rest =>
    have hpc : ∀ t, (s.thread t).pc = .enter := fun t => (Option.some.inj (hlast t)).symm
    simp only [hpc] at hat ⊢
    cases hat with
    | enter hopen hlt =>
      obtain ⟨hagrees, -⟩ := h.data
      refine ⟨m, .seed, inv_of_running (fun t => .init hopen le_rfl (Blocks.k1_le_k2 t.isLt))
        (fun _ => hlt) hwaits (hold _ fun _ => by simp [op, Op.past])
        (Seeding.mk ?_ (fun heq => by cases heq) hagrees.opened hagrees.log)⟩
      rw [← hagrees.p]
      exact Mixed.init fun _ => rfl
  | seed =>
    have hpc : ∀ t, (s.thread t).pc = .start := fun t => (Option.some.inj (hlast t)).symm
    have hdata : Seeding c m s.mem _ := h.data
    simp only [hpc] at hat hdata ⊢
    cases hat with
    | start hopen =>
      refine ⟨m, .choose 1, inv_of_running (fun t => ?_) (fun _ => h.bound (by simp)) hwaits (hold _ fun t => ?_) ?_⟩
      · simp only [op, Op.past]
        split_ifs with h0
        · exact .first h0 hopen
        · exact .lock h0 trivial
      · simp only [op, Op.past]
        split_ifs <;> simp
      · refine Choosing.mk ⟨hdata.mixed.eq_new (fun _ => rfl) fun k hk => if_neg (Nat.not_lt.2 hk), hdata.kcenter rfl,
          hdata.opened.trans (List.append_nil _).symm, fun t => ?_⟩ le_rfl (le_max_left ..) ?_ ?_
        · rw [hdata.log, openedUpTo, openedIn, Nat.sub_self]
          simp
        · simp [op, Op.past, hzero]
        · simp [op, Op.past, hzero]
  | offer j =>
    have hpc : ∀ t, (s.thread t).pc = .applied := fun t => (Option.some.inj (hlast t)).symm
    have hdata : Offering c m j s.mem _ := h.data
    simp only [hpc] at hat hdata ⊢
    have hopened := openedIn_succ c (m := m) hdata.one_le
    rw [if_pos hdata.opens] at hopened
    refine ⟨m, .clear j, inv_of_running (fun t => ?_) (fun _ => h.bound (by simp)) hwaits (hold _ fun t => ?_)
      ⟨⟨?_, hdata.kcenter, hdata.opened, fun t => ?_⟩, hdata.one_le, hdata.lt, hdata.i⟩⟩
    · simp only [op, Op.past]
      split_ifs with h0
      · exact .clear h0
      · exact .cleared fun h0' => absurd h0' h0
    · simp only [op, Op.past]
      split_ifs <;> simp
    · refine hdata.mixed.eq_new (fun _ => rfl) fun k hk => ?_
      rw [upTo_succ c hdata.one_le, if_pos hdata.opens]
      exact if_neg fun hlt => Nat.not_lt.2 hk hlt.1
    · have hsingle : iterations c t [j] = (c.blocks.block t).map fun k => (k, j) := List.flatMap_singleton ..
      rw [hdata.log, openedUpTo, openedUpTo, hopened]
      simp only [iterations_append, hsingle, List.append_assoc]
      rfl
  | clear j =>
    have hpc : ∀ t, (s.thread t).pc = .cleared := fun t => (Option.some.inj (hlast t)).symm
    obtain ⟨hagrees, hpos, hlt, hi⟩ := h.data
    simp only [hpc] at hat ⊢
    cases hat with
    | cleared hopen =>
      refine ⟨m, .choose (j + 1), inv_of_running (fun t => ?_) (fun _ => h.bound (by simp)) hwaits
        (hold _ fun t => ?_)
        (Choosing.mk hagrees (Nat.succ_pos j) (by omega) ?_ fun _ => congrArg (· + 1) hi)⟩
      · simp only [op, Op.past]
        split_ifs with h0
        · exact .advance h0 (hopen rfl)
        · exact .lock h0 trivial
      · simp only [op, Op.past]
        split_ifs <;> simp
      · simp [op, Op.past, hzero]
  | finish =>
    have hpc : ∀ t, (s.thread t).pc = .gathered := fun t => (Option.some.inj (hlast t)).symm
    simp only [hpc]
    exact ⟨m, .sum, inv_of_running (fun _ => .reset) (fun _ => h.bound (by simp)) hwaits
      (hold _ fun _ => by simp [op, Op.past]) ⟨h.data.1, fun _ heq => by cases heq⟩⟩
  | sum =>
    have hpc : ∀ t, (s.thread t).pc = .summed := fun t => (Option.some.inj (hlast t)).symm
    obtain ⟨hagrees, hcosts⟩ := h.data
    simp only [hpc] at hat ⊢
    cases hat with
    | summed hopen =>
      refine ⟨m, .collect, inv_of_running (fun t => ?_) (fun _ => h.bound (by simp)) hwaits (hold _ fun t => ?_)
        ⟨hagrees, fun t => hcosts t (hpc t), ?_⟩⟩
      · simp only [op, Op.past]
        split_ifs with h0
        · exact .collect h0 hopen
        · exact .collected hopen
      · simp only [op, Op.past]
        split_ifs <;> simp
      · simp [op, Op.past, hzero]
  | collect =>
    have hpc : ∀ t, (s.thread t).pc = .collected := fun t => (Option.some.inj (hlast t)).symm
    obtain ⟨hagrees, -, htotal⟩ := h.data
    simp only [hpc] at hat ⊢
    cases hat with
    | collected hopen =>
      refine ⟨m + 1, .rest, inv_of_running (fun t => .leave hopen (Nat.succ_pos m) (h.bound (by simp)))
        (by simp) (fun t => ?_)
        (fun t => ?_) ⟨hagrees, fun _ => htotal (hpc _)⟩⟩
      · rw [hwaits]
        simp only [Stage.barriers]
        omega
      · have ht := hold (fun _ => .enter) (fun _ => by simp) t
        simpa [op, Op.past] using ht

theorem Inv.barrier (h : Inv c m g s) (hmode : (s.thread t).mode = .running) : Inv c m g { s with
    thread := Function.update s.thread t ⟨(s.thread t).pc, .arrived⟩
    waits := Function.update s.waits t (s.waits t + 1) } := by
  refine h.samePlaces rfl (fun u => ?_) (fun u hu => ?_) fun u => ?_ <;> rcases eq_or_ne u t with rfl | hne
  · simp
  · simp [Function.update_of_ne hne]
  · simp at hu
  · simpa [Function.update_of_ne hne] using hu
  · simp [hmode]
  · simp [Function.update_of_ne hne]

/-- A thread that has been woken, or that gets the mutex. -/
theorem Inv.wake (h : Inv c m g s) {mode : Mode} {holder : Option (Fin c.nproc)}
    (hmode : (s.thread t).mode ≠ .arrived)
    (hwake : mode ≠ .asleep) (hnot : mode ≠ .arrived) : Inv c m g { s with
      thread := Function.update s.thread t ⟨(s.thread t).pc, mode⟩
      holder := holder } := by
  refine h.samePlaces rfl (fun u => ?_) (fun u hu => ?_) fun u => ?_ <;> rcases eq_or_ne u t with rfl | hne
  · simp
  · simp [Function.update_of_ne hne]
  · simp [hwake] at hu
  · simpa [Function.update_of_ne hne] using hu
  · simp [hmode, hnot]
  · simp [Function.update_of_ne hne]

/-! ### Runs -/

theorem Inv.moves (h : Inv c m g s) (hsound : Sound (op c) holds s) (hs : Moves (op c) s t s') :
    ∃ m' g', Inv c m' g' s' := by
  cases hs with
  | access f hmode hop =>
    cases hpc : (s.thread t).pc with
    | init k =>
      by_cases hk : k < c.blocks.k2 t
      · rw [hpc, op, if_pos hk] at hop
        obtain rfl := Op.access.inj hop
        exact ⟨m, g, h.init hmode hpc hk⟩
      · rw [hpc, op, if_neg hk] at hop
        obtain rfl := Op.access.inj hop
        exact ⟨m, g, h.initDone hmode hpc hk⟩
    | update k =>
      by_cases hk : k < c.blocks.k2 t
      · rw [hpc, op, if_pos hk] at hop
        obtain rfl := Op.access.inj hop
        exact ⟨m, g, h.update hmode hpc hk⟩
      · rw [hpc, op, if_neg hk] at hop
        obtain rfl := Op.access.inj hop
        exact ⟨m, g, h.updateDone hmode hpc hk⟩
    | decide =>
      rw [hpc] at hop
      obtain rfl := Op.access.inj hop
      obtain ⟨g', h'⟩ := h.decide hmode hpc
      exact ⟨m, g', h'⟩
    | test => rw [hpc] at hop; obtain rfl := Op.access.inj hop; exact ⟨m, g, h.test hmode hpc⟩
    | check => rw [hpc] at hop; obtain rfl := Op.access.inj hop; exact ⟨m, g, h.check hmode hpc⟩
    | first => rw [hpc] at hop; obtain rfl := Op.access.inj hop; exact ⟨m, g, h.first hmode hpc⟩
    | advance => rw [hpc] at hop; obtain rfl := Op.access.inj hop; exact ⟨m, g, h.advance hmode hpc⟩
    | offer last => rw [hpc] at hop; obtain rfl := Op.access.inj hop; exact ⟨m, g, h.offer hsound hmode hpc⟩
    | clear => rw [hpc] at hop; obtain rfl := Op.access.inj hop; exact ⟨m, g, h.clear hmode hpc⟩
    | reset => rw [hpc] at hop; obtain rfl := Op.access.inj hop; exact ⟨m, g, h.reset hmode hpc⟩
    | sum => rw [hpc] at hop; obtain rfl := Op.access.inj hop; exact ⟨m, g, h.sum hmode hpc⟩
    | collect => rw [hpc] at hop; obtain rfl := Op.access.inj hop; exact ⟨m, g, h.collect hmode hpc⟩
    | leave => rw [hpc] at hop; obtain rfl := Op.access.inj hop; exact ⟨m, g, h.leave hmode hpc⟩
    | _ => simp [hpc, op] at hop
  | lock p hmode hop hfree =>
    cases hpc : (s.thread t).pc with
    | init k | update k =>
      rw [hpc, op] at hop
      split_ifs at hop
    | lock =>
      rw [hpc] at hop
      obtain rfl := Op.lock.inj hop
      exact ⟨m, g, h.lock hmode hpc⟩
    | raise last =>
      rw [hpc] at hop
      obtain rfl := Op.lock.inj hop
      exact ⟨m, g, h.raise hmode hpc⟩
    | _ => simp [hpc, op] at hop
  | unlock p hmode hop =>
    cases hpc : (s.thread t).pc with
    | init k | update k =>
      rw [hpc, op] at hop
      split_ifs at hop
    | unlock =>
      rw [hpc] at hop
      obtain rfl := Op.unlock.inj hop
      exact ⟨m, g, h.unlock hmode hpc⟩
    | release last =>
      rw [hpc] at hop
      obtain rfl := Op.unlock.inj hop
      exact ⟨m, g, h.release hmode hpc⟩
    | _ => simp [hpc, op] at hop
  | wait p hmode hop =>
    cases hpc : (s.thread t).pc with
    | init k | update k =>
      rw [hpc, op] at hop
      split_ifs at hop
    | sleep =>
      rw [hpc] at hop
      obtain rfl := Op.wait.inj hop
      exact ⟨m, g, h.sleep hpc hmode⟩
    | _ => simp [hpc, op] at hop
  | broadcast p hmode hop =>
    cases hpc : (s.thread t).pc with
    | init k | update k =>
      rw [hpc, op] at hop
      split_ifs at hop
    | signal last =>
      rw [hpc] at hop
      obtain rfl := Op.broadcast.inj hop
      exact ⟨m, g, h.signal hmode hpc⟩
    | _ => simp [hpc, op] at hop
  | barrier p hmode hop => exact ⟨m, g, h.barrier hmode⟩
  | woken hmode hfree => exact ⟨m, g, h.wake (by simp [hmode]) (by simp) (by simp)⟩

theorem Inv.step {a : Act c.nproc} (h : Inv c m g s) (hsound : Sound (op c) holds s)
    (hs : Monitor.step (op c) s a = some s') : ∃ m' g', Inv c m' g' s' := by
  cases a with
  | run t => exact h.moves hsound (moves_of_step hs)
  | wake t =>
    simp only [Monitor.step, Option.ite_none_right_eq_some, Option.some.injEq] at hs
    obtain ⟨hmode, rfl⟩ := hs
    exact ⟨m, g, h.wake (by simp [hmode]) (by simp) (by simp)⟩
  | release =>
    simp only [Monitor.step, Option.ite_none_right_eq_some, Option.some.injEq] at hs
    obtain ⟨hall, rfl⟩ := hs
    exact h.pass hsound hall

/-- What every state of a run has. -/
def Reachable (c : Calls K) (s : Sys c.nproc (Memory c.nproc K) Pc) : Prop :=
  Sound (op c) holds s ∧ ∃ m g, Inv c m g s

theorem reachable_start (c : Calls K) (i : ℕ) (costs : ℕ → K) (totalcost : K) :
    Reachable c (start c i costs totalcost) := by
  refine ⟨⟨fun t => ?_, nofun, nofun⟩, 0, .rest, fun t => ?_, nofun, nofun, fun t => rfl, fun t => by simp [start],
    ⟨rfl, rfl, rfl, fun t => rfl⟩, nofun⟩
  · simp only [start]
    split_ifs <;> simp [holds]
  · simp only [start]
    split_ifs with hcalls
    · exact .enter rfl hcalls
    · exact .done rfl (by omega)

theorem reachable_exec {i : ℕ} {costs : ℕ → K} {totalcost : K} {acts : List (Act c.nproc)}
    (hrun : exec (Monitor.step (op c)) (start c i costs totalcost) acts = some s) : Reachable c s := by
  refine exec_inv (fun s a s' hs hstep => ?_) (reachable_start c i costs totalcost) hrun
  obtain ⟨hsound, m, g, h⟩ := hs
  exact ⟨hsound.step (op_keeps c) hstep, h.step hsound hstep⟩

theorem done_of_stop {p : Pc} (h : op c t p = .stop) : p = .done := by
  cases p with
  | done => rfl
  | init k | update k =>
    rw [op] at h
    split_ifs at h
  | _ => simp [op] at h

/-- As long as not all threads have come to their end, one of them can run or the barrier lets them go. -/
theorem Reachable.progress (h : Reachable c s) : (∀ t, (s.thread t).pc = .done) ∨
    (∃ t, (Monitor.step (op c) s (.run t)).isSome) ∨ (Monitor.step (op c) s .release).isSome := by
  obtain ⟨hsound, m, g, h⟩ := h
  by_cases hrun : ∃ t, (Monitor.step (op c) s (.run t)).isSome
  · exact .inr (.inl hrun)
  have hstuck : ∀ t, Monitor.step (op c) s (.run t) = none := fun t => by
    by_contra hne
    exact hrun ⟨t, Option.isSome_iff_ne_none.2 hne⟩
  have hcase := hsound.stuck (op_keeps c) hstuck
  have htest : ∀ t, (s.thread t).mode = .asleep → (s.thread t).pc = .test := fun t hasleep => by
    obtain ⟨p, hp⟩ := hsound.waiting t (.inl hasleep)
    exact eq_test_of_wait hp
  have hlast : ∀ t, (s.thread t).mode = .arrived → g.last = some (s.thread t).pc := fun t harrived => by
    obtain ⟨p, hp⟩ := hsound.arrived t harrived
    exact (h.place t).last hp
  have hzero := h.place (zero c)
  rcases hcase (zero c) with hasleep | harrived | ⟨-, hstop⟩
  · -- thread 0 does not wait for the flag
    rw [htest _ hasleep] at hzero
    cases hzero with
    | test h0 _ => exact absurd rfl h0
  · refine .inr (.inr ?_)
    have hall : ∀ t, (s.thread t).mode = .arrived := fun t => by
      have hat := h.place t
      have hpc := hlast _ harrived
      rcases hcase t with hasleep | harrived' | ⟨-, hstop⟩
      · -- the flag is set, and all threads have been called
        rw [htest t hasleep] at hat
        cases hat with
        | test _ hg =>
          obtain ⟨last, hpc' | hpc'⟩ := h.awake t hasleep (hzero.isOpen_of_last hg hpc)
          · rw [hpc'] at hpc
            cases g <;> simp [Stage.last] at hpc
          · rw [hpc'] at hpc
            cases g <;> simp [Stage.last] at hpc
      · exact harrived'
      · rw [done_of_stop hstop] at hat
        cases hat with
        | done _ hm =>
          rw [← Option.some.inj hpc] at hzero
          cases hzero with
          | enter _ hlt => omega
    simp [Monitor.step, hall]
  · rw [done_of_stop hstop] at hzero
    cases hzero with
    | done _ hm =>
      refine .inl fun t => ?_
      have hat := h.place t
      rcases hcase t with hasleep | harrived | ⟨-, hstop⟩
      · rw [htest t hasleep] at hat
        cases hat with
        | test _ hg => exact hg.elim
      · rw [← Option.some.inj (hlast t harrived)] at hat
        cases hat with
        | enter _ hlt => omega
      · exact done_of_stop hstop

/-- A thread that is not in a call. -/
def Outside (x : Thread Pc) : Prop := x.mode = .running ∧ (x.pc = .enter ∨ x.pc = .done)

/-- What thread `t` finds when it is not in a call: it has waited as often as any other thread that has left this
    call, all centers have been applied by everybody, and the clustering is that of one thread. -/
structure Left (c : Calls K) (s : Sys c.nproc (Memory c.nproc K) Pc) (t : Fin c.nproc) (m : ℕ) : Prop where
  waits : s.waits t = 5 * m + 2 * (openedBefore c m).length
  log : ∀ u, s.mem.log u = iterations c u (openedBefore c m)
  results : s.mem.results t = (List.range m).map (result c)
  cost : ∀ k, (s.mem.p k).cost = ((before c m).p k).cost
  assign : ∀ k, (s.mem.p k).assign = ((before c m).p k).assign
  kcenter : s.mem.kcenter = (before c m).numcenters

theorem Reachable.left (h : Reachable c s) (ht : Outside (s.thread t)) : Left c s t (s.mem.results t).length := by
  obtain ⟨-, m, g, h⟩ := h
  obtain ⟨hmode, hpc⟩ := ht
  have hat := h.place t
  have hrest : g = .rest := by
    rcases hpc with hpc | hpc <;> rw [hpc] at hat <;> cases hat <;> rfl
  subst hrest
  have hne : (s.thread t).pc ≠ .leave := by
    rcases hpc with hpc | hpc <;> simp [hpc]
  obtain ⟨hagrees, -⟩ := h.data
  have hresults := h.results t
  rw [if_neg hne, Nat.sub_zero] at hresults
  have hlength : (s.mem.results t).length = m := by rw [hresults, List.length_map, List.length_range]
  rw [hlength]
  refine ⟨?_, hagrees.log, hresults, fun k => by rw [hagrees.p], fun k => by rw [hagrees.p], hagrees.kcenter⟩
  rw [h.waits, hagrees.opened, hmode]
  rfl

/-- Before a random decision all threads have applied the centers that have been opened. -/
theorem Reachable.applied (h : Reachable c s) (hpc : (s.thread (zero c)).pc = .decide) (t : Fin c.nproc) :
    s.mem.log t = iterations c t s.mem.opened := by
  obtain ⟨-, m, g, h⟩ := h
  have hat := h.place (zero c)
  rw [hpc] at hat
  cases hat with
  | @decide j h0 hopen =>
    have hdata : Choosing c m j s.mem _ := h.data
    rw [hdata.agrees.log, hdata.agrees.opened]

/-- CORRECT: in every run of the threads of `pspeedy`, call after call, every thread has done its block for
    every center before the next random decision; a thread that has left a call has waited as often as the
    others, and returns and leaves behind what one thread does; and unless all threads have come to their end
    one of them can run or the barrier lets them go. -/
theorem threads_eq_pspeedy (i : ℕ) (costs : ℕ → K) (totalcost : K) {acts : List (Act c.nproc)}
    (hrun : exec (Monitor.step (op c)) (start c i costs totalcost) acts = some s) :
    ((s.thread (zero c)).pc = .decide → ∀ t, s.mem.log t = iterations c t s.mem.opened) ∧
    (∀ t, Outside (s.thread t) → Left c s t (s.mem.results t).length) ∧
    ((∀ t, (s.thread t).pc = .done) ∨ (∃ t, (Monitor.step (op c) s (.run t)).isSome) ∨
      (Monitor.step (op c) s .release).isSome) := by
  have h := reachable_exec hrun
  exact ⟨h.applied, fun t => h.left, h.progress⟩

end Steps

/-- One call with the two points of `line`. The second point becomes a center, since all draws are 0. -/
def lineCall : Calls ℚ := ⟨line.blocks, 1, 1, fun _ => 1, fun _ _ => 0, together⟩

/-- A run of both threads: thread 1 sleeps on the condition variable when thread 0 opens the center. -/
def lineRun : List (Act lineCall.nproc) :=
  let zero := Act.run ⟨0, by decide⟩
  let one := Act.run ⟨1, by decide⟩
  [one, zero, .release] ++ [one, one, one, zero, zero, zero, .release] ++
    [one, one, one, zero, zero, zero, zero, zero, zero, one, one, one, one, one, one, one, zero, zero, zero,
      .release] ++
    [one, zero, zero, .release] ++
    [one, one, one, zero, zero, zero, zero, zero, zero, one, one, one, one, one, zero, .release] ++
    [one, one, one, zero, zero, zero, .release] ++ [one, zero, zero, .release] ++ [one, zero]

theorem threads_eq_pspeedy_line : ∃ s, exec (Monitor.step (op lineCall))
    (start lineCall 0 (fun _ => 0) 0) lineRun = some s ∧
    ∀ t, (s.thread t).pc = .done ∧ Left lineCall s t 1 := by
  have hend : (exec (Monitor.step (op lineCall)) (start lineCall 0 (fun _ => 0) 0) lineRun).any (fun s =>
      decide (∀ t, (s.thread t).mode = .running ∧ (s.thread t).pc = .done ∧ (s.mem.results t).length = 1)) =
        true := by
    decide +kernel
  obtain ⟨s, hrun, hdone⟩ := (Option.any_eq_true _ _).1 hend
  refine ⟨s, hrun, fun t => ?_⟩
  obtain ⟨hmode, hpc, hlength⟩ := of_decide_eq_true hdone t
  exact ⟨hpc, hlength ▸ (threads_eq_pspeedy 0 (fun _ => 0) 0 hrun).2.1 t ⟨hmode, .inr hpc⟩⟩

end Turkey.Handshake
