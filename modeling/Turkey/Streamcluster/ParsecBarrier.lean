import Turkey.Schemes.Monitor
import Turkey.Schemes.Uses

/-! `parsec_barrier_wait` (`parsec_barrier.cpp`), the barrier that replaces the one of the threads library.

    A call takes the mutex, waits for an arrival phase, is counted, waits for the departure phase, is counted
    again and gives the mutex back. With `ENABLE_SPIN_BARRIER` a thread first looks at the flag without the
    mutex for a while, and only then sleeps on the condition variable; without it, the thread sleeps at once.
    Both versions are the program below. The calls to the threads library succeed. -/

namespace Turkey.ParsecBarrier
open Turkey.Run (exec)
open Turkey.Monitor (Op Sys Thread Mode Sound)

/-- An error code of `errno.h`. -/
def EINVAL : ℤ := 22

/-- An error code of `errno.h`. -/
def EINTR : ℤ := 4

/-- What one thread of each use gets. -/
def PARSEC_BARRIER_SERIAL_THREAD : ℤ := EINTR

/-- How often a thread looks at the flag before it sleeps. -/
def SPIN_COUNTER_MAX : ℕ := 350 * 100

/-- `parsec_barrier_t` without the mutex and the condition variable. -/
structure Barrier where
  max : ℕ
  n : ℕ
  isArrivalPhase : Bool

/-- `parsec_barrier_init` -/
def parsecBarrierInit (count : ℕ) : Except ℤ Barrier :=
  if count ≤ 0 then .error EINVAL else .ok { max := count, n := 0, isArrivalPhase := true }

/-- What a thread waits for: the phase in which it can arrive, or the one in which it can leave. -/
inductive Gate where
  | arrival
  | departure (master : Bool)

/-- Where a thread is in `parsec_barrier_wait`; at `away` it has not called it. -/
inductive Pc where
  | away
  | call
  | test (g : Gate)
  | release (g : Gate)
  | poll (g : Gate) (i : ℕ)
  | retake (g : Gate)
  | again (g : Gate)
  | sleep (g : Gate)
  | arrive
  | announce (master : Bool)
  | leave (master : Bool)
  | reopen (master : Bool)
  | finish (master : Bool)
  | ret (master : Bool)

/-- `entered` counts the calls of a thread, and `results` says what they have returned. -/
structure Memory (k : ℕ) where
  barrier : Barrier
  entered : Fin k → ℕ
  results : Fin k → List ℤ

/-- The thread need not wait. -/
def Gate.isOpen (b : Barrier) : Gate → Bool
  | .arrival => b.isArrivalPhase
  | .departure _ => !b.isArrivalPhase

/-- Behind the loop that waits. -/
def Gate.pass : Gate → Pc
  | .arrival => .arrive
  | .departure m => .leave m

/-- Where the waiting begins. -/
def Gate.enter (spin : Bool) (g : Gate) : Pc := if spin then .test g else .again g

variable {k : ℕ}

/-- A thread is counted; the first one is the master, and the last one ends the arrival phase. -/
def arriveAt (spin : Bool) (a : Memory k) : Memory k × Pc :=
  let master : Bool := a.barrier.n = 0
  let b : Barrier := { a.barrier with n := a.barrier.n + 1 }
  if b.n ≥ b.max then ({ a with barrier := { b with isArrivalPhase := false } }, .announce master)
  else ({ a with barrier := b }, (Gate.departure master).enter spin)

/-- A thread leaves; the last one starts a new arrival phase. -/
def leaveFrom (m : Bool) (a : Memory k) : Memory k × Pc :=
  let b : Barrier := { a.barrier with n := a.barrier.n - 1 }
  if b.n = 0 then ({ a with barrier := { b with isArrivalPhase := true } }, .reopen m)
  else ({ a with barrier := b }, .finish m)

/-- What a call returns. -/
def returnValue (m : Bool) : ℤ := if m then PARSEC_BARRIER_SERIAL_THREAD else 0

/-- The code of thread `t`. The loop around `pthread_mutex_trylock` is one step, the one that succeeds. -/
def op (spin : Bool) (t : Fin k) : Pc → Op (Memory k) Pc
  | .away => .access fun a => ({ a with entered := Function.update a.entered t (a.entered t + 1) }, .call)
  | .call => .lock (Gate.arrival.enter spin)
  | .test g => .access fun a => (a, if g.isOpen a.barrier then g.pass else .release g)
  | .release g => .unlock (.poll g 0)
  | .poll g i => .access fun a =>
      (a, if g.isOpen a.barrier = false ∧ i < SPIN_COUNTER_MAX then .poll g (i + 1) else .retake g)
  | .retake g => .lock (.again g)
  | .again g => .access fun a => (a, if g.isOpen a.barrier then g.pass else .sleep g)
  | .sleep g => .wait (.again g)
  | .arrive => .access (arriveAt spin)
  | .announce m => .broadcast (.leave m)
  | .leave m => .access (leaveFrom m)
  | .reopen m => .broadcast (.finish m)
  | .finish m => .unlock (.ret m)
  | .ret m => .access fun a =>
      ({ a with results := Function.update a.results t (a.results t ++ [returnValue m]) }, .away)

/-- The threads before their first call. -/
def start (b : Barrier) : Sys k (Memory k) Pc where
  mem := ⟨b, fun _ => 0, fun _ => []⟩
  thread _ := ⟨.away, .running⟩
  holder := none
  waits _ := 0

/-- The places at which a thread has the mutex. -/
def holds : Pc → Bool
  | .away | .call | .poll _ _ | .retake _ | .ret _ => false
  | _ => true

theorem holds_enter (spin : Bool) (g : Gate) : holds (g.enter spin) = true := by
  cases spin <;> rfl

theorem holds_pass (g : Gate) : holds g.pass = true := by
  cases g <;> rfl

theorem op_keeps (spin : Bool) (t : Fin k) (p : Pc) : (op spin t p).Keeps holds p := by
  cases p with
  | call => exact ⟨rfl, holds_enter spin .arrival⟩
  | test g | again g =>
    intro a
    dsimp only
    split_ifs
    · exact holds_pass g
    · rfl
  | poll g i =>
    intro a
    dsimp only
    split_ifs <;> rfl
  | arrive =>
    intro a
    dsimp only [arriveAt]
    split_ifs
    · rfl
    · exact holds_enter spin _
  | leave m =>
    intro a
    dsimp only [leaveFrom]
    split_ifs <;> rfl
  | release g | retake g | sleep g | finish m => exact ⟨rfl, rfl⟩
  | away | ret m => exact fun _ => rfl
  | announce m | reopen m => rfl

/-! ### The uses -/

/-- Where a thread that waits is in its use of the barrier. -/
def Gate.stage : Gate → Uses.Stage
  | .arrival => .before
  | .departure m => .inside m

/-- Where a thread is in its use of the barrier. -/
def Pc.stage : Pc → Uses.Stage
  | .away => .away
  | .call | .arrive => .before
  | .test g | .release g | .poll g _ | .retake g | .again g | .sleep g => g.stage
  | .announce m | .leave m => .inside m
  | .reopen m | .finish m | .ret m => .gone m

@[simp] theorem stage_enter (spin : Bool) (g : Gate) : (g.enter spin).stage = g.stage := by
  cases spin <;> rfl

@[simp] theorem stage_pass (g : Gate) : g.pass.stage = g.stage := by
  cases g <;> rfl

/-- The barrier as the uses see it. -/
def Memory.uses (a : Memory k) : Uses.Barrier k where
  count := a.barrier.n
  isArrivalPhase := a.barrier.isArrivalPhase
  entered := a.entered
  results t := (a.results t).map (· == PARSEC_BARRIER_SERIAL_THREAD)

theorem uses_arriveAt {spin : Bool} {a : Memory k} (hmax : a.barrier.max = k) :
    (arriveAt spin a).1.uses = a.uses.arrive := by
  rcases le_or_gt k (a.barrier.n + 1) with hlast | hmore
  · simp [arriveAt, Uses.Barrier.arrive, Memory.uses, hmax, hlast]
  · simp [arriveAt, Uses.Barrier.arrive, Memory.uses, hmax, hmore.not_ge]

theorem uses_leaveFrom {m : Bool} {a : Memory k} : (leaveFrom m a).1.uses = a.uses.depart := by
  rcases eq_or_ne (a.barrier.n - 1) 0 with hlast | hmore
  · simp [leaveFrom, Uses.Barrier.depart, Memory.uses, hlast]
  · simp [leaveFrom, Uses.Barrier.depart, Memory.uses, hmore]

theorem results_beq (m : Bool) : (returnValue m == PARSEC_BARRIER_SERIAL_THREAD) = m := by
  cases m <;> rfl

theorem uses_returns (a : Memory k) (t : Fin k) (m : Bool) :
    Memory.uses { a with results := Function.update a.results t (a.results t ++ [returnValue m]) } =
      a.uses.returns t m := by
  rw [Memory.uses, Uses.Barrier.returns]
  congr 1
  funext u
  rcases eq_or_ne u t with rfl | hne
  · simp [Memory.uses, results_beq]
  · simp [Memory.uses, hne]

/-! ### The invariant -/

/-- A thread that is about to wake up the others. -/
def Pc.announces : Pc → Bool
  | .announce _ | .reopen _ => true
  | _ => false

/-- What a thread that has the mutex knows about the phase. -/
def At (b : Barrier) : Pc → Prop
  | .arrive => b.isArrivalPhase = true
  | .announce _ | .leave _ => b.isArrivalPhase = false
  | .sleep g => g.isOpen b = false
  | _ => True

theorem at_enter (b : Barrier) (spin : Bool) (g : Gate) : At b (g.enter spin) := by
  cases spin <;> trivial

theorem at_pass {b : Barrier} {g : Gate} (h : g.isOpen b = true) : At b g.pass := by
  cases g with
  | arrival => exact h
  | departure m => simpa [Gate.isOpen, Gate.pass, At] using h

/-- Invariant: the uses are in order, and a thread only sleeps through a change of the phase as long as somebody is
    about to wake it up. -/
structure Inv (spin : Bool) (s : Sys k (Memory k) Pc) : Prop where
  sound : Sound (op spin) holds s
  max : s.mem.barrier.max = k
  ok : Uses.Ok s.mem.uses fun t => (s.thread t).pc.stage
  knows : ∀ t, At s.mem.barrier (s.thread t).pc
  closed : (∀ t, (s.thread t).pc.announces = false) → ∀ t g, (s.thread t).mode = .asleep →
    (s.thread t).pc = .again g →
    g.isOpen s.mem.barrier = false

variable {spin : Bool} {s s' : Sys k (Memory k) Pc} {t : Fin k}

theorem op_eq_wait {p q : Pc} (h : op spin t p = .wait q) : ∃ g, p = .sleep g ∧ q = .again g := by
  cases p <;> simp [op] at h
  exact ⟨_, rfl, h.symm⟩

theorem op_ne_barrier (p q : Pc) : op spin t p ≠ .barrier q := by
  cases p <;> simp [op]

theorem op_ne_stop (p : Pc) : op spin t p ≠ .stop := by
  cases p <;> simp [op]

namespace Inv

/-- A thread without the mutex knows nothing about the phase. -/
theorem knows_of_not_holder (h : Inv spin s) {u : Fin k} (hu : s.holder ≠ some u) (b : Barrier) :
    At b (s.thread u).pc := by
  have hrest : (∃ q, op spin u q = .wait (s.thread u).pc) ∨ holds (s.thread u).pc = false := by
    cases hmode : (s.thread u).mode with
    | running =>
      refine .inr (Bool.eq_false_iff.2 fun hheld => hu ?_)
      exact (h.sound.holder u).2 ⟨hmode, hheld⟩
    | asleep => exact .inl (h.sound.waiting u (.inl hmode))
    | woken => exact .inl (h.sound.waiting u (.inr hmode))
    | arrived =>
      obtain ⟨q, hq⟩ := h.sound.arrived u hmode
      exact absurd hq (op_ne_barrier _ _)
  obtain ⟨q, hq⟩ | hheld := hrest
  · obtain ⟨g, -, hg⟩ := op_eq_wait hq
    rw [hg]
    trivial
  · cases hpc : (s.thread u).pc <;> first | trivial | simp [hpc, holds] at hheld

/-- A step of one thread. -/
theorem update (h : Inv spin s) {x : Thread Pc} {mem : Memory k} (hsound : Sound (op spin) holds s')
    (hmem : s'.mem = mem) (hthread : s'.thread = Function.update s.thread t x) (hmax : mem.barrier.max = k)
    (hok : Uses.Ok mem.uses (Function.update (fun u => (s.thread u).pc.stage) t x.pc.stage))
    (hself : At mem.barrier x.pc) (hothers : mem.barrier = s.mem.barrier ∨ s.holder = some t)
    (hphase : x.pc.announces = true ∨
      mem.barrier.isArrivalPhase = s.mem.barrier.isArrivalPhase ∧ (s.thread t).pc.announces = false)
    (hclosed : x.mode = .asleep → ∀ g, x.pc = .again g → g.isOpen mem.barrier = false) : Inv spin s' := by
  subst hmem
  refine ⟨hsound, hmax, ?_, fun u => ?_, fun hnone u g => ?_⟩ <;> rw [hthread] at *
  · convert hok using 1
    funext u
    rcases eq_or_ne u t with rfl | hne
    · simp
    · simp [hne]
  · rcases eq_or_ne u t with rfl | hne
    · rw [Function.update_self]
      exact hself
    · rw [Function.update_of_ne hne]
      obtain hsame | hholder := hothers
      · rw [hsame]
        exact h.knows u
      · refine h.knows_of_not_holder ?_ _
        rw [hholder]
        exact fun hu => hne (Option.some.inj hu).symm
  · rcases eq_or_ne u t with rfl | hne
    · rw [Function.update_self]
      exact fun hmode hpc => hclosed hmode g hpc
    · rw [Function.update_of_ne hne]
      intro hmode hpc
      have hx := hnone t
      rw [Function.update_self] at hx
      obtain hannounces | ⟨hsame, ht⟩ := hphase
      · simp [hx] at hannounces
      · have hbefore := h.closed (fun v => ?_) u g hmode hpc
        · cases g <;> simpa [Gate.isOpen, hsame] using hbefore
        · rcases eq_or_ne v t with rfl | hvt
          · exact ht
          · have hv := hnone v
            rwa [Function.update_of_ne hvt] at hv

/-- Nobody sleeps any more after a call to the others. -/
theorem broadcast (h : Inv spin s) {p : Pc} (hsound : Sound (op spin) holds s') (hmem : s'.mem = s.mem)
    (hthread : s'.thread = Function.update (fun u => (s.thread u).wake) t ⟨p, .running⟩)
    (hstage : p.stage = (s.thread t).pc.stage) (hself : At s.mem.barrier p) : Inv spin s' := by
  have hwake : ∀ u, (s.thread u).wake.pc = (s.thread u).pc ∧ (s.thread u).wake.mode ≠ .asleep := by
    intro u
    rw [Thread.wake]
    split_ifs with hmode
    · exact ⟨rfl, by simp⟩
    · exact ⟨rfl, hmode⟩
  refine ⟨hsound, hmem ▸ h.max, ?_, fun u => ?_, fun _ u g => ?_⟩ <;> rw [hthread] <;> try rw [hmem]
  · convert h.ok using 1
    funext u
    rcases eq_or_ne u t with rfl | hne
    · simp [hstage]
    · simp [hne, hwake]
  · rcases eq_or_ne u t with rfl | hne
    · rw [Function.update_self]
      exact hself
    · rw [Function.update_of_ne hne, (hwake u).1]
      exact h.knows u
  · rcases eq_or_ne u t with rfl | hne
    · simp
    · rw [Function.update_of_ne hne]
      exact fun hmode => absurd hmode (hwake u).2

/-- A step that changes nothing about the barrier, and leaves the thread in its stage. -/
theorem stay (h : Inv spin s) {x : Thread Pc} (hsound : Sound (op spin) holds s') (hmem : s'.mem = s.mem)
    (hthread : s'.thread = Function.update s.thread t x) (hstage : x.pc.stage = (s.thread t).pc.stage)
    (hself : At s.mem.barrier x.pc) (hquiet : (s.thread t).pc.announces = false)
    (hclosed : x.mode = .asleep → ∀ g, x.pc = .again g → g.isOpen s.mem.barrier = false) : Inv spin s' := by
  refine h.update hsound hmem hthread h.max ?_ hself (.inl rfl) (.inr ⟨rfl, hquiet⟩) hclosed
  rw [hstage, Function.update_eq_self (f := fun u => (s.thread u).pc.stage)]
  exact h.ok

/-- A thread runs. -/
theorem access (h : Inv spin s) {f : Memory k → Memory k × Pc} (hmode : (s.thread t).mode = .running)
    (hop : op spin t (s.thread t).pc = .access f)
    (hsound : Sound (op spin) holds (Sys.goto { s with mem := (f s.mem).1 } t (f s.mem).2)) :
    Inv spin (Sys.goto { s with mem := (f s.mem).1 } t (f s.mem).2) := by
  have hheld : holds (s.thread t).pc = true → s.holder = some t := fun hheld => (h.sound.holder t).2 ⟨hmode, hheld⟩
  have hknows := h.knows t
  cases hpc : (s.thread t).pc with
  | away =>
    rw [hpc] at hop
    cases hop
    refine h.update hsound rfl rfl h.max ?_ trivial (.inl rfl) (.inr ⟨rfl, by rw [hpc]; rfl⟩) (by simp)
    exact h.ok.move (.enter (by rw [hpc]; rfl))
  | test g =>
    rw [hpc] at hop
    cases hop
    refine h.stay hsound rfl rfl ?_ ?_ (by rw [hpc]; rfl) (by simp) <;> dsimp only <;> split_ifs with hopen
    · rw [hpc]
      exact stage_pass g
    · rw [hpc]
      rfl
    · exact at_pass hopen
    · trivial
  | poll g i =>
    rw [hpc] at hop
    cases hop
    refine h.stay hsound rfl rfl ?_ ?_ (by rw [hpc]; rfl) (by simp) <;> dsimp only <;> split_ifs
    · rw [hpc]
      rfl
    · rw [hpc]
      rfl
    · trivial
    · trivial
  | again g =>
    rw [hpc] at hop
    cases hop
    refine h.stay hsound rfl rfl ?_ ?_ (by rw [hpc]; rfl) (by simp) <;> dsimp only <;> split_ifs with hopen
    · rw [hpc]
      exact stage_pass g
    · rw [hpc]
      rfl
    · exact at_pass hopen
    · exact Bool.eq_false_iff.2 hopen
  | arrive =>
    have hstage : (s.thread t).pc.stage = .before := by rw [hpc]; rfl
    rw [hpc] at hop hknows
    cases hop
    have hok := h.ok.move (.arrive hstage hknows)
    have huses : (arriveAt spin s.mem).1.uses = s.mem.uses.arrive := uses_arriveAt h.max
    rw [← huses] at hok
    have hholder := hheld (by rw [hpc]; rfl)
    refine h.update hsound rfl rfl ?_ ?_ ?_ (.inr hholder) ?_ (by simp)
    · rw [arriveAt]
      split_ifs <;> exact h.max
    · rw [arriveAt] at hok ⊢
      split_ifs at hok ⊢
      · exact hok
      · dsimp only
        rw [stage_enter]
        exact hok
    · rw [arriveAt]
      split_ifs
      · rfl
      · exact at_enter _ _ _
    · rw [arriveAt, hpc]
      split_ifs
      · exact .inl rfl
      · exact .inr ⟨rfl, rfl⟩
  | leave m =>
    have hstage : (s.thread t).pc.stage = .inside m := by rw [hpc]; rfl
    rw [hpc] at hop hknows
    cases hop
    have hok := h.ok.move (.depart m hstage hknows)
    rw [← uses_leaveFrom (m := m)] at hok
    have hholder := hheld (by rw [hpc]; rfl)
    refine h.update hsound rfl rfl ?_ ?_ ?_ (.inr hholder) ?_ (by simp)
    · rw [leaveFrom]
      split_ifs <;> exact h.max
    · rw [leaveFrom] at hok ⊢
      split_ifs at hok ⊢ <;> exact hok
    · rw [leaveFrom]
      split_ifs <;> trivial
    · rw [leaveFrom, hpc]
      split_ifs
      · exact .inl rfl
      · exact .inr ⟨rfl, rfl⟩
  | ret m =>
    have hstage : (s.thread t).pc.stage = .gone m := by rw [hpc]; rfl
    rw [hpc] at hop
    cases hop
    refine h.update hsound rfl rfl h.max ?_ trivial (.inl rfl) (.inr ⟨rfl, by rw [hpc]; rfl⟩) (by simp)
    have hok := h.ok.move (.returns m hstage)
    rw [← uses_returns] at hok
    exact hok
  | _ => simp [hpc, op] at hop

/-- One step of the threads keeps the invariant. -/
theorem moves (h : Inv spin s) (hs : Monitor.Moves (op spin) s t s') : Inv spin s' := by
  have hsound := h.sound.moves (op_keeps spin) hs
  cases hs with
  | access f hmode hop => exact h.access hmode hop hsound
  | lock p hmode hop hnone =>
    cases hpc : (s.thread t).pc with
    | call =>
      rw [hpc] at hop
      cases hop
      refine h.stay hsound rfl rfl ?_ (at_enter _ _ _) (by rw [hpc]; rfl) (by simp)
      dsimp only
      rw [stage_enter, hpc]
      rfl
    | retake g =>
      rw [hpc] at hop
      cases hop
      exact h.stay hsound rfl rfl (by rw [hpc]; rfl) trivial (by rw [hpc]; rfl) (by simp)
    | _ => simp [hpc, op] at hop
  | unlock p hmode hop =>
    cases hpc : (s.thread t).pc with
    | release g =>
      rw [hpc] at hop
      cases hop
      exact h.stay hsound rfl rfl (by rw [hpc]; rfl) trivial (by rw [hpc]; rfl) (by simp)
    | finish m =>
      rw [hpc] at hop
      cases hop
      exact h.stay hsound rfl rfl (by rw [hpc]; rfl) trivial (by rw [hpc]; rfl) (by simp)
    | _ => simp [hpc, op] at hop
  | wait p hmode hop =>
    have hknows := h.knows t
    obtain ⟨g, hpc, rfl⟩ := op_eq_wait hop
    rw [hpc] at hknows
    refine h.stay hsound rfl rfl (by rw [hpc]; rfl) trivial (by rw [hpc]; rfl) (fun _ g' hg => ?_)
    cases hg
    exact hknows
  | broadcast p hmode hop =>
    have hknows := h.knows t
    cases hpc : (s.thread t).pc with
    | announce m =>
      rw [hpc] at hop hknows
      cases hop
      exact h.broadcast hsound rfl rfl (by rw [hpc]; rfl) hknows
    | reopen m =>
      rw [hpc] at hop
      cases hop
      exact h.broadcast hsound rfl rfl (by rw [hpc]; rfl) trivial
    | _ => simp [hpc, op] at hop
  | barrier p hmode hop => exact absurd hop (op_ne_barrier _ _)
  | woken hmode hnone =>
    obtain ⟨q, hq⟩ := h.sound.waiting t (.inr hmode)
    obtain ⟨g, -, hpc⟩ := op_eq_wait hq
    exact h.stay hsound rfl rfl rfl (h.knows t) (by rw [hpc]; rfl) (by simp)

theorem step (h : Inv spin s) (hk : 0 < k) {a : Monitor.Act k} (hs : Monitor.step (op spin) s a = some s') :
    Inv spin s' := by
  have hsound := h.sound.step (op_keeps spin) hs
  cases a with
  | run t => exact h.moves (Monitor.moves_of_step hs)
  | wake t =>
    simp only [Monitor.step, Option.ite_none_right_eq_some, Option.some.injEq] at hs
    obtain ⟨hmode, rfl⟩ := hs
    obtain ⟨q, hq⟩ := h.sound.waiting t (.inl hmode)
    obtain ⟨g, -, hpc⟩ := op_eq_wait hq
    exact h.stay hsound rfl rfl rfl (h.knows t) (by rw [hpc]; rfl) (by simp)
  | release =>
    simp only [Monitor.step, Option.ite_none_right_eq_some, Option.some.injEq] at hs
    obtain ⟨q, hq⟩ := h.sound.arrived ⟨0, hk⟩ (hs.1 _)
    exact absurd hq (op_ne_barrier _ _)

theorem start (hk : 0 < k) : Inv spin (start (k := k) ⟨k, 0, true⟩) :=
  ⟨⟨fun _ => by simp [ParsecBarrier.start, holds], by simp [ParsecBarrier.start], by simp [ParsecBarrier.start]⟩, rfl,
    Uses.Ok.start hk, fun _ => trivial, by simp [ParsecBarrier.start]⟩

/-- One of the threads can run. -/
theorem runs (h : Inv spin s) : ∃ t, (Monitor.step (op spin) s (.run t)).isSome = true := by
  by_contra hnone
  have hstuck : ∀ t, Monitor.step (op spin) s (.run t) = none := by simpa using hnone
  have hasleep : ∀ t, (s.thread t).mode = .asleep := by
    intro t
    obtain hmode | hmode | ⟨-, hop⟩ := h.sound.stuck (op_keeps spin) hstuck t
    · exact hmode
    · obtain ⟨q, hq⟩ := h.sound.arrived t hmode
      exact absurd hq (op_ne_barrier _ _)
    · exact absurd hop (op_ne_stop _)
  have hpc : ∀ t, ∃ g, (s.thread t).pc = .again g := by
    intro t
    obtain ⟨q, hq⟩ := h.sound.waiting t (.inl (hasleep t))
    obtain ⟨g, -, hg⟩ := op_eq_wait hq
    exact ⟨g, hg⟩
  have hquiet : ∀ t, (s.thread t).pc.announces = false := by
    intro t
    obtain ⟨g, hg⟩ := hpc t
    rw [hg]
    rfl
  -- all of them wait for the other phase, and then the counter is wrong
  have hcount := h.ok.count
  obtain ⟨j, huse⟩ := h.ok.use
  cases hphase : s.mem.barrier.isArrivalPhase with
  | true =>
    have hinside : ∀ t, (s.thread t).pc.stage.isInside = true := by
      intro t
      obtain ⟨g, hg⟩ := hpc t
      have hclosed := h.closed hquiet t g (hasleep t) hg
      rw [hg]
      cases g with
      | arrival => simp [Gate.isOpen, hphase] at hclosed
      | departure m => rfl
    rw [Uses.InUse, if_pos (by simp [Memory.uses, hphase])] at huse
    simp only [Uses.inside, hinside, Finset.filter_true, Finset.card_univ, Fintype.card_fin] at hcount
    exact huse.1.ne hcount
  | false =>
    have hinside : ∀ t, (s.thread t).pc.stage.isInside = false := by
      intro t
      obtain ⟨g, hg⟩ := hpc t
      have hclosed := h.closed hquiet t g (hasleep t) hg
      rw [hg]
      cases g with
      | arrival => rfl
      | departure m => simp [Gate.isOpen, hphase] at hclosed
    rw [Uses.InUse, if_neg (by simp [Memory.uses, hphase])] at huse
    simp only [Uses.inside, hinside, Bool.false_eq_true, Finset.filter_false, Finset.card_empty] at hcount
    exact huse.1.ne' hcount

end Inv

theorem getElem?_uses (a : Memory k) (t : Fin k) (j : ℕ) :
    (a.uses.results t)[j]? = some true ↔ (a.results t)[j]? = some PARSEC_BARRIER_SERIAL_THREAD := by
  rw [Memory.uses, List.getElem?_map, Option.map_eq_some_iff]
  constructor
  · rintro ⟨x, hx, heq⟩
    rw [hx, eq_of_beq heq]
  · intro hx
    exact ⟨_, hx, rfl⟩

/-- CORRECT: in every run of `max` threads that call the barrier, no call returns before all threads have made as many
    calls, exactly one thread gets `PARSEC_BARRIER_SERIAL_THREAD` in each use, and when all threads are in a call,
    one of them can run. -/
theorem parsecBarrierWait_uses (spin : Bool) (max : ℕ) (hmax : 1 ≤ max) :
    ∃ b, parsecBarrierInit max = .ok b ∧ ∀ acts (s : Sys max (Memory max) Pc),
      exec (Monitor.step (op spin)) (start b) acts = some s →
      (∀ t u, (s.mem.results t).length ≤ s.mem.entered u) ∧
      (∀ (j : ℕ) t u, (s.mem.results t)[j]? = some PARSEC_BARRIER_SERIAL_THREAD →
        (s.mem.results u)[j]? = some PARSEC_BARRIER_SERIAL_THREAD → t = u) ∧
      (∀ j : ℕ, (∀ t, j < (s.mem.results t).length) →
        ∃! t, (s.mem.results t)[j]? = some PARSEC_BARRIER_SERIAL_THREAD) ∧
      ((∀ t, (s.thread t).pc ≠ .away) → ∃ t, (Monitor.step (op spin) s (.run t)).isSome = true) := by
  refine ⟨⟨max, 0, true⟩, ?_, fun acts s hrun => ?_⟩
  · rw [parsecBarrierInit, if_neg (by omega)]
  · have h : Inv spin s := Run.exec_inv (fun _ _ _ h hs => Inv.step h hmax hs) (Inv.start hmax) hrun
    have hlength : ∀ t, (s.mem.uses.results t).length = (s.mem.results t).length := by
      intro t
      simp [Memory.uses]
    refine ⟨fun t u => ?_, fun j t u ht hu => ?_, fun j hj => ?_, fun _ => h.runs⟩
    · rw [← hlength t]
      exact h.ok.length_results_le t u
    · rw [← getElem?_uses] at ht hu
      exact h.ok.master_unique ht hu
    · simp only [← getElem?_uses]
      refine h.ok.exists_master hmax fun t => ?_
      rw [hlength t]
      exact hj t

/-- Each of two threads makes a call. The first one sleeps, wakes up for no reason and sleeps again; the second one
    arrives, wakes it and returns, and then the first one returns. -/
def twoCalls : List (Monitor.Act 2) := List.replicate 6 (.run 0) ++ [.wake 0] ++ List.replicate 3 (.run 0) ++
  List.replicate 8 (.run 1) ++ List.replicate 6 (.run 0)

theorem parsecBarrierWait_uses_two : 1 ≤ 2 ∧ ∃ b s, parsecBarrierInit 2 = .ok b ∧
    exec (Monitor.step (op false)) (start b) twoCalls = some s ∧
    (s.mem.results 0, s.mem.results 1) = ([PARSEC_BARRIER_SERIAL_THREAD], [0]) ∧
    (∀ t u, (s.mem.results t).length ≤ s.mem.entered u) ∧
    (∀ (j : ℕ) t u, (s.mem.results t)[j]? = some PARSEC_BARRIER_SERIAL_THREAD →
      (s.mem.results u)[j]? = some PARSEC_BARRIER_SERIAL_THREAD → t = u) ∧
    (∀ j : ℕ, (∀ t, j < (s.mem.results t).length) →
      ∃! t, (s.mem.results t)[j]? = some PARSEC_BARRIER_SERIAL_THREAD) ∧
    ((∀ t, (s.thread t).pc ≠ .away) → ∃ t, (Monitor.step (op false) s (.run t)).isSome = true) := by
  obtain ⟨b, hb, hruns⟩ := parsecBarrierWait_uses false 2 (by decide)
  obtain rfl : ⟨2, 0, true⟩ = b := Except.ok.inj hb
  have hresults : (exec (Monitor.step (op false)) (start ⟨2, 0, true⟩) twoCalls).map
      (fun s : Sys 2 (Memory 2) Pc => (s.mem.results 0, s.mem.results 1)) =
        some ([PARSEC_BARRIER_SERIAL_THREAD], [0]) := by decide +kernel
  obtain ⟨s, hs, hs'⟩ := Option.map_eq_some_iff.1 hresults
  exact ⟨by decide, _, s, hb, hs, hs', hruns twoCalls s hs⟩

end Turkey.ParsecBarrier
