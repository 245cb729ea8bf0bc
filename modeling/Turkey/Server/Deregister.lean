import Turkey.Server.Stages

/-! A client that has stopped does not stay registered, provided that `stop()` finds `registered_`
    set. The flag is set by the message thread once its poll sees the server's answer, so a `stop()`
    that comes before that, or after the poll has timed out, returns without sending Stop although
    Start is on its way. -/

namespace Turkey.Protocol
open Turkey.Run Turkey.Sched
variable {ι : Type*} [DecidableEq ι]

/-- The condition on `stop()`: whenever it tests `registered_`, the flag is set. -/
def StopsRegistered (w : World ι) : Action ι → Prop
  | .move i m => m = .stopTest → (w.client i).registered = true
  | _ => True

instance (w : World ι) : ∀ a, Decidable (StopsRegistered w a)
  | .move i m => inferInstanceAs (Decidable (m = .stopTest → (w.client i).registered = true))
  | .arrive _ => .isTrue trivial
  | .handle _ => .isTrue trivial

/-- Under the condition a `stop()` that has returned has sent Stop. -/
theorem stopSent_clientStep {pid : ℤ} {c c' : Client} {mv : Move} {ms : List Message}
    (hc : clientStep pid c mv = some (c', ms)) (hgood : mv = .stopTest → c.registered = true)
    (hjoin : c.main = .joining → c.stopSent = true)
    (h : c.main = .stopped → c.stopSent = true) : c'.main = .stopped → c'.stopSent = true := by
  rcases clientStep_cases hc with ⟨rfl, hm, rfl, rfl⟩ | ⟨rfl, ht, rfl, rfl⟩ | ⟨rfl, ht, rfl, rfl⟩ |
    ⟨rfl, ht, rfl, rfl⟩ | ⟨rfl, ht, rfl, rfl⟩ | ⟨rfl, ht, rfl, m, rest, hi, rfl⟩ |
    ⟨rfl, hm, rfl, rfl⟩ | ⟨rfl, hm, rfl, rfl⟩ | ⟨rfl, hm, rfl, rfl⟩
  case inr.inr.inr.inr.inr.inl => rwa [dispatch_main, dispatch_stopSent]
  case inr.inr.inr.inr.inr.inr.inl =>
    intro hs
    rw [if_pos (hgood rfl)] at hs
    cases hs
  case inr.inr.inr.inr.inr.inr.inr.inr => exact fun _ => hjoin hm
  all_goals simp_all

theorem stopSent_exec {py : Python ι} {pid : ι → ℤ} {R : ℕ} {d : ℤ} {as : List (Action ι)}
    {w : World ι} (hgood : Meets (step py pid) StopsRegistered (World.new R d) as)
    (h : exec (step py pid) (World.new R d) as = some w) (i : ι) :
    (w.client i).main = .stopped → (w.client i).stopSent = true := by
  refine (exec_inv_of_meets (I := fun w : World ι => ∀ i,
    Tidy (pid i) (w.client i) (w.up i) (w.down i) (w.sent i) (i ∈ w.server.tasks) ∧
    ((w.client i).main = .stopped → (w.client i).stopSent = true)) ?_ ?_ hgood h i).2
  · intro w a w' hI hG ha i
    refine ⟨tidy_step (fun i => (hI i).1) ha i, ?_⟩
    cases a with
    | move j mv =>
      obtain ⟨-, c, ms, hc, rfl⟩ := moveStep_eq_some ha
      by_cases hij : i = j
      · subst hij
        simp only [Function.update_self]
        exact stopSent_clientStep hc hG (hI i).1.joining (hI i).2
      · simpa only [Function.update_of_ne hij] using (hI i).2
    | arrive j =>
      obtain ⟨m, rest, -, rfl⟩ := arriveStep_eq_some ha
      by_cases hij : i = j
      · subst hij; simpa only [Function.update_self] using (hI i).2
      · simpa only [Function.update_of_ne hij] using (hI i).2
    | handle j =>
      obtain ⟨-, m, rest, -, rfl⟩ := handleStep_eq_some ha
      exact (hI i).2
  · exact fun i => ⟨tidy_world_new pid R d i, by simp [World.new, Client.new]⟩

/-- In a state with nothing of client `i` unhandled, a client that has left is no task. -/
def LeavesServer (w : World ι) (i : ι) : Prop :=
  (w.client i).main = .stopped ∨ (w.client i).exited = true → w.up i = [] → i ∉ w.server.tasks

/-- CORRECT: in every run in which `stop()` finds `registered_` set whenever it tests it, a client
    whose `stop()` has returned, or that has exited, and whose messages are all handled is not
    registered with the server. -/
theorem stopped_not_registered (py : Python ι) (pid : ι → ℤ) (R : ℕ) (d : ℤ)
    (as : List (Action ι)) (w : World ι)
    (hgood : Meets (step py pid) StopsRegistered (World.new R d) as)
    (h : exec (step py pid) (World.new R d) as = some w) (i : ι) : LeavesServer w i := by
  intro hleft hup
  have htidy := tidy_exec h i
  refine htidy.stage.of_empty hup ?_
  rcases hleft with hm | hx
  · exact stopSent_exec hgood h i hm
  · obtain ⟨m, hm, hs⟩ := htidy.exited hx
    exact (htidy.answered m (htidy.genuine m (List.mem_append_left _ hm)) hs).1

/-- One client from `start()` to the exit in its Stop handler. -/
def orderlyRun : List (Action ℕ) :=
  [.move 1 .start, .move 1 .sendStart, .handle 1, .arrive 1, .move 1 .pollIn, .move 1 .recvHeader,
    .arrive 1, .move 1 .recvMessage, .move 1 .recvHeader, .move 1 .stopTest, .move 1 .sendStop,
    .handle 1, .arrive 1, .move 1 .recvMessage]

theorem stopped_not_registered_orderly :
    ∃ w, exec (step (Python.listed ℕ) (fun i => i)) (World.new 64 1) orderlyRun = some w ∧
      (w.client 1).exited = true ∧ w.up 1 = [] ∧ 1 ∉ w.server.tasks := by
  refine ⟨_, rfl, rfl, rfl, ?_⟩
  exact stopped_not_registered (Python.listed ℕ) (fun i => i) 64 1 orderlyRun _ (by decide) rfl 1
    (Or.inr rfl) rfl

/-- The server answers after the poll has timed out: `stop()` returns without sending Stop, and the
    Start that is handled afterwards registers the client for good. -/
theorem stopped_registered_after_timeout :
    ¬ ∀ (as : List (Action ℕ)) (w : World ℕ) (i : ℕ),
      exec (step (Python.listed ℕ) (fun i => i)) (World.new 64 1) as = some w → LeavesServer w i := by
  intro h
  refine h [.move 1 .start, .move 1 .sendStart, .move 1 .pollTimeout, .move 1 .stopTest, .handle 1] _ 1
    rfl (Or.inl rfl) rfl ?_
  decide

end Turkey.Protocol
