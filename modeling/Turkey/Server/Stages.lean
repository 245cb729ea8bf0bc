import Turkey.Server.Client

/-! The life of a client as the server sees it. Whatever the two threads and the channels do, a
    client sends Start at most once and Stop at most once and after it, so what it has sent, what of
    that is handled and whether it is a task fit together in six ways (`Stage`). The invariant `Tidy`
    ties the stage to the program counters and to the answers: once a Stop is answered the server
    sends that client nothing more. -/

namespace Turkey.Protocol
open Turkey.Run Turkey.Sched
variable {ι : Type*} [DecidableEq ι]

/-- The message thread has sent Start. -/
def Client.started (c : Client) : Bool := !(c.thread = .none || c.thread = .connect)

/-- Start sent or not, Stop sent or not, what the server has not handled yet, and whether the client
    is a task: the six ways these fit together. -/
inductive Stage (pid : ℤ) : Bool → Bool → List Message → Prop → Prop
  | idle {P : Prop} : ¬P → Stage pid false false [] P
  | starting {P : Prop} : ¬P → Stage pid true false [⟨.Start, pid⟩] P
  | member {P : Prop} : P → Stage pid true false [] P
  | both {P : Prop} : ¬P → Stage pid true true [⟨.Start, pid⟩, ⟨.Stop, pid⟩] P
  | leaving {P : Prop} : P → Stage pid true true [⟨.Stop, pid⟩] P
  | gone {P : Prop} : ¬P → Stage pid true true [] P

theorem Stage.congr {pid : ℤ} {a b : Bool} {u : List Message} {P Q : Prop} (h : Stage pid a b u P)
    (hPQ : P ↔ Q) : Stage pid a b u Q := by
  rwa [propext hPQ] at h

theorem Stage.sendStart {pid : ℤ} {a b : Bool} {u : List Message} {P : Prop}
    (h : Stage pid a b u P) (ha : a = false) : Stage pid true b (u ++ [⟨.Start, pid⟩]) P := by
  cases h with
  | idle hP => exact .starting hP
  | _ => cases ha

theorem Stage.sendStop {pid : ℤ} {a b : Bool} {u : List Message} {P : Prop}
    (h : Stage pid a b u P) (ha : a = true) (hb : b = false) :
    Stage pid a true (u ++ [⟨.Stop, pid⟩]) P := by
  cases h with
  | starting hP => exact .both hP
  | member hP => exact .leaving hP
  | idle hP => cases ha
  | _ => cases hb

/-- The server handles the client's next message: a Start makes it a task, a Stop ends that. -/
theorem Stage.handle {pid : ℤ} {a b : Bool} {m : Message} {u : List Message} {P Q : Prop}
    (h : Stage pid a b (m :: u) P) (hstart : m.type = .Start → Q) (hstop : m.type = .Stop → ¬Q) :
    Stage pid a b u Q := by
  cases h with
  | starting hP => exact .member (hstart rfl)
  | both hP => exact .leaving (hstart rfl)
  | leaving hP => exact .gone (hstop rfl)

theorem Stage.stop_head {pid : ℤ} {a b : Bool} {m : Message} {u : List Message} {P : Prop}
    (h : Stage pid a b (m :: u) P) (hm : m.type = .Stop) : b = true := by
  cases h with
  | starting hP => cases hm
  | both hP => rfl
  | leaving hP => rfl

theorem Stage.stop_rest {pid : ℤ} {a b : Bool} {m : Message} {u : List Message} {P : Prop}
    (h : Stage pid a b (m :: u) P) (hm : m.type = .Stop) : u = [] := by
  cases h with
  | starting hP => cases hm
  | both hP => cases hm
  | leaving hP => rfl

theorem Stage.not_stopSent {pid : ℤ} {a b : Bool} {u : List Message} {P : Prop}
    (h : Stage pid a b u P) (ha : a = false) : b = false := by
  cases h with
  | idle hP => rfl
  | _ => cases ha

theorem Stage.of_empty {pid : ℤ} {a b : Bool} {u : List Message} {P : Prop}
    (h : Stage pid a b u P) (hu : u = []) (hb : b = true) : ¬P := by
  cases h with
  | gone hP => exact hP
  | both hP => cases hu
  | leaving hP => cases hu
  | _ => cases hb

/-- The invariant of one client. `up` and `down` are its two channels, `sent` is all that the server
    has sent to it and `P` says that it is a task. -/
structure Tidy (pid : ℤ) (c : Client) (up down sent : List Message) (P : Prop) : Prop where
  stage : Stage pid c.started c.stopSent up P
  fresh : c.main = .fresh ↔ c.thread = .none
  registered : c.registered = true → c.started = true
  sendStop : c.main = .sendStop → c.started = true
  early : c.main = .fresh ∨ c.main = .running ∨ c.main = .sendStop → c.stopSent = false
  joining : c.main = .joining → c.stopSent = true
  genuine : ∀ m ∈ c.seen ++ (c.inbox ++ down), m ∈ sent
  exited : c.exited = true → ∃ m ∈ c.seen, m.type = .Stop
  answered : ∀ m ∈ sent, m.type = .Stop → c.stopSent = true ∧ up = []
  final : ∀ l₁ m l₂, sent = l₁ ++ m :: l₂ → m.type = .Stop → l₂ = []

theorem tidy_new (pid d : ℤ) : Tidy pid (Client.new d) [] [] [] False := by
  refine ⟨.idle not_false, ?_, ?_, ?_, ?_, ?_, ?_, ?_, ?_, ?_⟩ <;> simp [Client.new]

theorem tidy_dispatch {pid : ℤ} {c : Client} {m : Message} {rest up down sent : List Message}
    {P : Prop} (h : Tidy pid c up down sent P) (ht : c.thread = .message)
    (hi : c.inbox = m :: rest) : Tidy pid (dispatch { c with inbox := rest } m) up down sent P := by
  obtain ⟨hstage, hfr, hreg, hss, hearly, hjoin, hgen, hex, hans, hfin⟩ := h
  have hpc : (dispatch { c with inbox := rest } m).thread = .message ∨
      (dispatch { c with inbox := rest } m).thread = .header := by
    rcases dispatch_exited { c with inbox := rest } m with ⟨-, h⟩ | ⟨h, -⟩
    · exact Or.inl (h.trans ht)
    · exact Or.inr h
  have hstart : (dispatch { c with inbox := rest } m).started = c.started := by
    rcases hpc with h | h
    · rw [Client.started, Client.started, h, ht]
    · rw [Client.started, Client.started, h, ht]
      rfl
  refine ⟨by rwa [hstart, dispatch_stopSent], ?_, ?_, ?_, ?_, ?_, fun x hx => ?_, fun h => ?_, ?_,
    hfin⟩
  · have hne : (dispatch { c with inbox := rest } m).thread ≠ .none := by
      rcases hpc with h | h <;> rw [h] <;> decide
    rw [dispatch_main, hfr]
    exact ⟨fun h => absurd (h.symm.trans ht) (by decide), fun h => absurd h hne⟩
  · rwa [hstart, dispatch_registered]
  · rwa [hstart, dispatch_main]
  · rwa [dispatch_main, dispatch_stopSent]
  · rwa [dispatch_main, dispatch_stopSent]
  · refine hgen x ?_
    rw [hi]
    simpa using hx
  · rw [dispatch_seen]
    rcases dispatch_exited { c with inbox := rest } m with ⟨h', -⟩ | ⟨-, h'⟩
    · exact ⟨m, by simp, h'⟩
    · obtain ⟨x, hx, hxs⟩ := hex (h' ▸ h)
      exact ⟨x, List.mem_append_left _ hx, hxs⟩
  · rwa [dispatch_stopSent]

/-- Every step of the client's threads keeps the invariant. -/
theorem tidy_clientStep {pid : ℤ} {c c' : Client} {mv : Move} {ms up down sent : List Message}
    {P : Prop} (hc : clientStep pid c mv = some (c', ms)) (h : Tidy pid c up down sent P) :
    Tidy pid c' (up ++ ms) down sent P := by
  have h' := h
  obtain ⟨hstage, hfr, hreg, hss, hearly, hjoin, hgen, hex, hans, hfin⟩ := h'
  rcases clientStep_cases hc with ⟨rfl, hm, rfl, rfl⟩ | ⟨rfl, ht, rfl, rfl⟩ | ⟨rfl, ht, rfl, rfl⟩ |
    ⟨rfl, ht, rfl, rfl⟩ | ⟨rfl, ht, rfl, rfl⟩ | ⟨rfl, ht, rfl, m, rest, hi, rfl⟩ |
    ⟨rfl, hm, rfl, rfl⟩ | ⟨rfl, hm, rfl, rfl⟩ | ⟨rfl, hm, rfl, rfl⟩
  · -- start
    have ht := hfr.mp hm
    rw [List.append_nil]
    have hst : c.started = false := by simp [Client.started, ht]
    exact ⟨by simpa [Client.started, ht] using hstage, by simp, fun hr => absurd (hreg hr) (by simp [hst]), by simp,
      fun _ => hearly (Or.inl hm), by simp, hgen, hex, hans, hfin⟩
  · -- sendStart
    have hst : c.started = false := by simp [Client.started, ht]
    have hno := fun m hm hs => (hans m hm hs).1.symm.trans (hstage.not_stopSent hst)
    exact ⟨hstage.sendStart hst, by simp [hfr, ht], by simp [Client.started], by simp [Client.started],
      hearly, hjoin, hgen, hex, fun m hm hs => absurd (hno m hm hs) (by decide), hfin⟩
  · -- pollIn
    rw [List.append_nil]
    exact ⟨by simpa [Client.started, ht] using hstage, by simp [hfr, ht], by simp [Client.started],
      by simp [Client.started], hearly, hjoin, hgen, hex, hans, hfin⟩
  · -- pollTimeout
    rw [List.append_nil]
    exact ⟨by simpa [Client.started, ht] using hstage, by simp [hfr, ht], by simp [Client.started],
      by simp [Client.started], hearly, hjoin, hgen, hex, hans, hfin⟩
  · -- recvHeader
    rw [List.append_nil]
    refine ⟨by simpa [Client.started, ht] using hstage, by simp [hfr, ht], by simp [Client.started],
      by simp [Client.started], hearly, hjoin, fun m hm => hgen m ?_, hex, hans, hfin⟩
    simp only [List.mem_append] at hm ⊢
    exact hm.imp_right (Or.imp_left List.mem_of_mem_tail)
  · -- recvMessage
    rw [List.append_nil]
    exact tidy_dispatch h ht hi
  · -- stopTest
    rw [List.append_nil]
    have hs := hearly (Or.inr (Or.inl hm))
    refine ⟨hstage, ?_, hreg, fun h => hreg ?_, fun _ => hs, ?_, hgen, hex, hans, hfin⟩
    · rw [← hfr, hm]; split <;> simp
    · simpa using h
    · split <;> simp
  · -- sendStop
    have hs := hearly (Or.inr (Or.inr hm))
    exact ⟨hstage.sendStop (hss hm) hs, by simp [← hfr, hm], hreg, by simp, by simp, by simp, hgen, hex,
      fun m hm h => absurd ((hans m hm h).1.symm.trans hs) (by decide), hfin⟩
  · -- join
    rw [List.append_nil]
    exact ⟨hstage, by simp [← hfr, hm], hreg, by simp, by simp, by simp, hgen, hex, hans, hfin⟩

/-- What the server sends to `i` keeps the two facts about its answers to a Stop. -/
theorem tidy_answers (py : Python ι) {pid : ℤ} {s : Server ι} {c : Client} {i j : ι}
    {m : Message} {up rest down sent : List Message}
    (h : Tidy pid c up down sent (i ∈ s.tasks)) (hup : i = j → up = m :: rest) :
    (∀ x ∈ sent ++ addressed i (sched py s j m).2, x.type = .Stop →
      c.stopSent = true ∧ (if i = j then rest else up) = []) ∧
    ∀ l₁ x l₂, sent ++ addressed i (sched py s j m).2 = l₁ ++ x :: l₂ → x.type = .Stop → l₂ = [] := by
  obtain ⟨hstage, -, -, -, -, -, -, -, hans, hfin⟩ := h
  by_cases hstop : ∃ x ∈ sent, x.type = .Stop
  · -- already answered: `i` has left and hears nothing more
    obtain ⟨x, hx, hxs⟩ := hstop
    obtain ⟨hs, hu⟩ := hans x hx hxs
    have hij : i ≠ j := fun hij => by rw [hup hij] at hu; exact absurd hu (by simp)
    have hout : i ∉ (sched py s j m).1.tasks := by
      rw [mem_sched, mem_register_ne m hij]; exact hstage.of_empty hu hs
    rw [addressed_sched hout, addressed_ack_ne m hij, List.append_nil, if_neg hij]
    exact ⟨hans, hfin⟩
  · -- a Stop among the new messages is the answer to `i`'s own, and the only new message
    have hnew : ∀ x ∈ addressed i (sched py s j m).2, x.type = .Stop →
        i = j ∧ m.type = .Stop ∧ addressed i (sched py s j m).2 = [x] := by
      intro x hx hxs
      obtain ⟨rfl, hm⟩ := stop_mem_sched hx hxs
      have hout : i ∉ (sched py s i m).1.tasks := by rw [mem_sched, register, hm]; simp
      rw [addressed_sched hout] at hx ⊢
      simp only [Sched.ack, hm, addressed, decide_true, List.filter_cons_of_pos, List.filter_nil,
        List.map_cons, List.map_nil, List.mem_singleton] at hx ⊢
      exact ⟨trivial, trivial, by rw [hx]⟩
    refine ⟨fun x hx hxs => ?_, fun l₁ x l₂ heq hxs => ?_⟩
    · rcases List.mem_append.mp hx with hx | hx
      · exact absurd ⟨x, hx, hxs⟩ hstop
      · obtain ⟨rfl, hm, -⟩ := hnew x hx hxs
        rw [hup rfl] at hstage
        exact ⟨hstage.stop_head hm, by rw [if_pos rfl]; exact hstage.stop_rest hm⟩
    · have hx : x ∈ sent ++ addressed i (sched py s j m).2 := by rw [heq]; simp
      rcases List.mem_append.mp hx with hx | hx
      · exact absurd ⟨x, hx, hxs⟩ hstop
      · obtain ⟨-, -, hone⟩ := hnew x hx hxs
        rw [hone] at heq
        rcases List.eq_nil_or_concat l₂ with h | ⟨l, y, rfl⟩
        · exact h
        · rw [List.concat_eq_append, ← List.cons_append, ← List.append_assoc] at heq
          exact absurd ⟨x, by rw [(List.append_inj' heq rfl).1]; simp, hxs⟩ hstop

/-- Every step of the system keeps the invariant of every client. -/
theorem tidy_step {py : Python ι} {pid : ι → ℤ} {w w' : World ι} {a : Action ι}
    (hw : ∀ i, Tidy (pid i) (w.client i) (w.up i) (w.down i) (w.sent i) (i ∈ w.server.tasks))
    (ha : step py pid w a = some w') (i : ι) :
    Tidy (pid i) (w'.client i) (w'.up i) (w'.down i) (w'.sent i) (i ∈ w'.server.tasks) := by
  cases a with
  | move j mv =>
    obtain ⟨-, c, ms, hc, rfl⟩ := moveStep_eq_some ha
    by_cases hij : i = j
    · subst hij
      simp only [Function.update_self]
      exact tidy_clientStep hc (hw i)
    · simpa only [Function.update_of_ne hij] using hw i
  | arrive j =>
    obtain ⟨m, rest, hd, rfl⟩ := arriveStep_eq_some ha
    by_cases hij : i = j
    · subst hij
      obtain ⟨hstage, hfr, hreg, hss, hearly, hjoin, hgen, hex, hans, hfin⟩ := hw i
      simp only [Function.update_self]
      refine ⟨hstage, hfr, hreg, hss, hearly, hjoin, fun x hx => hgen x ?_, hex, hans, hfin⟩
      rw [hd]; simpa using hx
    · simpa only [Function.update_of_ne hij] using hw i
  | handle j =>
    obtain ⟨-, m, rest, hu, rfl⟩ := handleStep_eq_some ha
    obtain ⟨hans', hfin'⟩ := tidy_answers py (hw i) fun h : i = j => h ▸ hu
    obtain ⟨hstage, hfr, hreg, hss, hearly, hjoin, hgen, hex, hans, hfin⟩ := hw i
    have hgen' : ∀ x ∈ (w.client i).seen ++ ((w.client i).inbox ++ (w.down i ++
        addressed i (sched py w.server j m).2)),
        x ∈ w.sent i ++ addressed i (sched py w.server j m).2 := by
      intro x hx
      rw [← List.append_assoc (w.client i).inbox, ← List.append_assoc] at hx
      rcases List.mem_append.mp hx with hx | hx
      · exact List.mem_append_left _ (hgen x hx)
      · exact List.mem_append_right _ hx
    by_cases hij : i = j
    · subst hij
      rw [if_pos rfl] at hans'
      rw [hu] at hstage
      simp only [Function.update_self]
      refine ⟨hstage.handle (fun hm => ?_) (fun hm => ?_), hfr, hreg, hss, hearly, hjoin, hgen', hex,
        hans', hfin'⟩
      · rw [mem_sched, register, hm]; simp
      · rw [mem_sched, register, hm]; simp
    · rw [if_neg hij] at hans'
      simp only [Function.update_of_ne hij]
      exact ⟨hstage.congr ((mem_sched py _ _ _ _).trans (mem_register_ne m hij)).symm, hfr, hreg, hss,
        hearly, hjoin, hgen', hex, hans', hfin'⟩

omit [DecidableEq ι] in
theorem tidy_world_new (pid : ι → ℤ) (R : ℕ) (d : ℤ) (i : ι) :
    Tidy (pid i) ((World.new R d : World ι).client i) [] [] []
      (i ∈ (World.new R d : World ι).server.tasks) := by
  have hfalse : (i ∈ (World.new R d : World ι).server.tasks) = False :=
    propext (iff_false_intro (AList.notMem_empty i))
  rw [hfalse]
  exact tidy_new (pid i) d

/-- Every run keeps every client tidy. -/
theorem tidy_exec {py : Python ι} {pid : ι → ℤ} {R : ℕ} {d : ℤ} {as : List (Action ι)}
    {w : World ι} (h : exec (step py pid) (World.new R d) as = some w) (i : ι) :
    Tidy (pid i) (w.client i) (w.up i) (w.down i) (w.sent i) (i ∈ w.server.tasks) :=
  exec_inv (I := fun w : World ι => ∀ i, Tidy (pid i) (w.client i) (w.up i) (w.down i) (w.sent i)
    (i ∈ w.server.tasks)) (fun _ _ _ hI ha => tidy_step hI ha) (tidy_world_new pid R d) h i

end Turkey.Protocol
