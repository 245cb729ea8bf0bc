import Turkey.Server.Stages

/-! Updates are neither lost nor reordered, as long as no frame but the answer to Start is received
    as a header. The loop of `processMessage` drops the frame its first `recv` gets: when an Update
    waits at the socket at that moment it never reaches the `switch`. On the first turn the frame that
    is dropped is the answer to Start, which the poll has just seen. -/

namespace Turkey.Protocol
open Turkey.Run Turkey.Sched
variable {ι : Type*} [DecidableEq ι]

/-- Every message but the answer to Start matters to the client. -/
def matters (m : Message) : Bool := m.type ≠ .Start

def isUpdate (m : Message) : Bool := m.type = .Update

/-- The conversation is in order: what the server sent to a client, answers to Start apart, is what
    its `switch` has seen followed by what is still under way; the Updates among the messages seen are
    those given to `allocator_`; a client that has exited has left none behind; and when nothing is
    under way to a task its pool has the size the server granted. -/
structure InOrder (w : World ι) : Prop where
  kept : ∀ i, (w.sent i).filter matters =
    (w.client i).seen.filter matters ++ ((w.client i).inbox ++ w.down i).filter matters
  passed : ∀ i, (w.client i).passed = (w.client i).seen.filter isUpdate
  exited : ∀ i, (w.client i).exited = true → ((w.client i).inbox ++ w.down i).filter matters = []
  pool : ∀ i ∈ w.server.tasks, (w.client i).inbox = [] → w.down i = [] →
    (w.client i).poolSize = grant w.server.tasks i

/-- The condition on a step: no poll times out, and no frame but an answer to Start waits when the
    header is received. -/
def Prompt (w : World ι) : Action ι → Prop
  | .move _ .pollTimeout => False
  | .move i m => m = .recvHeader → ∀ x ∈ (w.client i).inbox.head?, x.type = .Start
  | _ => True

instance (w : World ι) : ∀ a, Decidable (Prompt w a)
  | .move _ .pollTimeout => .isFalse id
  | .move i .recvHeader =>
    inferInstanceAs (Decidable (_ → ∀ x ∈ (w.client i).inbox.head?, x.type = .Start))
  | .move _ .start | .move _ .sendStart | .move _ .pollIn | .move _ .recvMessage
  | .move _ .stopTest | .move _ .sendStop | .move _ .join => .isTrue fun h => by cases h
  | .arrive _ => .isTrue trivial
  | .handle _ => .isTrue trivial

/-- What one client and its channel satisfy: `sent` is all the server sent to it. -/
structure Kept (c : Client) (down sent : List Message) : Prop where
  kept : sent.filter matters = c.seen.filter matters ++ (c.inbox ++ down).filter matters
  passed : c.passed = c.seen.filter isUpdate
  pool : ∀ m ∈ c.passed.getLast?, c.poolSize = m.data

theorem kept_new (d : ℤ) : Kept (Client.new d) [] [] where
  kept := rfl
  passed := rfl
  pool := by simp [Client.new]

/-- The `switch` hands an Update, and nothing else, to `allocator_`. -/
theorem kept_dispatch {c : Client} {m : Message} {rest down sent : List Message}
    (h : Kept c down sent) (hi : c.inbox = m :: rest) :
    Kept (dispatch { c with inbox := rest } m) down sent := by
  obtain ⟨hk, hp, hpool⟩ := h
  have hkept : sent.filter matters =
      (c.seen ++ [m]).filter matters ++ (rest ++ down).filter matters := by
    rw [hk, hi, ← List.filter_append, ← List.filter_append, List.append_assoc]; rfl
  unfold dispatch
  split
  · rename_i hm
    exact ⟨hkept, by simp [hp, isUpdate, hm], hpool⟩
  · rename_i hm
    exact ⟨hkept, by simp [hp, isUpdate, hm], by simp⟩
  · rename_i hs hu
    exact ⟨hkept, by simp [hp, isUpdate, show m.type ≠ .Update from hu], hpool⟩

/-- Every step of the client's threads that meets the condition keeps its Updates. -/
theorem kept_clientStep {pid : ℤ} {c c' : Client} {mv : Move} {ms down sent : List Message}
    (hc : clientStep pid c mv = some (c', ms))
    (hgood : mv = .recvHeader → ∀ x ∈ c.inbox.head?, x.type = .Start) (h : Kept c down sent) :
    Kept c' down sent := by
  rcases clientStep_cases hc with ⟨rfl, hm, rfl, rfl⟩ | ⟨rfl, ht, rfl, rfl⟩ | ⟨rfl, ht, rfl, rfl⟩ |
    ⟨rfl, ht, rfl, rfl⟩ | ⟨rfl, ht, rfl, rfl⟩ | ⟨rfl, ht, rfl, m, rest, hi, rfl⟩ |
    ⟨rfl, hm, rfl, rfl⟩ | ⟨rfl, hm, rfl, rfl⟩ | ⟨rfl, hm, rfl, rfl⟩
  case inr.inr.inr.inr.inl =>
    -- the header takes nothing, or an answer to Start
    obtain ⟨hk, hp, hpool⟩ := h
    refine ⟨?_, hp, hpool⟩
    rw [hk]
    congr 1
    cases hi : c.inbox with
    | nil => rfl
    | cons x rest =>
      have hx : x.type = .Start := hgood rfl x (by simp [hi])
      simp [matters, hx]
  case inr.inr.inr.inr.inr.inl => exact kept_dispatch h hi
  all_goals exact ⟨h.kept, h.passed, h.pool⟩

/-- A broadcast in which every addressee occurs once. -/
theorem addressed_map_of_nodup (f : ι → Message) (i : ι) : ∀ order : List ι, order.Nodup →
    addressed i (order.map fun j => (j, f j)) = if i ∈ order then [f i] else []
  | [], _ => rfl
  | j :: order, h => by
      obtain ⟨hj, hnd⟩ := List.nodup_cons.mp h
      have ih := addressed_map_of_nodup f i order hnd
      unfold addressed at ih ⊢
      by_cases hij : j = i
      · subst hij
        rw [if_neg hj] at ih
        simp only [List.map_cons, List.filter_cons_of_pos, decide_true, ih, List.mem_cons_self,
          if_true]
      · rw [List.map_cons, List.filter_cons_of_neg (by simpa using hij), ih]
        simp [Ne.symm hij]

/-- The Updates to a task in what one message makes the server send: exactly one, with its value. -/
theorem updates_addressed (py : Python ι) {R : ℕ} (hR : R < 2147483648)
    {ms : List (ι × Message)} {s : Server ι} (hE : Exact R ms s) (j : ι) (m : Message) (i : ι)
    (hi : i ∈ (sched py s j m).1.tasks) :
    (addressed i (sched py s j m).2).filter isUpdate =
      [⟨.Update, (grant (sched py s j m).1.tasks i : ℤ)⟩] := by
  obtain ⟨order, hperm, hsent⟩ := hE.sent py hR j m
  have hnd : order.Nodup := hperm.nodup_iff.mpr (AList.keys_nodup _)
  have hmem : i ∈ order := hperm.mem_iff.mpr hi
  have hack : (addressed i (Sched.ack j m)).filter isUpdate = [] := by
    rw [List.filter_eq_nil_iff]
    intro x hx
    rw [mem_addressed] at hx
    unfold Sched.ack at hx
    split at hx <;> simp_all [isUpdate]
  rw [hsent]
  rw [addressed_append, List.filter_append, hack, List.nil_append, addressed_map_of_nodup _ i order hnd,
    if_pos hmem]
  simp [isUpdate]

/-- The invariant of the whole system: the server's state is exact, every client keeps its Updates,
    and the last Update sent to a task carries what the task holds. -/
structure Conversing (R : ℕ) (w : World ι) : Prop where
  exact : ∃ ms, Exact R ms w.server
  kept : ∀ i, Kept (w.client i) (w.down i) (w.sent i)
  last : ∀ i ∈ w.server.tasks,
    ((w.sent i).filter isUpdate).getLast? = some ⟨.Update, (grant w.server.tasks i : ℤ)⟩

theorem conversing_new (R : ℕ) (d : ℤ) : Conversing R (World.new R d : World ι) where
  exact := ⟨[], rfl, rfl, fun i => by simp [World.new, Server.new, lastControl],
    fun i hi => absurd hi (AList.notMem_empty i)⟩
  kept _ := kept_new d
  last i hi := absurd hi (AList.notMem_empty i)

theorem conversing_step {py : Python ι} {pid : ι → ℤ} {R : ℕ} (hR : R < 2147483648)
    {w w' : World ι} {a : Action ι} (hw : Conversing R w) (hgood : Prompt w a)
    (ha : step py pid w a = some w') : Conversing R w' := by
  cases a with
  | move j mv =>
    obtain ⟨-, c, ms, hc, rfl⟩ := moveStep_eq_some ha
    refine ⟨hw.exact, fun i => ?_, hw.last⟩
    by_cases hij : i = j
    · subst hij
      simp only [Function.update_self]
      refine kept_clientStep hc (fun h => ?_) (hw.kept i)
      subst h; exact hgood rfl
    · simpa only [Function.update_of_ne hij] using hw.kept i
  | arrive j =>
    obtain ⟨m, rest, hd, rfl⟩ := arriveStep_eq_some ha
    refine ⟨hw.exact, fun i => ?_, hw.last⟩
    by_cases hij : i = j
    · subst hij
      obtain ⟨hk, hp, hpool⟩ := hw.kept i
      simp only [Function.update_self]
      exact ⟨by rw [hk, hd, List.append_assoc]; rfl, hp, hpool⟩
    · simpa only [Function.update_of_ne hij] using hw.kept i
  | handle j =>
    obtain ⟨-, m, rest, hu, rfl⟩ := handleStep_eq_some ha
    obtain ⟨ms, hE⟩ := hw.exact
    refine ⟨⟨_, exact_sched py hR hE j m⟩, fun i => ?_, fun i hi => ?_⟩
    · obtain ⟨hk, hp, hpool⟩ := hw.kept i
      refine ⟨?_, hp, hpool⟩
      simp only [List.filter_append] at hk ⊢
      rw [hk]; simp only [List.append_assoc]
    · simp only [List.filter_append]
      rw [updates_addressed py hR hE j m i hi, List.getLast?_concat]

/-- An Update that matters to the client is an Update: filtering twice is filtering once. -/
theorem filter_isUpdate_matters (l : List Message) :
    (l.filter matters).filter isUpdate = l.filter isUpdate := by
  rw [List.filter_filter]
  refine List.filter_congr fun m _ => ?_
  unfold matters isUpdate
  cases m.type <;> rfl

/-- Nothing that matters follows the Stop that ends a process. -/
theorem Kept.exited {pid : ℤ} {c : Client} {up down sent : List Message} {P : Prop}
    (h : Kept c down sent) (ht : Tidy pid c up down sent P) (hx : c.exited = true) :
    (c.inbox ++ down).filter matters = [] := by
  obtain ⟨m, hm, hs⟩ := ht.exited hx
  have hmat : matters m = true := by simp [matters, hs]
  obtain ⟨l₁, l₂, hl⟩ := List.append_of_mem (List.mem_filter.mpr ⟨hm, hmat⟩)
  have hkept := h.kept
  rw [hl, List.append_assoc, List.cons_append] at hkept
  obtain ⟨k₁, k₂, hk, -, hk₂⟩ := List.filter_eq_append_iff.mp hkept
  obtain ⟨k₃, k₄, rfl, -, -, hk₄⟩ := List.filter_eq_cons_iff.mp hk₂
  have hnil := ht.final (k₁ ++ k₃) m k₄ (by rw [hk, List.append_assoc]) hs
  rw [hnil, List.filter_nil] at hk₄
  exact (List.append_eq_nil_iff.mp hk₄.symm).2

theorem Conversing.inOrder {R : ℕ} {pid : ι → ℤ} {w : World ι} (h : Conversing R w)
    (ht : ∀ i, Tidy (pid i) (w.client i) (w.up i) (w.down i) (w.sent i) (i ∈ w.server.tasks)) :
    InOrder w where
  kept i := (h.kept i).kept
  passed i := (h.kept i).passed
  exited i hx := (h.kept i).exited (ht i) hx
  pool i hi hin hdown := by
    obtain ⟨hk, hp, hpool⟩ := h.kept i
    have hall : (w.sent i).filter isUpdate = (w.client i).passed := by
      rw [← filter_isUpdate_matters, hk, hin, hdown, List.append_nil, List.filter_nil,
        List.append_nil, filter_isUpdate_matters, hp]
    have hlast := h.last i hi
    rw [hall] at hlast
    exact hpool _ hlast

/-- CORRECT: with a CPU count that fits the data field of a message, in every run in which no poll
    times out and no frame but the answer to Start is taken as a header, the conversation of every
    client is in order in every state. -/
theorem updates_in_order (py : Python ι) (pid : ι → ℤ) (R : ℕ) (hR : R < 2147483648) (d : ℤ)
    (as : List (Action ι)) (w : World ι)
    (hgood : Meets (step py pid) Prompt (World.new R d) as)
    (h : exec (step py pid) (World.new R d) as = some w) : InOrder w :=
  (exec_inv_of_meets (I := Conversing R) (fun _ _ _ hI hG ha => conversing_step hR hI hG ha)
    (conversing_new R d) hgood h).inOrder fun i => tidy_exec h i

/-- A second client joins while the first waits for its next message: both share the 64 CPUs. -/
def joiningRun : List (Action ℕ) :=
  [.move 1 .start, .move 1 .sendStart, .handle 1, .arrive 1, .move 1 .pollIn, .move 1 .recvHeader,
    .arrive 1, .move 1 .recvMessage, .move 1 .recvHeader, .move 2 .start, .move 2 .sendStart,
    .handle 2, .arrive 1, .move 1 .recvMessage, .arrive 2, .move 2 .pollIn, .move 2 .recvHeader,
    .arrive 2, .move 2 .recvMessage]

theorem updates_in_order_joining :
    ∃ w, exec (step (Python.listed ℕ) (fun i => i)) (World.new 64 1) joiningRun = some w ∧
      (w.client 1).poolSize = 32 ∧ InOrder w :=
  ⟨_, rfl, rfl, updates_in_order (Python.listed ℕ) (fun i => i) 64 (by decide) 1 joiningRun _
    (by decide) rfl⟩

/-- The Update that the second client's Start causes is already there when the first client receives
    its next header: it is dropped, nothing is under way any more, and the first client's pool keeps
    64 threads although the server has granted it 32. -/
theorem update_taken_as_header :
    ¬ ∀ (as : List (Action ℕ)) (w : World ℕ),
      exec (step (Python.listed ℕ) (fun i => i)) (World.new 64 1) as = some w → InOrder w := by
  intro h
  have hpool := (h [.move 1 .start, .move 1 .sendStart, .handle 1, .arrive 1, .move 1 .pollIn,
    .move 1 .recvHeader, .arrive 1, .move 1 .recvMessage, .move 2 .start, .move 2 .sendStart,
    .handle 2, .arrive 1, .move 1 .recvHeader, .arrive 2, .arrive 2, .move 2 .pollIn,
    .move 2 .recvHeader, .move 2 .recvMessage] _ rfl).pool 1 (by decide) rfl rfl
  exact absurd hpool (by decide)

end Turkey.Protocol
