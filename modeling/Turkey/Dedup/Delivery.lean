import Turkey.Dedup.Wakeups

/-! The two ends of a queue of the pthread encoder, from the start to the end: the threads do what the link does,
    they come to their end, and every chunk arrives. -/

namespace Turkey.QueueLink
open Turkey.Conditions Turkey.Run Turkey.Tally
open Turkey.Reorder (Chunk)
open Turkey.Pipeline (Queue queueDequeue_cases queueEnqueue_cases queueTerminate_cases)

variable {senders receivers : ℕ} {l : Limits}

/-! ### How many steps of the link are left -/

/-- What is left to do for a thread; a chunk in the queue counts 4. -/
def Place.left : Place → ℕ
  | .fill todo send => 8 * todo.length + 6 * send.length + 3
  | .drain send => 6 * send.length + 2
  | .enqueue draining todo send => 8 * todo.length + 6 * send.length + if draining then 1 else 3
  | .terminate => 1
  | .fetch recv _ => 2 * recv.length + 1
  | _ => 0

/-- What is left to do in the link. -/
def Link.left (e : Link senders receivers) : ℕ := ∑ t, (e.thread t).left + 4 * e.que.buf.length

/-- A step of the link leaves less to do. -/
theorem Link.Inv.left_lt {total : Multiset Chunk} {e e' : Link senders receivers} (h : e.Inv l total)
    {t : Tid senders receivers} (hs : e.step l t = some e') : e'.left < e.left := by
  rw [Link.step, Option.map_eq_some_iff] at hs
  obtain ⟨⟨que, y⟩, hs, rfl⟩ := hs
  have hok := h.place t
  have hsum := sum_update (fun _ => Place.left) e.thread t y
  suffices y.left + 4 * que.buf.length < (e.thread t).left + 4 * e.que.buf.length by
    show ∑ u, (Function.update e.thread t y u).left + 4 * que.buf.length < e.left
    rw [Link.left]
    omega
  cases hx : e.thread t with
  | fill todo send =>
    rw [hx] at hok hs
    cases todo with
    | nil =>
      obtain ⟨rfl, rfl⟩ := Prod.mk.inj (Option.some.inj hs)
      simp only [Place.left, List.length_nil]
      omega
    | cons x todo =>
      have hroom : send.length < l.perInsert := by
        cases t with
        | inl _ => exact hok
        | inr _ => exact hok.elim
      rw [Place.step, if_pos hroom] at hs
      obtain ⟨rfl, rfl⟩ := Prod.mk.inj (Option.some.inj hs)
      split_ifs <;> simp only [Place.left, List.length_cons, List.length_append, List.length_nil] <;> simp <;> omega
  | drain send =>
    rw [hx] at hs
    obtain ⟨rfl, rfl⟩ := Prod.mk.inj (Option.some.inj hs)
    split_ifs <;> simp only [Place.left, List.length_nil] <;> simp
  | enqueue draining todo send =>
    rw [hx] at hok hs
    obtain ⟨hsend, hlen, hdrain⟩ : send ≠ [] ∧ send.length ≤ l.perInsert ∧ (draining = true → todo = []) := by
      cases t with
      | inl _ => exact hok
      | inr _ => exact hok.elim
    rw [Place.step] at hs
    rcases queueEnqueue_cases l.size l.perInsert e.que send with ⟨hq, -⟩ | ⟨hq, -⟩ | ⟨-, hroom, n, hn, hq⟩
    · simp [hq] at hs
    · rw [hq] at hs
      obtain ⟨rfl, rfl⟩ := Prod.mk.inj (Option.some.inj hs)
      have := List.length_pos_iff.2 hsend
      simp only [Place.left]
      omega
    · have hpos := List.length_pos_iff.2 hsend
      have := l.perInsert_pos
      have hshort : (send.drop n).length < send.length := by
        rw [List.length_drop]
        omega
      rw [hq] at hs
      simp only [hshort, if_true, Option.some.injEq, Prod.mk.injEq] at hs
      obtain ⟨rfl, rfl⟩ := hs
      cases draining with
      | false =>
        simp only [Place.left, Queue.push, Bool.false_eq_true, if_false, List.length_append, List.length_take,
          List.length_drop]
        omega
      | true =>
        simp only [Place.left, Queue.push, if_true, List.length_append, List.length_take, List.length_drop]
        omega
  | terminate =>
    rw [hx, Place.step] at hs
    rcases queueTerminate_cases e.que with ⟨hq, -⟩ | ⟨hq, -⟩
    · rw [hq] at hs
      obtain ⟨rfl, rfl⟩ := Prod.mk.inj (Option.some.inj hs)
      simp [Place.left]
    · rw [hq] at hs
      obtain ⟨rfl, rfl⟩ := Prod.mk.inj (Option.some.inj hs)
      simp [Place.left, Queue.close]
  | fetch recv got =>
    rw [hx] at hs
    cases recv with
    | nil =>
      rw [Place.step] at hs
      rcases queueDequeue_cases l.perFetch e.que with ⟨hq, -⟩ | ⟨hq, -⟩ | ⟨hq, -⟩ | ⟨hq, hne⟩
      · simp [hq] at hs
      · rw [hq] at hs
        obtain ⟨rfl, rfl⟩ := Prod.mk.inj (Option.some.inj hs)
        simp [Place.left]
      · rw [hq] at hs
        obtain ⟨rfl, rfl⟩ := Prod.mk.inj (Option.some.inj hs)
        simp [Place.left]
      · rw [hq] at hs
        obtain ⟨rfl, rfl⟩ := Prod.mk.inj (Option.some.inj hs)
        have := List.length_pos_iff.2 hne
        have := l.perFetch_pos
        simp only [Place.left, Queue.pop, List.length_take, List.length_drop, List.length_nil]
        omega
    | cons x recv =>
      obtain ⟨rfl, rfl⟩ := Prod.mk.inj (Option.some.inj hs)
      simp [Place.left]
  | _ => simp [hx, Place.step] at hs

/-! ### From the start to the end -/

/-- The most steps that the threads can make, spurious wake-ups apart. -/
def allSteps (receivers : ℕ) (todo : Fin senders → List Chunk) : ℕ :=
  (most (senders + receivers) + 1) * (∑ i, (8 * (todo i).length + 3) + receivers) + 7 * receivers

/-- A run without spurious wake-ups comes to its end. -/
theorem Simulates.length_le (hreceivers : 0 < receivers) {total : Multiset Chunk} :
    ∀ {as : List (Act (Tid senders receivers))} {s s' : Threads senders receivers} {e : Link senders receivers},
      Simulates l total s e → (∀ a ∈ as, a.Regular) → Run.exec (Conditions.step (op l)) s as = some s' →
        as.length ≤ (most (senders + receivers) + 1) * e.left + work s
  | [], s, s', e, _, _, _ => Nat.zero_le _
  | a :: as, s, s', e, h, hregular, hrun => by
    obtain ⟨s₁, hs₁, hrun⟩ := exec_cons_eq_some.1 hrun
    have hrest : ∀ b ∈ as, b.Regular := fun b hb => hregular b (List.mem_cons_of_mem _ hb)
    rcases h.moves hreceivers (moves_of_step (hregular a (List.mem_cons_self ..)) hs₁) with
      ⟨h₁, hwork⟩ | ⟨t, e₁, he₁, h₁, hwork⟩
    · have hle := h₁.length_le hreceivers hrest hrun
      rw [List.length_cons]
      omega
    · have hle := h₁.length_le hreceivers hrest hrun
      have hleft := Nat.mul_le_mul_left (most (senders + receivers) + 1) (Nat.succ_le_of_lt (h.inv.left_lt he₁))
      rw [Nat.mul_succ] at hleft
      rw [List.length_cons]
      omega

/-- All chunks have been sent, and each of them has been received once. -/
def Delivered (s : Threads senders receivers) (todo : Fin senders → List Chunk) : Prop :=
  (∀ i, (s.thread (.inl i)).pc = .sent) ∧ ∃ got : Fin receivers → List Chunk,
    (∀ i, (s.thread (.inr i)).pc = .received (got i)) ∧
      ∑ i, (got i : Multiset Chunk) = ∑ i, (todo i : Multiset Chunk)

theorem stop_cases {p : Pc} (hp : op l p = .stop) : p = .sent ∨ ∃ got, p = .received got := by
  cases p with
  | sent => exact .inl rfl
  | received got => exact .inr ⟨got, rfl⟩
  | enqueue draining k d => cases k <;> cases hp
  | dequeue k r => cases k <;> cases hp
  | terminate k => cases k <;> cases hp
  | _ => cases hp

section Stuck
variable {total : Multiset Chunk} {s : Threads senders receivers} {e : Link senders receivers}

/-- When no thread can go on, nobody who is awake has anything left to do for the others. -/
theorem Simulates.idle (h : Simulates l total s e)
    (hstuck : ∀ a : Act (Tid senders receivers), a.Regular → Conditions.step (op l) s a = none)
    {t : Tid senders receivers} (ht : Awake (s.thread t)) :
    (s.thread t).pc.looks = false ∧ (s.thread t).pc.fills = false ∧ (s.thread t).pc ≠ .terminate .broadcast := by
  rcases h.sound.stuck (op_keeps l) hstuck t with ⟨c, hc⟩ | ⟨-, hop⟩
  · exact absurd hc (ht c)
  · rcases stop_cases hop with hp | ⟨got, hp⟩ <;> simp [hp, Pc.looks, Pc.fills]

/-- The queue is empty then, and no sender sleeps. -/
theorem Simulates.drained (h : Simulates l total s e)
    (hstuck : ∀ a : Act (Tid senders receivers), a.Regular → Conditions.step (op l) s a = none) :
    e.que.buf = [] ∧ ∀ t, (s.thread t).mode ≠ .asleep .notFull := by
  have hbuf : e.que.buf = [] := by
    by_contra hne
    obtain ⟨t, ht, hlook⟩ := h.wakes.notEmpty hne
    simp [(h.idle hstuck ht).1] at hlook
  refine ⟨hbuf, fun t ht => ?_⟩
  obtain ⟨u, hu, hfill⟩ := (h.wakes.notFull ⟨t, ht⟩).resolve_left (not_not_intro hbuf)
  simp [(h.idle hstuck hu).2.1] at hfill

end Stuck

/-- When no thread can go on, all of them have come to their end. -/
theorem Simulates.delivered {todo : Fin senders → List Chunk}
    {s : Threads senders receivers} {e : Link senders receivers} (h : Simulates l (∑ i, (todo i : Multiset Chunk)) s e)
    (hstuck : ∀ a : Act (Tid senders receivers), a.Regular → Conditions.step (op l) s a = none) :
    Delivered s todo := by
  have hend := h.sound.stuck (op_keeps l) hstuck
  obtain ⟨hbuf, hnotFull⟩ := h.drained hstuck
  have hsent : ∀ i, (s.thread (.inl i)).pc = .sent ∧ e.thread (.inl i) = .sent := by
    intro i
    have hplace := h.place (.inl i)
    have hok := h.inv.place (.inl i)
    rcases hend (.inl i) with ⟨c, hc⟩ | ⟨-, hop⟩
    · rcases h.asleep_cases hc with ⟨rfl, -⟩ | ⟨-, r, hp⟩
      · exact absurd hc (hnotFull _)
      · rw [hp] at hplace
        generalize e.thread (.inl i) = x at hplace hok
        cases hplace <;> exact hok.elim
    · rcases stop_cases hop with hp | ⟨got, hp⟩
      · rw [hp] at hplace
        generalize e.thread (.inl i) = x at hplace
        cases hplace
        exact ⟨hp, rfl⟩
      · rw [hp] at hplace
        generalize e.thread (.inl i) = x at hplace hok
        cases hplace
        exact hok.elim
  have hterm : e.que.nTerminated = e.que.nProducers := by
    refine le_antisymm h.inv.le ?_
    have hsum : ∑ i : Fin senders, (e.thread (.inl i)).closings = senders := by
      simp [fun i => (hsent i).2, Place.closings]
    rw [← h.inv.closings, h.inv.nProducers, Fintype.sum_sum_type, hsum]
    exact Nat.le_add_right _ _
  have hnotEmpty : ∀ t, (s.thread t).mode ≠ .asleep .notEmpty := by
    intro t ht
    obtain ⟨u, hu⟩ := h.wakes.closing hterm ⟨t, ht⟩
    have hawake : Awake (s.thread u) := by
      intro c hc
      rcases h.asleep_cases hc with ⟨-, draining, d, hp⟩ | ⟨-, r, hp⟩ <;> simp [hp] at hu
    exact (h.idle hstuck hawake).2.2 hu
  have hreceived : ∀ i, ∃ got, (s.thread (.inr i)).pc = .received got ∧ e.thread (.inr i) = .received got := by
    intro i
    have hplace := h.place (.inr i)
    have hok := h.inv.place (.inr i)
    rcases hend (.inr i) with ⟨c, hc⟩ | ⟨-, hop⟩
    · cases c with
      | notEmpty => exact absurd hc (hnotEmpty _)
      | notFull => exact absurd hc (hnotFull _)
    · rcases stop_cases hop with hp | ⟨got, hp⟩
      · rw [hp] at hplace
        generalize e.thread (.inr i) = x at hplace hok
        cases hplace
        exact hok.elim
      · rw [hp] at hplace
        generalize e.thread (.inr i) = x at hplace
        cases hplace
        exact ⟨got, hp, rfl⟩
  choose got hgot using hreceived
  refine ⟨fun i => (hsent i).1, got, fun i => (hgot i).1, ?_⟩
  have hchunks := h.inv.chunks
  rw [Fintype.sum_sum_type, hbuf] at hchunks
  simpa [fun i => (hsent i).2, fun i => (hgot i).2, Place.chunks] using hchunks

/-- CORRECT: the mutex and the condition variables make each operation on a queue one step. For any number of
    threads at the two ends and every order of their steps, the link of the pipeline has a run that ends in the same
    state, with the same elements in the queue, and no assertion has failed. -/
theorem refines_link (hreceivers : 0 < receivers) {todo : Fin senders → List Chunk}
    {as : List (Act (Tid senders receivers))} {s : Threads senders receivers}
    (hrun : exec (Conditions.step (op l)) (start l todo) as = some s) :
    ∃ ts e, exec (Link.step l) (Link.start todo) ts = some e ∧ (∀ t, Matches l (s.thread t).pc (e.thread t)) ∧
      Contains l.size s.mem.buf e.que.buf ∧ s.mem.nTerminated = e.que.nTerminated ∧
        ∀ t locked, (s.thread t).pc ≠ .failed locked := by
  obtain ⟨ts, e, hts, h⟩ := Simulates.exec hreceivers hrun
  refine ⟨ts, e, hts, h.place, h.buf, h.nTerminated, fun t locked hp => ?_⟩
  have hplace := h.place t
  rw [hp] at hplace
  cases hplace

/-- CORRECT: no wake-up is lost. For any number of threads at the two ends and every order of their steps, the threads
    do not go on for ever without spurious wake-ups, and where they stop, all of them have come to their end and every
    chunk has been received once. -/
theorem delivers (hreceivers : 0 < receivers) {todo : Fin senders → List Chunk}
    {as : List (Act (Tid senders receivers))} {s : Threads senders receivers}
    (hrun : exec (Conditions.step (op l)) (start l todo) as = some s) :
    ((∀ a ∈ as, a.Regular) → as.length ≤ allSteps receivers todo) ∧
      ((∀ a : Act (Tid senders receivers), a.Regular → Conditions.step (op l) s a = none) → Delivered s todo) := by
  refine ⟨fun hregular => ?_, fun hstuck => ?_⟩
  · have hstart : Simulates l (∑ i, (todo i : Multiset Chunk)) (start l todo : Threads senders receivers)
        (Link.start todo) := Simulates.start todo
    have hle := hstart.length_le hreceivers hregular hrun
    have hleft : (Link.start todo : Link senders receivers).left = ∑ i, (8 * (todo i).length + 3) + receivers := by
      simp [Link.left, Link.start, Place.left, Pipeline.Queue.init]
    have hwork : work (start l todo : Threads senders receivers) = 7 * receivers := by
      simp [work, start, weight, Pc.weight, Nat.mul_comm]
    rwa [hleft, hwork] at hle
  · obtain ⟨ts, e, -, h⟩ := Simulates.exec hreceivers hrun
    exact h.delivered hstuck

theorem one_small : 1 + 1 < 2 ^ 31 := by decide

/-- A queue for one chunk. -/
def narrow : Limits := ⟨1, 1, 1, Nat.one_pos, Nat.one_pos, Nat.one_pos, one_small, one_small, one_small⟩

/-- Steps of the sender. -/
def sends (n : ℕ) : List (Act (Tid 1 1)) := List.replicate n (.run (.inl ⟨0, Nat.one_pos⟩))

/-- Steps of the receiver. -/
def receives (n : ℕ) : List (Act (Tid 1 1)) := List.replicate n (.run (.inr ⟨0, Nat.one_pos⟩))

/-- The sender signals to the receiver. -/
def wakesReceiver : Act (Tid 1 1) := .call (.inl ⟨0, Nat.one_pos⟩) (.inr ⟨0, Nat.one_pos⟩)

/-- The receiver signals to the sender. -/
def wakesSender : Act (Tid 1 1) := .call (.inr ⟨0, Nat.one_pos⟩) (.inl ⟨0, Nat.one_pos⟩)

/-- One sender and one receiver. The receiver is the first and sleeps until there is a chunk, the sender sleeps until
    there is room for the next one, and then it wakes the receiver again. -/
def wholeRun : List (Act (Tid 1 1)) := receives 4 ++ sends 4 ++ [wakesReceiver] ++ sends 7 ++
  receives 2 ++ [wakesSender] ++ receives 7 ++ sends 2 ++ [wakesReceiver] ++ sends 8 ++ receives 10

/-- What the sender has to send. -/
def twoChunks : Fin 1 → List Chunk := fun _ => [Pipeline.coarseChunk 0, Pipeline.coarseChunk 1]

/-- The link has a run beside that of the two threads. -/
theorem refines_link_narrow : ∃ s, exec (Conditions.step (op narrow)) (start narrow twoChunks) wholeRun = some s ∧
    ∃ ts e, exec (Link.step narrow) (Link.start twoChunks) ts = some e ∧
      ∀ t, Matches narrow (s.thread t).pc (e.thread t) := by
  have hsome : (exec (Conditions.step (op narrow)) (start narrow twoChunks) wholeRun).isSome = true := by
    decide +kernel
  obtain ⟨s, hs⟩ := Option.isSome_iff_exists.1 hsome
  obtain ⟨ts, e, hts, hmatches, -⟩ := refines_link Nat.one_pos hs
  exact ⟨s, hs, ts, e, hts, hmatches⟩

/-- No thread can go on. -/
def quiet (s : Threads 1 1) : Bool := decide (∀ t u,
  (Conditions.step (op narrow) s (.run t)).isNone = true ∧ (Conditions.step (op narrow) s (.call t u)).isNone = true)

/-- The two threads come to their end, in no more steps than there can be. -/
theorem delivers_narrow : ∃ s, exec (Conditions.step (op narrow)) (start narrow twoChunks) wholeRun = some s ∧
    wholeRun.length ≤ allSteps 1 twoChunks ∧ Delivered s twoChunks := by
  have hquiet : (exec (Conditions.step (op narrow)) (start narrow twoChunks) wholeRun).map quiet = some true := by
    decide +kernel
  have hregular : ∀ a ∈ wholeRun, a.Regular := by
    simp [wholeRun, sends, receives, wakesReceiver, wakesSender, Act.Regular]
  obtain ⟨s, hs, hs'⟩ := Option.map_eq_some_iff.1 hquiet
  refine ⟨s, hs, (delivers Nat.one_pos hs).1 hregular, (delivers Nat.one_pos hs).2 fun a ha => ?_⟩
  have hall := of_decide_eq_true hs'
  cases a with
  | run t => exact Option.isNone_iff_eq_none.1 (hall t t).1
  | call t u => exact Option.isNone_iff_eq_none.1 (hall t u).2
  | wake t => exact ha.elim

end Turkey.QueueLink
