import Turkey.Dedup.Mpmc

/-! What a full queue does to the Turkey port. The queues of the first version waited for room; the
    MPMC queues do not, but the assertions `r >= 1` are still there, and nobody looks at whether a
    sentinel was written. A worker stops at its assertion exactly when it calls
    `enqueue_from_ringbuffer` on a full queue, and a sentinel is dropped exactly when it is written to
    a full queue; that a chunk finds room in the send buffer holds in any case. -/

namespace Turkey.Mpmc
open Turkey.Run
variable {h : Hop} {χ : Type*}

/-- No assertion of a worker has failed and no sentinel was dropped. -/
structure Unharmed (s : State h χ) : Prop where
  inserted : ∀ i, (s.producer i).pc ≠ .insertFailed
  enqueued : ∀ i, (s.producer i).pc ≠ .enqueueFailed
  dropped : s.dropped = 0

/-- The producer is about to make the first write of a call of `enqueue_from_ringbuffer`, or to call
    `terminate_queue`. -/
def Producer.needsRoom (p : Producer χ) : Bool :=
  match p.pc with
  | .enqueue 0 _ | .terminate => true
  | _ => false

/-- The consumer is about to write a sentinel back. -/
def Consumer.needsRoom (c : Consumer χ) : Bool :=
  match c.pc with
  | .rewrite _ => true
  | _ => false

/-- The condition on a step: the queue has room where the worker does not look whether it has. -/
def Room (s : State h χ) : Action h → Prop
  | .producer i => (s.producer i).needsRoom = true → s.queue.length < h.capacity
  | .consumer j => (s.consumer j).needsRoom = true → s.queue.length < h.capacity

instance (s : State h χ) : ∀ a, Decidable (Room s a)
  | .producer i =>
    inferInstanceAs (Decidable ((s.producer i).needsRoom = true → s.queue.length < h.capacity))
  | .consumer j =>
    inferInstanceAs (Decidable ((s.consumer j).needsRoom = true → s.queue.length < h.capacity))

theorem unharmed_new (chunks : Fin h.producers → List χ) : Unharmed (State.new h chunks) := by
  refine ⟨?_, ?_, rfl⟩ <;> simp [State.new]

theorem writeSentinel_dropped {capacity d : ℕ} {queue queue' : List (Option χ)}
    (hw : (queue', d) = writeSentinel capacity queue) : d = 0 ↔ queue.length < capacity := by
  by_cases hq : queue.length < capacity
  · rw [writeSentinel_of_lt hq] at hw
    simp [(Prod.mk.inj hw).2, hq]
  · rw [writeSentinel_of_not_lt hq] at hw
    simp [(Prod.mk.inj hw).2, hq]

/-- A producer goes on without harm exactly when it does not need the room it does not find. -/
theorem producerStep_unharmed {capacity n : ℕ} {t : Bool} {p p' : Producer χ}
    {queue queue' : List (Option χ)} {d : ℕ}
    (hp : producerStep capacity n t p queue = some (p', queue', d)) (hn : 0 < n) (htidy : p.Tidy n) :
    p'.pc ≠ .insertFailed ∧ ((p'.pc ≠ .enqueueFailed ∧ d = 0) ↔
      (p.needsRoom = true → queue.length < capacity)) := by
  unfold Producer.Tidy at htidy
  unfold Producer.needsRoom
  rcases producerStep_cases hp with ⟨hpc, ht, rfl, -, rfl⟩ | ⟨c, todo, hpc, ht, hlt, rfl, -, rfl⟩ |
    ⟨c, todo, hpc, ht, hlt, rfl, -⟩ | ⟨i, b, c, send, hpc, hi, hsend, hq, rfl, -, rfl⟩ |
    ⟨i, b, hpc, hfull, rfl, -, rfl⟩ | ⟨hpc, hsend, rfl, -, rfl⟩ | ⟨hpc, hsend, rfl, -, rfl⟩ |
    ⟨hpc, rfl, hw⟩
  all_goals simp only [hpc] at htidy ⊢
  · simp
  · split_ifs <;> simp
  · exact absurd htidy hlt
  · simp [hq]
  · -- the call returns: 0 if not even its first write found room
    unfold enqueueReturns
    cases i with
    | zero => simpa using hfull hn (htidy.2.1 rfl)
    | succ i => cases b <;> simp
  · split_ifs <;> simp
  · simp
  · simpa using writeSentinel_dropped hw

theorem consumerStep_unharmed {capacity n : ℕ} {c c' : Consumer χ} {queue queue' : List (Option χ)}
    {d : ℕ} (hc : consumerStep capacity n c queue = some (c', queue', d)) :
    d = 0 ↔ (c.needsRoom = true → queue.length < capacity) := by
  unfold Consumer.needsRoom
  rcases consumerStep_cases hc with ⟨hpc, -, -, -, rfl⟩ | ⟨y, recv, hpc, -, -, -, rfl⟩ |
    ⟨i, hpc, -, -, rfl⟩ | ⟨i, hpc, -, -, -, -, rfl⟩ | ⟨i, y, hpc, -, -, rfl⟩ | ⟨k, hpc, -, hw⟩
  case inr.inr.inr.inr.inr => simpa [hpc] using writeSentinel_dropped hw
  all_goals simp [hpc]

theorem unharmed_step {s s' : State h χ} {a : Action h}
    (htidy : ∀ i, (s.producer i).Tidy (h.perInsert i)) (ha : step h s a = some s') :
    Unharmed s' ↔ Unharmed s ∧ Room s a := by
  cases a with
  | producer i =>
    obtain ⟨p, queue, n, hp, rfl⟩ := step_producer_eq_some ha
    obtain ⟨hins, hroom⟩ := producerStep_unharmed hp (h.perInsert_pos i) (htidy i)
    have hgoing : (s.producer i).pc ≠ .insertFailed ∧ (s.producer i).pc ≠ .enqueueFailed := by
      constructor <;> intro hpc <;> simp [producerStep, hpc] at hp
    constructor
    · rintro ⟨h1, h2, h3⟩
      have hother : ∀ k, k ≠ i → Function.update s.producer i p k = s.producer k :=
        fun k hk => Function.update_of_ne hk _ _
      refine ⟨⟨fun k => ?_, fun k => ?_, by simp only at h3; omega⟩, hroom.mp ⟨?_, by simp only at h3; omega⟩⟩
      · by_cases hk : k = i
        · exact hk ▸ hgoing.1
        · simpa only [hother k hk] using h1 k
      · by_cases hk : k = i
        · exact hk ▸ hgoing.2
        · simpa only [hother k hk] using h2 k
      · simpa only [Function.update_self] using h2 i
    · rintro ⟨⟨h1, h2, h3⟩, hr⟩
      obtain ⟨henq, rfl⟩ := hroom.mpr hr
      refine ⟨fun k => ?_, fun k => ?_, h3⟩
      · by_cases hk : k = i
        · subst hk; simpa only [Function.update_self] using hins
        · simpa only [Function.update_of_ne hk] using h1 k
      · by_cases hk : k = i
        · subst hk; simpa only [Function.update_self] using henq
        · simpa only [Function.update_of_ne hk] using h2 k
  | consumer j =>
    obtain ⟨c, queue, n, hc, rfl⟩ := step_consumer_eq_some ha
    have hroom := consumerStep_unharmed hc
    constructor
    · rintro ⟨h1, h2, h3⟩
      exact ⟨⟨h1, h2, by simp only at h3; omega⟩, hroom.mp (by simp only at h3; omega)⟩
    · rintro ⟨⟨h1, h2, h3⟩, hr⟩
      exact ⟨h1, h2, by simp only [h3, hroom.mpr hr]⟩

/-- CORRECT: a run is unharmed exactly when no call of `enqueue_from_ringbuffer` with something to
    send, no `terminate_queue` and no sentinel written back meets a full queue. -/
theorem unharmed_iff_room (h : Hop) (chunks : Fin h.producers → List χ) (acts : List (Action h))
    (s : State h χ) (hs : exec (step h) (State.new h chunks) acts = some s) :
    Unharmed s ↔ Meets (step h) Room (State.new h chunks) acts := by
  have hnew : ∀ i, ((State.new h chunks).producer i).Tidy (h.perInsert i) := h.perInsert_pos
  rw [exec_iff_meets (I := fun s : State h χ => ∀ i, (s.producer i).Tidy (h.perInsert i))
    (fun s a s' hI ha => tidy_step hI ha) (fun s a s' hI ha => unharmed_step hI ha) hnew hs]
  exact and_iff_right (unharmed_new chunks)

/-- One worker on each side of `queue_deduplicate`, from its start to its end. -/
theorem unharmed_iff_room_one :
    let h := queueDeduplicate 1 (by decide)
    let chunks : Fin 1 → List ℕ := ![[10, 11]]
    let p : Action h := .producer (0 : Fin 1)
    let c : Action h := .consumer (0 : Fin 1)
    ∃ s, exec (step h) (State.new h chunks) (List.replicate 9 p ++ List.replicate 6 c) = some s ∧
      Unharmed s := by
  intro h chunks p c
  refine ⟨_, rfl, ?_⟩
  exact (unharmed_iff_room h chunks (List.replicate 9 p ++ List.replicate 6 c) _ rfl).mpr (by decide)

/-! ### A queue that fills up -/

theorem step_producer_of {s : State h χ} {i : Fin h.producers} {p : Producer χ}
    {queue : List (Option χ)} {n : ℕ}
    (hp : producerStep h.capacity (h.perInsert i) (h.terminates i) (s.producer i) s.queue =
      some (p, queue, n)) :
    ∃ s', step h s (.producer i) = some s' ∧ s'.producer i = p ∧ s'.queue = queue := by
  refine ⟨⟨queue, s.dropped + n, Function.update s.producer i p, s.consumer⟩, ?_, ?_, rfl⟩
  · simp only [step, hp, Option.map_some]
  · exact Function.update_self ..

/-- A call with a full send buffer, made while nobody reads the queue: it fails, or it returns with
    room in the send buffer. -/
theorem enqueue_alone (i : Fin h.producers) : ∀ (send todo : List χ) (k : ℕ) (s : State h χ),
    s.producer i = ⟨todo, send, .enqueue k false⟩ → k + send.length = h.perInsert i →
    s.queue.length ≤ h.capacity → ∃ acts s', exec (step h) s acts = some s' ∧
      ((s'.producer i).pc = .enqueueFailed ∨ ∃ send', s'.producer i = ⟨todo, send', .work⟩ ∧
        send'.length < h.perInsert i ∧ s'.queue.length ≤ h.capacity ∧
        send'.length + s'.queue.length = send.length + s.queue.length)
  | [], todo, k, s, hp, hk, hq => by
      have hpos := h.perInsert_pos i
      have hk : k = h.perInsert i := hk
      have hstep : producerStep h.capacity (h.perInsert i) (h.terminates i) (s.producer i) s.queue =
          some (⟨todo, [], .work⟩, s.queue, 0) := by
        simp [producerStep, hp, hk, enqueueReturns, hpos.ne']
      obtain ⟨s', hs', hp', hq'⟩ := step_producer_of hstep
      exact ⟨[.producer i], s', exec_cons_eq_some.mpr ⟨_, hs', rfl⟩,
        .inr ⟨[], hp', hpos, hq' ▸ hq, by rw [hq']⟩⟩
  | c :: send, todo, k, s, hp, hk, hq => by
      simp only [List.length_cons] at hk
      have hlt : k < h.perInsert i := by omega
      by_cases hroom : s.queue.length < h.capacity
      · -- the chunk is written, and the loop goes on
        have hstep : producerStep h.capacity (h.perInsert i) (h.terminates i) (s.producer i) s.queue =
            some (⟨todo, send, .enqueue (k + 1) false⟩, s.queue ++ [some c], 0) := by
          simp [producerStep, hp, hlt, write, hroom]
        obtain ⟨s', hs', hp', hq'⟩ := step_producer_of hstep
        have hlen : s'.queue.length = s.queue.length + 1 := by simp [hq']
        obtain ⟨acts, t, ht, hend⟩ :=
          enqueue_alone i send todo (k + 1) s' hp' (by omega) (by omega)
        refine ⟨.producer i :: acts, t, exec_cons_eq_some.mpr ⟨_, hs', ht⟩, hend.imp_right ?_⟩
        rintro ⟨send', h1, h2, h3, h4⟩
        exact ⟨send', h1, h2, h3, by simp only [List.length_cons]; omega⟩
      · have hstep : producerStep h.capacity (h.perInsert i) (h.terminates i) (s.producer i) s.queue =
            some (⟨todo, c :: send, enqueueReturns k false⟩, s.queue, 0) := by
          simp [producerStep, hp, hlt, write, hroom]
        obtain ⟨s', hs', hp', hq'⟩ := step_producer_of hstep
        refine ⟨[.producer i], s', exec_cons_eq_some.mpr ⟨_, hs', rfl⟩, ?_⟩
        rw [hp', hq']
        by_cases hk0 : k = 0
        · exact .inl (by simp [enqueueReturns, hk0])
        · exact .inr ⟨c :: send, by simp [enqueueReturns, hk0], by simp only [List.length_cons]; omega,
            hq, rfl⟩

/-- A producer with more chunks than the queue and its send buffer hold fails when nobody reads. -/
theorem work_alone (i : Fin h.producers) : ∀ (todo send : List χ) (s : State h χ),
    s.producer i = ⟨todo, send, .work⟩ → send.length < h.perInsert i → s.queue.length ≤ h.capacity →
    h.capacity + h.perInsert i ≤ todo.length + send.length + s.queue.length →
    ∃ acts s', exec (step h) s acts = some s' ∧ (s'.producer i).pc = .enqueueFailed
  | [], send, s, _, hsend, hq, hlen => by simp only [List.length_nil] at hlen; omega
  | c :: todo, send, s, hp, hsend, hq, hlen => by
      simp only [List.length_cons] at hlen
      have hstep : producerStep h.capacity (h.perInsert i) (h.terminates i) (s.producer i) s.queue =
          some (⟨todo, send ++ [c], if send.length + 1 = h.perInsert i then .enqueue 0 false else .work⟩,
            s.queue, 0) := by
        simp [producerStep, hp, hsend]
      obtain ⟨s', hs', hp', hq'⟩ := step_producer_of hstep
      have hlen' : (send ++ [c]).length = send.length + 1 := by simp
      by_cases hfull : send.length + 1 = h.perInsert i
      · rw [if_pos hfull] at hp'
        obtain ⟨acts, t, ht, hfail | ⟨send', h1, h2, h3, h4⟩⟩ :=
          enqueue_alone i (send ++ [c]) todo 0 s' hp' (by omega) (hq' ▸ hq)
        · exact ⟨.producer i :: acts, t, exec_cons_eq_some.mpr ⟨_, hs', ht⟩, hfail⟩
        · rw [hlen', hq'] at h4
          obtain ⟨acts', u, hu, hfail⟩ := work_alone i todo send' t h1 h2 h3 (by omega)
          refine ⟨.producer i :: (acts ++ acts'), u, exec_cons_eq_some.mpr ⟨_, hs', ?_⟩, hfail⟩
          rw [exec_append, ht]
          exact hu
      · rw [if_neg hfull] at hp'
        obtain ⟨acts, t, ht, hfail⟩ := work_alone i todo (send ++ [c]) s' hp' (by omega) (hq' ▸ hq)
          (by rw [hlen', hq']; omega)
        exact ⟨.producer i :: acts, t, exec_cons_eq_some.mpr ⟨_, hs', ht⟩, hfail⟩

/-- One `FragmentRefine` worker makes 1048596 fine chunks before `Deduplicate` reads the first: when
    `queue_deduplicate` is full the assertion `r >= 1` fails. -/
theorem full_queue_stops_producer :
    let h := queueDeduplicate 1 (by decide)
    let chunks : Fin 1 → List ℕ := fun _ => List.replicate 1048596 0
    ∃ acts s, exec (step h) (State.new h chunks) acts = some s ∧ ¬Unharmed s := by
  intro h chunks
  obtain ⟨acts, s, hs, hfail⟩ := work_alone (h := h) (0 : Fin 1) (chunks 0) [] (State.new h chunks) rfl
    (by decide) (by decide) (by simp only [chunks, List.length_replicate]; decide)
  exact ⟨acts, s, hs, fun hu => hu.enqueued _ hfail⟩

end Turkey.Mpmc
