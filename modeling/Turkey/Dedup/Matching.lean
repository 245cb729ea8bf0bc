import Turkey.Dedup.Link

/-! How the threads of `queue.c` correspond to the link with operations in one step, and who wakes whom.

    One signal is sent for each call that has moved elements, however many they are and however many threads sleep.
    That is enough, because a receiver that has been woken comes back as long as there are elements, and because each
    call of a sender that has been woken puts at least one element into the queue, which leads to the next signal. -/

namespace Turkey.QueueLink
open Turkey.Conditions Turkey.Run Turkey.Tally
open Turkey.Queues (Ringbuffer ringbufferInit ringbufferInsert ringbufferRemove isEmpty isFull Fifo Represents
  init_represents)
open Turkey.Reorder (Chunk)
open Turkey.Pipeline (Queue queueDequeue_cases queueEnqueue_cases queueTerminate_cases)

variable {senders receivers : ℕ} {l : Limits}

/-! ### The ring buffers -/

/-- The elements of a ring buffer of this capacity, from the oldest one on. -/
def Contains (capacity : ℕ) (buf : Ringbuffer Chunk) (xs : List Chunk) : Prop :=
  ∃ (start : ℕ) (q : Fifo Chunk capacity), Represents buf start q ∧ q.elements = xs

namespace Contains
variable {capacity : ℕ} {buf : Ringbuffer Chunk} {x : Chunk} {xs : List Chunk}

theorem init (small : capacity + 1 < 2 ^ 31) : Contains capacity (ringbufferInit capacity) [] :=
  ⟨0, Fifo.empty, init_represents small, rfl⟩

theorem length_le (h : Contains capacity buf xs) : xs.length ≤ capacity := by
  obtain ⟨start, q, -, rfl⟩ := h
  exact q.le

theorem isEmpty_eq (h : Contains capacity buf xs) : isEmpty buf = xs.isEmpty := by
  obtain ⟨start, q, h, rfl⟩ := h
  exact h.isEmpty_eq

theorem isFull_eq (h : Contains capacity buf xs) (small : capacity + 1 < 2 ^ 31) :
    isFull buf = some (decide (xs.length = capacity)) := by
  obtain ⟨start, q, h, rfl⟩ := h
  exact h.isFull_eq small

theorem insert (h : Contains capacity buf xs) (small : capacity + 1 < 2 ^ 31) (hroom : xs.length < capacity)
    (x : Chunk) :
    ∃ buf', ringbufferInsert x buf = some (0, buf') ∧ Contains capacity buf' (xs ++ [x]) := by
  obtain ⟨start, q, h, rfl⟩ := h
  obtain ⟨buf', hinsert, h'⟩ := h.insert small x
  rw [if_pos hroom] at hinsert
  exact ⟨buf', hinsert, start, _, h', by rw [Fifo.push, dif_pos hroom]⟩

theorem remove (h : Contains capacity buf (x :: xs)) (small : capacity + 1 < 2 ^ 31) :
    ∃ buf', ringbufferRemove buf = some (some x, buf') ∧ Contains capacity buf' xs := by
  obtain ⟨start, q, h, hq⟩ := h
  obtain ⟨buf', start', hremove, h'⟩ := h.remove small
  rw [hq] at hremove
  refine ⟨buf', hremove, start', _, h', ?_⟩
  show q.elements.tail = xs
  rw [hq, List.tail_cons]

end Contains

/-- How many elements are moved. -/
theorem moveItems_eq {A B : ℕ} (hA : A + 1 < 2 ^ 31) (hB : B + 1 < 2 ^ 31)
    {more : Ringbuffer Chunk → Ringbuffer Chunk → Option Bool}
    (hmore : ∀ source target xs ys, Contains A source xs → Contains B target ys →
      more source target = some (!xs.isEmpty && !decide (ys.length = B))) :
    ∀ (n i : ℕ) {source target : Ringbuffer Chunk} {xs ys : List Chunk}, Contains A source xs → Contains B target ys →
      ∃ k source' target', moveItems more n i source target = some (i + k, source', target') ∧
        k = min n (min xs.length (B - ys.length)) ∧
        Contains A source' (xs.drop k) ∧ Contains B target' (ys ++ xs.take k)
  | 0, i, source, target, xs, ys, hs, ht => ⟨0, source, target, rfl, by simp, by simpa, by simpa⟩
  | n + 1, i, source, target, xs, ys, hs, ht => by
    have hle := ht.length_le
    rw [moveItems, hmore source target xs ys hs ht, Option.bind_some]
    cases xs with
    | nil => exact ⟨0, source, target, by simp, by simp, by simpa, by simpa⟩
    | cons x xs =>
      by_cases hfull : ys.length = B
      · exact ⟨0, source, target, by simp [hfull], by simp [hfull], by simpa, by simpa⟩
      · obtain ⟨source', hremove, hs'⟩ := hs.remove hA
        obtain ⟨target', hinsert, ht'⟩ := ht.insert hB (by omega) x
        obtain ⟨k, source'', target'', hmove, hk, hs'', ht''⟩ := moveItems_eq hA hB hmore n (i + 1) hs' ht'
        refine ⟨k + 1, source'', target'', ?_, ?_, by simpa using hs'', by simpa using ht''⟩
        · simp only [List.isEmpty_cons, hfull, decide_false, Bool.not_false, Bool.and_self, if_true, moveItem, hremove,
            hinsert, Option.bind_some, hmove, Option.some.injEq, Prod.mk.injEq, and_true]
          omega
        · rw [List.length_append, List.length_singleton] at hk
          rw [List.length_cons]
          omega

theorem moreToDequeue_eq {A B : ℕ} (hB : B + 1 < 2 ^ 31) (source target : Ringbuffer Chunk) (xs ys : List Chunk)
    (hs : Contains A source xs) (ht : Contains B target ys) :
    moreToDequeue source target = some (!xs.isEmpty && !decide (ys.length = B)) := by
  rw [moreToDequeue, hs.isEmpty_eq, ht.isFull_eq hB]
  cases xs <;> simp

theorem moreToEnqueue_eq {A B : ℕ} (hB : B + 1 < 2 ^ 31) (source target : Ringbuffer Chunk) (xs ys : List Chunk)
    (hs : Contains A source xs) (ht : Contains B target ys) :
    moreToEnqueue source target = some (!xs.isEmpty && !decide (ys.length = B)) := by
  rw [moreToEnqueue, hs.isEmpty_eq, ht.isFull_eq hB, Option.map_some, Bool.and_comm]

/-! ### How the two models match -/

/-- A thread at this place will look into the queue for elements, or wakes a thread that will. -/
def Pc.looks : Pc → Bool
  | .enqueue _ (.signal _) _ => true
  | .fetch _ | .dequeue _ _ | .take _ => true
  | _ => false

/-- A thread at this place will put an element into the queue or find it full, or wakes a thread that will. -/
def Pc.fills : Pc → Bool
  | .enqueue _ .test _ => true
  | .dequeue (.signal _) _ => true
  | _ => false

/-- The call has not moved anything yet. -/
def Stage.before : Stage → Bool
  | .lock | .test | .wait => true
  | _ => false

/-- What the call returns. -/
def Stage.moved : Stage → ℕ
  | .signal i | .unlock i | .back i => i
  | _ => 0

/-- The call has not counted itself yet. -/
def Closing.before : Closing → Bool
  | .lock | .count => true
  | _ => false

/-- The place of the link at which a thread is. -/
inductive Matches (l : Limits) : Pc → Place → Prop where
  | fill {d : Sender} {send : List Chunk} : Contains l.perInsert d.buf send → Matches l (.fill d) (.fill d.todo send)
  | drain {d : Sender} {send : List Chunk} : d.todo = [] → Contains l.perInsert d.buf send →
      Matches l (.drain d) (.drain send)
  | calling {draining : Bool} {k : Stage} {d : Sender} {send : List Chunk} : k.before = true →
      Contains l.perInsert d.buf send → Matches l (.enqueue draining k d) (.enqueue draining d.todo send)
  | check {draining : Bool} {d : Sender} {send : List Chunk} : Contains l.perInsert d.buf send →
      Matches l (.check draining d) (.enqueue draining d.todo send)
  | called {draining : Bool} {k : Stage} {d : Sender} {send : List Chunk} : k.before = false → 0 < k.moved →
      (draining = true → d.todo = []) → Contains l.perInsert d.buf send →
      Matches l (.enqueue draining k d) (if draining then .drain send else .fill d.todo send)
  | closing {k : Closing} : k.before = true → Matches l (.terminate k) .terminate
  | closed {k : Closing} : k.before = false → Matches l (.terminate k) .sent
  | sent : Matches l .sent .sent
  | fetch {r : Receiver} {recv : List Chunk} : Contains l.perFetch r.buf recv → Matches l (.fetch r) (.fetch recv r.got)
  | asking {k : Stage} {r : Receiver} : k.before = true → Contains l.perFetch r.buf [] →
      Matches l (.dequeue k r) (.fetch [] r.got)
  | answered {k : Stage} {r : Receiver} {recv : List Chunk} : k.before = false → recv ≠ [] →
      Contains l.perFetch r.buf recv → Matches l (.dequeue k r) (.fetch recv r.got)
  | take {r : Receiver} {recv : List Chunk} : recv ≠ [] → Contains l.perFetch r.buf recv →
      Matches l (.take r) (.fetch recv r.got)
  | leaving {r : Receiver} : Matches l (.closed r) (.received r.got)
  | received {got : List Chunk} : Matches l (.received got) (.received got)

/-- Who fetches is a receiver. -/
theorem Matches.fetching {p : Pc} {x : Place} (h : Matches l p x) {recv got : List Chunk} (hx : x = .fetch recv got) :
    p.looks = true ∧ ∀ draining k d, p ≠ .enqueue draining k d := by
  cases h with
  | fetch | asking | answered | take => exact ⟨rfl, by simp⟩
  | called => split_ifs at hx
  | _ => cases hx

/-- What a thread knows that is about to wait. -/
def AtWait (l : Limits) (que : Queue) : Pc → Prop
  | .enqueue _ .wait _ => que.buf.length = l.size
  | .dequeue .wait _ => que.Starved
  | _ => True

theorem atWait_of_not_holds {que : Queue} {p : Pc} (h : holds p = false) : AtWait l que p := by
  cases p with
  | enqueue draining k d => cases k <;> trivial
  | dequeue k r => cases k <;> trivial
  | _ => trivial

/-! ### Who will wake whom -/

/-- The thread does not sleep. -/
def Awake (x : Thread Pc Cond) : Prop := ∀ c, x.mode ≠ .asleep c

/-- No wake-up is lost. -/
structure Wakes (que : Queue) (thread : Tid senders receivers → Thread Pc Cond) : Prop where
  notEmpty : que.buf ≠ [] → ∃ t, Awake (thread t) ∧ (thread t).pc.looks = true
  notFull : (∃ t, (thread t).mode = .asleep .notFull) →
    que.buf ≠ [] ∨ ∃ t, Awake (thread t) ∧ (thread t).pc.fills = true
  closing : que.nTerminated = que.nProducers → (∃ t, (thread t).mode = .asleep .notEmpty) →
    ∃ t, (thread t).pc = .terminate .broadcast

namespace Wakes
variable {que que' : Queue} {thread thread' : Tid senders receivers → Thread Pc Cond}

/-- Nobody falls asleep, and every thread that will do something for the others still will. -/
theorem mono (h : Wakes que thread) (hasleep : ∀ t c, (thread' t).mode = .asleep c → (thread t).mode = .asleep c)
    (hlooks : que.buf ≠ [] → ∀ t, (thread t).pc.looks = true → (thread' t).pc.looks = true)
    (hfills : que.buf = [] → ∀ t, (thread t).pc.fills = true → (thread' t).pc.fills = true)
    (hcall : ∀ t, (thread t).pc = .terminate .broadcast → (thread' t).pc = .terminate .broadcast) :
    Wakes que thread' := by
  have hawake : ∀ t, Awake (thread t) → Awake (thread' t) := fun t ht c hc => ht c (hasleep t c hc)
  refine ⟨fun hne => ?_, ?_, fun hterm => ?_⟩
  · obtain ⟨t, ht, hlook⟩ := h.notEmpty hne
    exact ⟨t, hawake t ht, hlooks hne t hlook⟩
  · rintro ⟨t, ht⟩
    by_cases hnil : que.buf = []
    · obtain ⟨u, hu, hfill⟩ := (h.notFull ⟨t, hasleep t _ ht⟩).resolve_left (not_not_intro hnil)
      exact .inr ⟨u, hawake u hu, hfills hnil u hfill⟩
    · exact .inl hnil
  · rintro ⟨t, ht⟩
    obtain ⟨u, hu⟩ := h.closing hterm ⟨t, hasleep t _ ht⟩
    exact ⟨u, hcall u hu⟩

/-- A thread that is awake goes on, and remains as useful as it has to be. -/
theorem goto (h : Wakes que thread) {t : Tid senders receivers} {p : Pc}
    (hlooks : que.buf ≠ [] → (thread t).pc.looks = true → p.looks = true)
    (hfills : que.buf = [] → (thread t).pc.fills = true → p.fills = true)
    (hcall : (thread t).pc ≠ .terminate .broadcast) : Wakes que (Function.update thread t ⟨p, .running⟩) := by
  refine h.mono (fun u c => ?_) (fun hne u => ?_) (fun hnil u => ?_) (fun u => ?_) <;>
    rcases eq_or_ne u t with rfl | hut
  · simp
  · simp [hut]
  · simpa using hlooks hne
  · simp [hut]
  · simpa using hfills hnil
  · simp [hut]
  · exact fun hu => absurd hu hcall
  · simp [hut]

/-- The thread that wakes all others when the queue is closed is another one. -/
theorem closing_update (h : Wakes que thread) {t : Tid senders receivers} {x : Thread Pc Cond}
    (hmode : x.mode ≠ .asleep .notEmpty) (hcall : (thread t).pc ≠ .terminate .broadcast)
    (hterm : que.nTerminated = que.nProducers) :
    (∃ u, (Function.update thread t x u).mode = .asleep .notEmpty) →
      ∃ u, (Function.update thread t x u).pc = .terminate .broadcast := by
  rintro ⟨u, hu⟩
  have hut : u ≠ t := by
    rintro rfl
    exact hmode (by simpa using hu)
  obtain ⟨v, hv⟩ := h.closing hterm ⟨u, by simpa [hut] using hu⟩
  have hvt : v ≠ t := by
    rintro rfl
    exact hcall hv
  exact ⟨v, by simpa [hvt] using hv⟩

/-- A sender falls asleep at a full queue. -/
theorem sleepFull (h : Wakes que thread) {t : Tid senders receivers} {p : Pc} (hne : que.buf ≠ [])
    (hlooks : (thread t).pc.looks = false) (hcall : (thread t).pc ≠ .terminate .broadcast) :
    Wakes que (Function.update thread t ⟨p, .asleep .notFull⟩) := by
  refine ⟨fun _ => ?_, fun _ => .inl hne, fun hterm => ?_⟩
  · obtain ⟨u, hu, hlook⟩ := h.notEmpty hne
    have hut : u ≠ t := by
      rintro rfl
      simp [hlooks] at hlook
    exact ⟨u, by simpa [hut] using hu, by simpa [hut] using hlook⟩
  · exact h.closing_update (by simp) hcall hterm

/-- A receiver falls asleep at an empty queue. -/
theorem sleepEmpty (h : Wakes que thread) {t : Tid senders receivers} {p : Pc} (hstarved : que.Starved)
    (hfills : (thread t).pc.fills = false) : Wakes que (Function.update thread t ⟨p, .asleep .notEmpty⟩) := by
  refine ⟨fun hne => absurd hstarved.1 hne, ?_, fun hterm => absurd hterm hstarved.2.ne⟩
  rintro ⟨u, hu⟩
  have hut : u ≠ t := by
    rintro rfl
    simp at hu
  obtain ⟨v, hv, hfill⟩ := (h.notFull ⟨u, by simpa [hut] using hu⟩).resolve_left (not_not_intro hstarved.1)
  have hvt : v ≠ t := by
    rintro rfl
    simp [hfills] at hfill
  exact .inr ⟨v, by simpa [hvt] using hv, by simpa [hvt] using hfill⟩

end Wakes

/-! ### One step -/

/-- The threads and the link are in the same state, and no wake-up is lost. -/
structure Simulates (l : Limits) (total : Multiset Chunk) (s : Threads senders receivers) (e : Link senders receivers) :
    Prop where
  sound : Sound (op l) holds s
  buf : Contains l.size s.mem.buf e.que.buf
  nProducers : s.mem.nProducers = e.que.nProducers
  nTerminated : s.mem.nTerminated = e.que.nTerminated
  place : ∀ t, Matches l (s.thread t).pc (e.thread t)
  waits : ∀ t, (s.thread t).mode = .running → AtWait l e.que (s.thread t).pc
  inv : e.Inv l total
  wakes : Wakes e.que s.thread

theorem holds_fill (d : Sender) : holds (fill d) = false := by
  unfold fill
  split
  · rfl
  · split
    · split
      · split <;> rfl
      · rfl
    · rfl

theorem holds_enqueueTest (draining : Bool) (d : Sender) (que : SyncQueue) :
    holds (enqueueTest l draining d que).2 = true := by
  unfold enqueueTest
  split
  · rfl
  · rfl
  · split
    · rfl
    · dsimp only
      split <;> rfl

theorem holds_dequeueTest (r : Receiver) (que : SyncQueue) : holds (dequeueTest l r que).2 = true := by
  unfold dequeueTest
  split
  · split <;> rfl
  · split
    · rfl
    · dsimp only
      split <;> rfl

theorem holds_terminateCount (que : SyncQueue) : holds (terminateCount que).2 = true := by
  unfold terminateCount
  dsimp only
  split
  · rfl
  · split <;> rfl

theorem holds_take (r : Receiver) : holds (take r) = false := by
  unfold take
  split <;> rfl

theorem op_keeps (l : Limits) (p : Pc) : (op l p).Keeps holds p := by
  cases p with
  | fill d => exact fun _ => holds_fill d
  | drain d =>
    intro m
    show holds (if isEmpty d.buf then .terminate .lock else .enqueue true .lock d) = false
    split <;> rfl
  | enqueue draining k d =>
    cases k with
    | test => exact holds_enqueueTest draining d
    | back i =>
      intro m
      show holds (enqueueBack draining i d) = false
      unfold enqueueBack
      split
      · split <;> rfl
      · rfl
    | signal i => rfl
    | _ => exact ⟨rfl, rfl⟩
  | check draining d =>
    intro m
    show holds (enqueueCheck draining d m) = true
    unfold enqueueCheck
    split <;> rfl
  | terminate k =>
    cases k with
    | count => exact holds_terminateCount
    | broadcast => rfl
    | _ => exact ⟨rfl, rfl⟩
  | fetch r =>
    intro m
    show holds (if isEmpty r.buf then .dequeue .lock r else .take r) = false
    split <;> rfl
  | dequeue k r =>
    cases k with
    | test => exact holds_dequeueTest r
    | back i => exact fun _ => rfl
    | signal i => rfl
    | _ => exact ⟨rfl, rfl⟩
  | take r => exact fun _ => holds_take r
  | closed r => exact ⟨rfl, rfl⟩
  | failed locked => exact fun _ => rfl
  | _ => rfl

/-! ### How long the threads can go on without a step of the link -/

/-- A measure of a call, which falls with each of its steps that is none of the link. -/
def Stage.weight : Stage → ℕ
  | .lock => 6
  | .test => 3
  | .wait => 2
  | .signal _ => 6
  | .unlock _ => 2
  | .back _ => 1

/-- How many more steps a thread can make from here, and make others make; `n` is the number of threads. -/
def Pc.weight (n : ℕ) : Pc → ℕ
  | .enqueue _ k _ => k.weight
  | .check _ _ => 5
  | .terminate .lock => 2
  | .terminate .count => 1
  | .terminate .broadcast => 3 * n + 2
  | .terminate .unlock => 1
  | .fetch _ => 7
  | .dequeue k _ => k.weight
  | .closed _ => 1
  | _ => 0

/-- The same for a thread, asleep or not. -/
def weight (n : ℕ) (x : Thread Pc Cond) : ℕ :=
  match x.mode with
  | .running => x.pc.weight n
  | .asleep _ => 1
  | .woken => 4

/-- The most that a thread can have. -/
def most (n : ℕ) : ℕ := 3 * n + 7

theorem Stage.weight_le (k : Stage) : k.weight ≤ 6 := by
  cases k <;> simp [weight]

theorem Pc.weight_le (n : ℕ) (p : Pc) : p.weight n ≤ most n := by
  cases p with
  | enqueue draining k d => exact k.weight_le.trans (by simp [most])
  | dequeue k r => exact k.weight_le.trans (by simp [most])
  | terminate k => cases k <;> simp [weight, most]
  | _ => simp [weight, most]

/-- The same for all threads. -/
def work (s : Threads senders receivers) : ℕ := ∑ t, weight (senders + receivers) (s.thread t)

end Turkey.QueueLink
