import Mathlib.Algebra.BigOperators.Fin
import Mathlib.Data.Fintype.Basic
import Turkey.Schemes.Run

/-! Two stages of the Turkey port of dedup and the queue between them.

    `turkey/mpmc.h` moves chunks between a private ring buffer and a `folly::MPMCQueue` whose `write`
    and `read` never wait: a write to a full queue and a read of an empty one return false. A queue
    holds `some chunk` or the sentinel `none` (the `nullptr`). The producers are the workers of one
    stage (`Fragment`, `FragmentRefine`, `Deduplicate`, `Compress`), the consumers those of the next.
    One action lets one worker take its next step, and a step reads or writes the queue at most once,
    so a list of actions is an interleaving of the queue operations. A ring buffer of `size` places
    is the list of its elements, from the tail on. -/

namespace Turkey.Mpmc
open Turkey.Run
variable {χ : Type*}

/-- `MPMCQueue::write` on a queue of the given capacity: whether there was room, and the queue. -/
def write (capacity : ℕ) (queue : List (Option χ)) (x : Option χ) : Bool × List (Option χ) :=
  if queue.length < capacity then (true, queue ++ [x]) else (false, queue)

/-- One queue with the workers at both ends. The producers differ in the size of their send buffer
    (which is also the `num` of their calls) and in whether they call `terminate_queue`. -/
structure Hop where
  producers : ℕ
  consumers : ℕ
  capacity : ℕ
  perInsert : Fin producers → ℕ
  perFetch : ℕ
  terminates : Fin producers → Bool
  perInsert_pos : ∀ i, 0 < perInsert i
  perFetch_pos : 0 < perFetch
  consumers_pos : 0 < consumers

/-- Where a producer stands: making its next chunk, inside `enqueue_from_ringbuffer` with loop index
    `i` (called from the main loop or, `draining`, from the drain loop), at the head of the drain
    loop, at `terminate_queue`, or finished. An assertion that fails stops it: `r == 0` after
    `ringbuffer_insert`, `r >= 1` after `enqueue_from_ringbuffer`. -/
inductive ProducerPc where
  | work
  | enqueue (i : ℕ) (draining : Bool)
  | drain
  | terminate
  | done
  | insertFailed
  | enqueueFailed
  deriving DecidableEq

/-- `todo` are the chunks the producer has still to send, `send` is its `send_buf`. -/
structure Producer (χ : Type*) where
  todo : List χ
  send : List χ
  pc : ProducerPc
  deriving DecidableEq

/-- Where a consumer stands: at the head of its loop, inside `dequeue_to_ringbuffer` with loop index
    `i`, with `k + 1` sentinels still to write before that call returns -1, or out of its loop. -/
inductive ConsumerPc where
  | loop
  | dequeue (i : ℕ)
  | rewrite (k : ℕ)
  | left
  deriving DecidableEq

/-- `recv` is the `recv_buf`, `processed` the chunks taken out of it, in that order. -/
structure Consumer (χ : Type*) where
  recv : List χ
  processed : List χ
  pc : ConsumerPc
  deriving DecidableEq

/-- The two stages and the queue; `dropped` counts the sentinels that found the queue full. -/
structure State (h : Hop) (χ : Type*) where
  queue : List (Option χ)
  dropped : ℕ
  producer : Fin h.producers → Producer χ
  consumer : Fin h.consumers → Consumer χ

/-- `enqueue_from_ringbuffer` returns `r`, and the caller asserts `r >= 1`. -/
def enqueueReturns (r : ℕ) (draining : Bool) : ProducerPc :=
  if r = 0 then .enqueueFailed else if draining then .drain else .work

/-- A write whose return value is not looked at: the queue, and the sentinels that were dropped. -/
def writeSentinel (capacity : ℕ) (queue : List (Option χ)) : List (Option χ) × ℕ :=
  match write capacity queue none with
  | (true, queue) => (queue, 0)
  | (false, queue) => (queue, 1)

/-- The next step of a producer: its state, the queue, and the sentinels dropped. -/
def producerStep (capacity perInsert : ℕ) (terminates : Bool) (p : Producer χ)
    (queue : List (Option χ)) : Option (Producer χ × List (Option χ) × ℕ) :=
  match p.pc with
  | .work =>
    match p.todo with
    | [] => some ({ p with pc := .drain }, queue, 0)
    | c :: todo =>
      if p.send.length < perInsert then
        -- the next chunk goes into the send buffer, and a full buffer is enqueued at once
        some (⟨todo, p.send ++ [c], if p.send.length + 1 = perInsert then .enqueue 0 false else .work⟩,
          queue, 0)
      else some (⟨todo, p.send, .insertFailed⟩, queue, 0)
  | .enqueue i draining =>
    if i < perInsert then
      match p.send with
      | [] => some ({ p with pc := enqueueReturns i draining }, queue, 0)
      | c :: send =>
        match write capacity queue (some c) with
        | (true, queue) => some ({ p with send := send, pc := .enqueue (i + 1) draining }, queue, 0)
        | (false, queue) => some ({ p with pc := enqueueReturns i draining }, queue, 0)
    else some ({ p with pc := enqueueReturns i draining }, queue, 0)
  | .drain =>
    match p.send with
    | [] => some ({ p with pc := if terminates then .terminate else .done }, queue, 0)
    | _ :: _ => some ({ p with pc := .enqueue 0 true }, queue, 0)
  | .terminate => some ({ p with pc := .done }, writeSentinel capacity queue)
  | .done | .insertFailed | .enqueueFailed => none

/-- The next step of a consumer: its state, the queue, and the sentinels dropped. -/
def consumerStep (capacity perFetch : ℕ) (c : Consumer χ) (queue : List (Option χ)) :
    Option (Consumer χ × List (Option χ) × ℕ) :=
  match c.pc with
  | .loop =>
    match c.recv with
    | [] => some ({ c with pc := .dequeue 0 }, queue, 0)
    | x :: recv => some ({ c with recv := recv, processed := c.processed ++ [x] }, queue, 0)
  | .dequeue i =>
    if i < perFetch ∧ c.recv.length < perFetch then
      match queue with
      | [] => some ({ c with pc := .loop }, [], 0)
      | none :: queue => some ({ c with pc := .rewrite 1 }, queue, 0)
      | some x :: queue => some ({ c with recv := c.recv ++ [x], pc := .dequeue (i + 1) }, queue, 0)
    else some ({ c with pc := .loop }, queue, 0)
  | .rewrite (k + 1) => some ({ c with pc := .rewrite k }, writeSentinel capacity queue)
  | .rewrite 0 => some ({ c with pc := .left }, writeSentinel capacity queue)
  | .left => none

/-- An action: the worker that takes its next step. -/
inductive Action (h : Hop) where
  | producer (i : Fin h.producers)
  | consumer (j : Fin h.consumers)
  deriving DecidableEq

def step (h : Hop) (s : State h χ) : Action h → Option (State h χ)
  | .producer i =>
    (producerStep h.capacity (h.perInsert i) (h.terminates i) (s.producer i) s.queue).map
      fun (p, queue, n) =>
        { s with queue, dropped := s.dropped + n, producer := Function.update s.producer i p }
  | .consumer j =>
    (consumerStep h.capacity h.perFetch (s.consumer j) s.queue).map fun (c, queue, n) =>
      { s with queue, dropped := s.dropped + n, consumer := Function.update s.consumer j c }

/-- Every worker at its start, each producer with the chunks it will send. -/
def State.new (h : Hop) (chunks : Fin h.producers → List χ) : State h χ where
  queue := []
  dropped := 0
  producer i := ⟨chunks i, [], .work⟩
  consumer _ := ⟨[], [], .loop⟩

/-! ### The queues of the pipeline -/

/-- `QUEUE_SIZE` -/
def queueSize : ℕ := 1048576
/-- `MAX_PER_FETCH` -/
def maxPerFetch : ℕ := 10000
/-- `CHUNK_ANCHOR_PER_INSERT`, `CHUNK_ANCHOR_PER_FETCH`, `ITEM_PER_INSERT` and `ITEM_PER_FETCH` -/
def itemPerInsert : ℕ := 20
/-- `ANCHOR_DATA_PER_INSERT` -/
def anchorDataPerInsert : ℕ := 1

/-- `Fragment` to `FragmentRefine`. -/
def queueRefine (nthreads : ℕ) (hn : 0 < nthreads) : Hop where
  producers := 1
  consumers := nthreads
  capacity := queueSize
  perInsert _ := anchorDataPerInsert
  perFetch := maxPerFetch
  terminates _ := true
  perInsert_pos _ := by decide
  perFetch_pos := by decide
  consumers_pos := hn

/-- `FragmentRefine` to `Deduplicate`. -/
def queueDeduplicate (nthreads : ℕ) (hn : 0 < nthreads) : Hop where
  producers := nthreads
  consumers := nthreads
  capacity := queueSize
  perInsert _ := itemPerInsert
  perFetch := itemPerInsert
  terminates _ := true
  perInsert_pos _ := by decide
  perFetch_pos := by decide
  consumers_pos := hn

/-- `Deduplicate` to `Compress`. -/
def queueCompress (nthreads : ℕ) (hn : 0 < nthreads) : Hop := queueDeduplicate nthreads hn

/-- `Deduplicate` (the first `nthreads` producers) and `Compress` to `Reorder`; `Deduplicate` only
    terminates `queue_compress`. -/
def queueReorder (nthreads : ℕ) : Hop where
  producers := nthreads + nthreads
  consumers := 1
  capacity := queueSize
  perInsert _ := itemPerInsert
  perFetch := itemPerInsert
  terminates i := decide (nthreads ≤ i)
  perInsert_pos _ := by decide
  perFetch_pos := by decide
  consumers_pos := by decide

/-! ### What a step can do -/

theorem write_cases {capacity : ℕ} {queue queue' : List (Option χ)} {x : Option χ} {b : Bool}
    (h : write capacity queue x = (b, queue')) :
    (b = true ∧ queue.length < capacity ∧ queue' = queue ++ [x]) ∨
      (b = false ∧ ¬queue.length < capacity ∧ queue' = queue) := by
  unfold write at h
  split at h
  · rename_i hlt
    obtain ⟨rfl, rfl⟩ := Prod.mk.inj h
    exact .inl ⟨rfl, hlt, rfl⟩
  · rename_i hlt
    obtain ⟨rfl, rfl⟩ := Prod.mk.inj h
    exact .inr ⟨rfl, hlt, rfl⟩

theorem writeSentinel_of_lt {capacity : ℕ} {queue : List (Option χ)} (h : queue.length < capacity) :
    writeSentinel capacity queue = (queue ++ [none], 0) := by
  simp [writeSentinel, write, h]

theorem writeSentinel_of_not_lt {capacity : ℕ} {queue : List (Option χ)}
    (h : ¬queue.length < capacity) : writeSentinel capacity queue = (queue, 1) := by
  simp [writeSentinel, write, h]

/-- Everything one step of a producer can do. -/
theorem producerStep_cases {capacity n : ℕ} {t : Bool} {p p' : Producer χ}
    {queue queue' : List (Option χ)} {d : ℕ}
    (hp : producerStep capacity n t p queue = some (p', queue', d)) :
    (p.pc = .work ∧ p.todo = [] ∧ p' = { p with pc := .drain } ∧ queue' = queue ∧ d = 0) ∨
    (∃ c todo, p.pc = .work ∧ p.todo = c :: todo ∧ p.send.length < n ∧
      p' = ⟨todo, p.send ++ [c], if p.send.length + 1 = n then .enqueue 0 false else .work⟩ ∧
      queue' = queue ∧ d = 0) ∨
    (∃ c todo, p.pc = .work ∧ p.todo = c :: todo ∧ ¬p.send.length < n ∧
      p' = ⟨todo, p.send, .insertFailed⟩ ∧ queue' = queue ∧ d = 0) ∨
    (∃ i b c send, p.pc = .enqueue i b ∧ i < n ∧ p.send = c :: send ∧ queue.length < capacity ∧
      p' = { p with send := send, pc := .enqueue (i + 1) b } ∧ queue' = queue ++ [some c] ∧ d = 0) ∨
    (∃ i b, p.pc = .enqueue i b ∧ (i < n → p.send ≠ [] → ¬queue.length < capacity) ∧
      p' = { p with pc := enqueueReturns i b } ∧ queue' = queue ∧ d = 0) ∨
    (p.pc = .drain ∧ p.send = [] ∧ p' = { p with pc := if t then .terminate else .done } ∧
      queue' = queue ∧ d = 0) ∨
    (p.pc = .drain ∧ p.send ≠ [] ∧ p' = { p with pc := .enqueue 0 true } ∧ queue' = queue ∧ d = 0) ∨
    (p.pc = .terminate ∧ p' = { p with pc := .done } ∧ (queue', d) = writeSentinel capacity queue) := by
  obtain ⟨todo, send, pc⟩ := p
  cases pc with
  | work =>
    cases todo with
    | nil =>
      simp only [producerStep, Option.some.injEq, Prod.mk.injEq] at hp
      exact .inl ⟨rfl, rfl, hp.1.symm, hp.2.1.symm, hp.2.2.symm⟩
    | cons c todo =>
      by_cases hn : send.length < n
      · simp only [producerStep, if_pos hn, Option.some.injEq, Prod.mk.injEq] at hp
        exact .inr (.inl ⟨c, todo, rfl, rfl, hn, hp.1.symm, hp.2.1.symm, hp.2.2.symm⟩)
      · simp only [producerStep, if_neg hn, Option.some.injEq, Prod.mk.injEq] at hp
        exact .inr (.inr (.inl ⟨c, todo, rfl, rfl, hn, hp.1.symm, hp.2.1.symm, hp.2.2.symm⟩))
  | enqueue i b =>
    by_cases hi : i < n
    · cases send with
      | nil =>
        simp only [producerStep, if_pos hi, Option.some.injEq, Prod.mk.injEq] at hp
        exact .inr (.inr (.inr (.inr (.inl
          ⟨i, b, rfl, fun _ h => absurd rfl h, hp.1.symm, hp.2.1.symm, hp.2.2.symm⟩))))
      | cons c send =>
        by_cases hq : queue.length < capacity
        · simp only [producerStep, if_pos hi, write, if_pos hq, Option.some.injEq,
            Prod.mk.injEq] at hp
          exact .inr (.inr (.inr (.inl
            ⟨i, b, c, send, rfl, hi, rfl, hq, hp.1.symm, hp.2.1.symm, hp.2.2.symm⟩)))
        · simp only [producerStep, if_pos hi, write, if_neg hq, Option.some.injEq,
            Prod.mk.injEq] at hp
          exact .inr (.inr (.inr (.inr (.inl
            ⟨i, b, rfl, fun _ _ => hq, hp.1.symm, hp.2.1.symm, hp.2.2.symm⟩))))
    · simp only [producerStep, if_neg hi, Option.some.injEq, Prod.mk.injEq] at hp
      exact .inr (.inr (.inr (.inr (.inl
        ⟨i, b, rfl, fun h => absurd h hi, hp.1.symm, hp.2.1.symm, hp.2.2.symm⟩))))
  | drain =>
    cases send with
    | nil =>
      simp only [producerStep, Option.some.injEq, Prod.mk.injEq] at hp
      exact .inr (.inr (.inr (.inr (.inr (.inl ⟨rfl, rfl, hp.1.symm, hp.2.1.symm, hp.2.2.symm⟩)))))
    | cons c send =>
      simp only [producerStep, Option.some.injEq, Prod.mk.injEq] at hp
      exact .inr (.inr (.inr (.inr (.inr (.inr (.inl
        ⟨rfl, List.cons_ne_nil c send, hp.1.symm, hp.2.1.symm, hp.2.2.symm⟩))))))
  | terminate =>
    simp only [producerStep, Option.some.injEq, Prod.mk.injEq] at hp
    exact .inr (.inr (.inr (.inr (.inr (.inr (.inr ⟨rfl, hp.1.symm, hp.2.symm⟩))))))
  | done | insertFailed | enqueueFailed => simp [producerStep] at hp

/-- Everything one step of a consumer can do. -/
theorem consumerStep_cases {capacity n : ℕ} {c c' : Consumer χ} {queue queue' : List (Option χ)}
    {d : ℕ} (hc : consumerStep capacity n c queue = some (c', queue', d)) :
    (c.pc = .loop ∧ c.recv = [] ∧ c' = { c with pc := .dequeue 0 } ∧ queue' = queue ∧ d = 0) ∨
    (∃ x recv, c.pc = .loop ∧ c.recv = x :: recv ∧
      c' = { c with recv := recv, processed := c.processed ++ [x] } ∧ queue' = queue ∧ d = 0) ∨
    (∃ i, c.pc = .dequeue i ∧ c' = { c with pc := .loop } ∧ queue' = queue ∧ d = 0) ∨
    (∃ i, c.pc = .dequeue i ∧ i < n ∧ c.recv.length < n ∧ c' = { c with pc := .rewrite 1 } ∧
      queue = none :: queue' ∧ d = 0) ∨
    (∃ i x, c.pc = .dequeue i ∧ c' = { c with recv := c.recv ++ [x], pc := .dequeue (i + 1) } ∧
      queue = some x :: queue' ∧ d = 0) ∨
    (∃ k, c.pc = .rewrite k ∧ c' = { c with pc := if k = 0 then .left else .rewrite (k - 1) } ∧
      (queue', d) = writeSentinel capacity queue) := by
  obtain ⟨recv, processed, pc⟩ := c
  cases pc with
  | loop =>
    cases recv <;> simp only [consumerStep, Option.some.injEq, Prod.mk.injEq] at hc <;>
      obtain ⟨rfl, rfl, rfl⟩ := hc <;> simp
  | dequeue i =>
    by_cases hi : i < n ∧ recv.length < n
    · rcases queue with - | ⟨- | x, queue⟩ <;>
        simp only [consumerStep, if_pos hi, Option.some.injEq, Prod.mk.injEq] at hc <;>
        obtain ⟨rfl, rfl, rfl⟩ := hc <;> simp [hi]
    · simp only [consumerStep, if_neg hi, Option.some.injEq, Prod.mk.injEq] at hc
      obtain ⟨rfl, rfl, rfl⟩ := hc
      simp
  | rewrite k =>
    cases k <;> simp only [consumerStep, Option.some.injEq, Prod.mk.injEq] at hc <;>
      obtain ⟨rfl, hq⟩ := hc <;> simp [hq]
  | left => simp [consumerStep] at hc

theorem step_producer_eq_some {h : Hop} {s s' : State h χ} {i : Fin h.producers}
    (hs : step h s (.producer i) = some s') : ∃ p queue n,
      producerStep h.capacity (h.perInsert i) (h.terminates i) (s.producer i) s.queue =
        some (p, queue, n) ∧
      s' = { s with queue, dropped := s.dropped + n, producer := Function.update s.producer i p } := by
  simp only [step, Option.map_eq_some_iff] at hs
  obtain ⟨⟨p, queue, n⟩, hp, rfl⟩ := hs
  exact ⟨p, queue, n, hp, rfl⟩

theorem step_consumer_eq_some {h : Hop} {s s' : State h χ} {j : Fin h.consumers}
    (hs : step h s (.consumer j) = some s') : ∃ c queue n,
      consumerStep h.capacity h.perFetch (s.consumer j) s.queue = some (c, queue, n) ∧
      s' = { s with queue, dropped := s.dropped + n, consumer := Function.update s.consumer j c } := by
  simp only [step, Option.map_eq_some_iff] at hs
  obtain ⟨⟨c, queue, n⟩, hc, rfl⟩ := hs
  exact ⟨c, queue, n, hc, rfl⟩

/-! ### The send buffer -/

/-- What holds of a producer wherever it stands: a chunk it has made always finds room in the send
    buffer, a call of `enqueue_from_ringbuffer` starts with something to send, and nothing is left
    to send once the drain loop has ended. -/
def Producer.Tidy (n : ℕ) (p : Producer χ) : Prop :=
  match p.pc with
  | .work => p.send.length < n
  | .enqueue i draining =>
    i + p.send.length ≤ n ∧ (i = 0 → p.send ≠ []) ∧ (draining = true → p.todo = [])
  | .drain => p.send.length ≤ n ∧ p.todo = []
  | .terminate | .done => p.todo = [] ∧ p.send = []
  | .insertFailed => False
  | .enqueueFailed => True

theorem tidy_producerStep {capacity n : ℕ} {t : Bool} {p p' : Producer χ}
    {queue queue' : List (Option χ)} {d : ℕ}
    (hp : producerStep capacity n t p queue = some (p', queue', d)) (h : p.Tidy n) : p'.Tidy n := by
  unfold Producer.Tidy at h
  rcases producerStep_cases hp with ⟨hpc, ht, rfl, -⟩ | ⟨c, todo, hpc, ht, hlt, rfl, -⟩ |
    ⟨c, todo, hpc, ht, hlt, rfl, -⟩ | ⟨i, b, c, send, hpc, hi, hsend, hq, rfl, -⟩ |
    ⟨i, b, hpc, hfull, rfl, -⟩ | ⟨hpc, hsend, rfl, -⟩ | ⟨hpc, hsend, rfl, -⟩ | ⟨hpc, rfl, -⟩
  all_goals simp only [hpc] at h
  · exact ⟨h.le, ht⟩
  · unfold Producer.Tidy
    split_ifs
    · simpa using by omega
    · simpa using by omega
  · exact absurd h hlt
  · rw [hsend] at h
    refine ⟨?_, by simp, h.2.2⟩
    have := h.1
    simp only [List.length_cons] at this
    simpa using by omega
  · unfold Producer.Tidy enqueueReturns
    split_ifs with hi hb
    · trivial
    · exact ⟨by simpa using by omega, h.2.2 hb⟩
    · simpa using by omega
  · unfold Producer.Tidy
    split_ifs
    · exact ⟨h.2, hsend⟩
    · exact ⟨h.2, hsend⟩
  · exact ⟨by simpa using h.1, fun _ => hsend, fun _ => h.2⟩
  · exact h

theorem tidy_step {h : Hop} {s s' : State h χ} {a : Action h}
    (hI : ∀ i, (s.producer i).Tidy (h.perInsert i)) (ha : step h s a = some s')
    (i : Fin h.producers) : (s'.producer i).Tidy (h.perInsert i) := by
  cases a with
  | producer k =>
    obtain ⟨p, queue, n, hp, rfl⟩ := step_producer_eq_some ha
    by_cases hik : i = k
    · subst hik
      simpa only [Function.update_self] using tidy_producerStep hp (hI i)
    · simpa only [Function.update_of_ne hik] using hI i
  | consumer j =>
    obtain ⟨c, queue, n, -, rfl⟩ := step_consumer_eq_some ha
    exact hI i

/-- Every producer is tidy in every state a run reaches. -/
theorem tidy_exec {h : Hop} {chunks : Fin h.producers → List χ} {acts : List (Action h)}
    {s : State h χ} (hs : exec (step h) (State.new h chunks) acts = some s) :
    ∀ i, (s.producer i).Tidy (h.perInsert i) := by
  have hnew : ∀ i, ((State.new h chunks).producer i).Tidy (h.perInsert i) := h.perInsert_pos
  exact exec_inv (I := fun s : State h χ => ∀ i, (s.producer i).Tidy (h.perInsert i))
    (fun s a s' hI ha => tidy_step hI ha) hnew hs

end Turkey.Mpmc
