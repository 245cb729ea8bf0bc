import Turkey.Dedup.Mpmc
import Turkey.Schemes.Tally

/-! The sentinels of the Turkey port. `terminate_queue` writes one sentinel per producer, and a
    consumer that reads one writes two and leaves its loop. No chunk is lost or processed twice as
    long as no producer terminates the queue while another has still chunks to send, and no consumer
    meets a sentinel in a call that has already moved chunks into its receive buffer: `Deduplicate`,
    `FragmentRefine` and `Compress` leave their loop on a negative return value without looking into
    `recv_buf`. -/

namespace Turkey.Mpmc
open Turkey.Run Turkey.Tally
variable {h : Hop} {χ : Type*}

def Producer.drained (p : Producer χ) : Prop := p.todo = [] ∧ p.send = []

instance (p : Producer χ) : Decidable p.drained :=
  inferInstanceAs (Decidable (p.todo = [] ∧ p.send = []))

/-- The next step of the consumer is a `read` of the queue. -/
def Consumer.reads (n : ℕ) (c : Consumer χ) : Prop :=
  match c.pc with
  | .dequeue i => i < n ∧ c.recv.length < n
  | _ => False

instance (n : ℕ) : ∀ c : Consumer χ, Decidable (c.reads n)
  | ⟨recv, _, .dequeue i⟩ => inferInstanceAs (Decidable (i < n ∧ recv.length < n))
  | ⟨_, _, .loop⟩ | ⟨_, _, .rewrite _⟩ | ⟨_, _, .left⟩ => .isFalse id

/-- The consumer has read a sentinel. -/
def Consumer.closing (c : Consumer χ) : Prop :=
  match c.pc with
  | .rewrite _ | .left => True
  | _ => False

/-- The condition on a step: `terminate_queue` is called when every producer has drained its send
    buffer, and a sentinel is read into an empty receive buffer. -/
def InTurn (s : State h χ) : Action h → Prop
  | .producer i => (s.producer i).pc = .terminate → ∀ k, (s.producer k).drained
  | .consumer j => (s.consumer j).reads h.perFetch → s.queue.head? = some none →
      (s.consumer j).recv = []

instance (s : State h χ) : ∀ a, Decidable (InTurn s a)
  | .producer i =>
    inferInstanceAs (Decidable ((s.producer i).pc = .terminate → ∀ k, (s.producer k).drained))
  | .consumer j =>
    let _ : Decidable (s.queue.head? = some none) := decidable_of_iff (s.queue.head?.any Option.isNone)
      (by rcases s.queue with - | ⟨- | x, queue⟩ <;> simp)
    inferInstanceAs (Decidable ((s.consumer j).reads h.perFetch → s.queue.head? = some none →
      (s.consumer j).recv = []))

/-- Behind a sentinel there are only sentinels. -/
def SentinelsLast (queue : List (Option χ)) : Prop := queue.Pairwise fun x y => x = none → y = none

/-- Every producer has drained its buffer and called `terminate_queue` if it is one that does, and
    every consumer has left its loop. -/
def Finished (s : State h χ) : Prop :=
  (∀ i, (s.producer i).pc = .done) ∧ ∀ j, (s.consumer j).pc = .left

/-! ### No copy is made or lost in moving a chunk -/

section count
variable [DecidableEq χ]

def Producer.holds (x : χ) (p : Producer χ) : ℕ := p.todo.count x + p.send.count x

def Consumer.holds (x : χ) (c : Consumer χ) : ℕ := c.recv.count x + c.processed.count x

/-- The copies of a chunk in the queue and with all the workers. -/
def State.copies (s : State h χ) (x : χ) : ℕ :=
  s.queue.count (some x) + ∑ i, (s.producer i).holds x + ∑ j, (s.consumer j).holds x

theorem count_cons_some (queue : List (Option χ)) (c x : χ) :
    (some c :: queue).count (some x) = queue.count (some x) + if c == x then 1 else 0 := by
  by_cases hcx : c = x <;> simp [hcx]

theorem count_concat_some (queue : List (Option χ)) (c x : χ) :
    (queue ++ [some c]).count (some x) = queue.count (some x) + if c == x then 1 else 0 := by
  rw [List.count_append, count_cons_some, List.count_nil, zero_add]

theorem count_writeSentinel {capacity d : ℕ} {queue queue' : List (Option χ)} (x : χ)
    (hw : (queue', d) = writeSentinel capacity queue) :
    queue'.count (some x) = queue.count (some x) := by
  by_cases hq : queue.length < capacity
  · rw [writeSentinel_of_lt hq] at hw
    obtain ⟨rfl, rfl⟩ := Prod.mk.inj hw
    simp
  · rw [writeSentinel_of_not_lt hq] at hw
    obtain ⟨rfl, rfl⟩ := Prod.mk.inj hw
    rfl

theorem holds_producerStep {capacity n : ℕ} {t : Bool} {p p' : Producer χ}
    {queue queue' : List (Option χ)} {d : ℕ}
    (hp : producerStep capacity n t p queue = some (p', queue', d)) (htidy : p.Tidy n) (x : χ) :
    p'.holds x + queue'.count (some x) = p.holds x + queue.count (some x) := by
  unfold Producer.holds
  rcases producerStep_cases hp with ⟨-, -, rfl, rfl, -⟩ | ⟨c, todo, -, ht, -, rfl, rfl, -⟩ |
    ⟨c, todo, hpc, -, hlt, -⟩ | ⟨i, b, c, send, -, -, hsend, -, rfl, rfl, -⟩ |
    ⟨i, b, -, -, rfl, rfl, -⟩ | ⟨-, -, rfl, rfl, -⟩ | ⟨-, -, rfl, rfl, -⟩ | ⟨-, rfl, hw⟩
  · rfl
  · simp only [ht, List.count_append, List.count_cons, List.count_nil]
    omega
  · -- `ringbuffer_insert` does not fail
    unfold Producer.Tidy at htidy
    rw [hpc] at htidy
    exact absurd htidy hlt
  · rw [hsend, count_concat_some]
    simp only [List.count_cons]
    omega
  · rfl
  · rfl
  · rfl
  · rw [count_writeSentinel x hw]

theorem holds_consumerStep {capacity n : ℕ} {c c' : Consumer χ} {queue queue' : List (Option χ)}
    {d : ℕ} (hc : consumerStep capacity n c queue = some (c', queue', d)) (x : χ) :
    c'.holds x + queue'.count (some x) = c.holds x + queue.count (some x) := by
  unfold Consumer.holds
  rcases consumerStep_cases hc with ⟨-, -, rfl, rfl, -⟩ | ⟨y, recv, -, hr, rfl, rfl, -⟩ |
    ⟨i, -, rfl, rfl, -⟩ | ⟨i, -, -, -, rfl, rfl, -⟩ | ⟨i, y, -, rfl, rfl, -⟩ | ⟨k, -, rfl, hw⟩
  · rfl
  · simp only [hr, List.count_append, List.count_cons, List.count_nil]
    omega
  · rfl
  · simp
  · rw [count_cons_some]
    simp only [List.count_append, List.count_cons, List.count_nil]
    omega
  · rw [count_writeSentinel x hw]

/-- In every state a run reaches each chunk has as many copies as the producers were given. -/
theorem copies_exec {chunks : Fin h.producers → List χ} {acts : List (Action h)} {s : State h χ}
    (hs : exec (step h) (State.new h chunks) acts = some s) (x : χ) :
    s.copies x = ∑ i, (chunks i).count x := by
  have hnew : (∀ i, ((State.new h chunks).producer i).Tidy (h.perInsert i)) ∧
      (State.new h chunks).copies x = ∑ i, (chunks i).count x :=
    ⟨h.perInsert_pos, by simp [State.copies, State.new, Producer.holds, Consumer.holds]⟩
  refine (exec_inv (I := fun s : State h χ => (∀ i, (s.producer i).Tidy (h.perInsert i)) ∧
    s.copies x = ∑ i, (chunks i).count x) (fun s a s' hI ha => ?_) hnew hs).2
  refine ⟨tidy_step hI.1 ha, hI.2 ▸ ?_⟩
  cases a with
  | producer k =>
    obtain ⟨p, queue, n, hp, rfl⟩ := step_producer_eq_some ha
    have hsum := sum_update_of_add (F := Producer.holds x) (holds_producerStep hp (hI.1 k) x)
    simp only [State.copies]
    omega
  | consumer j =>
    obtain ⟨c, queue, n, hc, rfl⟩ := step_consumer_eq_some ha
    have hsum := sum_update_of_add (F := Consumer.holds x) (holds_consumerStep hc x)
    simp only [State.copies]
    omega

end count

/-! ### Sentinels come last -/

/-- While the condition is met: no chunk stands behind a sentinel, a sentinel is only there when
    every producer has drained, and a consumer that has read one leaves nothing behind. -/
structure Orderly (s : State h χ) : Prop where
  last : SentinelsLast s.queue
  drained : none ∈ s.queue ∨ (∃ j, (s.consumer j).closing) → ∀ i, (s.producer i).drained
  closing : ∀ j, (s.consumer j).closing → (s.consumer j).recv = [] ∧ ∀ x, some x ∉ s.queue

theorem orderly_new (chunks : Fin h.producers → List χ) : Orderly (State.new h chunks) where
  last := List.Pairwise.nil
  drained := by simp [State.new, Consumer.closing]
  closing := by simp [State.new, Consumer.closing]

theorem mem_writeSentinel {capacity d : ℕ} {queue queue' : List (Option χ)} {y : Option χ}
    (hw : (queue', d) = writeSentinel capacity queue) (hy : y ∈ queue') : y ∈ queue ∨ y = none := by
  by_cases hq : queue.length < capacity
  · rw [writeSentinel_of_lt hq] at hw
    obtain ⟨rfl, rfl⟩ := Prod.mk.inj hw
    simpa using hy
  · rw [writeSentinel_of_not_lt hq] at hw
    obtain ⟨rfl, rfl⟩ := Prod.mk.inj hw
    exact .inl hy

theorem sentinelsLast_concat_none {queue : List (Option χ)} (hl : SentinelsLast queue) :
    SentinelsLast (queue ++ [none]) := by
  refine List.pairwise_append.mpr ⟨hl, List.pairwise_singleton _ _, ?_⟩
  intro x _ y hy _
  simpa using hy

theorem sentinelsLast_writeSentinel {capacity d : ℕ} {queue queue' : List (Option χ)}
    (hw : (queue', d) = writeSentinel capacity queue) (hl : SentinelsLast queue) :
    SentinelsLast queue' := by
  by_cases hq : queue.length < capacity
  · rw [writeSentinel_of_lt hq] at hw
    obtain ⟨rfl, rfl⟩ := Prod.mk.inj hw
    exact sentinelsLast_concat_none hl
  · rw [writeSentinel_of_not_lt hq] at hw
    obtain ⟨rfl, rfl⟩ := Prod.mk.inj hw
    exact hl

/-- A producer that has drained has nothing to put into the queue but its own sentinel. -/
theorem drained_producerStep {capacity n : ℕ} {t : Bool} {p p' : Producer χ}
    {queue queue' : List (Option χ)} {d : ℕ}
    (hp : producerStep capacity n t p queue = some (p', queue', d)) (hd : p.drained) :
    p'.drained ∧ ∀ x, some x ∈ queue' → some x ∈ queue := by
  obtain ⟨ht, hs⟩ := hd
  rcases producerStep_cases hp with ⟨-, -, rfl, rfl, -⟩ | ⟨c, todo, -, hc, -⟩ |
    ⟨c, todo, -, hc, -⟩ | ⟨i, b, c, send, -, -, hc, -⟩ |
    ⟨i, b, -, -, rfl, rfl, -⟩ | ⟨-, -, rfl, rfl, -⟩ | ⟨-, -, rfl, rfl, -⟩ | ⟨-, rfl, hw⟩
  case inr.inl => simp [ht] at hc
  case inr.inr.inl => simp [ht] at hc
  case inr.inr.inr.inl => simp [hs] at hc
  case inr.inr.inr.inr.inr.inr.inr =>
    exact ⟨⟨ht, hs⟩, fun x hx => by simpa using mem_writeSentinel hw hx⟩
  all_goals exact ⟨⟨ht, hs⟩, fun x hx => hx⟩

theorem orderly_producer {s s' : State h χ} {i : Fin h.producers} (hI : Orderly s)
    (hturn : InTurn s (.producer i)) (ha : step h s (.producer i) = some s') : Orderly s' := by
  obtain ⟨p, queue, n, hp, rfl⟩ := step_producer_eq_some ha
  by_cases hd : ∀ k, (s.producer k).drained
  · -- nobody has a chunk left: the queue gets a sentinel or nothing
    obtain ⟨hpd, hsub⟩ := drained_producerStep hp (hd i)
    refine ⟨?_, fun _ k => ?_, fun j hj => ⟨(hI.closing j hj).1, fun x hx =>
      (hI.closing j hj).2 x (hsub x hx)⟩⟩
    · rcases producerStep_cases hp with ⟨-, -, -, rfl, -⟩ | ⟨c, todo, -, -, -, -, rfl, -⟩ |
        ⟨c, todo, -, -, -, -, rfl, -⟩ | ⟨i', b, c, send, -, -, hc, -⟩ |
        ⟨i', b, -, -, -, rfl, -⟩ | ⟨-, -, -, rfl, -⟩ | ⟨-, -, -, rfl, -⟩ | ⟨-, -, hw⟩
      case inr.inr.inr.inl => simp [(hd i).2] at hc
      case inr.inr.inr.inr.inr.inr.inr => exact sentinelsLast_writeSentinel hw hI.last
      all_goals exact hI.last
    · by_cases hki : k = i
      · subst hki; simpa only [Function.update_self] using hpd
      · simpa only [Function.update_of_ne hki] using hd k
  · -- no sentinel has been written yet, and this step writes none
    have hnone : none ∉ s.queue := fun hm => hd (hI.drained (.inl hm))
    have hopen : ∀ j, ¬(s.consumer j).closing := fun j hj => hd (hI.drained (.inr ⟨j, hj⟩))
    have hnone' : none ∉ queue := by
      rcases producerStep_cases hp with ⟨-, -, -, rfl, -⟩ | ⟨c, todo, -, -, -, -, rfl, -⟩ |
        ⟨c, todo, -, -, -, -, rfl, -⟩ | ⟨i', b, c, send, -, -, -, -, -, rfl, -⟩ |
        ⟨i', b, -, -, -, rfl, -⟩ | ⟨-, -, -, rfl, -⟩ | ⟨-, -, -, rfl, -⟩ | ⟨hpc, -, -⟩
      case inr.inr.inr.inl => simpa using hnone
      case inr.inr.inr.inr.inr.inr.inr => exact absurd (hturn hpc) hd
      all_goals exact hnone
    refine ⟨?_, ?_, fun j hj => absurd hj (hopen j)⟩
    · exact List.Pairwise.imp_of_mem (fun hx _ _ hxn => absurd (hxn ▸ hx) hnone')
        (List.pairwise_of_forall fun _ _ => trivial)
    · rintro (hm | ⟨j, hj⟩)
      · exact absurd hm hnone'
      · exact absurd hj (hopen j)

/-- A consumer step keeps what it does not touch: the other consumers, and the producers. -/
theorem orderly_consumer {s s' : State h χ} {j : Fin h.consumers} (hI : Orderly s)
    (hturn : InTurn s (.consumer j)) (ha : step h s (.consumer j) = some s') : Orderly s' := by
  obtain ⟨c, queue, n, hc, rfl⟩ := step_consumer_eq_some ha
  -- it is enough to look at the queue and at this consumer
  suffices hsuff : SentinelsLast queue ∧
      (none ∈ queue ∨ c.closing → none ∈ s.queue ∨ (s.consumer j).closing) ∧
      (∀ x, some x ∈ queue → some x ∈ s.queue) ∧
      (c.closing → c.recv = [] ∧ ∀ x, some x ∉ queue) by
    obtain ⟨hlast, hdrained, hsub, hclosing⟩ := hsuff
    refine ⟨hlast, fun hm => hI.drained ?_, fun k hk => ?_⟩
    · rcases hm with hm | ⟨k, hk⟩
      · exact (hdrained (.inl hm)).imp_right fun h => ⟨j, h⟩
      · by_cases hkj : k = j
        · subst hkj
          simp only [Function.update_self] at hk
          exact (hdrained (.inr hk)).imp_right fun h => ⟨k, h⟩
        · simp only [Function.update_of_ne hkj] at hk
          exact .inr ⟨k, hk⟩
    · by_cases hkj : k = j
      · subst hkj
        simp only [Function.update_self] at hk ⊢
        exact hclosing hk
      · simp only [Function.update_of_ne hkj] at hk ⊢
        exact ⟨(hI.closing k hk).1, fun x hx => (hI.closing k hk).2 x (hsub x hx)⟩
  rcases consumerStep_cases hc with ⟨hpc, -, rfl, rfl, -⟩ | ⟨y, recv, hpc, hr, rfl, rfl, -⟩ |
    ⟨i, hpc, rfl, rfl, -⟩ | ⟨i, hpc, hi, hlen, rfl, hq, -⟩ | ⟨i, y, hpc, rfl, hq, -⟩ |
    ⟨k, hpc, rfl, hw⟩
  · exact ⟨hI.last, by simp [Consumer.closing, hpc], fun _ hx => hx, by simp [Consumer.closing]⟩
  · exact ⟨hI.last, by simp [Consumer.closing, hpc], fun _ hx => hx, by simp [Consumer.closing, hpc]⟩
  · exact ⟨hI.last, by simp [Consumer.closing, hpc], fun _ hx => hx, by simp [Consumer.closing]⟩
  · -- the sentinel: everything behind it is a sentinel too, and nothing waits in the buffer
    have hreads : (s.consumer j).reads h.perFetch := by
      unfold Consumer.reads; rw [hpc]; exact ⟨hi, hlen⟩
    have hrecv := hturn hreads (by rw [hq]; rfl)
    have hl := hI.last
    rw [hq] at hl
    obtain ⟨hbehind, hl⟩ := List.pairwise_cons.mp hl
    refine ⟨hl, fun _ => .inl (by simp [hq]), fun x hx => by simp [hq, hx], fun _ => ⟨hrecv, ?_⟩⟩
    intro x hx
    exact Option.some_ne_none x (hbehind _ hx rfl)
  · have hl := hI.last
    rw [hq] at hl
    refine ⟨(List.pairwise_cons.mp hl).2, ?_, fun x hx => by simp [hq, hx], by simp [Consumer.closing]⟩
    rintro (hm | hcl)
    · exact .inl (by simp [hq, hm])
    · simp [Consumer.closing] at hcl
  · have hcl : (s.consumer j).closing := by unfold Consumer.closing; rw [hpc]; trivial
    have hsub : ∀ x, some x ∈ queue → some x ∈ s.queue :=
      fun x hx => by simpa using mem_writeSentinel hw hx
    exact ⟨sentinelsLast_writeSentinel hw hI.last, fun _ => .inr hcl, hsub, fun _ =>
      ⟨(hI.closing j hcl).1, fun x hx => (hI.closing j hcl).2 x (hsub x hx)⟩⟩

theorem orderly_exec {chunks : Fin h.producers → List χ} {acts : List (Action h)} {s : State h χ}
    (hm : Meets (step h) InTurn (State.new h chunks) acts)
    (hs : exec (step h) (State.new h chunks) acts = some s) : Orderly s := by
  refine exec_inv_of_meets (G := InTurn) (fun s a s' hI hturn ha => ?_) (orderly_new chunks) hm hs
  cases a with
  | producer i => exact orderly_producer hI hturn ha
  | consumer j => exact orderly_consumer hI hturn ha

/-- CORRECT: in a run whose steps all meet the condition no chunk ever stands in the queue behind a
    sentinel, and when all workers have finished each chunk has been processed as often as the
    producers sent it (a chunk sent once, by exactly one consumer), with none left in the queue. -/
theorem chunks_processed_once [DecidableEq χ] (h : Hop) (chunks : Fin h.producers → List χ)
    (acts : List (Action h)) (s : State h χ)
    (hm : Meets (step h) InTurn (State.new h chunks) acts)
    (hs : exec (step h) (State.new h chunks) acts = some s) :
    SentinelsLast s.queue ∧ (Finished s →
      (∀ x, ∑ j, (s.consumer j).processed.count x = ∑ i, (chunks i).count x) ∧
      ∀ x, some x ∉ s.queue) := by
  have hI := orderly_exec hm hs
  refine ⟨hI.last, fun ⟨hdone, hleft⟩ => ?_⟩
  have hcl : ∀ j, (s.consumer j).closing := fun j => by unfold Consumer.closing; rw [hleft j]; trivial
  have hqueue := (hI.closing ⟨0, h.consumers_pos⟩ (hcl _)).2
  refine ⟨fun x => ?_, hqueue⟩
  have hprod : ∀ i, (s.producer i).holds x = 0 := fun i => by
    have ht := tidy_exec hs i
    unfold Producer.Tidy at ht
    rw [hdone i] at ht
    simp [Producer.holds, ht.1, ht.2]
  have hcons : ∀ j, (s.consumer j).holds x = (s.consumer j).processed.count x := fun j => by
    simp [Consumer.holds, (hI.closing j (hcl j)).1]
  have hcopies := copies_exec hs x
  unfold State.copies at hcopies
  simpa only [List.count_eq_zero_of_not_mem (hqueue x), hprod, hcons, Finset.sum_const_zero,
    zero_add] using hcopies

/-- Two workers on each side of `queue_deduplicate`; the first consumer finds the queue empty after it
    has moved the three chunks, and only then are the sentinels written. -/
theorem chunks_processed_once_two :
    let h := queueDeduplicate 2 (by decide)
    let chunks : Fin 2 → List ℕ := ![[10, 11], [12]]
    let p (i : Fin 2) : Action h := .producer i
    let c (j : Fin 2) : Action h := .consumer j
    let acts := List.replicate 8 (p 0) ++ List.replicate 6 (p 1) ++ List.replicate 8 (c 0) ++
      [p 0, p 1] ++ List.replicate 4 (c 0) ++ List.replicate 4 (c 1)
    ∃ s, exec (step h) (State.new h chunks) acts = some s ∧ Finished s ∧
      ∀ x, ∑ j, (s.consumer j).processed.count x = ∑ i, (chunks i).count x := by
  intro h chunks p c acts
  have hm : Meets (step h) InTurn (State.new h chunks) acts := by decide
  refine ⟨_, rfl, ⟨by decide, by decide⟩, ?_⟩
  exact ((chunks_processed_once h chunks acts _ hm rfl).2 ⟨by decide, by decide⟩).1

/-- One worker on each side: the chunk and the sentinel are read in the same call, the consumer leaves
    its loop, and the chunk stays in its receive buffer. -/
theorem chunk_lost_with_sentinel :
    let h := queueDeduplicate 1 (by decide)
    let chunks : Fin 1 → List ℕ := ![[10]]
    ∃ acts s, exec (step h) (State.new h chunks) acts = some s ∧ Finished s ∧
      ∑ j, (s.consumer j).processed.count 10 = 0 ∧ ∑ i, (chunks i).count 10 = 1 := by
  intro h chunks
  let p : Action h := .producer (0 : Fin 1)
  let c : Action h := .consumer (0 : Fin 1)
  refine ⟨List.replicate 7 p ++ List.replicate 5 c, _, rfl, ?_, ?_, ?_⟩
  · exact ⟨by decide, by decide⟩
  · rfl
  · rfl

end Turkey.Mpmc
