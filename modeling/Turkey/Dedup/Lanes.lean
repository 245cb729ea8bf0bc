import Mathlib.Data.Fintype.Card
import Mathlib.Data.Nat.ModEq
import Mathlib.Order.Interval.Finset.Nat
import Turkey.Dedup.Moves

/-! Queues, buffers and termination. The counters of a queue tell which of its producers have returned,
    and a thread that has left its loop has found its input queue closed for good. `Deduplicate` may
    fill `reorder_que`, which it does not terminate, because the `Compress` threads of the same queue
    cannot return before it does: they wait for `compress_que`, and that one counts the `Deduplicate`
    threads. -/

namespace Turkey.Pipeline
open Turkey.Run
open Turkey.Reorder (Chunk Core Plan)
open Turkey.Archive (Table Record)

variable {c : Config} {D κ : Type*}

/-! ### The producers of a queue -/

/-- The threads of a pool that work on a queue. -/
def Config.tids (c : Config) (q : Fin c.nqueues) : Finset (Fin c.nthreads) :=
  Finset.univ.filter fun i => c.qid i = q

theorem mem_tids {q : Fin c.nqueues} {i : Fin c.nthreads} : i ∈ c.tids q ↔ c.qid i = q := by
  simp [Config.tids]

/-- `queue_init` is called with the number of threads that use the queue. -/
theorem card_tids (q : Fin c.nqueues) : (c.tids q).card = c.threadsPerQueue q := by
  have hval : (c.tids q).map Fin.valEmbedding = Finset.Ico (4 * (q : ℕ)) (min (4 * q + 4) c.nthreads) := by
    ext t
    simp only [Finset.mem_map, mem_tids, Fin.valEmbedding_apply, Finset.mem_Ico, lt_min_iff]
    constructor
    · rintro ⟨i, hi, rfl⟩
      have hdiv : (i : ℕ) / 4 = q := congrArg Fin.val hi
      have := i.isLt
      omega
    · rintro ⟨h1, h2, h3⟩
      refine ⟨⟨t, h3⟩, Fin.ext ?_, rfl⟩
      change t / 4 = q
      omega
  have hq := q.isLt
  rw [← Finset.card_map, hval, Nat.card_Ico]
  simp only [Config.threadsPerQueue, Config.nqueues, maxThreadsPerQueue] at hq ⊢
  by_cases hmod : c.nthreads % 4 = 0
  · simp only [hmod, ne_eq, not_true_eq_false, if_false, or_true, if_true] at hq ⊢
    omega
  · simp only [hmod, ne_eq, not_false_eq_true, if_true, or_false] at hq ⊢
    split <;> omega

theorem terminates_injective {P P' : Pool} (h : P.terminates = P'.terminates) : P = P' := by
  cases P <;> cases P' <;> first | rfl | cases h

theorem terminates_ne_refine (P : Pool) : P.terminates ≠ .refine := by
  cases P <;> exact nofun

/-! ### What a move does to the queues -/

section Moves
variable [DecidableEq D] {p : Plan} {digest : Chunk → D} {packed : Chunk → κ} {s s' : State c D κ}

/-- The changes of a queue in one step. -/
inductive QueueMove (q : Queue) : Queue → Prop
  | same : QueueMove q q
  | pop (n : ℕ) : QueueMove q (q.pop n)
  | push (buf : List Chunk) (n : ℕ) (h : q.nTerminated < q.nProducers) : QueueMove q (q.push buf n)
  | close (h : q.nTerminated < q.nProducers) : QueueMove q q.close

theorem QueueMove.update {que : Que × Fin c.nqueues → Queue} {k : Que × Fin c.nqueues} {q : Queue}
    (h : QueueMove (que k) q) (l : Que × Fin c.nqueues) : QueueMove (que l) (Function.update que k q l) := by
  by_cases hl : l = k
  · subst hl
    rwa [Function.update_self]
  · rw [Function.update_of_ne hl]
    exact .same

omit [DecidableEq D] in
theorem reorder_que (h : ReorderMove digest s s') (l : Que × Fin c.nqueues) :
    QueueMove (s.que l) (s'.que l) := by
  cases h with
  | fetch => exact QueueMove.update (.pop _) l
  | closed => exact .same
  | exhausted => exact .same
  | nothing => exact .same
  | next => exact .same
  | hold => exact .same
  | write => exact .same
  | done => exact .same
  | pick => exact .same
  | flush => exact .same

theorem move_que {t : Thread c} (h : Move p digest packed s t s') (l : Que × Fin c.nqueues) :
    QueueMove (s.que l) (s'.que l) := by
  cases t with
  | fragment =>
    cases h with
    | insert => exact .same
    | finish => exact .same
    | send pc n hpc hn hopen => exact QueueMove.update (.push _ _ hopen) l
    | drained => exact .same
    | terminate i hpc hopen => exact QueueMove.update (.close hopen) l
    | done => exact .same
  | worker k =>
    cases h with
    | fetch => exact QueueMove.update (.pop _) l
    | close => exact .same
    | process => exact .same
    | rest => exact .same
    | emit => exact .same
    | send f pc n hpc hn hsend hopen => exact QueueMove.update (.push _ _ hopen) l
    | skip => exact .same
    | terminate hpc hopen => exact QueueMove.update (.close hopen) l
  | reorder => exact reorder_que h l

theorem QueueMove.nProducers {q q' : Queue} (h : QueueMove q q') : q'.nProducers = q.nProducers := by
  cases h <;> rfl

/-- A closed queue stays closed. -/
theorem QueueMove.closed {q q' : Queue} (h : QueueMove q q') (hq : q.Closed) : q'.Closed := by
  obtain ⟨hbuf, hterm⟩ := hq
  cases h with
  | same => exact ⟨hbuf, hterm⟩
  | pop n => exact ⟨by simp [Queue.pop, hbuf], hterm⟩
  | push buf n hopen => omega
  | close hopen => omega

end Moves

/-! ### Buffers -/

/-- What the place of a thread says about its buffers: a send buffer is full exactly at the call of
    `queue_enqueue` that is made for it, and behind the loop they are emptied one by one. -/
def Worker.AtPc (P : Pool) (w : Worker) : Prop :=
  match w.pc with
  | .fetch => w.work = [] ∧ ∀ f, (w.send f).length < itemPerInsert
  | .emit => ∀ f, (w.send f).length < itemPerInsert
  | .enqueue f => f ∈ P.outputs ∧ (w.send f).length = itemPerInsert ∧
      ∀ g, g ≠ f → (w.send g).length < itemPerInsert
  | .drain fs => w.recv = [] ∧ w.work = [] ∧ fs ⊆ P.outputs ∧ ∀ f ∉ fs, w.send f = []
  | .done => w.recv = [] ∧ w.work = [] ∧ ∀ f, w.send f = []

/-- A thread fills the send buffers it has, and no others. -/
structure Worker.Tidy (P : Pool) (w : Worker) : Prop where
  work : ∀ y ∈ w.work, y.1 ∈ P.outputs
  unused : ∀ f, f ∉ P.outputs → w.send f = []
  atPc : w.AtPc P

theorem tidy_new (P : Pool) : Worker.Tidy P ⟨[], [], fun _ => [], .fetch⟩ where
  work _ h := by cases h
  unused _ _ := rfl
  atPc := ⟨rfl, fun _ => by simp [itemPerInsert]⟩

/-- The queue of a call of `queue_enqueue` is one the thread has a buffer for, and there is something
    to send. -/
theorem Worker.Tidy.sending {P : Pool} {w : Worker} (h : w.Tidy P) {f : Que} {pc : WorkerPc}
    (hpc : w.Sending f pc) : f ∈ P.outputs ∧ w.send f ≠ [] := by
  have hat := h.atPc
  rcases hpc with ⟨hpc, -⟩ | ⟨fs, hpc, hne, -⟩
  · rw [Worker.AtPc, hpc] at hat
    refine ⟨hat.1, fun hnil => ?_⟩
    have := hat.2.1
    simp [hnil, itemPerInsert] at this
  · rw [Worker.AtPc, hpc] at hat
    exact ⟨hat.2.2.1 (List.mem_cons_self ..), hne⟩

section Moves
variable [DecidableEq D] {p : Plan} {digest : Chunk → D} {packed : Chunk → κ} {s s' : State c D κ}

theorem process_outputs {P : Pool} {t table : Table Chunk D κ} {x : Chunk} {work : List (Que × Chunk)}
    (h : P.process p digest packed t x = some (work, table)) : ∀ y ∈ work, y.1 ∈ P.outputs := by
  intro y hy
  cases P with
  | FragmentRefine =>
    simp only [Pool.process, Option.some.injEq, Prod.mk.injEq] at h
    obtain ⟨rfl, -⟩ := h
    obtain ⟨z, -, rfl⟩ := List.mem_map.mp hy
    exact List.mem_singleton_self _
  | Deduplicate =>
    simp only [Pool.process, Option.some.injEq, Prod.mk.injEq] at h
    obtain ⟨rfl, -⟩ := h
    rw [List.mem_singleton.mp hy]
    simp only [Pool.outputs]
    split <;> simp
  | Compress =>
    simp only [Pool.process, Option.map_eq_some_iff, Prod.mk.injEq] at h
    obtain ⟨t', -, rfl, -⟩ := h
    rw [List.mem_singleton.mp hy]
    exact List.mem_singleton_self _

theorem tidy_move {k : Pool × Fin c.nthreads} (h : WorkerMove p digest packed s k s')
    (hw : (s.worker k).Tidy k.1) : (s'.worker k).Tidy k.1 := by
  have hat := hw.atPc
  unfold Worker.AtPc at hat
  cases h with
  | fetch hpc hrecv hbuf =>
    simp only [State.setWorker, Function.update_self]
    rw [hpc] at hat
    exact ⟨hw.work, hw.unused, by simpa only [Worker.AtPc, hpc] using hat⟩
  | close hpc hrecv hclosed =>
    simp only [State.setWorker, Function.update_self]
    rw [hpc] at hat
    exact ⟨hw.work, hw.unused, hrecv, hat.1, List.Subset.refl _, hw.unused⟩
  | process x recv work table hpc hrecv hproc =>
    simp only [State.setWorker, Function.update_self]
    rw [hpc] at hat
    exact ⟨process_outputs hproc, hw.unused, hat.2⟩
  | rest hpc hwork =>
    simp only [State.setWorker, Function.update_self]
    rw [hpc] at hat
    exact ⟨hw.work, hw.unused, hwork, hat⟩
  | emit f x work hpc hwork hroom =>
    simp only [State.setWorker, Function.update_self]
    rw [hpc] at hat
    have hf : f ∈ k.1.outputs := hw.work (f, x) (by rw [hwork]; exact List.mem_cons_self ..)
    refine ⟨fun y hy => hw.work y (by rw [hwork]; exact List.mem_cons_of_mem _ hy), fun g hg => ?_, ?_⟩
    · have hgf : g ≠ f := fun he => hg (he ▸ hf)
      simp only [Function.update_of_ne hgf]
      exact hw.unused g hg
    · have hlen : ∀ g, (Function.update (s.worker k).send f ((s.worker k).send f ++ [x]) g).length =
          if g = f then ((s.worker k).send f).length + 1 else ((s.worker k).send g).length := by
        intro g
        split
        · rename_i hg
          subst hg
          simp
        · rename_i hg
          rw [Function.update_of_ne hg]
      by_cases hfull : ((s.worker k).send f).length + 1 = itemPerInsert
      · simp only [Worker.AtPc, if_pos hfull, hlen, if_true]
        refine ⟨hf, hfull, fun g hg => ?_⟩
        rw [if_neg hg]
        exact hat g
      · simp only [Worker.AtPc, if_neg hfull, hlen]
        intro g
        split
        · omega
        · exact hat g
  | send f pc n hpc hn hsend hopen =>
    obtain ⟨hf, -⟩ := hw.sending hpc
    simp only [State.setWorker, Function.update_self]
    have hunused : ∀ g, g ∉ k.1.outputs →
        Function.update (s.worker k).send f (((s.worker k).send f).drop n) g = [] := by
      intro g hg
      have hgf : g ≠ f := fun he => hg (he ▸ hf)
      rw [Function.update_of_ne hgf]
      exact hw.unused g hg
    refine ⟨hw.work, hunused, ?_⟩
    rcases hpc with ⟨hpc, rfl⟩ | ⟨fs, hpc, -, rfl⟩
    · rw [hpc] at hat
      intro g
      change (Function.update (s.worker k).send f _ g).length < itemPerInsert
      by_cases hg : g = f
      · subst hg
        have : ((s.worker k).send g).length = itemPerInsert := hat.2.1
        rw [Function.update_self, List.length_drop, this]
        simp only [itemPerInsert]
        omega
      · rw [Function.update_of_ne hg]
        exact hat.2.2 g hg
    · rw [hpc] at hat
      refine ⟨hat.1, hat.2.1, hat.2.2.1, fun g hg => ?_⟩
      have hgf : g ≠ f := fun he => hg (he ▸ List.mem_cons_self ..)
      change Function.update (s.worker k).send f _ g = []
      rw [Function.update_of_ne hgf]
      exact hat.2.2.2 g hg
  | skip f fs hpc hsend =>
    simp only [State.setWorker, Function.update_self]
    rw [hpc] at hat
    refine ⟨hw.work, hw.unused, hat.1, hat.2.1, fun g hg => hat.2.2.1 (List.mem_cons_of_mem _ hg),
      fun g hg => ?_⟩
    by_cases hgf : g = f
    · exact hgf ▸ hsend
    · refine hat.2.2.2 g fun hmem => ?_
      rcases List.mem_cons.mp hmem with h | h
      · exact hgf h
      · exact hg h
  | terminate hpc hopen =>
    simp only [State.setWorker, Function.update_self]
    rw [hpc] at hat
    exact ⟨hw.work, hw.unused, hat.1, hat.2.1, fun g => hat.2.2.2 g List.not_mem_nil⟩

end Moves

/-- `Fragment` has a send buffer of one chunk. -/
def FragmentThread.AtPc (t : FragmentThread c) : Prop :=
  match t.pc with
  | .split => t.sendBuf = []
  | .enqueue => t.sendBuf.length = 1
  | .drain => t.todo = [] ∧ t.sendBuf = []
  | .terminate i => t.todo = [] ∧ t.sendBuf = [] ∧ i ≤ c.nqueues
  | .done => t.todo = [] ∧ t.sendBuf = []

/-- The number of refine queues that have been terminated. -/
def FragmentThread.closedUpTo (t : FragmentThread c) : ℕ :=
  match t.pc with
  | .terminate i => i
  | .done => c.nqueues
  | _ => 0

theorem FragmentThread.AtPc.sending {t : FragmentThread c} (h : t.AtPc) {pc : FragmentPc}
    (hpc : t.Sending pc) : t.pc = .enqueue ∧ pc = .split ∧ t.sendBuf.length = 1 := by
  unfold FragmentThread.AtPc at h
  rcases hpc with ⟨hpc, rfl⟩ | ⟨hpc, hne, -⟩
  · rw [hpc] at h
    exact ⟨hpc, rfl, h⟩
  · rw [hpc] at h
    exact absurd h.2 hne

theorem fragment_move {s s' : State c D κ} (h : FragmentMove s s') (ht : s.fragment.AtPc) :
    s'.fragment.AtPc := by
  cases h with
  | insert x todo hpc htodo hroom => exact rfl
  | finish hpc htodo =>
    rw [FragmentThread.AtPc, hpc] at ht
    exact ⟨htodo, ht⟩
  | send pc n hpc hn hopen =>
    obtain ⟨-, rfl, hlen⟩ := ht.sending hpc
    exact List.drop_eq_nil_iff.mpr (by omega)
  | drained hpc hsend =>
    rw [FragmentThread.AtPc, hpc] at ht
    exact ⟨ht.1, ht.2, Nat.zero_le _⟩
  | terminate i hpc hopen =>
    rw [FragmentThread.AtPc, hpc] at ht
    exact ⟨ht.1, ht.2.1, i.isLt⟩
  | done i hpc hi =>
    rw [FragmentThread.AtPc, hpc] at ht
    exact ⟨ht.1, ht.2.1⟩

/-! ### The counters -/

/-- The thread has left its loop. -/
def Worker.Leaving (w : Worker) : Prop := w.pc = .done ∨ ∃ fs, w.pc = .drain fs

/-- The threads of a pool that work on a queue and have returned. -/
def State.returned (s : State c D κ) (P : Pool) (q : Fin c.nqueues) : Finset (Fin c.nthreads) :=
  (c.tids q).filter fun i => (s.worker (P, i)).pc = .done

theorem mem_returned {s : State c D κ} {P : Pool} {q : Fin c.nqueues} {i : Fin c.nthreads} :
    i ∈ s.returned P q ↔ c.qid i = q ∧ (s.worker (P, i)).pc = .done := by
  rw [State.returned, Finset.mem_filter, mem_tids]

/-- The counters of the queues and the threads that have returned; a thread that has left its loop has
    found its queue closed. -/
structure Counted (s : State c D κ) : Prop where
  producers : ∀ (P : Pool) q, (s.que (P.terminates, q)).nProducers = (c.tids q).card
  terminated : ∀ (P : Pool) q, (s.que (P.terminates, q)).nTerminated = (s.returned P q).card
  anchors : ∀ q, (s.que (.refine, q)).nProducers = 1
  anchored : ∀ q : Fin c.nqueues, (s.que (.refine, q)).nTerminated =
    if (q : ℕ) < s.fragment.closedUpTo then 1 else 0
  leaving : ∀ k, (s.worker k).Leaving → (s.que (k.1.input, c.qid k.2)).Closed

theorem counted_new (p : Plan) : Counted (State.new c p : State c D κ) where
  producers P q := by cases P <;> exact (card_tids q).symm
  terminated P q := by
    have hnone : (State.new c p : State c D κ).returned P q = ∅ := by
      refine Finset.filter_eq_empty_iff.mpr fun i _ hi => ?_
      cases hi
    rw [hnone]
    cases P <;> rfl
  anchors _ := rfl
  anchored _ := rfl
  leaving _ h := by rcases h with h | ⟨_, h⟩ <;> cases h

section Moves
variable [DecidableEq D] {p : Plan} {digest : Chunk → D} {packed : Chunk → κ} {s s' : State c D κ}

omit [DecidableEq D] in
/-- A step that leaves the counters alone and in which no thread returns. -/
theorem Counted.frame (h : Counted s) (hque : ∀ l, QueueMove (s.que l) (s'.que l))
    (hterm : ∀ l, (s'.que l).nTerminated = (s.que l).nTerminated)
    (hfrag : s'.fragment.closedUpTo = s.fragment.closedUpTo)
    (hdone : ∀ k, (s'.worker k).pc = .done ↔ (s.worker k).pc = .done)
    (hleave : ∀ k, (s'.worker k).Leaving → (s'.que (k.1.input, c.qid k.2)).Closed) : Counted s' where
  producers P q := by rw [(hque _).nProducers, h.producers]
  terminated P q := by
    rw [hterm, h.terminated]
    unfold State.returned
    simp only [hdone]
  anchors q := by rw [(hque _).nProducers, h.anchors]
  anchored q := by rw [hterm, h.anchored, hfrag]
  leaving := hleave

theorem nTerminated_update {que : Que × Fin c.nqueues → Queue} {k : Que × Fin c.nqueues} {q : Queue}
    (h : q.nTerminated = (que k).nTerminated) (l : Que × Fin c.nqueues) :
    (Function.update que k q l).nTerminated = (que l).nTerminated := by
  by_cases hl : l = k
  · subst hl
    rw [Function.update_self, h]
  · rw [Function.update_of_ne hl]

omit [DecidableEq D] in
theorem counted_fragment (h : Counted s) (hm : FragmentMove s s')
    (hque : ∀ l, QueueMove (s.que l) (s'.que l)) : Counted s' := by
  have hleave : ∀ k, s'.worker k = s.worker k → (s'.worker k).Leaving →
      (s'.que (k.1.input, c.qid k.2)).Closed := by
    intro k hk hl
    rw [hk] at hl
    exact (hque _).closed (h.leaving k hl)
  cases hm with
  | insert x todo hpc htodo hroom =>
    exact h.frame hque (fun _ => rfl) (by simp [FragmentThread.closedUpTo, hpc]) (fun _ => Iff.rfl)
      fun k => hleave k rfl
  | finish hpc htodo =>
    exact h.frame hque (fun _ => rfl) (by simp [FragmentThread.closedUpTo, hpc]) (fun _ => Iff.rfl)
      fun k => hleave k rfl
  | send pc n hpc hn hopen =>
    refine h.frame hque (nTerminated_update rfl) ?_ (fun _ => Iff.rfl) fun k => hleave k rfl
    rcases hpc with ⟨hpc, rfl⟩ | ⟨hpc, -, rfl⟩ <;> simp [FragmentThread.closedUpTo, hpc]
  | drained hpc hsend =>
    exact h.frame hque (fun _ => rfl) (by simp [FragmentThread.closedUpTo, hpc]) (fun _ => Iff.rfl)
      fun k => hleave k rfl
  | terminate i hpc hopen =>
    refine ⟨fun P q => by rw [(hque _).nProducers, h.producers], fun P q => ?_,
      fun q => by rw [(hque _).nProducers, h.anchors], fun q => ?_, fun k => hleave k rfl⟩
    · have hne : (P.terminates, q) ≠ (Que.refine, i) := fun he => terminates_ne_refine P (congrArg Prod.fst he)
      simp only [State.setQue, Function.update_of_ne hne]
      exact h.terminated P q
    · have hold := h.anchored q
      simp only [FragmentThread.closedUpTo, hpc] at hold ⊢
      by_cases hq : q = i
      · subst hq
        simp only [State.setQue, Function.update_self, Queue.close, hold, lt_self_iff_false, if_false,
          Nat.lt_succ_self, if_true]
      · have hne : ((Que.refine, q) : Que × Fin c.nqueues) ≠ (Que.refine, i) :=
          fun he => hq (congrArg Prod.snd he)
        have hiff : (q : ℕ) < i + 1 ↔ (q : ℕ) < i := by
          have : (q : ℕ) ≠ i := fun he => hq (Fin.ext he)
          omega
        simp only [State.setQue, Function.update_of_ne hne, hold, hiff]
  | done i hpc hi =>
    refine ⟨h.producers, h.terminated, h.anchors, fun q => ?_, fun k => hleave k rfl⟩
    have hold := h.anchored q
    have hq := q.isLt
    simp only [FragmentThread.closedUpTo, hpc] at hold ⊢
    rw [hold, if_pos (by omega)]
    exact (if_pos hq).symm

omit [DecidableEq D] in
/-- Where a step of a thread does not touch the counters. -/
theorem counted_update {k : Pool × Fin c.nthreads} {w : Worker} (h : Counted s)
    (hque : ∀ l, QueueMove (s.que l) (s'.que l))
    (hterm : ∀ l, (s'.que l).nTerminated = (s.que l).nTerminated) (hfrag : s'.fragment = s.fragment)
    (hworker : s'.worker = Function.update s.worker k w) (hpc : (s.worker k).pc ≠ .done)
    (hpc' : w.pc ≠ .done) (hleave : w.Leaving → (s.que (k.1.input, c.qid k.2)).Closed) : Counted s' := by
  refine h.frame hque hterm (by rw [hfrag]) (fun k' => ?_) fun k' hl => ?_
  · rw [hworker]
    by_cases hk : k' = k
    · subst hk
      simp only [Function.update_self, hpc, hpc']
    · rw [Function.update_of_ne hk]
  · refine (hque _).closed ?_
    rw [hworker] at hl
    by_cases hk : k' = k
    · subst hk
      rw [Function.update_self] at hl
      exact hleave hl
    · rw [Function.update_of_ne hk] at hl
      exact h.leaving k' hl

theorem Worker.Sending.pc {w : Worker} {f : Que} {pc : WorkerPc} (h : w.Sending f pc) :
    w.pc ≠ .done ∧ pc ≠ .done ∧ ((∃ fs, pc = .drain fs) → w.Leaving) := by
  rcases h with ⟨h, rfl⟩ | ⟨fs, h, -, rfl⟩
  · rw [h]
    exact ⟨nofun, nofun, fun ⟨fs, h⟩ => by cases h⟩
  · exact ⟨by rw [h]; exact nofun, nofun, fun _ => .inr ⟨_, h⟩⟩

theorem counted_worker {k : Pool × Fin c.nthreads} (h : Counted s) (hm : WorkerMove p digest packed s k s')
    (hque : ∀ l, QueueMove (s.que l) (s'.que l)) : Counted s' := by
  have hin : ∀ {w : Worker}, w.pc ≠ .done → (∀ fs, w.pc ≠ .drain fs) → w.Leaving →
      (s.que (k.1.input, c.qid k.2)).Closed := by
    intro w h1 h2 hl
    rcases hl with hl | ⟨fs, hl⟩
    · exact absurd hl h1
    · exact absurd hl (h2 fs)
  cases hm with
  | fetch hpc hrecv hbuf =>
    exact counted_update h hque (nTerminated_update rfl) rfl rfl (by rw [hpc]; exact nofun)
      (by rw [hpc]; exact nofun) (hin (by rw [hpc]; exact nofun) (by rw [hpc]; exact nofun))
  | close hpc hrecv hclosed =>
    exact counted_update h hque (fun _ => rfl) rfl rfl (by rw [hpc]; exact nofun) nofun fun _ => hclosed
  | process x recv work table hpc hrecv hproc =>
    exact counted_update h hque (fun _ => rfl) rfl rfl (by rw [hpc]; exact nofun) nofun (hin nofun nofun)
  | rest hpc hwork =>
    exact counted_update h hque (fun _ => rfl) rfl rfl (by rw [hpc]; exact nofun) nofun (hin nofun nofun)
  | emit f x work hpc hwork hroom =>
    refine counted_update h hque (fun _ => rfl) rfl rfl (by rw [hpc]; exact nofun) ?_ (hin ?_ ?_)
    · simp only; split <;> exact nofun
    · simp only; split <;> exact nofun
    · simp only; split <;> exact nofun
  | send f pc n hpc hn hsend hopen =>
    obtain ⟨h1, h2, h3⟩ := hpc.pc
    refine counted_update h hque (nTerminated_update rfl) rfl rfl h1 h2 fun hl => ?_
    rcases hl with hl | hl
    · exact absurd hl h2
    · exact h.leaving k (h3 hl)
  | skip f fs hpc hsend =>
    exact counted_update h hque (fun _ => rfl) rfl rfl (by rw [hpc]; exact nofun) nofun
      fun _ => h.leaving k (.inr ⟨_, hpc⟩)
  | terminate hpc hopen =>
    have hnot : (s.worker k).pc ≠ .done := by rw [hpc]; exact nofun
    refine ⟨fun P q => by rw [(hque _).nProducers, h.producers], fun P q => ?_,
      fun q => by rw [(hque _).nProducers, h.anchors], fun q => ?_, fun k' hl => (hque _).closed ?_⟩
    · by_cases hk : P = k.1 ∧ q = c.qid k.2
      · -- the queue of this thread: one more has returned
        obtain ⟨rfl, rfl⟩ := hk
        have hset : State.returned ((s.setQue (k.1.terminates, c.qid k.2)
              (s.que (k.1.terminates, c.qid k.2)).close).setWorker k { s.worker k with pc := .done })
            k.1 (c.qid k.2) = insert k.2 (s.returned k.1 (c.qid k.2)) := by
          ext i
          rw [Finset.mem_insert, mem_returned, mem_returned]
          by_cases hi : i = k.2
          · subst hi
            simp [State.setWorker]
          · have hne : (k.1, i) ≠ k := fun he => hi (congrArg Prod.snd he)
            simp only [State.setWorker, State.setQue, Function.update_of_ne hne, hi, false_or]
        have hnew : k.2 ∉ s.returned k.1 (c.qid k.2) := fun hmem => hnot (mem_returned.mp hmem).2
        rw [hset, Finset.card_insert_of_notMem hnew, ← h.terminated]
        simp only [State.setWorker, State.setQue, Function.update_self, Queue.close]
      · have hne : (P.terminates, q) ≠ (k.1.terminates, c.qid k.2) := by
          intro he
          exact hk ⟨terminates_injective (congrArg Prod.fst he), congrArg Prod.snd he⟩
        have hsame : State.returned ((s.setQue (k.1.terminates, c.qid k.2)
              (s.que (k.1.terminates, c.qid k.2)).close).setWorker k { s.worker k with pc := .done })
            P q = s.returned P q := by
          refine Finset.filter_congr fun i hi => ?_
          have hne : (P, i) ≠ k := by
            rintro rfl
            exact hk ⟨rfl, (mem_tids.mp hi).symm⟩
          simp only [State.setWorker, State.setQue, Function.update_of_ne hne]
        rw [hsame, ← h.terminated]
        simp only [State.setWorker, State.setQue, Function.update_of_ne hne]
    · have hne : ((Que.refine, q) : Que × Fin c.nqueues) ≠ (k.1.terminates, c.qid k.2) :=
        fun he => terminates_ne_refine k.1 (congrArg Prod.fst he).symm
      simp only [State.setWorker, State.setQue, Function.update_of_ne hne]
      exact h.anchored q
    · by_cases hk : k' = k
      · subst hk
        exact h.leaving k' (.inr ⟨_, hpc⟩)
      · simp only [State.setWorker, State.setQue, Function.update_of_ne hk] at hl
        exact h.leaving k' hl

omit [DecidableEq D] in
/-- What `Reorder` does not touch. -/
theorem reorder_frame (hm : ReorderMove digest s s') : s'.worker = s.worker ∧
    s'.fragment = s.fragment ∧ s'.crash = s.crash ∧ ∀ l, (s'.que l).nTerminated = (s.que l).nTerminated := by
  cases hm with
  | fetch => exact ⟨rfl, rfl, rfl, nTerminated_update rfl⟩
  | closed => exact ⟨rfl, rfl, rfl, fun _ => rfl⟩
  | exhausted => exact ⟨rfl, rfl, rfl, fun _ => rfl⟩
  | nothing => exact ⟨rfl, rfl, rfl, fun _ => rfl⟩
  | next => exact ⟨rfl, rfl, rfl, fun _ => rfl⟩
  | hold => exact ⟨rfl, rfl, rfl, fun _ => rfl⟩
  | write => exact ⟨rfl, rfl, rfl, fun _ => rfl⟩
  | done => exact ⟨rfl, rfl, rfl, fun _ => rfl⟩
  | pick => exact ⟨rfl, rfl, rfl, fun _ => rfl⟩
  | flush => exact ⟨rfl, rfl, rfl, fun _ => rfl⟩

omit [DecidableEq D] in
theorem counted_reorder (h : Counted s) (hm : ReorderMove digest s s')
    (hque : ∀ l, QueueMove (s.que l) (s'.que l)) : Counted s' := by
  obtain ⟨hworker, hfrag, -, hterm⟩ := reorder_frame hm
  refine h.frame hque hterm (by rw [hfrag]) (fun k => by rw [hworker]) fun k hl => ?_
  rw [hworker] at hl
  exact (hque _).closed (h.leaving k hl)

end Moves

/-! ### What the counters say -/

section Counters
variable {s : State c D κ}

/-- A queue is open as long as one of the threads that terminate it has not returned. -/
theorem Counted.open_of_running (h : Counted s) {P : Pool} {i : Fin c.nthreads}
    (hpc : (s.worker (P, i)).pc ≠ .done) :
    (s.que (P.terminates, c.qid i)).nTerminated < (s.que (P.terminates, c.qid i)).nProducers := by
  rw [h.producers, h.terminated]
  refine Finset.card_lt_card ⟨Finset.filter_subset _ _, fun hsub => hpc ?_⟩
  exact (mem_returned.mp (hsub (mem_tids.mpr rfl))).2

/-- When a queue is terminated all threads that terminate it have returned. -/
theorem Counted.done_of_terminated (h : Counted s) {P : Pool} {i : Fin c.nthreads}
    (hq : (s.que (P.terminates, c.qid i)).nTerminated = (s.que (P.terminates, c.qid i)).nProducers) :
    (s.worker (P, i)).pc = .done := by
  by_contra hpc
  have := h.open_of_running hpc
  omega

/-- A queue that a thread has a send buffer for is open as long as the thread has not returned. -/
theorem Counted.open_of_mem_outputs (h : Counted s) {k : Pool × Fin c.nthreads} {f : Que}
    (hf : f ∈ k.1.outputs) (hpc : (s.worker k).pc ≠ .done) :
    (s.que (f, c.qid k.2)).nTerminated < (s.que (f, c.qid k.2)).nProducers := by
  obtain ⟨P, i⟩ := k
  cases P with
  | FragmentRefine =>
    rw [List.mem_singleton.mp hf]
    exact h.open_of_running (P := .FragmentRefine) hpc
  | Deduplicate =>
    simp only [Pool.outputs, List.mem_cons, List.not_mem_nil, or_false] at hf
    rcases hf with rfl | rfl
    · exact h.open_of_running (P := .Deduplicate) hpc
    · -- the `Compress` thread of the same number cannot have returned
      refine h.open_of_running (P := .Compress) fun hdone => hpc ?_
      have hclosed := h.leaving (.Compress, i) (.inl hdone)
      exact h.done_of_terminated (P := .Deduplicate) hclosed.2
  | Compress =>
    rw [List.mem_singleton.mp hf]
    exact h.open_of_running (P := .Compress) hpc

theorem que_cases (f : Que) : f = .refine ∨ ∃ P : Pool, f = P.terminates := by
  cases f with
  | refine => exact .inl rfl
  | deduplicate => exact .inr ⟨.FragmentRefine, rfl⟩
  | compress => exact .inr ⟨.Deduplicate, rfl⟩
  | reorder => exact .inr ⟨.Compress, rfl⟩

theorem Counted.bounded (h : Counted s) (l : Que × Fin c.nqueues) :
    (s.que l).nTerminated ≤ (s.que l).nProducers := by
  obtain ⟨f, q⟩ := l
  rcases que_cases f with rfl | ⟨P, rfl⟩
  · rw [h.anchors, h.anchored]
    split <;> omega
  · rw [h.producers, h.terminated]
    exact Finset.card_le_card (Finset.filter_subset _ _)

end Counters

/-! ### The loop over the reorder queues -/

/-- What the place of `Reorder` says: in the loop the last `i` queues have been found closed, and behind
    it all are. -/
def ReorderAtPc (s : State c D κ) : Prop :=
  match s.reorder.pc with
  | .fetch i => s.reorder.recv = [] ∧ ∀ q : Fin c.nqueues,
      (∃ j < i, (q + j + 1) % c.nqueues = s.reorder.qid) → (s.que (.reorder, q)).Closed
  | .take => s.reorder.recv ≠ []
  | .write _ => True
  | .flush | .flushWrite _ | .done => s.reorder.recv = [] ∧ ∀ q, (s.que (.reorder, q)).Closed

theorem reorderAtPc_afterChunk {s : State c D κ} (h : s.reorder.pc = afterChunk s.reorder.recv) :
    ReorderAtPc s := by
  unfold ReorderAtPc
  rw [h, afterChunk]
  split
  · rename_i hpc
    split at hpc
    · rename_i hnil
      cases hpc
      exact ⟨hnil, fun q ⟨j, hj, _⟩ => absurd hj (Nat.not_lt_zero j)⟩
    · cases hpc
  · rename_i hpc
    split at hpc
    · cases hpc
    · assumption
  · trivial
  all_goals
    rename_i hpc
    split at hpc <;> cases hpc

/-- The queues passed in the loop when one more has been found closed. -/
theorem passed_next {q : Fin c.nqueues} {qid : Fin c.nqueues} {i : ℕ}
    (h : ∃ j < i + 1, (q + j + 1) % c.nqueues = c.nextQid qid) :
    q = qid ∨ ∃ j < i, (q + j + 1) % c.nqueues = qid := by
  obtain ⟨j, hj, he⟩ := h
  have hmod : Nat.ModEq c.nqueues (q + j) qid := Nat.ModEq.add_right_cancel' 1 he
  cases j with
  | zero =>
    refine .inl (Fin.ext ?_)
    exact Nat.ModEq.eq_of_lt_of_lt hmod q.isLt qid.isLt
  | succ j =>
    refine .inr ⟨j, by omega, ?_⟩
    have : (q + (j + 1)) % c.nqueues = qid % c.nqueues := hmod
    rwa [Nat.mod_eq_of_lt qid.isLt, ← Nat.add_assoc] at this

/-- A whole round passes every queue. -/
theorem passed_all (q qid : Fin c.nqueues) {i : ℕ} (hi : c.nqueues ≤ i) :
    ∃ j < i, (q + j + 1) % c.nqueues = qid := by
  have hq := q.isLt
  have hqid := qid.isLt
  rcases Nat.lt_or_ge q qid with h | h
  · refine ⟨qid - q - 1, by omega, ?_⟩
    rw [show (q : ℕ) + (qid - q - 1) + 1 = qid by omega, Nat.mod_eq_of_lt hqid]
  · refine ⟨qid + c.nqueues - q - 1, by omega, ?_⟩
    rw [show (q : ℕ) + (qid + c.nqueues - q - 1) + 1 = qid + c.nqueues by omega, Nat.add_mod_right,
      Nat.mod_eq_of_lt hqid]

/-- A step of another thread. -/
theorem ReorderAtPc.frame {s s' : State c D κ} (h : ReorderAtPc s) (hr : s'.reorder = s.reorder)
    (hque : ∀ l, QueueMove (s.que l) (s'.que l)) : ReorderAtPc s' := by
  unfold ReorderAtPc at h ⊢
  rw [hr]
  cases hpc : s.reorder.pc with
  | fetch i =>
    rw [hpc] at h
    exact ⟨h.1, fun q hq => (hque _).closed (h.2 q hq)⟩
  | take => rwa [hpc] at h
  | write x => trivial
  | flush =>
    rw [hpc] at h
    exact ⟨h.1, fun q => (hque _).closed (h.2 q)⟩
  | flushWrite x =>
    rw [hpc] at h
    exact ⟨h.1, fun q => (hque _).closed (h.2 q)⟩
  | done =>
    rw [hpc] at h
    exact ⟨h.1, fun q => (hque _).closed (h.2 q)⟩

theorem reorder_move {digest : Chunk → D} {s s' : State c D κ} (h : ReorderAtPc s)
    (hm : ReorderMove digest s s') (hque : ∀ l, QueueMove (s.que l) (s'.que l)) : ReorderAtPc s' := by
  cases hm with
  | fetch i hpc hbuf =>
    change (s.que (.reorder, s.reorder.qid)).buf.take itemPerFetch ≠ []
    simpa [itemPerFetch] using hbuf
  | closed i hpc hi hclosed =>
    rw [ReorderAtPc, hpc] at h
    refine ⟨h.1, fun q hq => (hque _).closed ?_⟩
    rcases passed_next hq with rfl | hq
    · exact hclosed
    · exact h.2 q hq
  | exhausted i hpc hi =>
    rw [ReorderAtPc, hpc] at h
    exact ⟨h.1, fun q => h.2 q (passed_all q _ hi)⟩
  | nothing hpc hrecv =>
    rw [ReorderAtPc, hpc] at h
    exact absurd hrecv h
  | next => trivial
  | hold => exact reorderAtPc_afterChunk rfl
  | write x record table core core' next hpc hwrite hadv htake =>
    cases next with
    | none => exact reorderAtPc_afterChunk rfl
    | some y => trivial
  | done hpc hmin =>
    rw [ReorderAtPc, hpc] at h
    exact h
  | pick x core hpc htake =>
    rw [ReorderAtPc, hpc] at h
    exact h
  | flush x record table core hpc hwrite hadv =>
    rw [ReorderAtPc, hpc] at h
    exact h

/-! ### The invariant of all threads -/

/-- The assertions about queues and buffers. -/
def Crash.ofQueue : Crash → Bool
  | .enqueueTerminated | .overTerminated | .sendBufFull | .nothingSent => true
  | _ => false

structure Orderly (s : State c D κ) : Prop where
  counted : Counted s
  tidy : ∀ k, (s.worker k).Tidy k.1
  fragment : s.fragment.AtPc
  reorder : ReorderAtPc s
  crash : ∀ e, s.crash = some e → e.ofQueue = false

theorem orderly_new (p : Plan) : Orderly (State.new c p : State c D κ) where
  counted := counted_new p
  tidy k := tidy_new k.1
  fragment := rfl
  reorder := ⟨rfl, fun _ ⟨j, hj, _⟩ => absurd hj (Nat.not_lt_zero j)⟩
  crash _ h := by cases h

section Orderly
variable [DecidableEq D] {p : Plan} {digest : Chunk → D} {packed : Chunk → κ} {s s' : State c D κ}

theorem orderly_move {t : Thread c} (h : Orderly s) (hs : s.crash = none)
    (hm : Move p digest packed s t s') : Orderly s' := by
  have hque := move_que hm
  cases t with
  | fragment =>
    have hframe : s'.worker = s.worker ∧ s'.reorder = s.reorder ∧ s'.crash = s.crash := by
      cases hm <;> exact ⟨rfl, rfl, rfl⟩
    obtain ⟨hworker, hreorder, hcrash⟩ := hframe
    exact ⟨counted_fragment h.counted hm hque, hworker ▸ h.tidy, fragment_move hm h.fragment,
      h.reorder.frame hreorder hque, fun e he => by rw [hcrash, hs] at he; cases he⟩
  | worker k =>
    have hframe : (∀ k', k' ≠ k → s'.worker k' = s.worker k') ∧ s'.fragment = s.fragment ∧
        s'.reorder = s.reorder ∧ s'.crash = s.crash := by
      cases hm <;> exact ⟨fun k' hk => Function.update_of_ne hk _ _, rfl, rfl, rfl⟩
    obtain ⟨hworker, hfrag, hreorder, hcrash⟩ := hframe
    refine ⟨counted_worker h.counted hm hque, fun k' => ?_, hfrag ▸ h.fragment,
      h.reorder.frame hreorder hque, fun e he => by rw [hcrash, hs] at he; cases he⟩
    by_cases hk : k' = k
    · subst hk
      exact tidy_move hm (h.tidy k')
    · rw [hworker k' hk]
      exact h.tidy k'
  | reorder =>
    have hframe : s'.worker = s.worker ∧ s'.fragment = s.fragment ∧ s'.crash = s.crash := by
      cases hm <;> exact ⟨rfl, rfl, rfl⟩
    obtain ⟨hworker, hfrag, hcrash⟩ := hframe
    exact ⟨counted_reorder h.counted hm hque, hworker ▸ h.tidy, hfrag ▸ h.fragment,
      reorder_move h.reorder hm hque, fun e he => by rw [hcrash, hs] at he; cases he⟩

/-- None of the assertions about queues and buffers fails. -/
theorem Orderly.fault {t : Thread c} {e : Crash} (h : Orderly s) (hf : Fault p digest packed s t e) :
    e.ofQueue = false := by
  have hfrag := h.fragment
  cases t with
  | fragment =>
    exfalso
    cases hf with
    | insert hpc hfull =>
      rw [FragmentThread.AtPc, hpc] at hfrag
      exact hfull hfrag
    | enqueue pc hpc hclosed =>
      have hrun := (hfrag.sending hpc).1
      rw [h.counted.anchors, h.counted.anchored] at hclosed
      simp [FragmentThread.closedUpTo, hrun] at hclosed
    | send pc hpc hsend =>
      have hlen := (hfrag.sending hpc).2.2
      rw [hsend] at hlen
      cases hlen
    | terminate i hpc hclosed =>
      rw [h.counted.anchors, h.counted.anchored] at hclosed
      simp [FragmentThread.closedUpTo, hpc] at hclosed
  | worker k =>
    have hat := (h.tidy k).atPc
    unfold Worker.AtPc at hat
    cases hf with
    | fetch hpc hclosed =>
      have := h.counted.bounded (k.1.input, c.qid k.2)
      omega
    | process => rfl
    | emit f x work hpc hwork hfull =>
      rw [hpc] at hat
      have := hat f
      omega
    | enqueue f pc hpc hclosed =>
      have := h.counted.open_of_mem_outputs ((h.tidy k).sending hpc).1 hpc.pc.1
      omega
    | send f pc hpc hsend => exact absurd hsend ((h.tidy k).sending hpc).2
    | terminate hpc hclosed =>
      have := h.counted.open_of_running (P := k.1) (i := k.2) (by rw [hpc]; exact nofun)
      omega
  | reorder =>
    cases hf with
    | fetch i hpc hclosed =>
      have := h.counted.bounded (.reorder, s.reorder.qid)
      omega
    | note => rfl
    | cache => rfl
    | advance => rfl
    | takeNext => rfl
    | pick => rfl
    | mismatch => rfl

theorem orderly_step {t : Thread c} (h : Orderly s) (hs : step p digest packed s t = some s') :
    Orderly s' := by
  obtain ⟨hcrash, hm | ⟨e, hf, rfl⟩⟩ := step_cases p digest packed hs
  · exact orderly_move h hcrash hm
  · refine ⟨⟨h.counted.producers, h.counted.terminated, h.counted.anchors, h.counted.anchored,
      h.counted.leaving⟩, h.tidy, h.fragment, h.reorder, fun e' he => ?_⟩
    obtain rfl := Option.some.inj he
    exact h.fault hf

theorem orderly_exec {ts : List (Thread c)}
    (hs : exec (step p digest packed) (State.new c p) ts = some s) : Orderly s :=
  exec_inv (fun _ _ _ h hs => orderly_step h hs) (orderly_new p) hs

end Orderly

end Turkey.Pipeline
