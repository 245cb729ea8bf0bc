import Mathlib.Algebra.BigOperators.Fin
import Mathlib.Algebra.Order.BigOperators.Group.Finset
import Turkey.Dedup.Queue

/-! Invariants of one link of the pipeline with queue operations in one step: no assertion fails, nothing is lost,
    and a receiver leaves only behind the last chunk. -/

namespace Turkey.QueueLink
open Turkey.Tally
open Turkey.Reorder (Chunk)
open Turkey.Pipeline (Queue queueDequeue_cases queueEnqueue_cases queueTerminate_cases)

variable {senders receivers : ℕ} {l : Limits}

/-- The chunks that a thread has. -/
def Place.chunks : Place → List Chunk
  | .fill todo send => send ++ todo
  | .drain send => send
  | .enqueue _ todo send => send ++ todo
  | .fetch recv got => got ++ recv
  | .received got => got
  | _ => []

/-- The thread has called `queue_terminate`. -/
def Place.closings : Place → ℕ
  | .sent => 1
  | _ => 0

/-- The thread is at a place of its own code, and its buffers have room for what is in them. -/
def Place.Ok (l : Limits) : Tid senders receivers → Place → Prop
  | .inl _, .fill _ send => send.length < l.perInsert
  | .inl _, .drain send => send.length < l.perInsert
  | .inl _, .enqueue draining todo send => send ≠ [] ∧ send.length ≤ l.perInsert ∧ (draining = true → todo = [])
  | .inl _, .terminate => True
  | .inl _, .sent => True
  | .inr _, .fetch recv _ => recv.length ≤ l.perFetch
  | .inr _, .received _ => True
  | _, _ => False

/-- Invariant of the steps; `total` are the chunks to be sent. -/
structure Link.Inv (l : Limits) (total : Multiset Chunk) (e : Link senders receivers) : Prop where
  nProducers : e.que.nProducers = senders
  length_le : e.que.buf.length ≤ l.size
  place : ∀ t, (e.thread t).Ok l t
  closings : ∑ t, (e.thread t).closings = e.que.nTerminated
  received : ∀ t got, e.thread t = .received got → e.que.Closed
  chunks : ∑ t, ((e.thread t).chunks : Multiset Chunk) + e.que.buf = total

theorem Place.closings_le (x : Place) : x.closings ≤ 1 := by
  cases x <;> simp [closings]

/-- A receiver does not call `queue_terminate`. -/
theorem Place.Ok.closings_receiver {i : Fin receivers} {x : Place} (h : x.Ok l (.inr i : Tid senders receivers)) :
    x.closings = 0 := by
  cases x <;> first | rfl | exact h.elim

theorem sum_closings_le (f : Tid senders receivers → Place) (hf : ∀ t, (f t).Ok l t) (i : Fin senders) :
    ∑ t, (f t).closings + (1 - (f (.inl i)).closings) ≤ senders := by
  have hone : ∀ j, (f (.inl j)).closings ≤ 1 := fun j => (f (.inl j)).closings_le
  have hrest : ∑ j ∈ Finset.univ.erase i, (f (.inl j)).closings ≤ senders - 1 := by
    refine (Finset.sum_le_card_nsmul _ _ 1 fun j _ => hone j).trans ?_
    simp
  have hsum := Finset.add_sum_erase Finset.univ (fun j => (f (.inl j)).closings) (Finset.mem_univ i)
  have hreceivers : ∑ j : Fin receivers, (f (.inr j)).closings = 0 :=
    Finset.sum_eq_zero fun j _ => (hf (.inr j)).closings_receiver
  rw [Fintype.sum_sum_type, hreceivers, ← hsum]
  have := hone i
  have := i.pos
  omega

namespace Link.Inv
variable {total : Multiset Chunk} {e e' : Link senders receivers}

/-- As long as a sender has not terminated the queue, the queue is open. -/
theorem isOpen (h : e.Inv l total) {i : Fin senders} (hi : (e.thread (.inl i)).closings = 0) :
    e.que.nTerminated < e.que.nProducers := by
  have hle := sum_closings_le e.thread h.place i
  rw [h.closings, hi] at hle
  rw [h.nProducers]
  omega

/-- When the queue is terminated, all senders have terminated it. -/
theorem sent (h : e.Inv l total) (hterm : e.que.nTerminated = e.que.nProducers) (i : Fin senders) :
    e.thread (.inl i) = .sent := by
  have hne : (e.thread (.inl i)).closings ≠ 0 := fun hzero => (h.isOpen hzero).ne hterm
  cases hx : e.thread (.inl i) with
  | sent => rfl
  | _ => simp [hx, Place.closings] at hne

theorem le (h : e.Inv l total) : e.que.nTerminated ≤ e.que.nProducers := by
  by_cases hopen : ∃ i, (e.thread (.inl i)).closings = 0
  · obtain ⟨i, hi⟩ := hopen
    exact (h.isOpen hi).le
  · have hreceivers : ∑ j : Fin receivers, (e.thread (.inr j)).closings = 0 :=
      Finset.sum_eq_zero fun j _ => (h.place (.inr j)).closings_receiver
    have hsenders : ∑ i : Fin senders, (e.thread (.inl i)).closings ≤ senders := by
      refine (Finset.sum_le_card_nsmul _ _ 1 fun i _ => (e.thread (.inl i)).closings_le).trans ?_
      simp
    rw [← h.closings, h.nProducers, Fintype.sum_sum_type, hreceivers]
    exact hsenders

/-- A step keeps the invariant when what the thread and the queue have together stays the same. -/
theorem update (h : e.Inv l total) {t : Tid senders receivers} {que : Queue} {x : Place}
    (hproducers : que.nProducers = e.que.nProducers) (hlength : que.buf.length ≤ l.size) (hplace : x.Ok l t)
    (hclosings : x.closings + e.que.nTerminated = (e.thread t).closings + que.nTerminated)
    (hclosed : e.que.Closed → que.Closed) (hreceived : ∀ got, x = .received got → que.Closed)
    (hchunks : (x.chunks : Multiset Chunk) + que.buf = ((e.thread t).chunks : Multiset Chunk) + e.que.buf) :
    ({ e with que := que }.goto t x).Inv l total := by
  refine ⟨hproducers.trans h.nProducers, hlength, fun u => ?_, ?_, fun u got hu => ?_, ?_⟩
  · rcases eq_or_ne u t with rfl | hne
    · simpa [goto] using hplace
    · simpa [goto, hne] using h.place u
  · have hsum := sum_update (fun _ => Place.closings) e.thread t x
    have hold := h.closings
    show ∑ u, (Function.update e.thread t x u).closings = que.nTerminated
    omega
  · rcases eq_or_ne u t with rfl | hne
    · exact hreceived got (by simpa [goto] using hu)
    · exact hclosed (h.received u got (by simpa [goto, hne] using hu))
  · have hsum := sum_update (fun _ (y : Place) => (y.chunks : Multiset Chunk)) e.thread t x
    have hold := h.chunks
    show ∑ u, ((Function.update e.thread t x u).chunks : Multiset Chunk) + que.buf = total
    refine add_right_cancel (b := ((e.thread t).chunks : Multiset Chunk)) ?_
    rw [add_right_comm, hsum, add_assoc, hchunks, add_comm ((e.thread t).chunks : Multiset Chunk), ← add_assoc, hold]

/-- What is put into the queue is no longer in the buffer. -/
theorem enqueue (h : e.Inv l total) {i : Fin senders} {draining : Bool} {todo send : List Chunk} {que : Queue}
    {y : Place} (hx : e.thread (.inl i) = .enqueue draining todo send)
    (hs : (Place.enqueue draining todo send).step l e.que = some (que, y)) :
    Inv l total ({ e with que := que }.goto (.inl i) y) := by
  have hok := h.place (.inl i)
  rw [hx] at hok
  have hopen := h.isOpen (i := i) (by rw [hx]; rfl)
  obtain ⟨hsend, hlen, hdrain⟩ := hok
  rw [Place.step] at hs
  rcases queueEnqueue_cases l.size l.perInsert e.que send with
    ⟨hq, -⟩ | ⟨hq, hclosed⟩ | ⟨-, hroom, n, hn, hq⟩
  · simp [hq] at hs
  · omega
  · have hpos : 0 < n := by
      have := l.perInsert_pos
      omega
    have hshort : (send.drop n).length < send.length := by
      have := List.length_pos_iff.2 hsend
      rw [List.length_drop]
      omega
    rw [hq] at hs
    simp only [hshort, if_true, Option.some.injEq, Prod.mk.injEq] at hs
    obtain ⟨rfl, rfl⟩ := hs
    refine h.update rfl ?_ ?_ ?_ (fun hclosed => absurd hclosed.2 hopen.ne) (fun got hgot => ?_) ?_
    · simp only [Queue.push, List.length_append, List.length_take]
      omega
    · cases draining
      · exact hshort.trans_le hlen
      · exact hshort.trans_le hlen
    · rw [hx]
      cases draining <;> rfl
    · cases draining <;> cases hgot
    · have htodo : draining = true → todo = [] := hdrain
      rw [hx]
      cases draining with
      | false =>
        simp only [Place.chunks, Queue.push, Bool.false_eq_true, if_false, Multiset.coe_add, Multiset.coe_eq_coe]
        calc (send.drop n ++ todo ++ (e.que.buf ++ send.take n)).Perm
              (send.take n ++ (send.drop n ++ todo ++ e.que.buf)) := by
                rw [← List.append_assoc]
                exact List.perm_append_comm
          _ = send ++ todo ++ e.que.buf := by simp only [← List.append_assoc, List.take_append_drop]
      | true =>
        obtain rfl := htodo rfl
        simp only [Place.chunks, Queue.push, if_true, Multiset.coe_add, Multiset.coe_eq_coe, List.append_nil]
        calc (send.drop n ++ (e.que.buf ++ send.take n)).Perm (send.take n ++ (send.drop n ++ e.que.buf)) := by
                rw [← List.append_assoc]
                exact List.perm_append_comm
          _ = send ++ e.que.buf := by simp only [← List.append_assoc, List.take_append_drop]

/-- What is taken out of the queue is in the buffer. -/
theorem fetch (h : e.Inv l total) {i : Fin receivers} {recv got : List Chunk} {que : Queue} {y : Place}
    (hx : e.thread (.inr i) = .fetch recv got) (hs : (Place.fetch recv got).step l e.que = some (que, y)) :
    Inv l total ({ e with que := que }.goto (.inr i) y) := by
  have hok := h.place (.inr i)
  rw [hx] at hok
  cases recv with
  | nil =>
    rw [Place.step] at hs
    rcases queueDequeue_cases l.perFetch e.que with
      ⟨hq, -⟩ | ⟨hq, hclosed⟩ | ⟨-, hlt⟩ | ⟨hq, hne⟩
    · simp [hq] at hs
    · rw [hq] at hs
      obtain ⟨rfl, rfl⟩ := Prod.mk.inj (Option.some.inj hs)
      refine h.update rfl h.length_le trivial ?_ id (fun _ _ => hclosed) ?_
      · rw [hx]
        rfl
      · simp [hx, Place.chunks]
    · exact absurd h.le (by omega)
    · rw [hq] at hs
      obtain ⟨rfl, rfl⟩ := Prod.mk.inj (Option.some.inj hs)
      refine h.update rfl ?_ ?_ ?_ (fun hclosed => absurd hclosed.1 hne) (by simp) ?_
      · simp only [Queue.pop, List.length_drop]
        exact (Nat.sub_le ..).trans h.length_le
      · simp [Place.Ok]
      · rw [hx]
        rfl
      · simp [hx, Place.chunks, Queue.pop]
  | cons x recv =>
    obtain ⟨rfl, rfl⟩ := Prod.mk.inj (Option.some.inj hs)
    have hle : recv.length + 1 ≤ l.perFetch := hok
    refine h.update rfl h.length_le (show recv.length ≤ l.perFetch by omega) ?_ id (by simp) ?_
    · rw [hx]
      rfl
    · simp [hx, Place.chunks]

/-- A step keeps the invariant. -/
theorem step (h : e.Inv l total) {t : Tid senders receivers} (hs : e.step l t = some e') : e'.Inv l total := by
  rw [Link.step, Option.map_eq_some_iff] at hs
  obtain ⟨⟨que, y⟩, hs, rfl⟩ := hs
  have hok := h.place t
  cases hx : e.thread t with
  | fill todo send =>
    rw [hx] at hok hs
    cases t with
    | inr _ => exact hok.elim
    | inl i =>
      cases todo with
      | nil =>
        obtain ⟨rfl, rfl⟩ := Prod.mk.inj (Option.some.inj hs)
        refine h.update rfl h.length_le hok (by rw [hx]; rfl) id (by simp) ?_
        simp [hx, Place.chunks]
      | cons x todo =>
        have hlt : send.length < l.perInsert := hok
        rw [Place.step, if_pos hlt] at hs
        obtain ⟨rfl, rfl⟩ := Prod.mk.inj (Option.some.inj hs)
        refine h.update rfl h.length_le ?_ ?_ id (fun got hgot => ?_) ?_
        · split_ifs with hfull
          · exact ⟨by simp, by simp [hfull], by simp⟩
          · have : send.length + 1 < l.perInsert := by omega
            simpa [Place.Ok] using this
        · rw [hx]
          split_ifs <;> rfl
        · split_ifs at hgot
        · rw [hx]
          split_ifs <;> simp [Place.chunks]
  | drain send =>
    rw [hx] at hok hs
    cases t with
    | inr _ => exact hok.elim
    | inl i =>
      obtain ⟨rfl, rfl⟩ := Prod.mk.inj (Option.some.inj hs)
      have hlt : send.length < l.perInsert := hok
      refine h.update rfl h.length_le ?_ ?_ id (fun got hgot => ?_) ?_
      · split_ifs with hnil
        · trivial
        · exact ⟨hnil, hlt.le, by simp⟩
      · rw [hx]
        split_ifs <;> rfl
      · split_ifs at hgot
      · rw [hx]
        split_ifs with hnil <;> simp [Place.chunks, hnil]
  | enqueue draining todo send =>
    rw [hx] at hok hs
    cases t with
    | inr _ => exact hok.elim
    | inl i => exact h.enqueue hx hs
  | terminate =>
    rw [hx] at hok hs
    cases t with
    | inr _ => exact hok.elim
    | inl i =>
      have hopen := h.isOpen (i := i) (by rw [hx]; rfl)
      rw [Place.step] at hs
      rcases queueTerminate_cases e.que with ⟨-, hclosed⟩ | ⟨hq, -⟩
      · omega
      · rw [hq] at hs
        obtain ⟨rfl, rfl⟩ := Prod.mk.inj (Option.some.inj hs)
        refine h.update rfl h.length_le trivial ?_ (fun hclosed => absurd hclosed.2 hopen.ne) (by simp) ?_
        · rw [hx]
          simp only [Place.closings, Queue.close]
          omega
        · rw [hx]
          rfl
  | fetch recv got =>
    rw [hx] at hok hs
    cases t with
    | inl _ => exact hok.elim
    | inr i => exact h.fetch hx hs
  | _ => simp [hx, Place.step] at hs

theorem start (todo : Fin senders → List Chunk) :
    (Link.start todo : Link senders receivers).Inv l (∑ i, (todo i : Multiset Chunk)) := by
  refine ⟨rfl, Nat.zero_le _, ?_, ?_, ?_, ?_⟩
  · rintro (i | i)
    · exact l.perInsert_pos
    · exact Nat.zero_le _
  · simp [Link.start, Place.closings, Pipeline.Queue.init]
  · rintro (i | i) got hgot <;> cases hgot
  · simp [Link.start, Place.chunks, Pipeline.Queue.init]

end Link.Inv

end Turkey.QueueLink
