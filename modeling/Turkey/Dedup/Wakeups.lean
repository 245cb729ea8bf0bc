import Turkey.Dedup.Matching

/-! The steps of the threads of `queue.c`, one by one: each is a step of the link or leaves it where it is, and no
    wake-up is lost. -/

namespace Turkey.QueueLink
open Turkey.Conditions Turkey.Run Turkey.Tally
open Turkey.Queues (isEmpty)
open Turkey.Reorder (Chunk)
open Turkey.Pipeline (Queue queueDequeue_cases queueEnqueue_cases queueTerminate_cases)

variable {senders receivers : ℕ} {l : Limits}

/-- The link stays where it is, and the threads can do less than `w`; or it makes a step. Afterwards it is in the
    same state as the threads again. -/
def Follows (l : Limits) (total : Multiset Chunk) (w : ℕ) (s : Threads senders receivers)
    (e : Link senders receivers) : Prop :=
  Simulates l total s e ∧ work s < w ∨
    ∃ t e', e.step l t = some e' ∧ Simulates l total s e' ∧ work s ≤ w + most (senders + receivers)

namespace Simulates
variable {total : Multiset Chunk} {s s' : Threads senders receivers} {e : Link senders receivers}
  {t : Tid senders receivers}

/-- The other threads that run do not have the mutex, and are not about to wait. -/
theorem waits_other (h : Simulates l total s e) (hmode : (s.thread t).mode = .running)
    (hholds : holds (s.thread t).pc = true) {u : Tid senders receivers} (hne : u ≠ t)
    (hu : (s.thread u).mode = .running) (que : Queue) : AtWait l que (s.thread u).pc := by
  refine atWait_of_not_holds (Bool.eq_false_iff.2 fun hup => ?_)
  exact hne (h.sound.exclusive hu hup hmode hholds)

/-- A step that the link does not make. -/
theorem silent (h : Simulates l total s e) {x : Thread Pc Cond} {holder : Option (Tid senders receivers)}
    (hsound : Sound (op l) holds ⟨s.mem, Function.update s.thread t x, holder⟩) (hplace : Matches l x.pc (e.thread t))
    (hwait : x.mode = .running → AtWait l e.que x.pc) (hwakes : Wakes e.que (Function.update s.thread t x)) :
    Simulates l total ⟨s.mem, Function.update s.thread t x, holder⟩ e := by
  refine ⟨hsound, h.buf, h.nProducers, h.nTerminated, fun u => ?_, fun u => ?_, h.inv, hwakes⟩ <;>
    rcases eq_or_ne u t with rfl | hne
  · simpa using hplace
  · simpa [hne] using h.place u
  · simpa using hwait
  · simpa [hne] using h.waits u

/-- A thread goes on, and the link does not; `gain` is what has been added to the work of the others. -/
theorem gotoGain (h : Simulates l total s e) (holder : Option (Tid senders receivers)) {p : Pc} {w gain : ℕ}
    (hsound : Sound (op l) holds (Sys.goto { s with holder := holder } t p)) (hw : work s ≤ w + gain)
    (hweight : p.weight (senders + receivers) + gain < weight (senders + receivers) (s.thread t))
    (hplace : Matches l p (e.thread t)) (hwait : AtWait l e.que p)
    (hwakes : Wakes e.que (Function.update s.thread t ⟨p, .running⟩)) :
    Follows l total w (Sys.goto { s with holder := holder } t p) e := by
  refine .inl ⟨h.silent hsound hplace (fun _ => hwait) hwakes, ?_⟩
  have hsum := sum_update (fun _ => weight (senders + receivers)) s.thread t ⟨p, .running⟩
  have hp : weight (senders + receivers) ⟨p, .running⟩ = p.weight (senders + receivers) := rfl
  show ∑ u, weight (senders + receivers) (Function.update s.thread t ⟨p, .running⟩ u) < w
  rw [work] at hw
  omega

theorem goto (h : Simulates l total s e) (holder : Option (Tid senders receivers)) {p : Pc}
    (hsound : Sound (op l) holds (Sys.goto { s with holder := holder } t p))
    (hweight : p.weight (senders + receivers) < weight (senders + receivers) (s.thread t))
    (hplace : Matches l p (e.thread t)) (hwait : AtWait l e.que p)
    (hwakes : Wakes e.que (Function.update s.thread t ⟨p, .running⟩)) :
    Follows l total (work s) (Sys.goto { s with holder := holder } t p) e :=
  h.gotoGain holder hsound (Nat.le_add_right _ 0) hweight hplace hwait hwakes

/-- A step that the link makes as well. -/
theorem commit (h : Simulates l total s e) {p : Pc} {mem : SyncQueue} {que : Queue} {y : Place}
    (hsound : Sound (op l) holds (Sys.goto { s with mem := mem } t p)) (hs : (e.thread t).step l e.que = some (que, y))
    (hbuf : Contains l.size mem.buf que.buf) (hproducers : mem.nProducers = que.nProducers)
    (hterminated : mem.nTerminated = que.nTerminated) (hplace : Matches l p y)
    (hothers : ∀ u ≠ t, (s.thread u).mode = .running → AtWait l que (s.thread u).pc) (hwait : AtWait l que p)
    (hwakes : Wakes que (Function.update s.thread t ⟨p, .running⟩)) :
    Follows l total (work s) (Sys.goto { s with mem := mem } t p) e := by
  have hstep : e.step l t = some ({ e with que := que }.goto t y) := by rw [Link.step, hs, Option.map_some]
  refine .inr ⟨t, _, hstep, ⟨hsound, hbuf, hproducers, hterminated, fun u => ?_, fun u => ?_, h.inv.step hstep,
    hwakes⟩, ?_⟩
  · rcases eq_or_ne u t with rfl | hne
    · simpa [Sys.goto, Link.goto] using hplace
    · simpa [Sys.goto, Link.goto, hne] using h.place u
  · rcases eq_or_ne u t with rfl | hne
    · simpa [Sys.goto, Link.goto] using hwait
    · simpa [Sys.goto, Link.goto, hne] using hothers u hne
  · have hsum := sum_update (fun _ => weight (senders + receivers)) s.thread t ⟨p, .running⟩
    have hle : weight (senders + receivers) ⟨p, .running⟩ ≤ most (senders + receivers) := p.weight_le _
    show ∑ u, weight (senders + receivers) (Function.update s.thread t ⟨p, .running⟩ u) ≤
      ∑ u, weight (senders + receivers) (s.thread u) + most (senders + receivers)
    omega

/-! Steps that use the variables of the thread only. -/

theorem fill {d : Sender} (h : Simulates l total s e) (hp : s.thread t = ⟨.fill d, .running⟩)
    (hsound : Sound (op l) holds (s.goto t (QueueLink.fill d))) :
    Follows l total (work s) (s.goto t (QueueLink.fill d)) e := by
  have hplace := h.place t
  have hok := h.inv.place t
  rw [hp] at hplace
  generalize hx : e.thread t = x at hplace hok
  cases hplace with
  | fill hsend =>
    rename_i send
    have hroom : send.length < l.perInsert := by
      cases t with
      | inl _ => exact hok
      | inr _ => exact hok.elim
    cases htodo : d.todo with
    | nil =>
      have hfill : QueueLink.fill d = .drain d := by rw [QueueLink.fill, htodo]
      rw [hfill] at hsound ⊢
      have hstep : (e.thread t).step l e.que = some (e.que, .drain send) := by
        rw [hx, htodo]
        rfl
      refine h.commit hsound hstep h.buf h.nProducers h.nTerminated
        (.drain htodo hsend) (fun u _ => h.waits u) trivial (h.wakes.goto ?_ ?_ ?_) <;> simp [hp, Pc.looks, Pc.fills]
    | cons x todo =>
      obtain ⟨buf, hinsert, hsend'⟩ := hsend.insert l.perInsert_small hroom x
      have hfull := hsend'.isFull_eq l.perInsert_small
      rw [List.length_append, List.length_singleton] at hfull
      have hfill : QueueLink.fill d =
          if send.length + 1 = l.perInsert then .enqueue false .lock ⟨todo, buf⟩ else .fill ⟨todo, buf⟩ := by
        simp only [QueueLink.fill, htodo, hinsert, hfull, decide_eq_true_eq]
      have hs : (e.thread t).step l e.que = some (e.que, if send.length + 1 = l.perInsert then
          .enqueue false todo (send ++ [x]) else .fill todo (send ++ [x])) := by
        rw [hx, htodo, Place.step, if_pos hroom]
      rw [hfill] at hsound ⊢
      split_ifs at hsound hs ⊢
      · refine h.commit hsound hs h.buf h.nProducers h.nTerminated (.calling rfl hsend') (fun u _ => h.waits u) trivial
          (h.wakes.goto ?_ ?_ ?_) <;> simp [hp, Pc.looks, Pc.fills]
      · refine h.commit hsound hs h.buf h.nProducers h.nTerminated (.fill hsend') (fun u _ => h.waits u) trivial
          (h.wakes.goto ?_ ?_ ?_) <;> simp [hp, Pc.looks, Pc.fills]

theorem drain {d : Sender} (h : Simulates l total s e) (hp : s.thread t = ⟨.drain d, .running⟩)
    (hsound : Sound (op l) holds (s.goto t (if isEmpty d.buf then .terminate .lock else .enqueue true .lock d))) :
    Follows l total (work s) (s.goto t (if isEmpty d.buf then .terminate .lock else .enqueue true .lock d)) e := by
  have hplace := h.place t
  rw [hp] at hplace
  generalize hx : e.thread t = x at hplace
  cases hplace with
  | drain htodo hsend =>
    rename_i send
    have hs : (e.thread t).step l e.que = some (e.que, if send = [] then .terminate else .enqueue true [] send) := by
      rw [hx, Place.step]
    rw [hsend.isEmpty_eq] at hsound ⊢
    simp only [List.isEmpty_iff] at hsound ⊢
    split_ifs at hsound hs ⊢ with hnil
    · refine h.commit hsound hs h.buf h.nProducers h.nTerminated (.closing rfl) (fun u _ => h.waits u) trivial
        (h.wakes.goto ?_ ?_ ?_) <;> simp [hp, Pc.looks, Pc.fills]
    · have hmatch : Matches l (.enqueue true .lock d) (.enqueue true d.todo send) := .calling rfl hsend
      rw [htodo] at hmatch
      refine h.commit hsound hs h.buf h.nProducers h.nTerminated hmatch (fun u _ => h.waits u) trivial
        (h.wakes.goto ?_ ?_ ?_) <;> simp [hp, Pc.looks, Pc.fills]

theorem back {draining : Bool} {i : ℕ} {d : Sender} (h : Simulates l total s e)
    (hp : s.thread t = ⟨.enqueue draining (.back i) d, .running⟩)
    (hsound : Sound (op l) holds (s.goto t (enqueueBack draining i d))) :
    Follows l total (work s) (s.goto t (enqueueBack draining i d)) e := by
  have hplace := h.place t
  rw [hp] at hplace
  generalize hx : e.thread t = x at hplace
  cases hplace with
  | calling hbefore => cases hbefore
  | called hbefore hi htodo hsend =>
    have hpos : 1 ≤ i := hi
    rw [enqueueBack, if_pos hpos] at hsound ⊢
    cases draining with
    | false =>
      refine h.goto s.holder hsound (by simp [hp, weight, Pc.weight, Stage.weight]) (hx ▸ .fill hsend) trivial
        (h.wakes.goto ?_ ?_ ?_) <;> simp [hp, Pc.looks, Pc.fills]
    | true =>
      refine h.goto s.holder hsound (by simp [hp, weight, Pc.weight, Stage.weight])
        (hx ▸ .drain (htodo rfl) hsend) trivial (h.wakes.goto ?_ ?_ ?_) <;> simp [hp, Pc.looks, Pc.fills]

theorem fetch {r : Receiver} (h : Simulates l total s e) (hp : s.thread t = ⟨.fetch r, .running⟩)
    (hsound : Sound (op l) holds (s.goto t (if isEmpty r.buf then .dequeue .lock r else .take r))) :
    Follows l total (work s) (s.goto t (if isEmpty r.buf then .dequeue .lock r else .take r)) e := by
  have hplace := h.place t
  rw [hp] at hplace
  generalize hx : e.thread t = x at hplace
  cases hplace with
  | fetch hrecv =>
    rename_i recv
    rw [hrecv.isEmpty_eq] at hsound ⊢
    cases recv with
    | nil =>
      refine h.goto s.holder hsound (by simp [hp, weight, Pc.weight, Stage.weight]) (hx ▸ .asking rfl hrecv) trivial
        (h.wakes.goto ?_ ?_ ?_) <;> simp [hp, Pc.looks, Pc.fills]
    | cons x recv =>
      refine h.goto s.holder hsound (by simp [hp, weight, Pc.weight])
        (hx ▸ .take (List.cons_ne_nil x recv) hrecv) trivial (h.wakes.goto ?_ ?_ ?_) <;> simp [hp, Pc.looks, Pc.fills]

theorem dequeueBack {i : ℕ} {r : Receiver} (h : Simulates l total s e)
    (hp : s.thread t = ⟨.dequeue (.back i) r, .running⟩)
    (hsound : Sound (op l) holds (s.goto t (.take r))) : Follows l total (work s) (s.goto t (.take r)) e := by
  have hplace := h.place t
  rw [hp] at hplace
  generalize hx : e.thread t = x at hplace
  cases hplace with
  | asking hbefore => cases hbefore
  | answered hbefore hne hrecv =>
    refine h.goto s.holder hsound (by simp [hp, weight, Pc.weight, Stage.weight]) (hx ▸ .take hne hrecv) trivial
      (h.wakes.goto ?_ ?_ ?_) <;> simp [hp, Pc.looks, Pc.fills]

theorem take {r : Receiver} (h : Simulates l total s e) (hp : s.thread t = ⟨.take r, .running⟩)
    (hsound : Sound (op l) holds (s.goto t (QueueLink.take r))) :
    Follows l total (work s) (s.goto t (QueueLink.take r)) e := by
  have hplace := h.place t
  rw [hp] at hplace
  generalize hx : e.thread t = x at hplace
  cases hplace with
  | take hne hrecv =>
    rename_i recv
    cases recv with
    | nil => exact absurd rfl hne
    | cons x recv =>
      obtain ⟨buf, hremove, hrecv'⟩ := hrecv.remove l.perFetch_small
      have htake : QueueLink.take r = .fetch ⟨buf, r.got ++ [x]⟩ := by simp only [QueueLink.take, hremove]
      have hs : (e.thread t).step l e.que = some (e.que, .fetch recv (r.got ++ [x])) := by rw [hx, Place.step]
      rw [htake] at hsound ⊢
      refine h.commit hsound hs h.buf h.nProducers h.nTerminated (.fetch hrecv') (fun u _ => h.waits u) trivial
        (h.wakes.goto ?_ ?_ ?_) <;> simp [hp, Pc.looks, Pc.fills]

/-! Steps that look at the queue. -/

theorem queueIsTerminated_eq (h : Simulates l total s e) :
    queueIsTerminated s.mem = some (decide (e.que.nTerminated = e.que.nProducers)) := by
  rw [queueIsTerminated, h.nProducers, h.nTerminated, if_pos h.inv.le]

/-- As long as a sender has not terminated the queue, the queue is open. -/
theorem isOpen (h : Simulates l total s e) {draining : Bool} {todo send : List Chunk}
    (hx : e.thread t = .enqueue draining todo send) : e.que.nTerminated < e.que.nProducers := by
  have hok := h.inv.place t
  rw [hx] at hok
  cases t with
  | inl i => exact h.inv.isOpen (i := i) (by rw [hx]; rfl)
  | inr _ => exact hok.elim

theorem check {draining : Bool} {d : Sender} (h : Simulates l total s e)
    (hp : s.thread t = ⟨.check draining d, .running⟩)
    (hsound : Sound (op l) holds (s.goto t (enqueueCheck draining d s.mem))) :
    Follows l total (work s) (s.goto t (enqueueCheck draining d s.mem)) e := by
  have hplace := h.place t
  rw [hp] at hplace
  generalize hx : e.thread t = x at hplace
  cases hplace with
  | check hsend =>
    have hopen := h.isOpen hx
    rw [enqueueCheck, h.queueIsTerminated_eq, decide_eq_false hopen.ne, if_pos rfl] at hsound ⊢
    refine h.goto s.holder hsound (by simp [hp, weight, Pc.weight, Stage.weight]) (hx ▸ .calling rfl hsend) trivial
      (h.wakes.goto ?_ ?_ ?_) <;> simp [hp, Pc.looks, Pc.fills]

theorem enqueueTest {draining : Bool} {d : Sender} (h : Simulates l total s e)
    (hp : s.thread t = ⟨.enqueue draining .test d, .running⟩)
    (hsound : Sound (op l) holds (Sys.goto { s with mem := (enqueueTest l draining d s.mem).1 } t
      (enqueueTest l draining d s.mem).2)) :
    Follows l total (work s) (Sys.goto { s with mem := (enqueueTest l draining d s.mem).1 } t
      (enqueueTest l draining d s.mem).2) e := by
  have hplace := h.place t
  have hok := h.inv.place t
  rw [hp] at hplace
  generalize hx : e.thread t = x at hplace hok
  cases hplace with
  | called hbefore => cases hbefore
  | calling hbefore hsend =>
    rename_i send
    have hopen := h.isOpen hx
    have hfull := h.buf.isFull_eq l.size_small
    by_cases hlen : e.que.buf.length = l.size
    · have htest : QueueLink.enqueueTest l draining d s.mem = (s.mem, .enqueue draining .wait d) := by
        simp only [QueueLink.enqueueTest, hfull, hlen, decide_true]
      have hne : e.que.buf ≠ [] := by
        intro hnil
        have := l.size_pos
        simp [hnil] at hlen
        omega
      rw [htest] at hsound ⊢
      refine h.goto s.holder hsound (by simp [hp, weight, Pc.weight, Stage.weight]) (hx ▸ .calling rfl hsend) hlen
        (h.wakes.goto ?_ ?_ ?_) <;> simp [hp, Pc.looks, hne]
    · obtain ⟨k, buf, queBuf, hmove, hk, hsend', hbuf'⟩ :=
        moveItems_eq l.perInsert_small l.size_small (moreToEnqueue_eq l.size_small) l.perInsert 0 hsend h.buf
      obtain ⟨hsendne, hsendlen, htodo⟩ : send ≠ [] ∧ send.length ≤ l.perInsert ∧ (draining = true → d.todo = []) := by
        cases t with
        | inl _ => exact hok
        | inr _ => exact hok.elim
      have hroom : e.que.buf.length < l.size := Nat.lt_of_le_of_ne h.inv.length_le hlen
      have hsendpos := List.length_pos_iff.2 hsendne
      have hpos : 0 < k := by
        have := l.perInsert_pos
        omega
      have htest : QueueLink.enqueueTest l draining d s.mem =
          ({ s.mem with buf := queBuf }, .enqueue draining (.signal k) ⟨d.todo, buf⟩) := by
        simp only [QueueLink.enqueueTest, hfull, hlen, decide_false, hmove, Nat.zero_add, hpos, if_true]
      rw [htest] at hsound ⊢
      rcases queueEnqueue_cases l.size l.perInsert e.que send with
        ⟨-, hfull⟩ | ⟨-, hclosed⟩ | ⟨-, -, n, hn, hq⟩
      · exact absurd hfull.1 (by omega)
      · omega
      · have hkn : k = min n send.length := by omega
        have hdrop : send.drop n = send.drop k := by rw [hkn, ← List.drop_eq_drop_min]
        have htake : send.take n = send.take k := by rw [hkn, ← List.take_eq_take_min]
        have hshort : (send.drop n).length < send.length := by
          rw [List.length_drop]
          omega
        have hs : (e.thread t).step l e.que =
            some (e.que.push send n, if draining then .drain (send.drop n) else .fill d.todo (send.drop n)) := by
          rw [hx, Place.step, hq]
          simp only [hshort, if_true]
        have hne : (e.que.push send n).buf ≠ [] := by
          simp only [Queue.push, ne_eq, List.append_eq_nil_iff, List.take_eq_nil_iff, not_and, not_or]
          exact fun _ => ⟨by omega, hsendne⟩
        refine h.commit hsound hs ?_ h.nProducers h.nTerminated ?_ ?_ trivial ⟨fun _ => ⟨t, ?_⟩, fun _ => .inl hne, ?_⟩
        · show Contains l.size queBuf (e.que.buf ++ send.take n)
          rwa [htake]
        · rw [hdrop]
          exact .called rfl hpos htodo hsend'
        · exact fun u hne hu => h.waits_other (by rw [hp]) (by rw [hp]; rfl) hne hu _
        · simp [Awake, Pc.looks]
        · exact fun hterm => absurd hterm hopen.ne

theorem dequeueTest {r : Receiver} (h : Simulates l total s e)
    (hp : s.thread t = ⟨.dequeue .test r, .running⟩)
    (hsound : Sound (op l) holds (Sys.goto { s with mem := (dequeueTest l r s.mem).1 } t (dequeueTest l r s.mem).2)) :
    Follows l total (work s) (Sys.goto { s with mem := (dequeueTest l r s.mem).1 } t (dequeueTest l r s.mem).2) e := by
  have hplace := h.place t
  rw [hp] at hplace
  generalize hx : e.thread t = x at hplace
  cases hplace with
  | answered hbefore => cases hbefore
  | asking hbefore hrecv =>
    have hempty := h.buf.isEmpty_eq
    rcases queueDequeue_cases l.perFetch e.que with ⟨-, hstarved⟩ | ⟨hq, hclosed⟩ | ⟨-, hlt⟩ | ⟨hq, hne⟩
    · have htest : QueueLink.dequeueTest l r s.mem = (s.mem, .dequeue .wait r) := by
        simp [QueueLink.dequeueTest, hempty, hstarved.1, h.queueIsTerminated_eq, hstarved.2.ne]
      rw [htest] at hsound ⊢
      refine h.goto s.holder hsound (by simp [hp, weight, Pc.weight, Stage.weight])
        (hx ▸ .asking rfl hrecv) hstarved (h.wakes.goto ?_ ?_ ?_) <;> simp [hp, Pc.looks, Pc.fills]
    · have htest : QueueLink.dequeueTest l r s.mem = (s.mem, .closed r) := by
        simp [QueueLink.dequeueTest, hempty, hclosed.1, h.queueIsTerminated_eq, hclosed.2]
      have hs : (e.thread t).step l e.que = some (e.que, .received r.got) := by rw [hx, Place.step, hq]
      rw [htest] at hsound ⊢
      refine h.commit hsound hs h.buf h.nProducers h.nTerminated .leaving (fun u _ => h.waits u) trivial
        (h.wakes.goto ?_ ?_ ?_) <;> simp [hp, Pc.fills, hclosed.1]
    · exact absurd h.inv.le (by omega)
    · obtain ⟨k, queBuf, buf, hmove, hk, hbuf', hrecv'⟩ :=
        moveItems_eq l.size_small l.perFetch_small (moreToDequeue_eq l.perFetch_small) l.perFetch 0 h.buf hrecv
      have hlen := List.length_pos_iff.2 hne
      have hpos : 0 < k := by
        have := l.perFetch_pos
        simp only [List.length_nil] at hk
        omega
      have hkn : k = min l.perFetch e.que.buf.length := by
        simp only [List.length_nil] at hk
        omega
      have hdrop : e.que.buf.drop l.perFetch = e.que.buf.drop k := by rw [hkn, ← List.drop_eq_drop_min]
      have htake : e.que.buf.take l.perFetch = e.que.buf.take k := by rw [hkn, ← List.take_eq_take_min]
      have htest : QueueLink.dequeueTest l r s.mem =
          ({ s.mem with buf := queBuf }, .dequeue (.signal k) ⟨buf, r.got⟩) := by
        simp [QueueLink.dequeueTest, hempty, hne, hmove, hpos]
      have hs : (e.thread t).step l e.que =
          some (e.que.pop l.perFetch, .fetch (e.que.buf.take l.perFetch) r.got) := by rw [hx, Place.step, hq]
      rw [htest] at hsound ⊢
      refine h.commit hsound hs ?_ h.nProducers h.nTerminated ?_ ?_ trivial ⟨fun _ => ⟨t, ?_⟩,
        fun _ => .inr ⟨t, ?_⟩, fun hterm hasleep => ?_⟩
      · show Contains l.size queBuf (e.que.buf.drop l.perFetch)
        rwa [hdrop]
      · rw [htake]
        refine .answered rfl ?_ hrecv'
        rw [ne_eq, List.take_eq_nil_iff, not_or]
        exact ⟨by omega, hne⟩
      · exact fun u hne hu => h.waits_other (by rw [hp]) (by rw [hp]; rfl) hne hu _
      · simp [Awake, Pc.looks]
      · simp [Awake, Pc.fills]
      · exact h.wakes.closing_update (by simp) (by simp [hp]) hterm hasleep

theorem count (h : Simulates l total s e)
    (hp : s.thread t = ⟨.terminate .count, .running⟩)
    (hsound : Sound (op l) holds (Sys.goto { s with mem := (terminateCount s.mem).1 } t (terminateCount s.mem).2)) :
    Follows l total (work s) (Sys.goto { s with mem := (terminateCount s.mem).1 } t (terminateCount s.mem).2) e := by
  have hplace := h.place t
  have hok := h.inv.place t
  rw [hp] at hplace
  generalize hx : e.thread t = x at hplace hok
  cases hplace with
  | closed hbefore => cases hbefore
  | closing hbefore =>
    have hopen : e.que.nTerminated < e.que.nProducers := by
      cases t with
      | inl i => exact h.inv.isOpen (i := i) (by rw [hx]; rfl)
      | inr _ => exact hok.elim
    have hcount : terminateCount s.mem = ({ s.mem with nTerminated := s.mem.nTerminated + 1 },
        .terminate (if e.que.nTerminated + 1 = e.que.nProducers then .broadcast else .unlock)) := by
      have hle : e.que.nTerminated + 1 ≤ e.que.nProducers := hopen
      simp only [terminateCount, queueIsTerminated, h.nTerminated, h.nProducers, hle, if_true, decide_eq_true_eq]
    rcases queueTerminate_cases e.que with ⟨-, hclosed⟩ | ⟨hq, -⟩
    · omega
    · have hs : (e.thread t).step l e.que = some (e.que.close, .sent) := by rw [hx, Place.step, hq]
      have hterminated : s.mem.nTerminated + 1 = e.que.nTerminated + 1 := congrArg (· + 1) h.nTerminated
      rw [hcount] at hsound ⊢
      refine h.commit hsound hs h.buf h.nProducers hterminated (.closed ?_) ?_ trivial ⟨?_, ?_, fun hterm _ => ⟨t, ?_⟩⟩
      · split_ifs <;> rfl
      · exact fun u hne hu => h.waits_other (by rw [hp]) (by rw [hp]; rfl) hne hu _
      · exact (h.wakes.goto (by simp [hp, Pc.looks]) (by simp [hp, Pc.fills]) (by simp [hp])).notEmpty
      · exact (h.wakes.goto (by simp [hp, Pc.looks]) (by simp [hp, Pc.fills]) (by simp [hp])).notFull
      · have hall : e.que.nTerminated + 1 = e.que.nProducers := hterm
        simp [hall]

/-! Steps that are calls of the pthread library. -/

/-- Where a thread sleeps. -/
theorem asleep_cases (h : Simulates l total s e) {c : Cond} (ht : (s.thread t).mode = .asleep c) :
    (c = .notFull ∧ ∃ draining d, (s.thread t).pc = .enqueue draining .test d) ∨
      c = .notEmpty ∧ ∃ r, (s.thread t).pc = .dequeue .test r := by
  obtain ⟨p, hp⟩ := h.sound.asleep t c ht
  generalize (s.thread t).pc = q at hp
  cases p with
  | enqueue draining k d =>
    cases k <;> cases hp
    exact .inl ⟨rfl, draining, d, rfl⟩
  | dequeue k r =>
    cases k <;> cases hp
    exact .inr ⟨rfl, r, rfl⟩
  | terminate k => cases k <;> cases hp
  | _ => cases hp

/-- A thread wakes up. -/
theorem rouse (h : Simulates l total s e) {c : Cond} (ht : (s.thread t).mode = .asleep c) :
    Simulates l total (s.rouse t) e := by
  refine h.silent (h.sound.rouse ht) (h.place t) (by simp) (h.wakes.mono (fun u d => ?_) (fun _ u => ?_)
    (fun _ u => ?_) (fun u => ?_)) <;> rcases eq_or_ne u t with rfl | hne
  · simp
  · simp [hne]
  · simp
  · simp [hne]
  · simp
  · simp [hne]
  · simp
  · simp [hne]

/-- As long as there are elements, no receiver has left. -/
theorem exists_receiver (h : Simulates l total s e) (hreceivers : 0 < receivers) (hne : e.que.buf ≠ []) :
    ∃ u : Tid senders receivers, (s.thread u).pc.looks = true ∧
      ∀ draining k d, (s.thread u).pc ≠ .enqueue draining k d := by
  have hplace := h.place (.inr ⟨0, hreceivers⟩)
  have hok := h.inv.place (.inr ⟨0, hreceivers⟩)
  cases hx : e.thread (.inr ⟨0, hreceivers⟩) with
  | fetch recv got => exact ⟨_, hplace.fetching hx⟩
  | received got => exact absurd (h.inv.received _ got hx).1 hne
  | _ =>
    rw [hx] at hok
    exact hok.elim

/-- A sender has put elements into the queue, and no receiver sleeps, or one has been woken. -/
theorem signalNotEmpty {draining : Bool} {i : ℕ} {d : Sender} {w gain : ℕ} (h : Simulates l total s e)
    (hw : work s ≤ w + gain) (hgain : gain ≤ 3)
    (hp : s.thread t = ⟨.enqueue draining (.signal i) d, .running⟩)
    (hsound : Sound (op l) holds (s.goto t (.enqueue draining (.unlock i) d)))
    (hlook : e.que.buf ≠ [] → ∃ u ≠ t, Awake (s.thread u) ∧ (s.thread u).pc.looks = true) :
    Follows l total w (s.goto t (.enqueue draining (.unlock i) d)) e := by
  have hplace := h.place t
  rw [hp] at hplace
  generalize hx : e.thread t = x at hplace
  cases hplace with
  | calling hbefore => cases hbefore
  | called hbefore hi htodo hsend =>
    refine h.gotoGain s.holder hsound hw (by simp [hp, weight, Pc.weight, Stage.weight]; omega)
      (hx ▸ .called rfl hi htodo hsend) trivial ?_
    by_cases hnil : e.que.buf = []
    · refine h.wakes.goto (fun hne => absurd hnil hne) ?_ ?_ <;> simp [hp, Pc.fills]
    · obtain ⟨u, hut, hu, hlooks⟩ := hlook hnil
      refine ⟨fun _ => ⟨u, by simpa [hut] using hu, by simpa [hut] using hlooks⟩, fun _ => .inl hnil, fun hterm => ?_⟩
      exact h.wakes.closing_update (by simp) (by simp [hp]) hterm

/-- A receiver has taken elements out of the queue, and no sender sleeps, or one has been woken. -/
theorem signalNotFull {i : ℕ} {r : Receiver} {w gain : ℕ} (h : Simulates l total s e) (hw : work s ≤ w + gain)
    (hgain : gain ≤ 3)
    (hp : s.thread t = ⟨.dequeue (.signal i) r, .running⟩)
    (hsound : Sound (op l) holds (s.goto t (.dequeue (.unlock i) r)))
    (hfill : (∃ v, (s.thread v).mode = .asleep .notFull) →
      ∃ u ≠ t, Awake (s.thread u) ∧ (s.thread u).pc.fills = true) :
    Follows l total w (s.goto t (.dequeue (.unlock i) r)) e := by
  have hplace := h.place t
  rw [hp] at hplace
  generalize hx : e.thread t = x at hplace
  cases hplace with
  | asking hbefore => cases hbefore
  | answered hbefore hne hrecv =>
    refine h.gotoGain s.holder hsound hw (by simp [hp, weight, Pc.weight, Stage.weight]; omega)
      (hx ▸ .answered rfl hne hrecv) trivial ⟨fun hne => ?_, ?_, fun hterm => ?_⟩
    · exact ⟨t, by simp [Awake], by simp [Pc.looks]⟩
    · rintro ⟨v, hv⟩
      have hvt : v ≠ t := by
        rintro rfl
        simp at hv
      obtain ⟨u, hut, hu, hfills⟩ := hfill ⟨v, by simpa [hvt] using hv⟩
      exact .inr ⟨u, by simpa [hut] using hu, by simpa [hut] using hfills⟩
    · exact h.wakes.closing_update (by simp) (by simp [hp]) hterm

/-- The last sender has terminated the queue, and wakes all receivers. -/
theorem broadcast (h : Simulates l total s e) (hp : s.thread t = ⟨.terminate .broadcast, .running⟩)
    (hsound : Sound (op l) holds (Sys.goto { s with thread := fun u => (s.thread u).wake .notEmpty } t
      (.terminate .unlock))) :
    Follows l total (work s)
      (Sys.goto { s with thread := fun u => (s.thread u).wake .notEmpty } t (.terminate .unlock)) e := by
  have hpc : ∀ u, ((s.thread u).wake .notEmpty).pc = (s.thread u).pc := by
    intro u
    unfold Thread.wake
    split_ifs <;> rfl
  have hmode : ∀ u, ((s.thread u).wake .notEmpty).mode = .running → (s.thread u).mode = .running := by
    intro u hu
    unfold Thread.wake at hu
    split_ifs at hu
    exact hu
  have hasleep : ∀ u c, ((s.thread u).wake .notEmpty).mode = .asleep c →
      (s.thread u).mode = .asleep c ∧ c = .notFull := by
    intro u c hu
    unfold Thread.wake at hu
    split_ifs at hu with hempty
    refine ⟨hu, ?_⟩
    cases c with
    | notEmpty => exact absurd hu hempty
    | notFull => rfl
  have hplace := h.place t
  rw [hp] at hplace
  generalize hx : e.thread t = x at hplace
  have hawake : ∀ u, Awake (s.thread u) → Awake ((s.thread u).wake .notEmpty) :=
    fun u hu c hc => hu c (hasleep u c hc).1
  refine .inl ⟨⟨hsound, h.buf, h.nProducers, h.nTerminated, fun u => ?_, fun u hu => ?_, h.inv, fun hne => ?_, ?_,
    fun _ => ?_⟩, ?_⟩
  · rcases eq_or_ne u t with rfl | hne
    · cases hplace with
      | closing hbefore => cases hbefore
      | closed hbefore => simpa [Sys.goto, hx] using Matches.closed rfl
    · simpa [Sys.goto, hne, hpc] using h.place u
  · rcases eq_or_ne u t with rfl | hne
    · simp [Sys.goto, AtWait]
    · simp only [Sys.goto, Function.update_of_ne hne, hpc] at hu ⊢
      exact h.waits u (hmode u hu)
  · obtain ⟨u, hu, hlook⟩ := h.wakes.notEmpty hne
    have hut : u ≠ t := by
      rintro rfl
      simp [hp, Pc.looks] at hlook
    exact ⟨u, by simpa [Sys.goto, hut] using hawake u hu, by simpa [Sys.goto, hut, hpc] using hlook⟩
  · rintro ⟨v, hv⟩
    have hvt : v ≠ t := by
      rintro rfl
      simp [Sys.goto] at hv
    have hv' := (hasleep v _ (by simpa [Sys.goto, hvt] using hv)).1
    rcases h.wakes.notFull ⟨v, hv'⟩ with hne | ⟨u, hu, hfill⟩
    · exact .inl hne
    · have hut : u ≠ t := by
        rintro rfl
        simp [hp, Pc.fills] at hfill
      exact .inr ⟨u, by simpa [Sys.goto, hut] using hawake u hu, by simpa [Sys.goto, hut, hpc] using hfill⟩
  · rintro ⟨v, hv⟩
    have hvt : v ≠ t := by
      rintro rfl
      simp [Sys.goto] at hv
    cases (hasleep v _ (by simpa [Sys.goto, hvt] using hv)).2
  · have hsum := sum_update (fun _ => weight (senders + receivers)) (fun u => (s.thread u).wake .notEmpty) t
      ⟨.terminate .unlock, .running⟩
    have hself : weight (senders + receivers) ((s.thread t).wake .notEmpty) = 3 * (senders + receivers) + 2 := by
      simp [hp, Thread.wake, weight, Pc.weight]
    have hnew : weight (senders + receivers) ⟨.terminate .unlock, .running⟩ = 1 := rfl
    have hothers : ∑ u, weight (senders + receivers) ((s.thread u).wake .notEmpty) ≤
        work s + 3 * (senders + receivers) := by
      have hle : ∀ u, weight (senders + receivers) ((s.thread u).wake .notEmpty) ≤
          weight (senders + receivers) (s.thread u) + 3 := by
        intro u
        unfold Thread.wake
        split_ifs with hasleep
        · simp [weight, hasleep]
        · omega
      refine (Finset.sum_le_sum fun u _ => hle u).trans ?_
      simp only [Finset.sum_add_distrib, work, Finset.sum_const, Finset.card_univ, Fintype.card_sum, Fintype.card_fin,
        smul_eq_mul]
      omega
    show ∑ u, weight (senders + receivers) (Function.update (fun u => (s.thread u).wake .notEmpty) t
      ⟨.terminate .unlock, .running⟩ u) < work s
    omega

theorem work_rouse {s : Threads senders receivers} {t : Tid senders receivers} {c : Cond}
    (ht : (s.thread t).mode = .asleep c) :
    work (s.rouse t) ≤ work s + 3 := by
  have hsum := sum_update (fun _ => weight (senders + receivers)) s.thread t ⟨(s.thread t).pc, .woken⟩
  have hold : weight (senders + receivers) (s.thread t) = 1 := by simp [weight, ht]
  have hnew : weight (senders + receivers) ⟨(s.thread t).pc, .woken⟩ = 4 := rfl
  show ∑ u, weight (senders + receivers) (Function.update s.thread t ⟨(s.thread t).pc, .woken⟩ u) ≤
    ∑ u, weight (senders + receivers) (s.thread u) + 3
  omega

theorem work_sleep {p : Pc} {c : Cond} {holder : Option (Tid senders receivers)} {mem : SyncQueue}
    (ht : 1 < weight (senders + receivers) (s.thread t)) :
    work ⟨mem, Function.update s.thread t ⟨p, .asleep c⟩, holder⟩ < work s := by
  have hsum := sum_update (fun _ => weight (senders + receivers)) s.thread t ⟨p, .asleep c⟩
  have hnew : weight (senders + receivers) ⟨p, .asleep c⟩ = 1 := rfl
  show ∑ u, weight (senders + receivers) (Function.update s.thread t ⟨p, .asleep c⟩ u) <
    ∑ u, weight (senders + receivers) (s.thread u)
  omega

/-! The steps, by what a thread does. -/

theorem access {f : SyncQueue → SyncQueue × Pc} (h : Simulates l total s e) (hmode : (s.thread t).mode = .running)
    (hop : op l (s.thread t).pc = .access f)
    (hsound : Sound (op l) holds (Sys.goto { s with mem := (f s.mem).1 } t (f s.mem).2)) :
    Follows l total (work s) (Sys.goto { s with mem := (f s.mem).1 } t (f s.mem).2) e := by
  cases hp : (s.thread t).pc with
  | fill d =>
    rw [hp] at hop
    cases hop
    exact h.fill (Thread.ext hp hmode) hsound
  | drain d =>
    rw [hp] at hop
    cases hop
    exact h.drain (Thread.ext hp hmode) hsound
  | enqueue draining k d =>
    rw [hp] at hop
    cases k with
    | test =>
      cases hop
      exact h.enqueueTest (Thread.ext hp hmode) hsound
    | back i =>
      cases hop
      exact h.back (Thread.ext hp hmode) hsound
    | _ => cases hop
  | check draining d =>
    rw [hp] at hop
    cases hop
    exact h.check (Thread.ext hp hmode) hsound
  | terminate k =>
    rw [hp] at hop
    cases k with
    | count =>
      cases hop
      exact h.count (Thread.ext hp hmode) hsound
    | _ => cases hop
  | fetch r =>
    rw [hp] at hop
    cases hop
    exact h.fetch (Thread.ext hp hmode) hsound
  | dequeue k r =>
    rw [hp] at hop
    cases k with
    | test =>
      cases hop
      exact h.dequeueTest (Thread.ext hp hmode) hsound
    | back i =>
      cases hop
      exact h.dequeueBack (Thread.ext hp hmode) hsound
    | _ => cases hop
  | take r =>
    rw [hp] at hop
    cases hop
    exact h.take (Thread.ext hp hmode) hsound
  | failed locked =>
    have hplace := h.place t
    rw [hp] at hplace
    cases hplace
  | _ =>
    rw [hp] at hop
    cases hop

theorem lock {p : Pc} (h : Simulates l total s e) (hmode : (s.thread t).mode = .running)
    (hop : op l (s.thread t).pc = .lock p)
    (hsound : Sound (op l) holds (Sys.goto { s with holder := some t } t p)) :
    Follows l total (work s) (Sys.goto { s with holder := some t } t p) e := by
  have hplace := h.place t
  cases hp : (s.thread t).pc with
  | enqueue draining k d =>
    rw [hp] at hop hplace
    cases k <;> cases hop
    generalize hx : e.thread t = x at hplace
    cases hplace with
    | called hbefore => cases hbefore
    | calling hbefore hsend =>
      refine h.goto _ hsound (by simp [hp, hmode, weight, Pc.weight, Stage.weight]) (hx ▸ .check hsend) trivial
        (h.wakes.goto ?_ ?_ ?_) <;> simp [hp, Pc.looks, Pc.fills]
  | terminate k =>
    rw [hp] at hop hplace
    cases k <;> cases hop
    generalize hx : e.thread t = x at hplace
    cases hplace with
    | closed hbefore => cases hbefore
    | closing hbefore =>
      refine h.goto _ hsound (by simp [hp, hmode, weight, Pc.weight]) (hx ▸ .closing rfl) trivial
        (h.wakes.goto ?_ ?_ ?_) <;> simp [hp, Pc.looks, Pc.fills]
  | dequeue k r =>
    rw [hp] at hop hplace
    cases k <;> cases hop
    generalize hx : e.thread t = x at hplace
    cases hplace with
    | answered hbefore => cases hbefore
    | asking hbefore hrecv =>
      refine h.goto _ hsound (by simp [hp, hmode, weight, Pc.weight, Stage.weight]) (hx ▸ .asking rfl hrecv) trivial
        (h.wakes.goto ?_ ?_ ?_) <;> simp [hp, Pc.looks, Pc.fills]
  | _ =>
    rw [hp] at hop
    cases hop

theorem unlock {p : Pc} (h : Simulates l total s e) (hmode : (s.thread t).mode = .running)
    (hop : op l (s.thread t).pc = .unlock p)
    (hsound : Sound (op l) holds (Sys.goto { s with holder := none } t p)) :
    Follows l total (work s) (Sys.goto { s with holder := none } t p) e := by
  have hplace := h.place t
  cases hp : (s.thread t).pc with
  | enqueue draining k d =>
    rw [hp] at hop hplace
    cases k <;> cases hop
    generalize hx : e.thread t = x at hplace
    cases hplace with
    | calling hbefore => cases hbefore
    | called hbefore hi htodo hsend =>
      refine h.goto _ hsound (by simp [hp, hmode, weight, Pc.weight, Stage.weight])
        (hx ▸ .called rfl hi htodo hsend) trivial (h.wakes.goto ?_ ?_ ?_) <;> simp [hp, Pc.looks, Pc.fills]
  | terminate k =>
    rw [hp] at hop hplace
    cases k <;> cases hop
    generalize hx : e.thread t = x at hplace
    cases hplace with
    | closing hbefore => cases hbefore
    | closed hbefore =>
      refine h.goto _ hsound (by simp [hp, hmode, weight, Pc.weight]) (hx ▸ .sent) trivial
        (h.wakes.goto ?_ ?_ ?_) <;> simp [hp, Pc.looks, Pc.fills]
  | dequeue k r =>
    rw [hp] at hop hplace
    cases k <;> cases hop
    generalize hx : e.thread t = x at hplace
    cases hplace with
    | asking hbefore => cases hbefore
    | answered hbefore hne hrecv =>
      refine h.goto _ hsound (by simp [hp, hmode, weight, Pc.weight, Stage.weight])
        (hx ▸ .answered rfl hne hrecv) trivial (h.wakes.goto ?_ ?_ ?_) <;> simp [hp, Pc.looks, Pc.fills]
  | closed r =>
    rw [hp] at hop hplace
    cases hop
    generalize hx : e.thread t = x at hplace
    cases hplace with
    | leaving =>
      refine h.goto _ hsound (by simp [hp, hmode, weight, Pc.weight]) (hx ▸ .received) trivial
        (h.wakes.goto ?_ ?_ ?_) <;> simp [hp, Pc.looks, Pc.fills]
  | _ =>
    rw [hp] at hop
    cases hop

theorem wait {c : Cond} {p : Pc} (h : Simulates l total s e) (hmode : (s.thread t).mode = .running)
    (hop : op l (s.thread t).pc = .wait c p)
    (hsound : Sound (op l) holds { s with thread := Function.update s.thread t ⟨p, .asleep c⟩, holder := none }) :
    Follows l total (work s) { s with thread := Function.update s.thread t ⟨p, .asleep c⟩, holder := none } e := by
  have hplace := h.place t
  have hwait := h.waits t hmode
  cases hp : (s.thread t).pc with
  | enqueue draining k d =>
    rw [hp] at hop hplace hwait
    cases k <;> cases hop
    have hfull : e.que.buf.length = l.size := hwait
    have hne : e.que.buf ≠ [] := by
      intro hnil
      have := l.size_pos
      simp [hnil] at hfull
      omega
    generalize hx : e.thread t = x at hplace
    cases hplace with
    | called hbefore => cases hbefore
    | calling hbefore hsend =>
      exact .inl ⟨h.silent hsound (hx ▸ .calling rfl hsend) (by simp)
        (h.wakes.sleepFull hne (by simp [hp, Pc.looks]) (by simp [hp])), work_sleep (by simp [hp, hmode, weight,
          Pc.weight, Stage.weight])⟩
  | dequeue k r =>
    rw [hp] at hop hplace hwait
    cases k <;> cases hop
    generalize hx : e.thread t = x at hplace
    cases hplace with
    | answered hbefore => cases hbefore
    | asking hbefore hrecv =>
      exact .inl ⟨h.silent hsound (hx ▸ .asking rfl hrecv) (by simp)
        (h.wakes.sleepEmpty hwait (by simp [hp, Pc.fills])), work_sleep (by simp [hp, hmode, weight, Pc.weight,
          Stage.weight])⟩
  | terminate k =>
    rw [hp] at hop
    cases k <;> cases hop
  | _ =>
    rw [hp] at hop
    cases hop

/-- A signal that nobody waits for. -/
theorem signalNone {c : Cond} {p : Pc} (h : Simulates l total s e) (hreceivers : 0 < receivers)
    (hmode : (s.thread t).mode = .running) (hop : op l (s.thread t).pc = .signal c p)
    (hnone : ∀ u, (s.thread u).mode ≠ .asleep c)
    (hsound : Sound (op l) holds (s.goto t p)) : Follows l total (work s) (s.goto t p) e := by
  cases hp : (s.thread t).pc with
  | enqueue draining k d =>
    rw [hp] at hop
    cases k <;> cases hop
    refine h.signalNotEmpty (Nat.le_add_right _ 0) (Nat.zero_le _) (Thread.ext hp hmode) hsound fun hne => ?_
    obtain ⟨u, hlooks, hnot⟩ := h.exists_receiver hreceivers hne
    refine ⟨u, ?_, fun c hc => ?_, hlooks⟩
    · rintro rfl
      exact hnot _ _ _ hp
    · rcases h.asleep_cases hc with ⟨-, draining, d, hu⟩ | ⟨rfl, -⟩
      · exact hnot _ _ _ hu
      · exact hnone u hc
  | dequeue k r =>
    rw [hp] at hop
    cases k <;> cases hop
    refine h.signalNotFull (Nat.le_add_right _ 0) (Nat.zero_le _) (Thread.ext hp hmode) hsound ?_
    rintro ⟨v, hv⟩
    exact absurd hv (hnone v)
  | terminate k =>
    rw [hp] at hop
    cases k <;> cases hop
  | _ =>
    rw [hp] at hop
    cases hop

/-- A signal that wakes `u`. -/
theorem signal {c : Cond} {p : Pc} {u : Tid senders receivers} (h : Simulates l total s e)
    (hmode : (s.thread t).mode = .running) (hop : op l (s.thread t).pc = .signal c p)
    (hasleep : (s.thread u).mode = .asleep c)
    (hsound : Sound (op l) holds ((s.rouse u).goto t p)) :
    Follows l total (work s) ((s.rouse u).goto t p) e := by
  have hut : u ≠ t := by
    rintro rfl
    simp [hmode] at hasleep
  have h' := h.rouse hasleep
  have hpc : ((s.rouse u).thread t).pc = (s.thread t).pc := by simp [Sys.rouse, hut.symm]
  have hmode' : ((s.rouse u).thread t).mode = .running := by simpa [Sys.rouse, hut.symm] using hmode
  have hawake : Awake ((s.rouse u).thread u) := by simp [Sys.rouse, Awake]
  have hupc : ((s.rouse u).thread u).pc = (s.thread u).pc := by simp [Sys.rouse]
  cases hp : (s.thread t).pc with
  | enqueue draining k d =>
    rw [hp] at hop
    cases k <;> cases hop
    refine h'.signalNotEmpty (work_rouse hasleep) le_rfl (Thread.ext (hpc.trans hp) hmode') hsound fun _ =>
      ⟨u, hut, hawake, ?_⟩
    rcases h.asleep_cases hasleep with ⟨hc, -⟩ | ⟨-, r, hu⟩
    · cases hc
    · rw [hupc, hu]
      rfl
  | dequeue k r =>
    rw [hp] at hop
    cases k <;> cases hop
    refine h'.signalNotFull (work_rouse hasleep) le_rfl (Thread.ext (hpc.trans hp) hmode') hsound fun _ =>
      ⟨u, hut, hawake, ?_⟩
    rcases h.asleep_cases hasleep with ⟨-, draining, d, hu⟩ | ⟨hc, -⟩
    · rw [hupc, hu]
      rfl
    · cases hc
  | terminate k =>
    rw [hp] at hop
    cases k <;> cases hop
  | _ =>
    rw [hp] at hop
    cases hop

theorem broadcasts {c : Cond} {p : Pc} (h : Simulates l total s e) (hmode : (s.thread t).mode = .running)
    (hop : op l (s.thread t).pc = .broadcast c p)
    (hsound : Sound (op l) holds (Sys.goto { s with thread := fun u => (s.thread u).wake c } t p)) :
    Follows l total (work s) (Sys.goto { s with thread := fun u => (s.thread u).wake c } t p) e := by
  cases hp : (s.thread t).pc with
  | terminate k =>
    rw [hp] at hop
    cases k <;> cases hop
    exact h.broadcast (Thread.ext hp hmode) hsound
  | enqueue draining k d =>
    rw [hp] at hop
    cases k <;> cases hop
  | dequeue k r =>
    rw [hp] at hop
    cases k <;> cases hop
  | _ =>
    rw [hp] at hop
    cases hop

/-- A thread that has been woken takes the mutex again. -/
theorem resume (h : Simulates l total s e) (hmode : (s.thread t).mode = .woken)
    (hsound : Sound (op l) holds (Sys.goto { s with holder := some t } t (s.thread t).pc)) :
    Follows l total (work s) (Sys.goto { s with holder := some t } t (s.thread t).pc) e := by
  obtain ⟨c, q, hq⟩ := h.sound.woken t hmode
  have htest : AtWait l e.que (s.thread t).pc ∧ (s.thread t).pc ≠ .terminate .broadcast ∧
      (s.thread t).pc.weight (senders + receivers) = 3 := by
    generalize (s.thread t).pc = p at hq
    cases q with
    | enqueue draining k d =>
      cases k <;> cases hq
      exact ⟨trivial, by simp, rfl⟩
    | dequeue k r =>
      cases k <;> cases hq
      exact ⟨trivial, by simp, rfl⟩
    | terminate k => cases k <;> cases hq
    | _ => cases hq
  exact h.goto _ hsound (by simp [weight, hmode, htest.2.2]) (h.place t) htest.1
    (h.wakes.goto (fun _ => id) (fun _ => id) htest.2.1)

/-- One step. -/
theorem moves (hreceivers : 0 < receivers) (h : Simulates l total s e) (hs : Moves (op l) s s') :
    Follows l total (work s) s' e := by
  have hsound := h.sound.moves (op_keeps l) hs
  cases hs with
  | access t f hmode hop => exact h.access hmode hop hsound
  | lock t p hmode hop _ => exact h.lock hmode hop hsound
  | unlock t p hmode hop => exact h.unlock hmode hop hsound
  | wait t c p hmode hop => exact h.wait hmode hop hsound
  | signalNone t c p hmode hop hnone => exact h.signalNone hreceivers hmode hop hnone hsound
  | signal t u c p hmode hop hasleep => exact h.signal hmode hop hasleep hsound
  | broadcast t c p hmode hop => exact h.broadcasts hmode hop hsound
  | resume t hmode _ => exact h.resume hmode hsound

theorem start (todo : Fin senders → List Chunk) : Simulates l (∑ i, (todo i : Multiset Chunk))
    (QueueLink.start l todo : Threads senders receivers) (Link.start todo) := by
  refine ⟨⟨?_, ?_, ?_⟩, .init l.size_small, rfl, rfl, ?_, ?_, .start todo, fun hne => absurd rfl hne, ?_, fun _ => ?_⟩
  · rintro (i | i) <;> simp [QueueLink.start, holds]
  · rintro (i | i) c hc <;> cases hc
  · rintro (i | i) hc <;> cases hc
  · rintro (i | i)
    · exact .fill (.init l.perInsert_small)
    · exact .fetch (.init l.perFetch_small)
  · rintro (i | i) _ <;> trivial
  · rintro ⟨i | i, hi⟩ <;> cases hi
  · rintro ⟨i | i, hi⟩ <;> cases hi

/-- What a step does, spurious wake-ups included. -/
theorem step (hreceivers : 0 < receivers) (h : Simulates l total s e) {a : Act (Tid senders receivers)}
    (hs : Conditions.step (op l) s a = some s') :
    Simulates l total s' e ∨ ∃ t e', e.step l t = some e' ∧ Simulates l total s' e' := by
  have hregular : a.Regular → Simulates l total s' e ∨ ∃ t e', e.step l t = some e' ∧ Simulates l total s' e' := by
    intro ha
    rcases h.moves hreceivers (moves_of_step ha hs) with ⟨h', -⟩ | ⟨t, e', he', h', -⟩
    · exact .inl h'
    · exact .inr ⟨t, e', he', h'⟩
  cases a with
  | run t => exact hregular trivial
  | call t u => exact hregular trivial
  | wake t =>
    obtain ⟨c, hasleep, rfl⟩ := rouse_of_step hs
    exact .inl (h.rouse hasleep)

/-- A run of the threads has a run of the link beside it. -/
theorem exec (hreceivers : 0 < receivers) {todo : Fin senders → List Chunk} {as : List (Act (Tid senders receivers))}
    (hrun : exec (Conditions.step (op l)) (QueueLink.start l todo) as = some s) :
    ∃ ts e, Run.exec (Link.step l) (Link.start todo) ts = some e ∧
      Simulates l (∑ i, (todo i : Multiset Chunk)) s e := by
  refine exec_sim (R := Simulates l (∑ i, (todo i : Multiset Chunk))) (fun s a s' e h hs => ?_) (start todo) hrun
  exact h.step hreceivers hs

end Simulates

end Turkey.QueueLink
