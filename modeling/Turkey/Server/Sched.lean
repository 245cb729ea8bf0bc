import Mathlib.Algebra.BigOperators.Group.List.Basic
import Mathlib.Algebra.GroupWithZero.Nat
import Mathlib.Data.List.AList
import Mathlib.Data.List.Induction
import Turkey.Schemes.Run

/-! The Turkey server (`turkey/server.py`, `turkey/scheduler.py`).

    `sched` handles one message: it registers or removes the sender, gives every registered task the
    same share of the CPUs and sends every task its share. The dictionary of tasks is an association
    list; the order in which a dictionary is walked is not specified, so it is a parameter that only
    has to be a permutation of the keys (`Python`). So is the flatbuffers package, whose builder raises
    on a number that does not fit its slot; the data field of a message has 32 bits. An exception inside
    `sched` ends the server, which keeps the tasks it had already changed and the messages it had
    already sent. -/

namespace Turkey.Sched
open Turkey.Run

/-- `MessageType` of `message.fbs`; the type field is a byte, so a peer may also send other codes. -/
inductive MessageType where
  | Start
  | Stop
  | Update
  | other (code : ℤ)
  deriving DecidableEq, Repr

/-- A decoded message: the two fields the protocol uses. -/
structure Message where
  type : MessageType
  data : ℤ
  deriving DecidableEq, Repr

/-- The value of `tasks[identity]`: a dictionary with at most the key `'resources'`. -/
structure Task where
  resources : Option ℕ
  deriving DecidableEq, Repr

/-- What the server leaves to others. A dictionary is walked in some order of its keys, and the slot that the
    flatbuffers builder makes of a 32-bit number has that number; of another one it may make none, with an exception. -/
structure Python (ι : Type*) where
  iter : List ι → List ι
  perm : ∀ l, (iter l).Perm l
  prependInt32Slot : ℤ → Option ℤ
  fits : ∀ x, -2147483648 ≤ x → x ≤ 2147483647 → prependInt32Slot x = some x

variable {ι : Type*} [DecidableEq ι]

abbrev Tasks (ι : Type*) := AList (fun _ : ι => Task)

/-- The part of `Server` that `sched` reads and writes. `alive` is false once an exception has left
    `sched`, because nothing catches it in `Server.start`. -/
structure Server (ι : Type*) where
  tasks : Tasks ι
  resources : ℕ
  alive : Bool

/-- `fbs.encodeMessage`, with `MessageAddData`. -/
def encodeMessage (py : Python ι) (type : MessageType) (data : ℤ) : Option Message :=
  (py.prependInt32Slot data).map fun data => ⟨type, data⟩

/-- `Scheduler.schedule`. The division is Python 2's, on integers. -/
def schedule (py : Python ι) (tasks : Tasks ι) (resources : ℕ) : Tasks ι :=
  (py.iter tasks.keys).foldl
    (fun t taskid => t.insert taskid ⟨some (resources / t.keys.length)⟩) tasks

/-- The closing loop of `sched`: one Update per task, until one cannot be encoded. The flag tells
    whether the loop came to its end. -/
def sendUpdates (py : Python ι) (tasks : Tasks ι) : List ι → List (ι × Message) × Bool
  | [] => ([], true)
  | taskid :: rest =>
    match ((tasks.lookup taskid).bind Task.resources).bind fun r => encodeMessage py .Update r with
    | none => ([], false)
    | some m => ((taskid, m) :: (sendUpdates py tasks rest).1, (sendUpdates py tasks rest).2)

/-- The `if`/`elif` of `sched`: the new tasks and the acknowledgement, if there is one. -/
def register (tasks : Tasks ι) (identity : ι) (message : Message) : Tasks ι × List (ι × Message) :=
  match message.type with
  | .Start => (tasks.insert identity ⟨none⟩, [(identity, ⟨.Start, 0⟩)])
  | .Stop => (tasks.erase identity, [(identity, ⟨.Stop, 0⟩)])
  | _ => (tasks, [])

/-- `sched`: the server after one message and the messages it sent, in order. -/
def sched (py : Python ι) (self : Server ι) (identity : ι) (message : Message) :
    Server ι × List (ι × Message) :=
  let r := register self.tasks identity message
  let tasks := schedule py r.1 self.resources
  let u := sendUpdates py tasks (py.iter tasks.keys)
  (⟨tasks, self.resources, u.2⟩, r.2 ++ u.1)

/-- One turn of `Server.start`: only a live server takes the next message. -/
def serve (py : Python ι) (self : Server ι) (m : ι × Message) : Option (Server ι) :=
  if self.alive then some (sched py self m.1 m.2).1 else none

/-- The server before its first message. -/
def Server.new (resources : ℕ) : Server ι := ⟨∅, resources, true⟩

/-! ### One pass of the scheduler -/

theorem foldl_insert_keys (v : Tasks ι → ι → Task) : ∀ (ids : List ι) (t : Tasks ι),
    (∀ i ∈ ids, i ∈ t) →
    ((ids.foldl (fun t i => t.insert i (v t i)) t).keys).Perm t.keys
  | [], t, _ => List.Perm.refl _
  | i :: ids, t, h => by
      rw [List.foldl_cons]
      have hi : i ∈ t.keys := h i List.mem_cons_self
      have hperm : ((t.insert i (v t i)).keys).Perm t.keys := by
        rw [AList.keys_insert]; exact (List.perm_cons_erase hi).symm
      refine (foldl_insert_keys v ids _ fun j hj => ?_).trans hperm
      exact (AList.mem_insert t).mpr (Or.inr (h j (List.mem_cons_of_mem _ hj)))

/-- The scheduler keeps the set of tasks. -/
theorem schedule_keys (py : Python ι) (t : Tasks ι) (R : ℕ) :
    ((schedule py t R).keys).Perm t.keys :=
  foldl_insert_keys _ _ t fun _ hi => (py.perm _).mem_iff.mp hi

theorem mem_schedule (py : Python ι) (t : Tasks ι) (R : ℕ) (i : ι) :
    i ∈ schedule py t R ↔ i ∈ t :=
  (schedule_keys py t R).mem_iff

/-- Walking over some keys sets exactly these, each to the share computed from the number of keys. -/
theorem foldl_share_lookup (R : ℕ) (i : ι) : ∀ (ids : List ι) (t : Tasks ι), (∀ j ∈ ids, j ∈ t) →
    (ids.foldl (fun t j => t.insert j ⟨some (R / t.keys.length)⟩) t).lookup i =
      if i ∈ ids then some ⟨some (R / t.keys.length)⟩ else t.lookup i
  | [], t, _ => by simp
  | j :: ids, t, h => by
      have hj : j ∈ t.keys := h j List.mem_cons_self
      have hlen : (t.insert j ⟨some (R / t.keys.length)⟩).keys.length = t.keys.length := by
        rw [AList.keys_insert]; exact (List.perm_cons_erase hj).symm.length_eq
      rw [List.foldl_cons, foldl_share_lookup R i ids _ fun k hk =>
        (AList.mem_insert t).mpr (Or.inr (h k (List.mem_cons_of_mem _ hk))), hlen]
      by_cases hi : i ∈ ids
      · rw [if_pos hi, if_pos (List.mem_cons_of_mem _ hi)]
      · rw [if_neg hi]
        by_cases hij : i = j
        · subst hij; rw [if_pos List.mem_cons_self, AList.lookup_insert]
        · rw [if_neg (by simp [hij, hi]), AList.lookup_insert_ne hij]

/-- After a pass of the scheduler every task holds the floor of its share. -/
theorem schedule_lookup (py : Python ι) (t : Tasks ι) (R : ℕ) (i : ι) :
    (schedule py t R).lookup i = if i ∈ t then some ⟨some (R / t.keys.length)⟩ else none := by
  rw [schedule, foldl_share_lookup R i _ t fun j hj => (py.perm _).mem_iff.mp hj]
  have hiff : i ∈ py.iter t.keys ↔ i ∈ t := (py.perm _).mem_iff
  by_cases hi : i ∈ t
  · rw [if_pos hi, if_pos (hiff.mpr hi)]
  · rw [if_neg hi, if_neg (fun h => hi (hiff.mp h)), AList.lookup_eq_none.mpr hi]

omit [DecidableEq ι] in
theorem encodeMessage_nat (py : Python ι) {type : MessageType} {r : ℕ} (h : r < 2147483648) :
    encodeMessage py type (r : ℤ) = some ⟨type, r⟩ := by
  rw [encodeMessage, py.fits _ (by omega) (by omega), Option.map_some]

/-- The closing loop sends one Update per key, in order, as long as every share fits the slot. -/
theorem sendUpdates_eq (py : Python ι) (t : Tasks ι) (r : ℕ) (hr : r < 2147483648) : ∀ ids : List ι,
    (∀ i ∈ ids, t.lookup i = some ⟨some r⟩) →
    sendUpdates py t ids = (ids.map fun i => (i, ⟨.Update, (r : ℤ)⟩), true)
  | [], _ => rfl
  | i :: ids, h => by
      rw [sendUpdates, h i List.mem_cons_self]
      simp only [Option.bind_some, encodeMessage_nat py hr]
      rw [sendUpdates_eq py t r hr ids fun j hj => h j (List.mem_cons_of_mem _ hj), List.map_cons]

/-- `sched` on a server whose CPU count fits the slot: it stays alive, gives every task the floor of
    its share and sends the acknowledgement followed by one Update per task. -/
theorem sched_eq (py : Python ι) (s : Server ι) (i : ι) (m : Message)
    (hR : s.resources < 2147483648) :
    let t := (register s.tasks i m).1
    (sched py s i m).1 = ⟨schedule py t s.resources, s.resources, true⟩ ∧
      (sched py s i m).2 = (register s.tasks i m).2 ++
        (py.iter (schedule py t s.resources).keys).map fun j =>
          (j, ⟨.Update, ((s.resources / t.keys.length : ℕ) : ℤ)⟩) := by
  intro t
  have hlt : s.resources / t.keys.length < 2147483648 := lt_of_le_of_lt (Nat.div_le_self _ _) hR
  have hsend := sendUpdates_eq py (schedule py t s.resources) _ hlt
    (py.iter (schedule py t s.resources).keys) fun j hj => by
      have hmem : j ∈ t := (mem_schedule py t s.resources j).mp ((py.perm _).mem_iff.mp hj)
      rw [schedule_lookup, if_pos hmem]
  exact ⟨by simp only [sched]; rw [hsend], by simp only [sched]; rw [hsend]⟩

/-! ### Whole runs -/

/-- The type of the last Start or Stop message of `i`. -/
def lastControl (i : ι) (ms : List (ι × Message)) : Option MessageType :=
  ((ms.filter fun m => m.1 = i ∧ (m.2.type = .Start ∨ m.2.type = .Stop)).getLast?).map (·.2.type)

/-- The number of CPUs task `i` holds. -/
def grant (t : Tasks ι) (i : ι) : ℕ := ((t.lookup i).bind Task.resources).getD 0

/-- The acknowledgement due for a message. -/
def ack (i : ι) (m : Message) : List (ι × Message) :=
  match m.type with
  | .Start => [(i, ⟨.Start, 0⟩)]
  | .Stop => [(i, ⟨.Stop, 0⟩)]
  | _ => []

/-- The allocation state after the messages `ms`: the tasks are the clients whose last word was a
    Start, and each holds the floor of its share. -/
structure Exact (R : ℕ) (ms : List (ι × Message)) (s : Server ι) : Prop where
  alive : s.alive = true
  resources : s.resources = R
  tasks : ∀ i, i ∈ s.tasks ↔ lastControl i ms = some .Start
  share : ∀ i ∈ s.tasks, s.tasks.lookup i = some ⟨some (R / s.tasks.keys.length)⟩

/-- What the message `(i, m)` after the messages `ms` must do, for a server with `R` CPUs: leave the
    state exact, not hand out more than `R` nor hold back a whole round, and send the sender's
    acknowledgement and then one Update per task with that task's value, and nothing else. -/
def HandlesExactly (py : Python ι) (R : ℕ) (ms : List (ι × Message)) (i : ι) (m : Message) :
    Prop :=
  ∃ s, exec (serve py) (Server.new R) ms = some s ∧
    let t := (sched py s i m).1.tasks
    Exact R (ms ++ [(i, m)]) (sched py s i m).1 ∧
    (t.keys.map (grant t)).sum ≤ R ∧
    (1 ≤ t.keys.length → R - (t.keys.map (grant t)).sum < t.keys.length) ∧
    ∃ order : List ι, order.Perm t.keys ∧
      (sched py s i m).2 = ack i m ++ order.map fun j => (j, ⟨.Update, (grant t j : ℤ)⟩)

theorem lastControl_concat (i : ι) (ms : List (ι × Message)) (j : ι) (m : Message) :
    lastControl i (ms ++ [(j, m)]) =
      if j = i ∧ (m.type = .Start ∨ m.type = .Stop) then some m.type else lastControl i ms := by
  unfold lastControl
  rw [List.filter_append]
  by_cases h : j = i ∧ (m.type = .Start ∨ m.type = .Stop)
  · rw [if_pos h, List.filter_cons_of_pos (by simpa using h), List.filter_nil,
      List.getLast?_concat]; rfl
  · rw [if_neg h, List.filter_cons_of_neg (by simpa using h), List.filter_nil, List.append_nil]

/-- The `if`/`elif` keeps the tasks equal to the clients whose last word was a Start. -/
theorem mem_register {ms : List (ι × Message)} {t : Tasks ι}
    (ht : ∀ i, i ∈ t ↔ lastControl i ms = some .Start) (j : ι) (m : Message) (i : ι) :
    i ∈ (register t j m).1 ↔ lastControl i (ms ++ [(j, m)]) = some .Start := by
  rw [lastControl_concat]
  cases hm : m.type with
  | Start =>
    simp only [register, hm, AList.mem_insert, true_or, and_true]
    by_cases hij : j = i
    · rw [if_pos hij]; simp [hij]
    · rw [if_neg hij, ← ht]; simp [Ne.symm hij]
  | Stop =>
    simp only [register, hm, AList.mem_erase, or_true, and_true]
    by_cases hij : j = i
    · rw [if_pos hij]; simp [hij]
    · rw [if_neg hij, ← ht]; simp [Ne.symm hij]
  | Update => simp only [register, hm]; rw [if_neg (by simp), ht]
  | other c => simp only [register, hm]; rw [if_neg (by simp), ht]

theorem register_ack (t : Tasks ι) (i : ι) (m : Message) : (register t i m).2 = ack i m := by
  unfold register ack
  cases m.type <;> rfl

/-- One message keeps the allocation state exact. -/
theorem exact_sched (py : Python ι) {R : ℕ} (hR : R < 2147483648) {ms : List (ι × Message)}
    {s : Server ι} (hs : Exact R ms s) (i : ι) (m : Message) :
    Exact R (ms ++ [(i, m)]) (sched py s i m).1 := by
  have hres : s.resources < 2147483648 := hs.resources ▸ hR
  rw [(sched_eq py s i m hres).1, hs.resources]
  have hlen := (schedule_keys py (register s.tasks i m).1 R).length_eq
  refine ⟨rfl, rfl, fun j => ?_, fun j hj => ?_⟩
  · exact (mem_schedule py _ R j).trans (mem_register hs.tasks i m j)
  · rw [schedule_lookup, if_pos ((mem_schedule py _ R j).mp hj), hlen]

/-- Every sequence of messages is handled, and leaves an exact state. -/
theorem exact_exec (py : Python ι) {R : ℕ} (hR : R < 2147483648) (ms : List (ι × Message)) :
    ∃ s, exec (serve py) (Server.new R) ms = some s ∧ Exact R ms s := by
  induction ms using List.reverseRecOn with
  | nil =>
    refine ⟨Server.new R, rfl, rfl, rfl, fun i => ?_, fun i hi => ?_⟩
    · simp [Server.new, lastControl]
    · exact absurd hi (AList.notMem_empty i)
  | append_singleton ms m ih =>
    obtain ⟨s, hs, hE⟩ := ih
    refine ⟨(sched py s m.1 m.2).1, ?_, exact_sched py hR hE m.1 m.2⟩
    exact exec_concat.mpr ⟨s, hs, by rw [serve, if_pos hE.alive]⟩

/-- In an exact state the grants add up to the number of tasks times the share. -/
theorem Exact.sum_grant {R : ℕ} {ms : List (ι × Message)} {s : Server ι} (h : Exact R ms s) :
    (s.tasks.keys.map (grant s.tasks)).sum = s.tasks.keys.length * (R / s.tasks.keys.length) := by
  have hconst : s.tasks.keys.map (grant s.tasks) =
      List.replicate s.tasks.keys.length (R / s.tasks.keys.length) := by
    rw [List.eq_replicate_iff]
    refine ⟨List.length_map _, fun x hx => ?_⟩
    obtain ⟨i, hi, rfl⟩ := List.mem_map.mp hx
    rw [grant, h.share i hi]; rfl
  rw [hconst, List.sum_replicate]; rfl

/-- In an exact state a message sends the acknowledgement and then one Update per task, with that
    task's value. -/
theorem Exact.sent (py : Python ι) {R : ℕ} (hR : R < 2147483648) {ms : List (ι × Message)}
    {s : Server ι} (h : Exact R ms s) (i : ι) (m : Message) :
    ∃ order : List ι, order.Perm (sched py s i m).1.tasks.keys ∧
      (sched py s i m).2 = ack i m ++
        order.map fun j => (j, ⟨.Update, (grant (sched py s i m).1.tasks j : ℤ)⟩) := by
  obtain ⟨h1, h2⟩ := sched_eq py s i m (h.resources ▸ hR)
  refine ⟨py.iter (sched py s i m).1.tasks.keys, py.perm _, ?_⟩
  rw [h2, register_ack, h1]
  congr 1
  refine List.map_congr_left fun j hj => ?_
  have hmem : j ∈ (register s.tasks i m).1 :=
    (mem_schedule py _ _ j).mp ((py.perm _).mem_iff.mp hj)
  rw [grant, schedule_lookup, if_pos hmem]; rfl

/-- CORRECT: with a CPU count that fits the data field of a message, the allocation state is exact
    after every message of every run, and the message sends what it must and nothing else. -/
theorem sched_handles_exactly (py : Python ι) (R : ℕ) (hR : R < 2147483648)
    (ms : List (ι × Message)) (i : ι) (m : Message) : HandlesExactly py R ms i m := by
  obtain ⟨s, hs, hE⟩ := exact_exec py hR ms
  have hE' := exact_sched py hR hE i m
  refine ⟨s, hs, hE', ?_, fun hn => ?_, hE.sent py hR i m⟩
  · rw [hE'.sum_grant]; exact Nat.mul_div_le R _
  · rw [hE'.sum_grant]
    have hdm := Nat.div_add_mod R (sched py s i m).1.tasks.keys.length
    have hlt := Nat.mod_lt R (show 0 < (sched py s i m).1.tasks.keys.length from hn)
    omega

/-- A dictionary that is walked in the order of its association list, and the range check of the builder. -/
def Python.listed (ι : Type*) : Python ι where
  iter := id
  perm := List.Perm.refl
  prependInt32Slot x := if -2147483648 ≤ x ∧ x ≤ 2147483647 then some x else none
  fits _ hlow hhigh := if_pos ⟨hlow, hhigh⟩

theorem sched_handles_exactly_sixtyFour :
    HandlesExactly (Python.listed ℕ) 64 [(1, ⟨.Start, 1⟩), (2, ⟨.Start, 2⟩)] 1 ⟨.Stop, 1⟩ :=
  sched_handles_exactly _ 64 (by decide) _ 1 ⟨.Stop, 1⟩

/-- With 2^31 CPUs the first client's Update cannot be encoded: it gets the acknowledgement, its task
    holds all CPUs, and no Update is sent. -/
theorem sched_share_exceeds_slot :
    ¬ HandlesExactly (Python.listed ℕ) 2147483648 [] 7 ⟨.Start, 7⟩ := by
  rintro ⟨s, hs, -, -, -, order, hperm, hsent⟩
  obtain rfl : s = Server.new 2147483648 := by simpa using hs.symm
  have hkeys : order.length = 1 := hperm.length_eq.trans (by decide)
  have hlen := congrArg List.length hsent
  rw [List.length_append, List.length_map, hkeys] at hlen
  exact absurd hlen (by decide)

end Turkey.Sched
