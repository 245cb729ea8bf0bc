import Turkey.Server.Sched

/-! The Turkey client (`src/Client.cpp`) and its conversation with the server.

    A client process has a main thread (`start`, later `stop`) and a message thread
    (`processMessage`: connect, send Start, one poll, then the receive loop). Messages travel on
    ordered, lossless channels with any delay: `up i` holds what client `i` sent and the server has
    not handled, `down i` what the server sent and has not yet arrived, `inbox` the frames that wait
    at the client's socket. The server's messages are single frames, whereas the loop reads two
    frames a turn: a header with `ZMQ_RCVMORE` as its flags, whose low bit is `ZMQ_DONTWAIT`, so that
    it takes a frame only if one is there, and then the message, for which it waits. -/

namespace Turkey.Protocol
open Turkey.Run Turkey.Sched

/-- Where the main thread is. -/
inductive MainPc where
  | fresh     -- before `start()`
  | running   -- after `start()`, before `stop()` tests `registered_`
  | sendStop  -- inside `stop()`, `registered_` was found set
  | joining   -- inside `stop()`, waiting for the message thread
  | stopped   -- `stop()` has returned
  deriving DecidableEq, Repr

/-- Where the message thread is. -/
inductive ThreadPc where
  | none      -- not created yet
  | connect   -- about to send Start
  | poll      -- in `zmq::poll`
  | header    -- about to receive the header
  | message   -- about to receive the message
  | returned  -- the poll timed out, `processMessage` has returned
  deriving DecidableEq, Repr

/-- A client process. `poolSize` is the argument of the last `setNumThreads`. Three fields are a
    record of what happened, which no step reads: `stopSent`, the messages `seen` by the `switch` and
    those `passed` to `allocator_`. -/
structure Client where
  main : MainPc
  thread : ThreadPc
  registered : Bool
  exited : Bool
  stopSent : Bool
  inbox : List Message
  poolSize : ℤ
  seen : List Message
  passed : List Message
  deriving DecidableEq, Repr

/-- The steps of the two threads of a client. -/
inductive Move where
  | start
  | sendStart
  | pollIn
  | pollTimeout
  | recvHeader
  | recvMessage
  | stopTest
  | sendStop
  | join
  deriving DecidableEq, Repr

/-- The `switch` of `processMessage`, with the default allocator. -/
def dispatch (c : Client) (m : Message) : Client :=
  match m.type with
  | .Stop => { c with exited := true, seen := c.seen ++ [m] }
  | .Update =>
    { c with thread := .header, poolSize := m.data, seen := c.seen ++ [m], passed := c.passed ++ [m] }
  | _ => { c with thread := .header, seen := c.seen ++ [m] }

@[simp] theorem dispatch_main (c : Client) (m : Message) : (dispatch c m).main = c.main := by
  unfold dispatch; split <;> rfl

@[simp] theorem dispatch_inbox (c : Client) (m : Message) : (dispatch c m).inbox = c.inbox := by
  unfold dispatch; split <;> rfl

@[simp] theorem dispatch_registered (c : Client) (m : Message) :
    (dispatch c m).registered = c.registered := by
  unfold dispatch; split <;> rfl

@[simp] theorem dispatch_stopSent (c : Client) (m : Message) :
    (dispatch c m).stopSent = c.stopSent := by
  unfold dispatch; split <;> rfl

@[simp] theorem dispatch_seen (c : Client) (m : Message) : (dispatch c m).seen = c.seen ++ [m] := by
  unfold dispatch; split <;> rfl

/-- Only a Stop ends the process; otherwise the loop starts over. -/
theorem dispatch_exited (c : Client) (m : Message) :
    (m.type = .Stop ∧ (dispatch c m).thread = c.thread) ∨
      ((dispatch c m).thread = .header ∧ (dispatch c m).exited = c.exited) := by
  unfold dispatch
  split
  · rename_i h; exact Or.inl ⟨h, rfl⟩
  · exact Or.inr ⟨rfl, rfl⟩
  · exact Or.inr ⟨rfl, rfl⟩

/-- One step of a client's own threads and the messages it sends. `stop()` first joins the pools,
    which no other thread looks at, and then tests `registered_`. -/
def clientStep (pid : ℤ) (c : Client) : Move → Option (Client × List Message)
  | .start =>
    if c.main = .fresh then some ({ c with main := .running, thread := .connect }, []) else none
  | .sendStart =>
    if c.thread = .connect then some ({ c with thread := .poll }, [⟨.Start, pid⟩]) else none
  | .pollIn =>
    if c.thread = .poll ∧ c.inbox ≠ [] then
      some ({ c with registered := true, thread := .header }, [])
    else none
  | .pollTimeout =>
    if c.thread = .poll ∧ c.inbox = [] then some ({ c with thread := .returned }, []) else none
  | .recvHeader =>
    -- the receive does not wait, and the frame it gets is never looked at
    if c.thread = .header then some ({ c with inbox := c.inbox.tail, thread := .message }, [])
    else none
  | .recvMessage =>
    match c.thread, c.inbox with
    | .message, m :: rest => some (dispatch { c with inbox := rest } m, [])
    | _, _ => none
  | .stopTest =>
    if c.main = .running then
      some ({ c with main := if c.registered then .sendStop else .stopped }, [])
    else none
  | .sendStop =>
    if c.main = .sendStop then
      some ({ c with main := .joining, stopSent := true }, [⟨.Stop, pid⟩])
    else none
  | .join =>
    if c.main = .joining ∧ c.thread = .returned then some ({ c with main := .stopped }, []) else none

variable {ι : Type*} [DecidableEq ι]

/-- The server, the clients and what is under way between them. `sent i` records everything the
    server has sent to `i`. -/
structure World (ι : Type*) where
  server : Server ι
  client : ι → Client
  up : ι → List Message
  down : ι → List Message
  sent : ι → List Message

inductive Action (ι : Type*) where
  | move (i : ι) (m : Move)
  | arrive (i : ι)
  | handle (i : ι)

/-- A client before `start()`. -/
def Client.new (defaultNumThreads : ℤ) : Client :=
  ⟨.fresh, .none, false, false, false, [], defaultNumThreads, [], []⟩

def World.new (resources : ℕ) (defaultNumThreads : ℤ) : World ι :=
  ⟨Server.new resources, fun _ => Client.new defaultNumThreads, fun _ => [], fun _ => [], fun _ => []⟩

/-- The messages of a broadcast that are addressed to `i`. -/
def addressed (i : ι) (ms : List (ι × Message)) : List Message :=
  (ms.filter fun m => m.1 = i).map (·.2)

/-- A step of client `i`; an exited process takes none. -/
def moveStep (pid : ι → ℤ) (w : World ι) (i : ι) (m : Move) : Option (World ι) :=
  if (w.client i).exited then none
  else (clientStep (pid i) (w.client i) m).map fun r =>
    { w with
      client := Function.update w.client i r.1
      up := Function.update w.up i (w.up i ++ r.2) }

/-- The first frame on its way to `i` arrives at its socket. -/
def arriveStep (w : World ι) (i : ι) : Option (World ι) :=
  match w.down i with
  | [] => none
  | m :: rest =>
    some { w with
      down := Function.update w.down i rest
      client := Function.update w.client i
        { w.client i with inbox := (w.client i).inbox ++ [m] } }

/-- The server takes the next message of `i` and runs `sched`. -/
def handleStep (py : Python ι) (w : World ι) (i : ι) : Option (World ι) :=
  match w.server.alive, w.up i with
  | true, m :: rest =>
    some { w with
      server := (sched py w.server i m).1
      up := Function.update w.up i rest
      down := fun j => w.down j ++ addressed j (sched py w.server i m).2
      sent := fun j => w.sent j ++ addressed j (sched py w.server i m).2 }
  | _, _ => none

def step (py : Python ι) (pid : ι → ℤ) (w : World ι) : Action ι → Option (World ι)
  | .move i m => moveStep pid w i m
  | .arrive i => arriveStep w i
  | .handle i => handleStep py w i

/-! ### What one step can do -/

/-- The nine steps of a client, each with its guard and its effect. -/
theorem clientStep_cases {pid : ℤ} {c c' : Client} {mv : Move} {ms : List Message}
    (h : clientStep pid c mv = some (c', ms)) :
    (mv = .start ∧ c.main = .fresh ∧ c' = { c with main := .running, thread := .connect } ∧ ms = []) ∨
    (mv = .sendStart ∧ c.thread = .connect ∧ c' = { c with thread := .poll } ∧ ms = [⟨.Start, pid⟩]) ∨
    (mv = .pollIn ∧ c.thread = .poll ∧ c' = { c with registered := true, thread := .header } ∧
      ms = []) ∨
    (mv = .pollTimeout ∧ c.thread = .poll ∧ c' = { c with thread := .returned } ∧ ms = []) ∨
    (mv = .recvHeader ∧ c.thread = .header ∧
      c' = { c with inbox := c.inbox.tail, thread := .message } ∧ ms = []) ∨
    (mv = .recvMessage ∧ c.thread = .message ∧ ms = [] ∧
      ∃ m rest, c.inbox = m :: rest ∧ c' = dispatch { c with inbox := rest } m) ∨
    (mv = .stopTest ∧ c.main = .running ∧
      c' = { c with main := if c.registered then .sendStop else .stopped } ∧ ms = []) ∨
    (mv = .sendStop ∧ c.main = .sendStop ∧ c' = { c with main := .joining, stopSent := true } ∧
      ms = [⟨.Stop, pid⟩]) ∨
    (mv = .join ∧ c.main = .joining ∧ c' = { c with main := .stopped } ∧ ms = []) := by
  cases mv with
  | recvMessage =>
    simp only [clientStep] at h
    split at h
    · rename_i m rest ht hi
      obtain ⟨rfl, rfl⟩ := Prod.mk.inj (Option.some.inj h)
      simp [ht, hi]
    · exact absurd h (by simp)
  | _ =>
    simp only [clientStep, Option.ite_none_right_eq_some, Option.some.injEq, Prod.mk.injEq] at h
    obtain ⟨hg, rfl, rfl⟩ := h
    simp [hg]

theorem moveStep_eq_some {pid : ι → ℤ} {w w' : World ι} {i : ι} {m : Move}
    (h : moveStep pid w i m = some w') :
    (w.client i).exited = false ∧ ∃ c ms, clientStep (pid i) (w.client i) m = some (c, ms) ∧
      w' = { w with client := Function.update w.client i c,
                    up := Function.update w.up i (w.up i ++ ms) } := by
  unfold moveStep at h
  split at h
  · exact absurd h (by simp)
  · rename_i hx
    obtain ⟨⟨c, ms⟩, hc, rfl⟩ := Option.map_eq_some_iff.mp h
    exact ⟨by simpa using hx, c, ms, hc, rfl⟩

theorem arriveStep_eq_some {w w' : World ι} {i : ι} (h : arriveStep w i = some w') :
    ∃ m rest, w.down i = m :: rest ∧
      w' = { w with down := Function.update w.down i rest,
                    client := Function.update w.client i
                      { w.client i with inbox := (w.client i).inbox ++ [m] } } := by
  unfold arriveStep at h
  split at h
  · exact absurd h (by simp)
  · rename_i m rest hd
    exact ⟨m, rest, hd, (Option.some.inj h).symm⟩

theorem handleStep_eq_some {py : Python ι} {w w' : World ι} {i : ι}
    (h : handleStep py w i = some w') :
    w.server.alive = true ∧ ∃ m rest, w.up i = m :: rest ∧
      w' = { w with server := (sched py w.server i m).1,
                    up := Function.update w.up i rest,
                    down := fun j => w.down j ++ addressed j (sched py w.server i m).2,
                    sent := fun j => w.sent j ++ addressed j (sched py w.server i m).2 } := by
  unfold handleStep at h
  split at h
  · rename_i m rest ha hu
    exact ⟨ha, m, rest, hu, (Option.some.inj h).symm⟩
  · exact absurd h (by simp)

/-- Handling a message changes the registration of its sender only, also when `sched` raises. -/
theorem mem_sched (py : Python ι) (s : Server ι) (i : ι) (m : Message) (j : ι) :
    j ∈ (sched py s i m).1.tasks ↔ j ∈ (register s.tasks i m).1 :=
  mem_schedule py _ _ j

theorem mem_register_ne {t : Tasks ι} {i j : ι} (m : Message) (h : j ≠ i) :
    j ∈ (register t i m).1 ↔ j ∈ t := by
  unfold register
  cases m.type <;> simp [AList.mem_insert, AList.mem_erase, h]

/-- The closing loop of `sched` sends Updates, and only to the tasks it walks over. -/
theorem mem_sendUpdates (py : Python ι) (t : Tasks ι) : ∀ (ids : List ι) (x : ι × Message),
    x ∈ (sendUpdates py t ids).1 → x.1 ∈ ids ∧ x.2.type = .Update
  | [], x, hx => by simp [sendUpdates] at hx
  | i :: ids, x, hx => by
      rw [sendUpdates] at hx
      split at hx
      · simp at hx
      · rename_i m hm
        rcases List.mem_cons.mp hx with rfl | hx
        · obtain ⟨r, -, hr⟩ := Option.bind_eq_some_iff.mp hm
          obtain ⟨data, -, rfl⟩ := Option.map_eq_some_iff.mp hr
          exact ⟨List.mem_cons_self, rfl⟩
        · obtain ⟨hi, hu⟩ := mem_sendUpdates py t ids x hx
          exact ⟨List.mem_cons_of_mem _ hi, hu⟩

theorem mem_addressed {i : ι} {ms : List (ι × Message)} {m : Message} :
    m ∈ addressed i ms ↔ (i, m) ∈ ms := by
  simp [addressed]

/-- Only the sender of a Stop is sent a Stop. -/
theorem stop_mem_sched {py : Python ι} {s : Server ι} {i j : ι} {m x : Message}
    (h : x ∈ addressed j (sched py s i m).2) (hx : x.type = .Stop) : j = i ∧ m.type = .Stop := by
  rw [mem_addressed] at h
  rcases List.mem_append.mp h with h | h
  · rw [register_ack] at h
    unfold Sched.ack at h
    split at h
    · obtain ⟨-, rfl⟩ := by simpa using h
      exact absurd hx (by decide)
    · rename_i hm
      exact ⟨(Prod.mk.inj (List.mem_singleton.mp h)).1, hm⟩
    · simp at h
  · exact absurd (mem_sendUpdates _ _ _ _ h).2 (by rw [hx]; decide)

theorem addressed_append (i : ι) (a b : List (ι × Message)) :
    addressed i (a ++ b) = addressed i a ++ addressed i b := by
  simp [addressed]

/-- A client that is no task afterwards is sent nothing but its acknowledgement. -/
theorem addressed_sched {py : Python ι} {s : Server ι} {i j : ι} {m : Message}
    (hi : i ∉ (sched py s j m).1.tasks) :
    addressed i (sched py s j m).2 = addressed i (Sched.ack j m) := by
  have hnone : addressed i (sendUpdates py (sched py s j m).1.tasks
      (py.iter (sched py s j m).1.tasks.keys)).1 = [] := by
    rw [List.eq_nil_iff_forall_not_mem]
    intro x hx
    exact hi ((py.perm _).mem_iff.mp (mem_sendUpdates _ _ _ _ (mem_addressed.mp hx)).1)
  rw [show (sched py s j m).2 = (register s.tasks j m).2 ++ (sendUpdates py
    (sched py s j m).1.tasks (py.iter (sched py s j m).1.tasks.keys)).1 from rfl,
    addressed_append, hnone, List.append_nil, register_ack]

theorem addressed_ack_ne {i j : ι} (m : Message) (h : i ≠ j) : addressed i (Sched.ack j m) = [] := by
  unfold Sched.ack addressed
  split <;> simp [Ne.symm h]

end Turkey.Protocol
