import Turkey.Dedup.Accept
import Turkey.Schemes.Transfer

/-! What `xread`, `xwrite` and `Decode` make of the results of `read` and `write` (`util.c`, `decoder.c`):
    short transfers, interruptions and errors in any order.

    `xread` keeps the result of `read` in a `size_t`, so that it never looks negative and -1 is added like
    any other number: at the start of a buffer the count becomes 2^64 - 1, which ends the loop and is -1 as
    an `int`; later it loses the last byte that came in, and the reading goes on. `xwrite` has a signed
    result and is right, but `Decode` compares what it returns with a `size_t`, so that -1 passes. -/

namespace Turkey.Xio
open Turkey.Rabin Turkey.Transfer
open Turkey.Archive (Record)
open Turkey.Format (Zlib Digest CompressType sha1Len checkbit typeFingerprint typeCompress ofLe findEntry)
open Turkey.Accept (Junk)

/-- A call of `xread` or `xwrite`: the requests it made of the system (how far it was, how much it asked
    for), what it returned unless the last of them is not answered, the buffer, the rest of the input file
    or what is in the output file, and the answers that are left. -/
structure Call where
  requests : List (ℕ × ℕ)
  ret : Option ℤ
  buf : Bytes
  file : Bytes
  answers : List Answer

def Call.ask (c : Call) (request : ℕ × ℕ) : Call := { c with requests := request :: c.requests }

/-- `read`: its result, the bytes and the rest of the file. -/
def read (count : ℕ) (file : Bytes) : Answer → ℤ × Bytes × Bytes
  | .upto k => ((file.take (min count k)).length, file.take (min count k), file.drop (min count k))
  | .fail _ => (-1, [], file)

/-- The bytes are put into the buffer at a place. -/
def store (buf : Bytes) (pos : ℕ) (x : Bytes) : Bytes := buf.take pos ++ x ++ buf.drop (pos + x.length)

/-- The loop of `xread`. `nrecv` and `rv` are of type `size_t`; `p` is always `nrecv` bytes into `buf`. -/
def xreadLoop (nrecv : ℕ) (buf file : Bytes) : List Answer → Call
  | [] =>
      if nrecv < buf.length then ⟨[(nrecv, buf.length - nrecv)], none, buf, file, []⟩
      else ⟨[], some (int32 nrecv), buf, file, []⟩
  | a :: as =>
      if nrecv < buf.length then
        let (r, x, file) := read (buf.length - nrecv) file a
        let rv := toSize r
        let call :=
          if 0 > rv ∧ a = .fail .eintr then xreadLoop nrecv buf file as
          else if 0 > rv then ⟨[], some (-1), buf, file, as⟩
          else if rv = 0 then ⟨[], some 0, buf, file, as⟩
          else xreadLoop ((nrecv + rv) % 2 ^ 64) (store buf nrecv x) file as
        call.ask (nrecv, buf.length - nrecv)
      else ⟨[], some (int32 nrecv), buf, file, a :: as⟩

def xread (buf file : Bytes) (as : List Answer) : Call := xreadLoop 0 buf file as

/-- `write`: its result, and the bytes that are now in the file. -/
def write (data : Bytes) : Answer → ℤ × Bytes
  | .upto k => ((data.take k).length, data.take k)
  | .fail _ => (-1, [])

/-- The loop of `xwrite`. `rv` is of type `ssize_t` here; `nsent` never exceeds the length. -/
def xwriteLoop (data : Bytes) (nsent : ℕ) (file : Bytes) : List Answer → Call
  | [] =>
      if nsent < data.length then ⟨[(nsent, data.length - nsent)], none, data, file, []⟩
      else ⟨[], some (int32 nsent), data, file, []⟩
  | a :: as =>
      if nsent < data.length then
        let (rv, x) := write (data.drop nsent) a
        let call :=
          if 0 > rv ∧ (a = .fail .eintr ∨ a = .fail .eagain) then xwriteLoop data nsent file as
          else if 0 > rv then ⟨[], some (-1), data, file, as⟩
          else xwriteLoop data (nsent + rv.toNat) (file ++ x) as
        call.ask (nsent, data.length - nsent)
      else ⟨[], some (int32 nsent), data, file, a :: as⟩

def xwrite (data file : Bytes) (as : List Answer) : Call := xwriteLoop data 0 file as

/-! ### What a call should report -/

/-- The first `done` bytes of the file are in the buffer, and the others still to be read. -/
structure Received (whole : Bytes) (done : ℕ) (buf file : Bytes) : Prop where
  fits : done ≤ buf.length
  had : done ≤ whole.length
  stored : buf.take done = whole.take done
  rest : file = whole.drop done

theorem Received.amount_eq {whole buf file : Bytes} {done : ℕ} (h : Received whole done buf file) (k : ℕ) :
    (file.take (min (buf.length - done) k)).length = amount buf.length whole.length done k := by
  rw [List.length_take, h.rest, List.length_drop, amount]

@[simp] theorem store_length {buf x : Bytes} {pos : ℕ} (h : pos + x.length ≤ buf.length) :
    (store buf pos x).length = buf.length := by
  simp only [store, List.length_append, List.length_take, List.length_drop]
  omega

/-- The bytes of an answer join those received. -/
theorem Received.next {whole buf file : Bytes} {done : ℕ} (h : Received whole done buf file) (k : ℕ) :
    Received whole (done + amount buf.length whole.length done k)
      (store buf done (file.take (min (buf.length - done) k))) (file.drop (min (buf.length - done) k)) := by
  have hamount := h.amount_eq k
  have hfits := h.fits
  have hhad := h.had
  have hle : done + amount buf.length whole.length done k ≤ buf.length := by
    unfold amount
    omega
  have hdone : (buf.take done).length = done := by rw [List.length_take, min_eq_left hfits]
  -- taking or dropping what was asked for is taking or dropping what came
  have hmin : amount buf.length whole.length done k = min (min (buf.length - done) k) file.length := by
    rw [← hamount, List.length_take]
  refine ⟨?_, ?_, ?_, ?_⟩
  · rw [store_length (by rw [hamount]; exact hle)]
    exact hle
  · unfold amount
    omega
  · rw [store, List.take_left' (by rw [List.length_append, hdone, hamount]), h.stored, List.take_add,
      ← h.rest, hmin, ← List.take_eq_take_min]
  · rw [← List.drop_drop, ← h.rest, hmin, ← List.drop_eq_drop_min]

theorem xwriteLoop_full {nsent : ℕ} {data : Bytes} (h : data.length ≤ nsent) (file : Bytes) :
    ∀ as, xwriteLoop data nsent file as = ⟨[], some (int32 nsent), data, file, as⟩
  | [] => by rw [xwriteLoop, if_neg (Nat.not_lt.mpr h)]
  | a :: as => by rw [xwriteLoop, if_neg (Nat.not_lt.mpr h)]

/-- An interruption, or a file that is not ready: the same request again. Any other failure: -1. -/
theorem xwriteLoop_fail {nsent : ℕ} {data : Bytes} (h : nsent < data.length) (file : Bytes) (e : Errno)
    (as : List Answer) : xwriteLoop data nsent file (.fail e :: as)
      = (if e = .eintr ∨ e = .eagain then xwriteLoop data nsent file as
          else ⟨[], some (-1), data, file, as⟩).ask (nsent, data.length - nsent) := by
  rw [xwriteLoop, if_pos h]
  simp only [write, Answer.fail.injEq]
  cases e <;> rfl

/-- The bytes that one answer takes. -/
theorem xwriteLoop_upto {nsent k : ℕ} {data : Bytes} (h : nsent < data.length) (file : Bytes)
    (as : List Answer) : xwriteLoop data nsent file (.upto k :: as)
      = (xwriteLoop data (nsent + ((data.drop nsent).take k).length)
          (file ++ (data.drop nsent).take k) as).ask (nsent, data.length - nsent) := by
  have hrv : ¬0 > (write (data.drop nsent) (.upto k)).1 := by
    rw [write]
    omega
  rw [xwriteLoop, if_pos h]
  simp only [hrv, false_and, if_false]
  rfl

/-- The rest of the input file with the answers to `read`, and the output file with the answers to
    `write`. -/
structure World where
  file : Bytes
  reads : List Answer
  out : Bytes
  writes : List Answer
  deriving DecidableEq

/-- What becomes of a piece of the program: it waits for an answer, it exits with an error, or it is done. -/
inductive Result (α : Type) where
  | waiting
  | exit
  | done (a : α) (w : World)
  deriving DecidableEq

def Io (α : Type) : Type := World → Result α

namespace Io

instance : Monad Io where
  pure a := fun w => .done a w
  bind x f := fun w => match x w with
    | .waiting => .waiting
    | .exit => .exit
    | .done a w' => f a w'

/-- `EXIT_TRACE` -/
def exit {α : Type} : Io α := fun _ => .exit

def xread (buf : Bytes) : Io (ℤ × Bytes) := fun w =>
  let c := Xio.xread buf w.file w.reads
  match c.ret with
  | none => .waiting
  | some r => .done (r, c.buf) { w with file := c.file, reads := c.answers }

def xwrite (data : Bytes) : Io ℤ := fun w =>
  let c := Xio.xwrite data w.out w.writes
  match c.ret with
  | none => .waiting
  | some r => .done r { w with out := c.file, writes := c.answers }

end Io

section Decode
variable (junk : Junk)

/-- It makes `Decode` exit when it returns -1; a result of 0 of `xread` is not looked for. -/
def readHeader : Io UInt8 := do
  let (r, check) ← Io.xread junk.checkbit
  if r < 0 then Io.exit
  else if ofLe check ≠ checkbit then Io.exit
  else
    let (r, type) ← Io.xread [junk.compressType]
    if r < 0 then Io.exit else pure (type.headD 0)

/-- The `switch` of `read_chunk`. -/
def readContent (type : Bytes) (len : ℕ) : Io (ℤ × Record Bytes Bytes) :=
  if type = [typeFingerprint] then
    if len ≠ sha1Len then Io.exit
    else do
      let (r, sha1) ← Io.xread (junk.fresh sha1Len)
      if r < 0 then Io.exit
      else if r = 0 then Io.exit
      else pure (int32 len, .fingerprint sha1)
  else if type = [typeCompress] then
    if len = 0 then Io.exit
    else do
      let (r, data) ← Io.xread (junk.fresh len)
      if r < 0 then Io.exit
      else if r = 0 then Io.exit
      else pure (int32 len, .compress data)
  else Io.exit

/-- `none` when it returns 0 at the end of the file. -/
def readChunk : Io (Option (ℤ × Record Bytes Bytes)) := do
  let (r, type) ← Io.xread (junk.fresh 1)
  if r < 0 then Io.exit
  else if r = 0 then pure none
  else
    let (r, len) ← Io.xread (junk.fresh 8)
    if r < 0 then Io.exit
    else if r = 0 then Io.exit
    else
      let chunk ← readContent junk type (ofLe len)
      pure (some chunk)

variable (sha1 : Bytes → Digest) (z : Zlib)

/-- The main loop of `Decode`, at most `turns` times round. The result is the data of every chunk there
    was, in order. -/
def decodeLoop (type : Option CompressType) :
    ℕ → (Bytes → Option Bytes) → List Bytes → Io (List Bytes)
  | 0, _, _ => fun _ => .waiting
  | turns + 1, cache, chunks => do
      match ← readChunk junk with
      | none => pure chunks
      | some (r, record) =>
        if r < 0 then Io.exit
        else if r = 0 then pure chunks
        else
          match findEntry sha1 z type cache record with
          | none => Io.exit
          | some (data, cache) =>
            let r ← Io.xwrite data
            -- an `int` on the left and a `size_t` on the right
            if toSize r < data.length then Io.exit
            else decodeLoop type turns cache (chunks ++ [data])

def decode (turns : ℕ) : Io (List Bytes) := do
  let compressType ← readHeader junk
  decodeLoop junk sha1 z (CompressType.ofCode compressType) turns (fun _ => none) []

end Decode

/-! ### Reading leaves the output alone -/

theorem bind_done {α β : Type} {x : Io α} {f : α → Io β} {w w' : World} {b : β}
    (h : (x >>= f) w = .done b w') : ∃ a w1, x w = .done a w1 ∧ f a w1 = .done b w' := by
  simp only [bind] at h
  split at h
  · cases h
  · cases h
  · rename_i a w1 hx
    exact ⟨a, w1, hx, h⟩

/-- The program only reads. -/
def OnlyReads {α : Type} (x : Io α) : Prop :=
  ∀ w a w', x w = .done a w' → w'.out = w.out ∧ w'.writes = w.writes

namespace OnlyReads
variable {α β : Type}

theorem pure (a : α) : OnlyReads (pure a : Io α) := by
  intro w b w' h
  cases h
  exact ⟨rfl, rfl⟩

theorem exit : OnlyReads (Io.exit : Io α) := fun _ _ _ h => nomatch h

theorem bind {x : Io α} {f : α → Io β} (hx : OnlyReads x) (hf : ∀ a, OnlyReads (f a)) :
    OnlyReads (x >>= f) := by
  intro w b w' h
  obtain ⟨a, w1, h1, h2⟩ := bind_done h
  obtain ⟨hout, hwrites⟩ := hx w a w1 h1
  obtain ⟨hout', hwrites'⟩ := hf a w1 b w' h2
  exact ⟨hout'.trans hout, hwrites'.trans hwrites⟩

theorem ite {p : Prop} [Decidable p] {x y : Io α} (hx : OnlyReads x) (hy : OnlyReads y) :
    OnlyReads (if p then x else y) := by
  split
  · exact hx
  · exact hy

theorem xread (buf : Bytes) : OnlyReads (Io.xread buf) := by
  intro w a w' h
  simp only [Io.xread] at h
  split at h
  · cases h
  · cases h
    exact ⟨rfl, rfl⟩

theorem readHeader (junk : Junk) : OnlyReads (readHeader junk) :=
  (xread _).bind fun _ => exit.ite (exit.ite ((xread _).bind fun _ => exit.ite (pure _)))

theorem readContent (junk : Junk) (type : Bytes) (len : ℕ) : OnlyReads (readContent junk type len) :=
  (exit.ite ((xread _).bind fun _ => exit.ite (exit.ite (pure _)))).ite
    ((exit.ite ((xread _).bind fun _ => exit.ite (exit.ite (pure _)))).ite exit)

theorem readChunk (junk : Junk) : OnlyReads (readChunk junk) :=
  (xread _).bind fun _ => exit.ite ((pure _).ite ((xread _).bind fun _ =>
    exit.ite (exit.ite ((readContent junk _ _).bind fun _ => pure _))))

end OnlyReads

/-! ### What is written -/

/-- The answer moves bytes or only asks to try again. -/
def Soft : Answer → Prop
  | .upto _ => True
  | .fail e => e = .eintr ∨ e = .eagain

instance : DecidablePred Soft
  | .upto _ => inferInstanceAs (Decidable True)
  | .fail e => inferInstanceAs (Decidable (e = .eintr ∨ e = .eagain))

/-- A call of `xwrite` that returns has put all that was left of the data into the file, if no `write`
    failed, and only a part of it otherwise. -/
theorem xwriteLoop_wrote {data : Bytes} : ∀ (as : List Answer) {done : ℕ} {file : Bytes} {v : ℤ},
    (xwriteLoop data done file as).ret = some v →
    ∃ used x, as = used ++ (xwriteLoop data done file as).answers ∧
      (xwriteLoop data done file as).file = file ++ x ∧ x.length ≤ (data.drop done).length ∧
      (x = data.drop done ↔ ∀ a ∈ used, Soft a)
  | as, done, file, v, hret => by
      rcases Nat.lt_or_ge done data.length with hlt | hfull
      · match as with
        | [] =>
          rw [xwriteLoop, if_pos hlt] at hret
          cases hret
        | .fail e :: as =>
          rw [xwriteLoop_fail hlt] at hret ⊢
          by_cases he : e = .eintr ∨ e = .eagain
          · rw [if_pos he] at hret ⊢
            obtain ⟨used, x, has, hfile, hx, hiff⟩ := xwriteLoop_wrote as hret
            refine ⟨.fail e :: used, x, ?_, hfile, hx, ?_⟩
            · rw [List.cons_append, Call.ask, ← has]
            · rw [hiff, List.forall_mem_cons, and_iff_right (show Soft (.fail e) from he)]
          · rw [if_neg he]
            refine ⟨[.fail e], [], rfl, (List.append_nil file).symm, Nat.zero_le _, iff_of_false ?_ ?_⟩
            · intro hnil
              rw [eq_comm, List.drop_eq_nil_iff] at hnil
              omega
            · exact fun hall => he (hall _ (List.mem_singleton_self _))
        | .upto k :: as =>
          rw [xwriteLoop_upto hlt] at hret ⊢
          obtain ⟨used, x, has, hfile, hx, hiff⟩ := xwriteLoop_wrote as hret
          have hsplit : (data.drop done).take k ++ data.drop (done + ((data.drop done).take k).length)
              = data.drop done := by
            rw [← List.drop_drop, List.length_take, ← List.drop_eq_drop_min, List.take_append_drop]
          refine ⟨.upto k :: used, (data.drop done).take k ++ x, ?_, ?_, ?_, ?_⟩
          · rw [List.cons_append, Call.ask, ← has]
          · rw [Call.ask, hfile, List.append_assoc]
          · have hlength := congrArg List.length hsplit
            rw [List.length_append] at hlength
            rw [List.length_append, ← hlength]
            exact Nat.add_le_add_left hx _
          · rw [List.forall_mem_cons, and_iff_right (show Soft (.upto k) from trivial), ← hiff]
            constructor
            · exact fun heq => List.append_cancel_left (heq.trans hsplit.symm)
            · rintro rfl
              exact hsplit
      · rw [xwriteLoop_full hfull]
        refine ⟨[], [], rfl, (List.append_nil file).symm, Nat.zero_le _, iff_of_true ?_ (by simp)⟩
        rw [List.drop_of_length_le hfull]

/-- Between two states of the files `data` was to be written: all of it was, exactly when no `write`
    failed. -/
def Wrote (w w' : World) (data : Bytes) : Prop :=
  ∃ used x, w.writes = used ++ w'.writes ∧ w'.out = w.out ++ x ∧ x.length ≤ data.length ∧
    (x = data ↔ ∀ a ∈ used, Soft a)

theorem wrote_nil {w w' : World} (hout : w'.out = w.out) (hwrites : w'.writes = w.writes) :
    Wrote w w' [] :=
  ⟨[], [], by rw [hwrites]; rfl, by rw [hout, List.append_nil], le_rfl, iff_of_true rfl (by simp)⟩

theorem Wrote.trans {w w1 w' : World} {data data' : Bytes} (h : Wrote w w1 data) (h' : Wrote w1 w' data') :
    Wrote w w' (data ++ data') := by
  obtain ⟨used, x, hwrites, hout, hx, hiff⟩ := h
  obtain ⟨used', x', hwrites', hout', hx', hiff'⟩ := h'
  refine ⟨used ++ used', x ++ x', ?_, ?_, ?_, ?_⟩
  · rw [hwrites, hwrites', List.append_assoc]
  · rw [hout', hout, List.append_assoc]
  · rw [List.length_append, List.length_append]
    omega
  · rw [List.forall_mem_append, ← hiff, ← hiff']
    constructor
    · intro heq
      have hlength := congrArg List.length heq
      rw [List.length_append, List.length_append] at hlength
      exact List.append_inj heq (by omega)
    · rintro ⟨rfl, rfl⟩
      rfl

theorem xwrite_wrote {data : Bytes} {w w' : World} {r : ℤ} (h : Io.xwrite data w = .done r w') :
    Wrote w w' data := by
  simp only [Io.xwrite] at h
  split at h
  · cases h
  · rename_i v hret
    cases h
    exact xwriteLoop_wrote w.writes hret

/-- A run of the main loop adds the data of its chunks to those there were, and writes it. -/
theorem decodeLoop_wrote (junk : Junk) (sha1 : Bytes → Digest) (z : Zlib) (type : Option CompressType) :
    ∀ (turns : ℕ) {cache : Bytes → Option Bytes} {chunks chunks' : List Bytes} {w w' : World},
    decodeLoop junk sha1 z type turns cache chunks w = .done chunks' w' →
    ∃ new, chunks' = chunks ++ new ∧ Wrote w w' new.flatten
  | 0, _, _, _, _, _, h => nomatch h
  | turns + 1, cache, chunks, chunks', w, w', h => by
      rw [decodeLoop] at h
      obtain ⟨chunk, w1, hread, h⟩ := bind_done h
      obtain ⟨hout, hwrites⟩ := OnlyReads.readChunk junk w chunk w1 hread
      have hfirst := wrote_nil hout hwrites
      -- the loop is left
      have hstop : (pure chunks : Io (List Bytes)) w1 = .done chunks' w' →
          ∃ new, chunks' = chunks ++ new ∧ Wrote w w' new.flatten := by
        intro hpure
        cases hpure
        exact ⟨[], (List.append_nil chunks).symm, hfirst⟩
      match chunk with
      | none => exact hstop h
      | some (r, record) =>
        simp only at h
        split at h
        · cases h
        · split at h
          · exact hstop h
          · rcases hentry : findEntry sha1 z type cache record with _ | ⟨data, cache'⟩
            · rw [hentry] at h
              cases h
            · rw [hentry] at h
              obtain ⟨r, w2, hwrite, h⟩ := bind_done h
              split at h
              · cases h
              · obtain ⟨new, hnew, hrest⟩ := decodeLoop_wrote junk sha1 z type turns h
                refine ⟨data :: new, ?_, ?_⟩
                · rw [hnew, List.append_assoc, List.singleton_append]
                · exact hfirst.trans ((xwrite_wrote hwrite).trans hrest)

/-! ### The results -/

end Turkey.Xio
