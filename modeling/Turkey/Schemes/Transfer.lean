import Mathlib.Tactic

/-! Transfers in parts.

    A call that moves bytes to or from a file may move fewer than it was asked to, be interrupted, or
    fail; whoever needs all of them asks again for the rest. `transfer` is how such a loop should go: an
    answer that only says to try again leads to the same request once more, any other failure ends it, and
    so does an answer of no bytes where that means the end of the file. -/

namespace Turkey.Transfer

/-- The reasons of a failure that are told apart. -/
inductive Errno where
  | eintr
  | eagain
  | other
  deriving DecidableEq

/-- The answer to one request: as many bytes as there are and were asked for, but at most `k`; or a
    failure. -/
inductive Answer where
  | upto (k : ℕ)
  | fail (e : Errno)
  deriving DecidableEq

/-- How a transfer stands: the last request is not answered yet, all was moved, the end of the file came,
    or a failure. -/
inductive Verdict where
  | waiting
  | full
  | ended
  | failed
  deriving DecidableEq

/-- The requests made (how much had been moved, how much was asked for), how it stands, and how much has
    been moved. -/
structure Report where
  requests : List (ℕ × ℕ)
  verdict : Verdict
  moved : ℕ
  deriving DecidableEq

/-- One more request before the others. -/
def Report.ask (r : Report) (request : ℕ × ℕ) : Report := { r with requests := request :: r.requests }

/-- What an answer moves when `done` of the `len` bytes have been moved and the file has `avail`. -/
def amount (len avail done k : ℕ) : ℕ := min (min (len - done) k) (avail - done)

section
variable (again : Errno → Prop) [DecidablePred again] (ends : Bool) (len avail : ℕ)

/-- A transfer of `len` bytes. A failure in `again` is tried again; with `ends`, no bytes are the end of
    the file. -/
def transfer : ℕ → List Answer → Report
  | done, [] => if len ≤ done then ⟨[], .full, done⟩ else ⟨[(done, len - done)], .waiting, done⟩
  | done, .fail e :: as =>
      if len ≤ done then ⟨[], .full, done⟩
      else if again e then (transfer done as).ask (done, len - done)
      else ⟨[(done, len - done)], .failed, done⟩
  | done, .upto k :: as =>
      if len ≤ done then ⟨[], .full, done⟩
      else if ends = true ∧ amount len avail done k = 0 then ⟨[(done, len - done)], .ended, done⟩
      else (transfer (done + amount len avail done k) as).ask (done, len - done)

variable {again ends len avail}

end

end Turkey.Transfer
