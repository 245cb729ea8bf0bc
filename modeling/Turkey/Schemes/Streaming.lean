import Mathlib.Data.List.Basic

/-! Input that goes into a state in blocks of one length, while it comes in pieces of any length: what does not fill
    a block is kept, and the next piece is put behind it. How the input was cut makes no difference. -/

namespace Turkey.Streaming

variable {α σ : Type*} (f : σ → List α → σ) (n : ℕ)

/-- The first `k` blocks go into the state. -/
def absorb : ℕ → σ → List α → σ
  | 0, s, _ => s
  | k + 1, s, l => absorb k (f s (l.take n)) (l.drop n)

/-- All full blocks go into the state. -/
def absorbAll (s : σ) (l : List α) : σ := absorb f n (l.length / n) s l

/-- What does not fill a block. -/
def rest (l : List α) : List α := l.drop (n * (l.length / n))

variable {f n} {s : σ} {a b l : List α}

theorem absorb_add (j k : ℕ) : absorb f n (j + k) s l = absorb f n k (absorb f n j s l) (l.drop (n * j)) := by
  induction j generalizing s l with
  | zero => rw [Nat.zero_add, Nat.mul_zero, List.drop_zero, absorb]
  | succ j ih =>
    rw [Nat.succ_add, absorb, absorb, ih, List.drop_drop]
    congr 2
    rw [Nat.mul_succ, Nat.add_comm]

theorem absorb_append {k : ℕ} (h : n * k ≤ a.length) : absorb f n k s (a ++ b) = absorb f n k s a := by
  induction k generalizing s a with
  | zero => rfl
  | succ k ih =>
    rw [Nat.mul_succ] at h
    have hn : n ≤ a.length := by omega
    rw [absorb, absorb, List.take_append_of_le_length hn, List.drop_append_of_le_length hn, ih]
    rw [List.length_drop]
    omega

theorem length_rest : (rest n l).length = l.length % n := by
  rw [rest, List.length_drop, Nat.mod_def]

theorem rest_of_lt (h : l.length < n) : rest n l = l := by
  rw [rest, Nat.div_eq_of_lt h, Nat.mul_zero, List.drop_zero]

theorem absorbAll_of_lt (h : l.length < n) : absorbAll f n s l = s := by
  rw [absorbAll, Nat.div_eq_of_lt h, absorb]

/-- The first block is taken off. -/
theorem absorbAll_of_le (hn : 0 < n) (h : n ≤ l.length) :
    absorbAll f n s l = absorbAll f n (f s (l.take n)) (l.drop n) := by
  rw [absorbAll, absorbAll, List.length_drop, Nat.div_eq_sub_div hn h, absorb]

theorem absorbAll_cons (hn : 0 < n) (h : a.length = n) : absorbAll f n s (a ++ b) = absorbAll f n (f s a) b := by
  rw [absorbAll_of_le hn (by rw [List.length_append]; omega), List.take_left' h, List.drop_left' h]

theorem absorbAll_single (hn : 0 < n) (h : l.length = n) : absorbAll f n s l = f s l := by
  have hcons := absorbAll_cons (f := f) (s := s) (b := []) hn h
  rwa [List.append_nil, absorbAll_of_lt (l := []) hn] at hcons

theorem rest_of_le (hn : 0 < n) (h : n ≤ l.length) : rest n l = rest n (l.drop n) := by
  rw [rest, rest, List.length_drop, Nat.div_eq_sub_div hn h, List.drop_drop, Nat.mul_succ, Nat.add_comm]

/-- What comes later does not change the blocks that are full. -/
theorem blocks_append (hn : 0 < n) : (a ++ b).length / n = a.length / n + (rest n a ++ b).length / n := by
  rw [List.length_append, List.length_append, length_rest]
  conv_lhs => rw [← Nat.div_add_mod a.length n]
  rw [Nat.add_assoc, Nat.mul_add_div hn]

theorem drop_append : (a ++ b).drop (n * (a.length / n)) = rest n a ++ b :=
  List.drop_append_of_le_length (Nat.mul_div_le _ _)

theorem absorbAll_append (hn : 0 < n) :
    absorbAll f n s (a ++ b) = absorbAll f n (absorbAll f n s a) (rest n a ++ b) := by
  rw [absorbAll, blocks_append hn, absorb_add, drop_append, absorb_append (Nat.mul_div_le _ _)]
  rfl

theorem rest_append (hn : 0 < n) : rest n (a ++ b) = rest n (rest n a ++ b) := by
  rw [rest, blocks_append hn, Nat.mul_add, ← List.drop_drop, drop_append]
  rfl

end Turkey.Streaming
