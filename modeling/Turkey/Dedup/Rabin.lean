import Mathlib.Logic.Function.Iterate
import Mathlib.Data.Int.Basic
import Mathlib.Data.List.Basic
import Mathlib.Tactic.Ring

/-! Where dedup cuts its input (`rabin.c`). `rabinseg` rolls a Rabin fingerprint over a buffer and
    returns the first offset, from the size of the window on, at which the masked fingerprint is zero,
    and the size of the buffer when there is none. All callers set the window of `rabininit` to zero,
    so the table that should take the oldest byte out of the fingerprint is the identity; what follows
    does not depend on it.

    Sizes are `size_t` in the encoder and `int` in `rabinseg`: `int32` and `toSize` are the
    conversions of a 64-bit machine. -/

namespace Turkey.Rabin

/-- A buffer of `u_char`. -/
abbrev Bytes := List UInt8

/-! ### Integer conversions -/

/-- A number as an `int`. -/
def int32 (z : ℤ) : ℤ := z.bmod (2 ^ 32)

/-- An `int` as a `size_t`. -/
def toSize (z : ℤ) : ℕ := (z % 2 ^ 64).toNat

theorem int32_le {n : ℕ} : int32 n ≤ n := by
  unfold int32
  rw [Int.bmod_def]
  split <;> omega

theorem int32_lt (z : ℤ) : int32 z < 2 ^ 31 := by
  unfold int32
  have := Int.bmod_lt (x := z) (m := 2 ^ 32) (by decide)
  omega

theorem le_int32 (z : ℤ) : -2 ^ 31 ≤ int32 z := by
  unfold int32
  have := Int.le_bmod (x := z) (m := 2 ^ 32) (by decide)
  omega

theorem int32_of_lt {n : ℕ} (h : n < 2 ^ 31) : int32 n = n :=
  Int.bmod_eq_of_le (by omega) (by omega)

theorem toSize_of_nonneg {z : ℤ} (h : 0 ≤ z) (hlt : z < 2 ^ 31) : (toSize z : ℤ) = z := by
  unfold toSize
  omega

/-- A negative `int` is a huge `size_t`. -/
theorem le_toSize_of_neg {z : ℤ} (h : z < 0) (hle : -2 ^ 31 ≤ z) : 2 ^ 63 ≤ toSize z := by
  unfold toSize
  omega

/-! ### The fingerprint -/

def irrpoly : UInt32 := 0x45c2b6a1

/-- `NWINDOW` -/
def nwindow : ℕ := 32

/-- `RabinMask` -/
def rabinMask : UInt32 := 0xfff

/-- `rf_win` and `rf_win_dataprocess` -/
def rfWin : ℕ := 0

/-- One round of the loop of `fpreduce`. -/
def reduceBit (x : UInt32) : UInt32 := if x >>> 31 ≠ 0 then (x <<< 1) ^^^ irrpoly else x <<< 1

def fpreduce (x : UInt32) : UInt32 := reduceBit^[32] x

/-- The table that `fpmkredtab` fills. -/
def rabintab (i : UInt8) : UInt32 := fpreduce i.toUInt32

/-- One round of the loop of `fpwinreduce`. -/
def shiftWin (winval : UInt32) : UInt32 := (winval <<< 8) ^^^ rabintab (winval >>> 24).toUInt8

def fpwinreduce (winlen : ℕ) (x : UInt32) : UInt32 := shiftWin^[winlen - 1] (x ^^^ rabintab 0)

/-- The table that `fpmkwinredtab` fills. -/
def rabinwintab (i : UInt8) : UInt32 := fpwinreduce rfWin i.toUInt32

/-- The fingerprint with one more byte. -/
def roll (h : UInt32) (b : UInt8) : UInt32 :=
  ((h <<< 8) ||| b.toUInt32) ^^^ rabintab (h >>> 24).toUInt8

/-- The `while` loop of `rabinseg` at index `i`: `old` are the bytes from `p[i-NWINDOW]` on, `new` those
    from `p[i]` to the end. -/
def rabinLoop (h : UInt32) (i : ℕ) : Bytes → Bytes → ℕ
  | o :: old, b :: new =>
    let h := roll (h ^^^ rabinwintab o) b
    if h &&& rabinMask = 0 then i + 1 else rabinLoop h (i + 1) old new
  | _, _ => i

def rabinseg (p : Bytes) (n : ℤ) : ℤ :=
  if n < nwindow then n
  else
    let h := (p.take nwindow).foldl roll 0
    if h &&& rabinMask = 0 then nwindow
    else rabinLoop h nwindow p ((p.take n.toNat).drop nwindow)

theorem rabinLoop_mem : ∀ (old new : Bytes) (h : UInt32) (i : ℕ),
    i ≤ rabinLoop h i old new ∧ rabinLoop h i old new ≤ i + new.length
  | [], new, h, i => by simp [rabinLoop]
  | o :: old, [], h, i => by simp [rabinLoop]
  | o :: old, b :: new, h, i => by
      rw [rabinLoop, List.length_cons]
      split
      · omega
      · have := rabinLoop_mem old new (roll (h ^^^ rabinwintab o) b) (i + 1)
        omega

/-- A buffer shorter than the window is returned whole; otherwise the offset lies behind the window. -/
theorem rabinseg_mem {p : Bytes} {n : ℤ} :
    n < nwindow ∧ rabinseg p n = n ∨ nwindow ≤ n ∧ nwindow ≤ rabinseg p n ∧ rabinseg p n ≤ n := by
  unfold rabinseg
  split
  · exact .inl ⟨‹_›, rfl⟩
  · rename_i hn
    refine .inr ⟨not_lt.mp hn, ?_⟩
    dsimp only
    split
    · omega
    · have hmem := rabinLoop_mem p ((p.take n.toNat).drop nwindow) ((p.take nwindow).foldl roll 0) nwindow
      rw [List.length_drop, List.length_take] at hmem
      omega

/-! ### Input without a boundary -/

/-- A byte after which the fingerprint `h` is odd. -/
def quietByte (h : UInt32) : UInt8 := if (rabintab (h >>> 24).toUInt8).toNat % 2 = 1 then 0 else 1

/-- `n` bytes behind the window `w` that keep the fingerprint odd. -/
def quietTail (h : UInt32) : Bytes → ℕ → Bytes
  | o :: w, n + 1 =>
    let b := quietByte (h ^^^ rabinwintab o)
    b :: quietTail (roll (h ^^^ rabinwintab o) b) (w ++ [b]) n
  | _, _ => []

/-- A window whose fingerprint is 1. -/
def quietWindow : Bytes := List.replicate 31 0 ++ [1]

/-- A buffer of `nwindow + n` bytes. -/
def quiet (n : ℕ) : Bytes := quietWindow ++ quietTail 1 quietWindow n

theorem masked_of_odd {h : UInt32} (hodd : h.toNat % 2 = 1) : h &&& rabinMask ≠ 0 := by
  intro h0
  have hbit := congrArg (fun x => x.toNat % 2) h0
  rw [UInt32.toNat_and] at hbit
  have := (Nat.and_mod_two_eq_one (a := h.toNat) (b := rabinMask.toNat)).mpr ⟨hodd, rfl⟩
  rw [this] at hbit
  cases hbit

theorem roll_quietByte (h : UInt32) : (roll h (quietByte h)).toNat % 2 = 1 := by
  unfold roll quietByte
  rw [UInt32.toNat_xor, UInt32.toNat_or, Nat.xor_mod_two_eq_one, Nat.or_mod_two_eq_one]
  split
  · rename_i htab
    simp [htab]
  · rename_i htab
    simp [htab]

theorem quietTail_length : ∀ (n : ℕ) (w : Bytes) (h : UInt32), w ≠ [] → (quietTail h w n).length = n
  | 0, w, h, hw => by cases w <;> rfl
  | n + 1, [], h, hw => absurd rfl hw
  | n + 1, o :: w, h, hw => by
      rw [quietTail, List.length_cons, quietTail_length n _ _ (by simp)]

theorem quiet_length (n : ℕ) : (quiet n).length = nwindow + n := by
  rw [quiet, List.length_append, quietTail_length n _ _ (by decide)]
  rfl

theorem rabinLoop_quietTail : ∀ (n : ℕ) (w : Bytes) (h : UInt32) (i : ℕ), w ≠ [] →
    rabinLoop h i (w ++ quietTail h w n) (quietTail h w n) = i + n
  | 0, w, h, i, hw => by cases w <;> rfl
  | n + 1, [], h, i, hw => absurd rfl hw
  | n + 1, o :: w, h, i, hw => by
      have hodd := masked_of_odd (roll_quietByte (h ^^^ rabinwintab o))
      have ih := rabinLoop_quietTail n (w ++ [quietByte (h ^^^ rabinwintab o)])
        (roll (h ^^^ rabinwintab o) (quietByte (h ^^^ rabinwintab o))) (i + 1) (by simp)
      rw [List.append_assoc, List.singleton_append] at ih
      rw [quietTail, List.cons_append, rabinLoop, if_neg hodd, ih]
      omega

/-- For every size there is a buffer in which `rabinseg` finds nothing. -/
theorem rabinseg_quiet (n : ℕ) : rabinseg (quiet n) (nwindow + n : ℕ) = (nwindow + n : ℕ) := by
  have hwin : (quiet n).take nwindow = quietWindow := List.take_left' rfl
  have htail : ((quiet n).take (nwindow + n)).drop nwindow = quietTail 1 quietWindow n := by
    rw [List.take_of_length_le (quiet_length n).le]
    exact List.drop_left' rfl
  have hstart : quietWindow.foldl roll 0 = 1 := by decide +kernel
  unfold rabinseg
  rw [if_neg (by omega), hwin, hstart, Int.toNat_natCast, htail, if_neg (by decide)]
  exact congrArg _ (rabinLoop_quietTail n quietWindow 1 nwindow (by decide))

end Turkey.Rabin
