import Turkey.Dedup.ContentDefined
import Turkey.Schemes.BinaryPoly

/-! The scan of `rabinseg` with tables for a window. When `rabininit` is told the length of the window, the
    table takes a byte out of the fingerprint as it is after all the shifts since it came in, and the
    fingerprint is that of the last `NWINDOW` bytes: their number, as a polynomial over the field of two
    elements, modulo `X ^ 32 + irrpoly`. -/

namespace Turkey.Rabin
open Polynomial Turkey.BinaryPoly

variable {p : Bytes} {n : ℕ}

/-! ### The fingerprint of a window -/

/-- The ring of the remainders modulo `X ^ 32 + irrpoly`. -/
abbrev Remainders := AdjoinRoot (modulus 32 irrpoly.toNat)

noncomputable def num (v : ℕ) : Remainders := remainder 32 irrpoly.toNat v

/-- A shift by one bit. -/
noncomputable def bit : Remainders := root 32 irrpoly.toNat

noncomputable def val (h : UInt32) : Remainders := num h.toNat

noncomputable def byteVal (b : UInt8) : Remainders := num b.toNat

theorem num_zero : num 0 = 0 := remainder_zero

theorem num_shiftLeft_mod (a : ℕ) {k : ℕ} (hk : k ≤ 32) :
    num ((a <<< k) % 2 ^ 32) = num a * bit ^ k + num (a >>> (32 - k)) * bit ^ 32 :=
  remainder_shiftLeft_mod hk

theorem val_xor (g h : UInt32) : val (g ^^^ h) = val g + val h := by
  rw [val, UInt32.toNat_xor]
  exact remainder_xor ..

theorem val_toUInt32 (b : UInt8) : val b.toUInt32 = byteVal b := by
  rw [val, UInt8.toNat_toUInt32, byteVal]

theorem val_reduceBit (h : UInt32) : val (reduceBit h) = val h * bit := by
  have hshift : val (h <<< 1) = val h * bit +
      num (h >>> 31).toNat * bit ^ 32 := by
    have := num_shiftLeft_mod h.toNat (k := 1) (by decide)
    rwa [pow_one] at this
  rw [reduceBit_eq, val_xor, hshift, add_assoc]
  rcases topBit h with htop | htop
  · simp [htop, val, num_zero]
  · have hback : num (1 : UInt32).toNat * bit ^ 32 + val irrpoly = 0 := by
      have hone : num (1 : UInt32).toNat = 1 := remainder_one
      have hpow : bit ^ 32 = val irrpoly := root_pow
      rw [hone, one_mul, hpow, add_self]
    rw [htop, if_pos (by decide), hback, add_zero]

theorem val_iterate_reduceBit (h : UInt32) : ∀ n, val (reduceBit^[n] h) = val h * bit ^ n
  | 0 => by simp
  | n + 1 => by
    rw [Function.iterate_succ_apply', val_reduceBit, val_iterate_reduceBit h n, pow_succ, mul_assoc]

theorem val_rabintab (b : UInt8) : val (rabintab b) = byteVal b * bit ^ 32 := by
  rw [rabintab, fpreduce, val_iterate_reduceBit, val_toUInt32]

theorem byteVal_high (h : UInt32) : byteVal (h >>> 24).toUInt8 = num (h.toNat >>> 24) := by
  have hlt := h.toNat_lt
  have hbyte : (h >>> 24).toUInt8.toNat = h.toNat >>> 24 := by
    rw [UInt32.toNat_toUInt8, UInt32.toNat_shiftRight]
    have hdiv : h.toNat >>> 24 = h.toNat / 2 ^ 24 := Nat.shiftRight_eq_div_pow ..
    exact Nat.mod_eq_of_lt (show h.toNat >>> 24 < 2 ^ 8 by omega)
  rw [byteVal, hbyte]

/-- What is pushed out of the word comes back from the table. -/
theorem val_shiftWin (h : UInt32) : val (shiftWin h) = val h * bit ^ 8 := by
  have hshift : val (h <<< 8) = val h * bit ^ 8 +
      num (h.toNat >>> 24) * bit ^ 32 :=
    num_shiftLeft_mod h.toNat (k := 8) (by decide)
  rw [shiftWin, val_xor, hshift, val_rabintab, byteVal_high, add_assoc, add_self, add_zero]

theorem val_roll (h : UInt32) (b : UInt8) : val (roll h b) = val h * bit ^ 8 + byteVal b := by
  have hroll : roll h b = shiftWin h ^^^ b.toUInt32 := by
    rw [roll, shiftLeft_or_byte, shiftWin, UInt32.xor_assoc, UInt32.xor_comm b.toUInt32, ← UInt32.xor_assoc]
  rw [hroll, val_xor, val_shiftWin, val_toUInt32]

theorem val_iterate_shiftWin (h : UInt32) : ∀ n, val (shiftWin^[n] h) = val h * bit ^ (8 * n)
  | 0 => by simp
  | n + 1 => by
    rw [Function.iterate_succ_apply', val_shiftWin, val_iterate_shiftWin h n, Nat.mul_succ, pow_add, mul_assoc]

/-- The table for a window: the byte after the shifts since it came in. -/
theorem val_winTable (winlen : ℕ) (b : UInt8) :
    val (winTable winlen b) = byteVal b * bit ^ (8 * (winlen - 1)) := by
  have hzero : val (rabintab 0) = 0 := by
    rw [val_rabintab, byteVal, show (0 : UInt8).toNat = 0 from rfl, num_zero, zero_mul]
  rw [winTable, fpwinreduce, val_iterate_shiftWin, val_xor, hzero, add_zero, val_toUInt32]

/-- The number whose bytes these are, the first one most significant. -/
def value (w : Bytes) : ℕ := w.foldl (fun v b => v * 256 + b.toNat) 0

/-- The fingerprint of a window by its definition. -/
noncomputable def direct (w : Bytes) : (ZMod 2)[X] := poly (value w) %ₘ modulus 32 irrpoly.toNat

theorem num_byte (v : ℕ) (b : UInt8) : num (v * 256 + b.toNat) =
    num v * bit ^ 8 + byteVal b := by
  have hlow : (v * 256 + b.toNat) % 2 ^ 8 = b.toNat := by
    have := b.toNat_lt
    omega
  have hhigh : (v * 256 + b.toNat) >>> 8 = v := by
    have := b.toNat_lt
    rw [Nat.shiftRight_eq_div_pow]
    omega
  have hsplit := congrArg (AdjoinRoot.mk (modulus 32 irrpoly.toNat)) (poly_eq_mod_add (v * 256 + b.toNat) 8)
  rw [map_add, map_mul, mk_X_pow, hlow, hhigh] at hsplit
  exact hsplit.trans (add_comm ..)

/-- The fingerprint of a window, in the ring. -/
noncomputable def windowVal (w : Bytes) : Remainders :=
  w.foldl (fun a b => a * bit ^ 8 + byteVal b) 0

theorem windowVal_append (w : Bytes) (b : UInt8) :
    windowVal (w ++ [b]) = windowVal w * bit ^ 8 + byteVal b := by
  rw [windowVal, List.foldl_append]
  rfl

theorem num_value (w : Bytes) : num (value w) = windowVal w := by
  induction w using List.reverseRecOn with
  | nil => exact num_zero
  | append_singleton w b ih =>
    rw [windowVal_append, ← ih, ← num_byte, value, List.foldl_append]
    rfl

theorem val_foldl_roll (w : Bytes) : val (w.foldl roll 0) = windowVal w := by
  induction w using List.reverseRecOn with
  | nil => exact num_zero
  | append_singleton w b ih =>
    rw [windowVal_append, ← ih, List.foldl_append]
    exact val_roll _ b

theorem windowVal_cons (o : UInt8) (w : Bytes) :
    windowVal (o :: w) = byteVal o * bit ^ (8 * w.length) + windowVal w := by
  induction w using List.reverseRecOn with
  | nil => simp [windowVal]
  | append_singleton w b ih =>
    rw [← List.cons_append, windowVal_append, ih, windowVal_append, List.length_append, List.length_singleton,
      Nat.mul_succ, pow_add]
    ring

/-- The scan has the fingerprint of the last bytes. -/
theorem val_fingerprintTab : ∀ k, nwindow + k ≤ p.length →
    val (fingerprintTab (winTable nwindow) p k) = windowVal (window p k)
  | 0, _ => val_foldl_roll _
  | k + 1, h => by
    have hk : k < p.length := by omega
    have hlast : nwindow + k < p.length := by omega
    have hold : window p k = p.getD k 0 :: (p.drop (k + 1)).take (nwindow - 1) := by
      rw [window, List.drop_eq_getElem_cons hk, List.getD_eq_getElem _ _ hk]
      rfl
    have hnew : window p (k + 1) = (p.drop (k + 1)).take (nwindow - 1) ++ [p.getD (nwindow + k) 0] := by
      have hlen : nwindow - 1 < (p.drop (k + 1)).length := by
        rw [List.length_drop, nwindow] at *
        omega
      have hat : (p.drop (k + 1))[nwindow - 1] = p.getD (nwindow + k) 0 := by
        rw [List.getElem_drop, List.getD_eq_getElem _ _ hlast]
        congr 1
        rw [nwindow]
        omega
      rw [← hat, ← List.take_succ_eq_append_getElem hlen]
      rfl
    have hlength : ((p.drop (k + 1)).take (nwindow - 1)).length = nwindow - 1 := by
      rw [List.length_take, List.length_drop, nwindow] at *
      omega
    have ih := val_fingerprintTab k (by omega)
    rw [fingerprintTab, val_roll, val_xor, ih, val_winTable, hold, windowVal_cons, hlength, hnew, windowVal_append,
      add_right_comm, add_self, zero_add]

theorem fingerprintTab_direct {k : ℕ} (h : nwindow + k ≤ p.length) :
    poly (fingerprintTab (winTable nwindow) p k).toNat = direct (window p k) :=
  poly_eq_modByMonic irrpoly.toNat_lt (UInt32.toNat_lt _)
    ((val_fingerprintTab k h).trans (num_value _).symm)

/-- The low bits of the fingerprint of a window, those of the mask, are zero. -/
def DirectCut (w : Bytes) : Prop := ∀ i < 12, (direct w).coeff i = 0

theorem masked_eq_zero_iff (h : UInt32) : h &&& rabinMask = 0 ↔ ∀ i < 12, (poly h.toNat).coeff i = 0 := by
  have hmask : ∀ i, rabinMask.toNat.testBit i = decide (i < 12) := fun i => Nat.testBit_two_pow_sub_one 12 i
  have hbit : ∀ i, (poly h.toNat).coeff i = 0 ↔ h.toNat.testBit i = false := by
    intro i
    rw [coeff_poly]
    cases h.toNat.testBit i <;> simp
  simp only [hbit]
  rw [← UInt32.toNat_inj, UInt32.toNat_and]
  constructor
  · intro hzero i hi
    have := congrArg (fun v => v.testBit i) hzero
    simpa [hmask, hi] using this
  · intro hall
    refine Nat.eq_of_testBit_eq fun i => ?_
    rw [Nat.testBit_and, hmask]
    by_cases hi : i < 12
    · simp [hall i hi]
    · simp [hi]

theorem cutsTab_iff {k : ℕ} (h : nwindow + k ≤ p.length) :
    CutsTab (winTable nwindow) p k ↔ DirectCut (window p k) := by
  rw [CutsTab, masked_eq_zero_iff, fingerprintTab_direct h, DirectCut]

/-- CORRECT: with the tables for the window, the scan goes to the first offset at which the fingerprint of the window
    before it has only zeros in the mask, and to the end when there is none. -/
theorem rabinseg_direct (hn : n ≤ p.length) :
    (∀ i, IsLeast {i | nwindow ≤ i ∧ i ≤ n ∧ DirectCut ((p.drop (i - nwindow)).take nwindow)} i →
      rabinsegTab (winTable nwindow) p n = i) ∧
    ((n < nwindow ∨ ∀ i, nwindow ≤ i → i ≤ n → ¬DirectCut ((p.drop (i - nwindow)).take nwindow)) →
      rabinsegTab (winTable nwindow) p n = n) := by
  have hiff : ∀ i, nwindow ≤ i → i ≤ n →
      (CutsTab (winTable nwindow) p (i - nwindow) ↔ DirectCut ((p.drop (i - nwindow)).take nwindow)) :=
    fun i hi hin => cutsTab_iff (by omega)
  have hfound : nwindow ≤ n → ∃ r : ℕ, rabinsegTab (winTable nwindow) p n = r ∧
      First (fun j => CutsTab (winTable nwindow) p (j - nwindow)) n nwindow r := rabinsegTab_first hn
  constructor
  · intro i hi
    obtain ⟨hwi, hin, -⟩ := hi.1
    obtain ⟨r, hr, hfirst⟩ := hfound (hwi.trans hin)
    rw [hr, hfirst.least (k := i) ?_]
    refine ⟨⟨hwi, hin, (hiff i hwi hin).2 hi.1.2.2⟩, fun j hj => hi.2 ⟨hj.1, hj.2.1, ?_⟩⟩
    exact (hiff j hj.1 hj.2.1).1 hj.2.2
  · intro hnone
    rcases Nat.lt_or_ge n nwindow with hshort | hw
    · exact if_pos (by omega)
    · obtain ⟨r, hr, hfirst⟩ := hfound hw
      rw [hr, hfirst.none fun j hj hjn hcut => ?_]
      exact hnone.resolve_left (not_lt.2 hw) j hj hjn ((hiff j hj hjn).1 hcut)

/-- Three bytes before a window of zeros. -/
def threeAndZeros : Bytes := 1 :: 2 :: 3 :: zeros

theorem not_cuts_three : ∀ k < 3, ¬CutsTab (winTable nwindow) threeAndZeros k := by
  simp only [CutsTab]
  decide +kernel

/-- The scan rolls on over three windows, until the window has only zeros, whose fingerprint is zero. -/
theorem rabinseg_direct_three : 35 ≤ threeAndZeros.length ∧
    rabinsegTab (winTable nwindow) threeAndZeros 35 = 35 := by
  have hlen : 35 ≤ threeAndZeros.length := by decide
  have hzero : direct zeros = 0 := by
    rw [direct, show value zeros = 0 from rfl, poly_zero, zero_modByMonic]
  have hcut : DirectCut zeros := fun i _ => by rw [hzero, coeff_zero]
  refine ⟨hlen, (rabinseg_direct hlen).1 35 ⟨⟨by decide, le_rfl, hcut⟩, fun j hj => ?_⟩⟩
  obtain ⟨hwj, hj35, hdirect⟩ := hj
  by_contra hlt
  have hj' : j < 35 := not_le.1 hlt
  have hk : nwindow + (j - nwindow) ≤ threeAndZeros.length := by omega
  exact not_cuts_three (j - nwindow) (by simp only [nwindow] at hwj ⊢; omega) ((cutsTab_iff hk).2 hdirect)

end Turkey.Rabin
