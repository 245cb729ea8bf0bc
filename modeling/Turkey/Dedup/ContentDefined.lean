import Mathlib.Data.List.Nodup
import Turkey.Dedup.Scan

/-! Whether `rabinseg` cuts by content. The scan should take the oldest byte out of the fingerprint before it
    takes the next one in, so that the fingerprint is that of the last `NWINDOW` bytes. With the tables that
    the encoders build, it takes the byte out as if it had just come in: the fingerprint is that of the
    window and something that all bytes before the window have left behind.

    Everything the scan does to the fingerprint is linear over exclusive or, so what the bytes before a
    window leave can be studied with the window set to zero. -/

namespace Turkey.Rabin

/-- The fingerprint of the scan at offset `nwindow + k`. -/
def fingerprint (p : Bytes) : ℕ → UInt32
  | 0 => (p.take nwindow).foldl roll 0
  | k + 1 => roll (fingerprint p k ^^^ rabinwintab (p.getD k 0)) (p.getD (nwindow + k) 0)

/-- The scan cuts at offset `nwindow + k` if it gets there. -/
def Cuts (p : Bytes) (k : ℕ) : Prop := fingerprint p k &&& rabinMask = 0

instance (p : Bytes) (k : ℕ) : Decidable (Cuts p k) := inferInstanceAs (Decidable (_ = _))

/-- The scan gets to offset `nwindow + k`. -/
def Reached (p : Bytes) (k : ℕ) : Prop := (nwindow + k : ℕ) ≤ rabinseg p p.length

/-- The last bytes before offset `nwindow + k`. -/
def window (p : Bytes) (k : ℕ) : Bytes := (p.drop k).take nwindow

/-- The window `w` alone decides whether there is a cut behind it. -/
def ContentDefined (w : Bytes) : Prop := ∀ (p q : Bytes) (i j : ℕ), Reached p i → Reached q j →
  window p i = w → window q j = w → (Cuts p i ↔ Cuts q j)

/-! ### The scan stops at the first cut -/

theorem fingerprint_eq_tab (p : Bytes) : ∀ k, fingerprint p k = fingerprintTab (winTable rfWin) p k
  | 0 => rfl
  | k + 1 => by
    rw [fingerprint, fingerprintTab, fingerprint_eq_tab p k]
    rfl

theorem cuts_iff_tab {p : Bytes} {k : ℕ} : Cuts p k ↔ CutsTab (winTable rfWin) p k := by
  rw [Cuts, CutsTab, fingerprint_eq_tab]

theorem reached_iff {p : Bytes} {k : ℕ} : Reached p k ↔ nwindow + k ≤ p.length ∧ ∀ j < k, ¬Cuts p j := by
  rw [Reached]
  by_cases short : p.length < nwindow
  · have whole : rabinseg p p.length = p.length := if_pos (by exact_mod_cast short)
    rw [whole]
    constructor
    · omega
    · omega
  have scan : ∃ r : ℕ, rabinsegTab (winTable rfWin) p p.length = r ∧
      First (fun j => CutsTab (winTable rfWin) p (j - nwindow)) p.length nwindow r :=
    rabinsegTab_first le_rfl (Nat.le_of_not_lt short)
  obtain ⟨r, hr, hfirst⟩ := scan
  rw [rabinseg_eq_tab, hr, Int.ofNat_le]
  constructor
  · intro hk
    refine ⟨hk.trans hfirst.le, fun j hj hcut => hfirst.before (nwindow + j) (by omega) (by omega) ?_⟩
    rwa [Nat.add_sub_cancel_left, ← cuts_iff_tab]
  · rintro ⟨hk, none⟩
    by_contra hlt
    rcases hfirst.found with hend | hcut
    · omega
    · have hge := hfirst.ge
      exact none (r - nwindow) (by omega) (cuts_iff_tab.2 hcut)

theorem rabinseg_eq {p : Bytes} {k : ℕ} (h : Reached p k) (hcut : Cuts p k) :
    rabinseg p p.length = (nwindow + k : ℕ) := by
  have next : ¬Reached p (k + 1) := fun h => (reached_iff.1 h).2 k (Nat.lt_succ_self k) hcut
  rw [Reached] at h next
  omega

/-! ### Linearity -/

theorem reduceBit_eq (x : UInt32) : reduceBit x = (x <<< 1) ^^^ (if x >>> 31 ≠ 0 then irrpoly else 0) := by
  rw [reduceBit]
  split_ifs
  · rfl
  · rw [UInt32.xor_zero]

/-- The bit that is shifted out. -/
theorem topBit (x : UInt32) : x >>> 31 = 0 ∨ x >>> 31 = 1 := by
  have lt : (x >>> 31).toNat < 2 := by
    have div : (x >>> 31).toNat = x.toNat / 2 ^ 31 := by
      rw [UInt32.toNat_shiftRight, Nat.shiftRight_eq_div_pow]
      rfl
    have := x.toNat_lt
    omega
  have : (x >>> 31).toNat = 0 ∨ (x >>> 31).toNat = 1 := by omega
  exact this.imp UInt32.toNat_inj.1 UInt32.toNat_inj.1

theorem xor_xor_xor_comm (a b c d : UInt32) : (a ^^^ b) ^^^ (c ^^^ d) = (a ^^^ c) ^^^ (b ^^^ d) := by
  rw [UInt32.xor_assoc, ← UInt32.xor_assoc b, UInt32.xor_comm b c, UInt32.xor_assoc c, ← UInt32.xor_assoc]

theorem reduceBit_xor (x y : UInt32) : reduceBit (x ^^^ y) = reduceBit x ^^^ reduceBit y := by
  have carry : (if (x ^^^ y) >>> 31 ≠ 0 then irrpoly else 0) =
      (if x >>> 31 ≠ 0 then irrpoly else 0) ^^^ (if y >>> 31 ≠ 0 then irrpoly else 0) := by
    rw [UInt32.shiftRight_xor]
    rcases topBit x with hx | hx <;> rcases topBit y with hy | hy <;> rw [hx, hy] <;> decide
  rw [reduceBit_eq, reduceBit_eq, reduceBit_eq, carry, UInt32.shiftLeft_xor, xor_xor_xor_comm]

theorem iterate_reduceBit_xor (x y : UInt32) : ∀ n, reduceBit^[n] (x ^^^ y) = reduceBit^[n] x ^^^ reduceBit^[n] y
  | 0 => rfl
  | n + 1 => by
    rw [Function.iterate_succ_apply', Function.iterate_succ_apply', Function.iterate_succ_apply',
      iterate_reduceBit_xor x y n, reduceBit_xor]

theorem rabintab_xor (i j : UInt8) : rabintab (i ^^^ j) = rabintab i ^^^ rabintab j := by
  rw [rabintab, UInt8.toUInt32_xor]
  exact iterate_reduceBit_xor ..

/-- The table that should take a byte out of the window gives the byte itself. -/
theorem rabinwintab_eq (i : UInt8) : rabinwintab i = i.toUInt32 := by
  have zero : rabintab 0 = 0 := by decide +kernel
  show i.toUInt32 ^^^ rabintab 0 = i.toUInt32
  rw [zero, UInt32.xor_zero]

theorem shiftLeft_or_byte (h : UInt32) (b : UInt8) : (h <<< 8) ||| b.toUInt32 = (h <<< 8) ^^^ b.toUInt32 := by
  refine UInt32.toBitVec_inj.1 (BitVec.eq_of_getLsbD_eq fun i hi => ?_)
  simp only [UInt32.toBitVec_or, UInt32.toBitVec_xor, BitVec.getLsbD_or, BitVec.getLsbD_xor]
  by_cases low : i < 8
  · simp [BitVec.getLsbD_shiftLeft, low]
  · have high : (UInt8.toUInt32 b).toBitVec.getLsbD i = false := by
      simp [BitVec.getLsbD_setWidth, BitVec.getLsbD_of_ge b.toBitVec i (by omega)]
    rw [high, Bool.or_false, Bool.xor_false]

theorem roll_xor (g h : UInt32) (a b : UInt8) : roll (g ^^^ h) (a ^^^ b) = roll g a ^^^ roll h b := by
  simp only [roll, shiftLeft_or_byte]
  rw [UInt32.shiftLeft_xor, UInt8.toUInt32_xor, UInt32.shiftRight_xor, UInt32.toUInt8_xor, rabintab_xor,
    xor_xor_xor_comm (g <<< 8), xor_xor_xor_comm]

def xorBytes (p q : Bytes) : Bytes := List.zipWith (· ^^^ ·) p q

theorem foldl_roll_xor : ∀ {p q : Bytes} (g h : UInt32), p.length = q.length →
    (xorBytes p q).foldl roll (g ^^^ h) = p.foldl roll g ^^^ q.foldl roll h
  | [], [], _, _, _ => rfl
  | a :: p, b :: q, g, h, length => by
    rw [List.foldl_cons, List.foldl_cons, ← foldl_roll_xor _ _ (Nat.succ.inj length), ← roll_xor]
    rfl

theorem getD_xorBytes {p q : Bytes} (length : p.length = q.length) (k : ℕ) :
    (xorBytes p q).getD k 0 = p.getD k 0 ^^^ q.getD k 0 := by
  by_cases hk : k < p.length
  · have hq : k < q.length := length ▸ hk
    have hz : k < (xorBytes p q).length := by
      rw [xorBytes, List.length_zipWith]
      omega
    rw [List.getD_eq_getElem _ _ hk, List.getD_eq_getElem _ _ hq, List.getD_eq_getElem _ _ hz]
    exact List.getElem_zipWith
  · have hz : (xorBytes p q).length ≤ k := by
      rw [xorBytes, List.length_zipWith]
      omega
    rw [List.getD_eq_default _ _ hz, List.getD_eq_default p 0 (by omega), List.getD_eq_default q 0 (by omega)]
    rfl

/-- The fingerprint of an exclusive or. -/
theorem fingerprint_xor {p q : Bytes} (length : p.length = q.length) :
    ∀ k, fingerprint (xorBytes p q) k = fingerprint p k ^^^ fingerprint q k
  | 0 => by
    have cut : (xorBytes p q).take nwindow = xorBytes (p.take nwindow) (q.take nwindow) := List.take_zipWith
    rw [fingerprint, cut]
    exact foldl_roll_xor 0 0 (by rw [List.length_take, List.length_take, length])
  | k + 1 => by
    simp only [fingerprint]
    rw [getD_xorBytes length, getD_xorBytes length, fingerprint_xor length k]
    simp only [rabinwintab_eq, UInt8.toUInt32_xor]
    rw [xor_xor_xor_comm, roll_xor]

/-! ### What two bytes before the window leave behind -/

/-- Two bytes. -/
abbrev Two := UInt8 × UInt8

/-- The scan of a buffer that starts with two bytes and goes on with a window. -/
def after (a : Two) (w : Bytes) : Bytes := a.1 :: a.2 :: w

def zeros : Bytes := List.replicate nwindow 0

/-- What the two bytes leave in the fingerprint. -/
def residue (a : Two) (k : ℕ) : UInt32 := fingerprint (after a zeros) k

theorem xorBytes_zeros {w : Bytes} : ∀ {n : ℕ}, w.length = n → xorBytes w (List.replicate n 0) = w := by
  induction w with
  | nil => exact fun _ => rfl
  | cons b w ih =>
    intro n hn
    obtain ⟨m, rfl⟩ : ∃ m, n = m + 1 := ⟨w.length, hn.symm⟩
    have rest := ih (Nat.succ.inj hn)
    rw [List.replicate_succ]
    show (b ^^^ 0) :: xorBytes w (List.replicate m 0) = b :: w
    rw [rest, UInt8.xor_zero]

theorem fingerprint_after {w : Bytes} (hw : w.length = nwindow) (a b : Two) (k : ℕ) :
    fingerprint (after (a.1 ^^^ b.1, a.2 ^^^ b.2) w) k = fingerprint (after a w) k ^^^ residue b k := by
  have split : after (a.1 ^^^ b.1, a.2 ^^^ b.2) w = xorBytes (after a w) (after b zeros) := by
    show _ = (a.1 ^^^ b.1) :: (a.2 ^^^ b.2) :: xorBytes w zeros
    rw [zeros, xorBytes_zeros hw]
    rfl
  rw [split, fingerprint_xor, residue]
  simp [after, zeros, hw]

theorem residue_xor (a b : Two) (k : ℕ) : residue (a.1 ^^^ b.1, a.2 ^^^ b.2) k = residue a k ^^^ residue b k :=
  fingerprint_after (by decide) a b k

/-- Two bytes for every bit of the mask, which leave only this bit. -/
def bits : List Two := [(0x0f, 0x0a), (0xe6, 0x0d), (0xf3, 0x05), (0x6a, 0x01), (0x9f, 0x0f), (0x4a, 0x0c),
  (0x27, 0x0c), (0xfd, 0x0c), (0x8e, 0x0a), (0x68, 0x06), (0x9b, 0x01), (0xba, 0x09)]

theorem residue_bits : ∀ n < 12, residue (bits.getD n (0, 0)) 2 &&& rabinMask = UInt32.ofNat (2 ^ n) := by
  decide +kernel

theorem masked_xor (x y : UInt32) : (x ^^^ y) &&& rabinMask = (x &&& rabinMask) ^^^ (y &&& rabinMask) := by
  refine UInt32.toNat_inj.1 ?_
  simp only [UInt32.toNat_and, UInt32.toNat_xor, Nat.and_xor_distrib_right]

theorem two_pow_add_eq_xor {n t : ℕ} (h : t < 2 ^ n) : 2 ^ n + t = 2 ^ n ^^^ t := by
  refine Nat.eq_of_testBit_eq fun i => ?_
  have bit := Nat.testBit_two_pow_mul_add 1 h i
  rw [Nat.mul_one] at bit
  rw [bit, Nat.testBit_xor, Nat.testBit_two_pow]
  split_ifs with hi
  · simp [Nat.ne_of_gt hi]
  · have wide : 2 ^ n ≤ 2 ^ i := Nat.pow_le_pow_right (by decide) (not_lt.1 hi)
    have high : t.testBit i = false := Nat.testBit_lt_two_pow (Nat.lt_of_lt_of_le h wide)
    have one : Nat.testBit (2 ^ 0) (i - n) = decide (0 = i - n) := Nat.testBit_two_pow
    rw [Nat.pow_zero] at one
    rw [high, Bool.xor_false, one, decide_eq_decide]
    omega

/-- Any bits of the mask can be left. -/
theorem exists_residue_of_lt : ∀ n ≤ 12, ∀ t < 2 ^ n, ∃ a, residue a 2 &&& rabinMask = UInt32.ofNat t
  | 0, _, t, ht => by
    obtain rfl : t = 0 := by omega
    exact ⟨(0, 0), by decide +kernel⟩
  | n + 1, hn, t, ht => by
    rcases Nat.lt_or_ge t (2 ^ n) with lt | ge
    · exact exists_residue_of_lt n (by omega) t lt
    · obtain ⟨u, rfl⟩ := Nat.exists_eq_add_of_le ge
      have hu : u < 2 ^ n := by
        rw [Nat.pow_succ] at ht
        omega
      obtain ⟨a, ha⟩ := exists_residue_of_lt n (by omega) u hu
      refine ⟨((bits.getD n (0, 0)).1 ^^^ a.1, (bits.getD n (0, 0)).2 ^^^ a.2), ?_⟩
      rw [residue_xor, masked_xor, residue_bits n hn, ha, ← UInt32.ofNat_xor, ← two_pow_add_eq_xor hu]

theorem exists_residue (t : UInt32) : ∃ a, residue a 2 &&& rabinMask = t &&& rabinMask := by
  have lt : (t &&& rabinMask).toNat < 2 ^ 12 := by
    rw [UInt32.toNat_and]
    exact Nat.lt_of_le_of_lt Nat.and_le_right (by decide)
  obtain ⟨a, ha⟩ := exists_residue_of_lt 12 (Nat.le_refl _) _ lt
  exact ⟨a, ha.trans UInt32.ofNat_toNat⟩

/-- If no two of the candidates agree in any of `n` places and there are more than `n` of them, one of them
    avoids a given value in every place. -/
theorem exists_avoiding {α β : Type*} [DecidableEq β] (r : α → ℕ → β) (f : ℕ → β) : ∀ (n : ℕ) (l : List α),
    n < l.length → (∀ k < n, (l.map (r · k)).Nodup) → ∃ a ∈ l, ∀ k < n, r a k ≠ f k
  | 0, a :: l, _, _ => ⟨a, List.mem_cons_self .., fun k hk => absurd hk (Nat.not_lt_zero k)⟩
  | n + 1, l, hl, nodup => by
    have few : l.countP (fun a => r a n = f n) ≤ 1 := by
      have := List.nodup_iff_count_le_one.1 (nodup n (Nat.lt_succ_self n)) (f n)
      rw [List.count, List.countP_map] at this
      exact this
    have rest : n < (l.filter fun a => r a n ≠ f n).length := by
      have split := List.length_eq_countP_add_countP (fun a => decide (r a n = f n)) (l := l)
      have : l.countP (fun a => decide (¬r a n = f n)) = (l.filter fun a => r a n ≠ f n).length :=
        List.countP_eq_length_filter
      simp only [decide_eq_true_eq] at split
      omega
    obtain ⟨a, ha, avoids⟩ := exists_avoiding r f n (l.filter fun a => r a n ≠ f n) rest fun k hk =>
      (nodup k (by omega)).sublist (List.filter_sublist.map _)
    obtain ⟨ha, last⟩ := List.mem_filter.1 ha
    refine ⟨a, ha, fun k hk => ?_⟩
    rcases Nat.lt_succ_iff_lt_or_eq.1 hk with hk | rfl
    · exact avoids k hk
    · exact of_decide_eq_true last

/-! ### No window decides -/

theorem cuts_after_iff {w : Bytes} (hw : w.length = nwindow) (a d : Two) (k : ℕ) :
    Cuts (after (a.1 ^^^ d.1, a.2 ^^^ d.2) w) k ↔
      residue d k &&& rabinMask = fingerprint (after a w) k &&& rabinMask := by
  rw [Cuts, fingerprint_after hw, masked_xor, UInt32.xor_eq_zero_iff, eq_comm]

/-- Bytes that leave nothing at the end of the window, but differ in what they leave before. -/
def silent : List Two := [(0, 0), (0xf8, 0x19), (0x84, 0x20)]

/-- Bytes that differ in what they leave in all three places. -/
def loud : List Two := [(0, 0), (1, 0), (2, 0), (3, 0)]

theorem residue_silent : ∀ d ∈ silent, residue d 2 &&& rabinMask = 0 := by
  have all : silent.all fun d => residue d 2 &&& rabinMask == 0 := by decide +kernel
  intro d hd
  exact eq_of_beq (List.all_eq_true.1 all d hd)

theorem nodup_silent : ∀ k < 2, (silent.map fun d => residue d k &&& rabinMask).Nodup := by
  decide +kernel

theorem nodup_loud : ∀ k < 3, (loud.map fun d => residue d k &&& rabinMask).Nodup := by
  decide +kernel

/-- Before every window there can be two bytes such that the first cut is behind it. -/
theorem exists_cut {w : Bytes} (hw : w.length = nwindow) :
    ∃ a, (∀ k < 2, ¬Cuts (after a w) k) ∧ Cuts (after a w) 2 := by
  obtain ⟨a, ha⟩ := exists_residue (fingerprint (after (0, 0) w) 2)
  have cut : fingerprint (after a w) 2 &&& rabinMask = 0 := by
    have := (cuts_after_iff hw (0, 0) a 2).2 ha
    simpa only [Cuts, UInt8.zero_xor] using this
  obtain ⟨d, hd, avoids⟩ := exists_avoiding (fun d k => residue d k &&& rabinMask)
    (fun k => fingerprint (after a w) k &&& rabinMask) 2 silent (by decide) nodup_silent
  refine ⟨(a.1 ^^^ d.1, a.2 ^^^ d.2), fun k hk => ?_, ?_⟩
  · rw [cuts_after_iff hw]
    exact avoids k hk
  · rw [cuts_after_iff hw, residue_silent d hd, cut]

/-- And there can be two bytes such that there is no cut. -/
theorem exists_no_cut {w : Bytes} (hw : w.length = nwindow) : ∃ b, ∀ k < 3, ¬Cuts (after b w) k := by
  obtain ⟨d, -, avoids⟩ := exists_avoiding (fun d k => residue d k &&& rabinMask)
    (fun k => fingerprint (after (0, 0) w) k &&& rabinMask) 3 loud (by decide) nodup_loud
  refine ⟨(0 ^^^ d.1, 0 ^^^ d.2), fun k hk => ?_⟩
  rw [cuts_after_iff hw (0, 0)]
  exact avoids k hk

/-- The fingerprint does not depend on what comes later. -/
theorem fingerprint_append {p : Bytes} (t : Bytes) : ∀ k, nwindow + k ≤ p.length →
    fingerprint (p ++ t) k = fingerprint p k
  | 0, h => by rw [fingerprint, fingerprint, List.take_append_of_le_length (by omega : nwindow ≤ p.length)]
  | k + 1, h => by
    rw [fingerprint, fingerprint, fingerprint_append t k (by omega), List.getD_append _ _ _ _ (by omega),
      List.getD_append _ _ _ _ (by omega)]

theorem after_append (a : Two) (w t : Bytes) : after a (w ++ t) = after a w ++ t := rfl

theorem cuts_append {a : Two} {w : Bytes} (hw : w.length = nwindow) (t : Bytes) {k : ℕ} (hk : k < 3) :
    Cuts (after a (w ++ t)) k ↔ Cuts (after a w) k := by
  rw [Cuts, Cuts, after_append, fingerprint_append]
  simp only [after, List.length_cons, hw]
  omega

theorem reached_after {a : Two} {w : Bytes} (hw : w.length = nwindow) (t : Bytes)
    (h : ∀ k < 2, ¬Cuts (after a w) k) : Reached (after a (w ++ t)) 2 := by
  refine reached_iff.2 ⟨?_, fun j hj => ?_⟩
  · simp only [after, List.length_cons, List.length_append, hw]
    omega
  · rw [cuts_append hw t (by omega)]
    exact h j hj

/-- CORRECT: no window decides whether there is a cut behind it, and whatever follows a window, two bytes
    before it can be chosen in two ways such that one scan cuts behind the window and the other does not. -/
theorem not_contentDefined (w : Bytes) (hw : w.length = nwindow) : ¬ContentDefined w ∧
    ∀ t ≠ [], ∃ a b : Two, rabinseg (after a (w ++ t)) (after a (w ++ t)).length = (nwindow + 2 : ℕ) ∧
      rabinseg (after b (w ++ t)) (after b (w ++ t)).length ≠ (nwindow + 2 : ℕ) := by
  obtain ⟨a, none, cut⟩ := exists_cut hw
  obtain ⟨b, never⟩ := exists_no_cut hw
  constructor
  · intro h
    have ha := reached_after hw [] none
    have hb := reached_after hw [] fun k hk => never k (by omega)
    rw [List.append_nil] at ha hb
    have same (c : Two) : window (after c w) 2 = w := by
      rw [window, ← hw]
      exact List.take_length
    exact never 2 (by decide) ((h _ _ 2 2 ha hb (same a) (same b)).1 cut)
  · intro t ht
    refine ⟨a, b, rabinseg_eq (reached_after hw t none) ((cuts_append hw t (by decide)).2 cut), fun heq => ?_⟩
    have next : Reached (after b (w ++ t)) 3 := by
      refine reached_iff.2 ⟨?_, fun j hj => ?_⟩
      · have := List.length_pos_of_ne_nil ht
        simp only [after, List.length_cons, List.length_append, hw]
        omega
      · rw [cuts_append hw t hj]
        exact never j hj
    rw [Reached, heq] at next
    omega

theorem not_contentDefined_quietWindow : quietWindow.length = nwindow ∧ ¬ContentDefined quietWindow :=
  ⟨rfl, (not_contentDefined quietWindow rfl).1⟩

/-- The same window, behind two different bytes: the first scan cuts, the second one does not. -/
theorem quietWindow_cuts : Reached (after (0x0f, 0x0a) quietWindow) 2 ∧ Reached (after (1, 0) quietWindow) 2 ∧
    window (after (0x0f, 0x0a) quietWindow) 2 = window (after (1, 0) quietWindow) 2 ∧
    Cuts (after (0x0f, 0x0a) quietWindow) 2 ∧ ¬Cuts (after (1, 0) quietWindow) 2 := by
  refine ⟨reached_iff.2 ⟨by decide, ?_⟩, reached_iff.2 ⟨by decide, ?_⟩, rfl, ?_, ?_⟩ <;> decide +kernel

end Turkey.Rabin
