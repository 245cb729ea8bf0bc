import Mathlib.Data.List.GetD
import Mathlib.Order.Bounds.Defs
import Turkey.Dedup.Rabin

/-! The scan of `rabinseg` with any table for the oldest byte: it goes to the first offset at which the masked
    fingerprint is zero, and to the end when there is none. The table that the encoders build and the one for a
    window of `NWINDOW` bytes are two such tables. -/

namespace Turkey.Rabin

/-- The loop of `rabinseg`, see `rabinLoop`. -/
def rabinLoopTab (rabinwintab : UInt8 → UInt32) (h : UInt32) (i : ℕ) : Bytes → Bytes → ℕ
  | o :: old, b :: new =>
    let h := roll (h ^^^ rabinwintab o) b
    if h &&& rabinMask = 0 then i + 1 else rabinLoopTab rabinwintab h (i + 1) old new
  | _, _ => i

/-- `rabinseg` with this table for the byte that leaves the window. -/
def rabinsegTab (rabinwintab : UInt8 → UInt32) (p : Bytes) (n : ℤ) : ℤ :=
  if n < nwindow then n
  else
    let h := (p.take nwindow).foldl roll 0
    if h &&& rabinMask = 0 then nwindow
    else rabinLoopTab rabinwintab h nwindow p ((p.take n.toNat).drop nwindow)

/-- `rabinwintab` after `rabininit(winlen, ..)`. -/
def winTable (winlen : ℕ) (i : UInt8) : UInt32 := fpwinreduce winlen i.toUInt32

theorem rabinLoop_eq_tab : ∀ (old new : Bytes) (h : UInt32) (i : ℕ),
    rabinLoop h i old new = rabinLoopTab (winTable rfWin) h i old new
  | [], _, _, _ => rfl
  | _ :: _, [], _, _ => rfl
  | o :: old, b :: new, h, i => by
    rw [rabinLoop, rabinLoopTab, rabinLoop_eq_tab old new]
    rfl

/-- The encoders build their tables for a window of length zero. -/
theorem rabinseg_eq_tab (p : Bytes) (n : ℤ) : rabinseg p n = rabinsegTab (winTable rfWin) p n := by
  rw [rabinseg, rabinsegTab]
  simp only [rabinLoop_eq_tab]

variable (rabinwintab : UInt8 → UInt32) (p : Bytes)

/-- The fingerprint at offset `nwindow + k`. -/
def fingerprintTab : ℕ → UInt32
  | 0 => (p.take nwindow).foldl roll 0
  | k + 1 => roll (fingerprintTab k ^^^ rabinwintab (p.getD k 0)) (p.getD (nwindow + k) 0)

/-- There is a boundary behind the window at `k`. -/
def CutsTab (k : ℕ) : Prop := fingerprintTab rabinwintab p k &&& rabinMask = 0

/-- `r` is the first place from `i` on with the property, or `n` when there is none. -/
structure First (C : ℕ → Prop) (n i r : ℕ) : Prop where
  ge : i ≤ r
  le : r ≤ n
  before : ∀ j, i ≤ j → j < r → ¬C j
  found : r = n ∨ C r

theorem First.least {C : ℕ → Prop} {n i r k : ℕ} (h : First C n i r) (hk : IsLeast {j | i ≤ j ∧ j ≤ n ∧ C j} k) :
    r = k := by
  obtain ⟨⟨hik, hkn, hC⟩, hleast⟩ := hk
  rcases Nat.lt_trichotomy r k with hlt | heq | hgt
  · rcases h.found with rfl | hr
    · omega
    · exact absurd (hleast ⟨h.ge, h.le, hr⟩) (not_le.2 hlt)
  · exact heq
  · exact absurd hC (h.before k hik hgt)

theorem First.none {C : ℕ → Prop} {n i r : ℕ} (h : First C n i r) (hnone : ∀ j, i ≤ j → j ≤ n → ¬C j) : r = n :=
  h.found.resolve_right (hnone r h.ge h.le)

variable {rabinwintab p} {n : ℕ}

theorem rabinLoopTab_first (hn : n ≤ p.length) : ∀ (m k : ℕ), nwindow + k + m = n →
    ¬CutsTab rabinwintab p k → First (fun j => CutsTab rabinwintab p (j - nwindow)) n (nwindow + k)
      (rabinLoopTab rabinwintab (fingerprintTab rabinwintab p k) (nwindow + k) (p.drop k)
        ((p.take n).drop (nwindow + k)))
  | 0, k, hm, hk => by
    have hend : (p.take n).drop (nwindow + k) = [] := by
      rw [List.drop_eq_nil_iff, List.length_take]
      omega
    have hloop : rabinLoopTab rabinwintab (fingerprintTab rabinwintab p k) (nwindow + k) (p.drop k) [] =
        nwindow + k := by
      cases p.drop k <;> rfl
    rw [hend, hloop]
    refine ⟨le_rfl, by omega, fun j _ _ => ?_, .inl (by omega)⟩
    omega
  | m + 1, k, hm, hk => by
    have hlt : nwindow + k < p.length := by omega
    have hklt : k < p.length := by omega
    have htake : nwindow + k < (p.take n).length := by
      rw [List.length_take]
      omega
    have hstep : rabinLoopTab rabinwintab (fingerprintTab rabinwintab p k) (nwindow + k) (p.drop k)
        ((p.take n).drop (nwindow + k)) = if fingerprintTab rabinwintab p (k + 1) &&& rabinMask = 0 then
          nwindow + (k + 1) else rabinLoopTab rabinwintab (fingerprintTab rabinwintab p (k + 1)) (nwindow + (k + 1))
          (p.drop (k + 1)) ((p.take n).drop (nwindow + (k + 1))) := by
      rw [List.drop_eq_getElem_cons hklt, List.drop_eq_getElem_cons htake, rabinLoopTab, List.getElem_take,
        fingerprintTab, List.getD_eq_getElem _ _ hklt, List.getD_eq_getElem _ _ hlt]
      rfl
    -- the offset where the loop stands has been tested
    have hhere : ∀ j, nwindow + k ≤ j → j < nwindow + (k + 1) → ¬CutsTab rabinwintab p (j - nwindow) := by
      intro j hj hj'
      obtain rfl : j = nwindow + k := by omega
      rwa [Nat.add_sub_cancel_left]
    rw [hstep]
    split_ifs with hcut
    · refine ⟨by omega, by omega, hhere, .inr ?_⟩
      rwa [Nat.add_sub_cancel_left]
    · have ih := rabinLoopTab_first hn m (k + 1) (by omega) hcut
      refine ⟨by have := ih.ge; omega, ih.le, fun j hj hj' => ?_, ih.found⟩
      rcases Nat.lt_or_ge j (nwindow + (k + 1)) with hjk | hjk
      · exact hhere j hj hjk
      · exact ih.before j hjk hj'

/-- The scan goes to the first cut. -/
theorem rabinsegTab_first (hn : n ≤ p.length) (hw : nwindow ≤ n) : ∃ r : ℕ, rabinsegTab rabinwintab p n = r ∧
    First (fun j => CutsTab rabinwintab p (j - nwindow)) n nwindow r := by
  rw [rabinsegTab, if_neg (by omega), Int.toNat_natCast]
  by_cases hcut : CutsTab rabinwintab p 0
  · refine ⟨nwindow, if_pos hcut, le_rfl, hw, fun j _ _ => ?_, .inr ?_⟩
    · omega
    · rwa [Nat.sub_self]
  · obtain ⟨m, rfl⟩ := Nat.exists_eq_add_of_le hw
    exact ⟨_, if_neg hcut, rabinLoopTab_first hn m 0 rfl hcut⟩

end Turkey.Rabin
