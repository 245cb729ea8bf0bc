import Turkey.Streamcluster.Median

/-! What `pkmedian` returns: a consistent clustering of the points it was given, in another order of the array,
    with the number of its centers in `kfinal`.

    `pspeedy` leaves such a clustering, `pgain` keeps it, and the candidates are valid indices. Without different
    places all costs are 0, and `pFL` ends at once. -/

namespace Turkey.Pgain
open Turkey.ParallelFor

/-! ### The candidates -/

section Candidates
variable {K : Type} [Field K] [LinearOrder K]

omit [Field K] in
theorem search_left {accum : ℕ → K} {w : K} {l r : ℕ} (hlt : l + 1 < r) (hover : ¬2 ^ 31 ≤ l + r)
    (hk : w < accum ((l + r) / 2)) : search accum w l r = search accum w l ((l + r) / 2) := by
  rw [search, if_pos hlt, if_neg hover]
  exact if_pos hk

omit [Field K] in
theorem search_right {accum : ℕ → K} {w : K} {l r : ℕ} (hlt : l + 1 < r) (hover : ¬2 ^ 31 ≤ l + r)
    (hk : ¬w < accum ((l + r) / 2)) : search accum w l r = search accum w ((l + r) / 2) r := by
  rw [search, if_pos hlt, if_neg hover]
  exact if_neg hk

omit [Field K] in
/-- The binary search keeps `accum l ≤ w`, and `w < accum r` unless `r` is where it began. -/
theorem search_spec {accum : ℕ → K} {w : K} {last l r i : ℕ} (hl : accum l ≤ w) (hlr : l < r) (hr : r ≤ last)
    (hw : w < accum last → w < accum r) (h : search accum w l r = some i) :
    0 < i ∧ i ≤ last ∧ accum (i - 1) ≤ w ∧ (w < accum last → w < accum i) := by
  induction l, r using search.induct accum w with
  | case1 l r hlt hover =>
    rw [search, if_pos hlt, if_pos hover] at h
    cases h
  | case2 l r hlt hover k hk ih =>
    rw [search_left hlt hover hk] at h
    exact ih hl (by omega) (by omega) (fun _ => hk) h
  | case3 l r hlt hover k hk ih =>
    rw [search_right hlt hover hk] at h
    exact ih (not_lt.1 hk) (by omega) hr hw h
  | case4 l r hlt =>
    rw [search, if_neg hlt] at h
    obtain rfl := Option.some.inj h
    obtain rfl : r = l + 1 := by omega
    exact ⟨Nat.succ_pos l, hr, hl, hw⟩

omit [Field K] in
/-- Up to position 2 ^ 30 no sum of the search is too large. -/
theorem search_isSome (accum : ℕ → K) (w : K) {l r : ℕ} (hr : r ≤ 2 ^ 30) : (search accum w l r).isSome := by
  induction l, r using search.induct accum w with
  | case1 l r hlt hover => omega
  | case2 l r hlt hover k hk ih =>
    rw [search_left hlt hover hk]
    exact ih (by omega)
  | case3 l r hlt hover k hk ih =>
    rw [search_right hlt hover hk]
    exact ih hr
  | case4 l r hlt => simp [search, hlt]

omit [Field K] in
/-- From there on a search that always goes to the right comes to the sum of `r - 2` and `r`. -/
theorem search_eq_none {accum : ℕ → K} {w : K} {l r : ℕ} (hr : 2 ^ 30 < r) (hlt : l + 1 < r)
    (hw : ∀ k < r, accum k ≤ w) : search accum w l r = none := by
  induction hm : r - l using Nat.strongRecOn generalizing l with
  | _ m ih =>
    by_cases hover : 2 ^ 31 ≤ l + r
    · rw [search, if_pos hlt, if_pos hover]
    · rw [search_right hlt hover (not_lt.2 (hw _ (by omega)))]
      exact ih _ (by omega) (by omega) rfl

/-- The drawn weight falls to this point. -/
structure Falls (num : ℕ) (accum : ℕ → K) (w : K) (r : ℕ) : Prop where
  lt : r < num
  first : w < accum 0 → r = 0
  bracket : accum 0 ≤ w → w < accum (num - 1) → 0 < r ∧ accum (r - 1) ≤ w ∧ w < accum r

omit [Field K] in
theorem falls_candidate {num : ℕ} (hnum : 0 < num) {accum : ℕ → K} {w : K} {i : ℕ}
    (h : candidate num accum w = some i) : Falls num accum w i := by
  rw [candidate] at h
  split_ifs at h with hfirst
  · obtain rfl := Option.some.inj h
    exact ⟨hnum, fun _ => rfl, fun hle => absurd hfirst (not_lt.2 hle)⟩
  · have hle := not_lt.1 hfirst
    rcases Nat.eq_zero_or_pos (num - 1) with hone | hpos
    · rw [hone, search, if_neg (by omega)] at h
      obtain rfl := Option.some.inj h
      refine ⟨hnum, fun h => absurd h hfirst, fun _ hlt => ?_⟩
      rw [hone] at hlt
      exact absurd hlt hfirst
    · obtain ⟨hr, hlast, hbelow, habove⟩ := search_spec hle hpos le_rfl id h
      exact ⟨by omega, fun h => absurd h hfirst, fun _ hlt => ⟨hr, hbelow, habove hlt⟩⟩

omit [Field K] in
theorem candidate_isSome {num : ℕ} (hnum : num ≤ 2 ^ 30 + 1) (accum : ℕ → K) (w : K) :
    (candidate num accum w).isSome := by
  rw [candidate]
  split_ifs
  · rfl
  · exact search_isSome accum w (by omega)

variable [FloorSemiring K] {a : Search K} {s : State K} {draws : ℕ → Draw}

/-- Why a selection can overflow: the product, or a binary search in so many points for one of the candidates. -/
def CanOverflow (a : Search K) : Prop :=
  2 ^ 31 ≤ ITER * a.kmin ∨ 2 ^ 30 + 1 < a.num ∧ a.bound < a.num ∧ 0 < ⌊a.bound⌋₊

/-- `selectfeasible_fast`: all points, or as many drawn ones as the bound says. -/
theorem selectfeasibleFast_outcome (hnum : 0 < a.num) (s : State K) (draws : ℕ → Draw) :
    Outcome (fun r => r = (id, a.num) ∨
        (r.2 = ⌊a.bound⌋₊ ∧ ∀ i < r.2, Falls a.num (accumweight s) (drawn a.num s (draws i)) (r.1 i)))
      (fun e => e = .overflow ∧ CanOverflow a) (selectfeasibleFast a s draws) := by
  rw [selectfeasibleFast]
  split_ifs with hover hbound
  · exact ⟨rfl, .inl hover⟩
  · dsimp only
    split_ifs with hall
    · refine .inr ⟨rfl, fun i hi => ?_⟩
      obtain ⟨x, hx⟩ := Option.isSome_iff_exists.1 (hall i hi)
      dsimp only
      rw [hx]
      exact falls_candidate hnum hx
    · push Not at hall
      obtain ⟨i, hi, hnone⟩ := hall
      refine ⟨rfl, .inr ⟨?_, hbound.2, Nat.zero_lt_of_lt hi⟩⟩
      by_contra hsmall
      exact absurd (candidate_isSome (not_lt.1 hsmall) _ _) hnone
  · exact .inl rfl

end Candidates

section Location
variable {K : Type} [Field K] [LinearOrder K]

omit [Field K] [LinearOrder K] in
/-- The array stays an arrangement of the same candidates. -/
theorem exists_intshuffle {length : ℕ} (draws : ℕ → Draw) (q : ℕ → ℕ) :
    ∀ i < length, ∃ j < length, intshuffle length draws q i = q j := by
  suffices h : ∀ (l : List ℕ) (q : ℕ → ℕ), (∀ k ∈ l, k < length) → ∀ i < length, ∃ j < length,
      l.foldl (fun q i => q ∘ Equiv.swap i ((draws i).val % (length - i) + i)) q i = q j from
    h _ q fun k hk => List.mem_range.1 hk
  intro l
  induction l with
  | nil => exact fun q _ i hi => ⟨i, hi, rfl⟩
  | cons k l ih =>
    intro q hl i hi
    rw [List.forall_mem_cons] at hl
    obtain ⟨j, hj, heq⟩ := ih (q ∘ Equiv.swap k ((draws k).val % (length - k) + k)) hl.2 i hi
    refine ⟨_, ?_, heq⟩
    have hmod : (draws k).val % (length - k) < length - k := Nat.mod_lt _ (Nat.sub_pos_of_lt hl.1)
    rw [Equiv.swap_apply_def]
    split_ifs <;> omega

/-! ### The clustering -/

variable [FloorSemiring K] {a : Search K} {s : State K}

omit [LinearOrder K] [FloorSemiring K] in
/-- Consistency does not depend on the call. -/
theorem Consistent.config {z z' : K} {x x' n n' : ℕ} (h : Consistent (a.config z x n) s) :
    Consistent (a.config z' x' n') s := ⟨h.image, h.self, h.numcenters, h.cost⟩

/-- `pgain` changes neither weights nor places. -/
theorem samePlaces_pgain (c : Config K) (s : State K) : SamePlaces s (pgain c s).1 := by
  rw [pgain]
  split_ifs
  · intro i
    dsimp only [openX]
    by_cases hi : i ∈ (c.order .assign).run.map Prod.snd
    · obtain ⟨q, hq, rfl⟩ := List.mem_map.1 hi
      rw [forEach_of_mem (c.order .assign).nodup hq, assignStep]
      split_ifs
      · exact ⟨rfl, rfl⟩
      · exact ⟨rfl, rfl⟩
    · rw [forEach_of_notMem hi]
      exact ⟨rfl, rfl⟩
  · exact fun _ => ⟨rfl, rfl⟩

omit [Field K] [LinearOrder K] [FloorSemiring K] in
theorem mem_markCenters {num i : ℕ} {s : State K} : (markCenters num s).isCenter i = true ↔
    s.isCenter i = true ∨ ∃ k < num, (s.p k).assign = i := by
  suffices h : ∀ (l : List ℕ) (isCenter : ℕ → Bool),
      l.foldl (fun isCenter i => Function.update isCenter (s.p i).assign true) isCenter i = true ↔
        isCenter i = true ∨ ∃ k ∈ l, (s.p k).assign = i by
    refine (h (List.range num) s.isCenter).trans ?_
    simp only [List.mem_range]
  intro l
  induction l with
  | nil => simp
  | cons k l ih =>
    intro isCenter
    rw [List.foldl_cons, ih]
    by_cases hk : i = (s.p k).assign
    · subst hk
      simp
    · simp [Function.update_of_ne hk, Ne.symm hk]

variable [IsStrictOrderedRing K]

omit [FloorSemiring K] [IsStrictOrderedRing K] in
/-- What `pspeedy` leaves is a consistent clustering when its centers are marked. -/
theorem Seeded.consistent (h : Seeded a.num a.dim s) (hclear : ∀ i, s.isCenter i = false) :
    Consistent (a.config 0 0 0) (markCenters a.num s) := by
  have hcenter : ∀ {i}, (markCenters a.num s).isCenter i = true ↔ ∃ k < a.num, (s.p k).assign = i := by
    intro i
    simp [mem_markCenters, hclear]
  have hself : ∀ {i}, (∃ k < a.num, (s.p k).assign = i) → i < a.num ∧ (s.p i).assign = i := by
    rintro i ⟨k, hk, rfl⟩
    exact ⟨h.lt k hk, h.self k hk⟩
  refine ⟨fun i => ?_, fun i _ hc => (hself (hcenter.1 hc)).2, ?_, fun i hi => ?_⟩
  · rw [hcenter]
    exact ⟨And.right, fun hk => ⟨(hself hk).1, hk⟩⟩
  · refine h.numcenters.trans (congrArg _ (congrArg _ (Finset.filter_congr fun i hi => ?_)))
    rw [hcenter]
    exact ⟨fun hc => ⟨i, Finset.mem_range.1 hi, hc⟩, fun hk => (hself hk).2⟩
  · rw [mul_comm]
    exact h.cost i hi

omit [LinearOrder K] [FloorSemiring K] [IsStrictOrderedRing K] in
/-- The number of centers is the number of different values of `assign`. -/
theorem Consistent.card_assign (h : Consistent (a.config 0 0 0) s) :
    s.numcenters = ((Finset.range a.num).image fun i => (s.p i).assign).card := by
  refine h.numcenters.trans (congrArg _ (congrArg _ (Finset.ext fun i => ?_)))
  rw [Finset.mem_filter, Finset.mem_range, Finset.mem_image]
  simp only [Finset.mem_range]
  exact h.image i

/-- A consistent clustering of the points of `s₀`, and candidates that are valid indices. -/
structure Located (a : Search K) (s₀ : State K) (numfeasible : ℕ) (f : Location K) : Prop where
  points : SamePlaces s₀ f.s
  consistent : Consistent (a.config 0 0 0) f.s
  feasible : ∀ i < numfeasible, f.feasible i < a.num

variable {s₀ : State K} {numfeasible : ℕ} {z : K}

theorem gains_outcome (hw : Weighted a.num s₀) (hz : 0 < z) : ∀ (n i : ℕ) (f : Location K),
    Located a s₀ numfeasible f → Outcome (fun f' => Located a s₀ numfeasible f' ∧ f'.cost = f.cost)
      (fun e => e = .division ∧ numfeasible = 0 ∧ 0 < n) (gains a numfeasible z n i f)
  | 0, i, f, h => ⟨h, rfl⟩
  | n + 1, i, f, h => by
    rw [gains]
    dsimp only
    split_ifs with hdiv hindex
    · exact ⟨rfl, hdiv, Nat.succ_pos n⟩
    · exact absurd (h.feasible _ (Nat.mod_lt i (Nat.pos_of_ne_zero hdiv))) (not_lt.2 hindex)
    · have hx := not_le.1 hindex
      have hconsistent : Consistent (a.config z (f.feasible (i % numfeasible)) f.called) _ :=
        h.consistent.config.pgain (h.points.weighted hw) hz hx
      have hnext := gains_outcome hw hz n (i + 1)
        { f with
          s := (pgain (a.config z (f.feasible (i % numfeasible)) f.called) f.s).1
          called := f.called + 1
          change := f.change + (pgain (a.config z (f.feasible (i % numfeasible)) f.called) f.s).2 }
        ⟨h.points.trans (samePlaces_pgain _ _), hconsistent.config, h.feasible⟩
      refine hnext.mono (fun f' hf' => hf') ?_
      rintro e ⟨rfl, hzero, -⟩
      exact ⟨rfl, hzero, Nat.succ_pos n⟩

/-- Where the costs are 0, the loop of `pFL` ends at once. -/
theorem pFLLoop_outcome (hw : Weighted a.num s₀) {iter : ℕ} {e : K} (he : 0 < e) :
    ∀ (fuel : ℕ) (f : Location K), Located a s₀ numfeasible f → 0 < z ∨ f.cost = 0 →
      Outcome (fun f' => Located a s₀ numfeasible f' ∧ (f.cost = 0 → ¬0 < z → f'.cost = 0))
        (fun e => e = .fuel ∨ e = .division ∧ numfeasible = 0 ∧ 0 < iter ∧ 0 < z)
        (pFLLoop a numfeasible z iter e fuel f)
  | 0, f, h, _ => by
    rw [pFLLoop]
    split_ifs
    · exact .inl rfl
    · exact ⟨h, fun hcost _ => hcost⟩
  | fuel + 1, f, h, hz => by
    rw [pFLLoop]
    split_ifs with hgo
    · have hcost : f.cost ≠ 0 := by
        intro hcost
        rw [hcost, div_zero] at hgo
        exact absurd hgo he.not_gt
      have hz := hz.resolve_right hcost
      have hstart : Located a s₀ numfeasible { f with
          change := 0
          feasible := intshuffle numfeasible f.draws f.feasible
          draws := later numfeasible f.draws } :=
        ⟨h.points, h.consistent, fun i hi => by
          obtain ⟨j, hj, heq⟩ := exists_intshuffle f.draws f.feasible i hi
          exact heq.trans_lt (h.feasible j hj)⟩
      refine (gains_outcome hw hz iter 0 _ hstart).bind' (fun e ⟨he, hzero, hiter⟩ => .inr ⟨he, hzero, hiter, hz⟩) ?_
      rintro g ⟨hg, -⟩
      refine (pFLLoop_outcome hw he fuel { g with cost := g.cost - g.change } ⟨hg.points, hg.consistent, hg.feasible⟩
        (.inl hz)).mono (fun f' hf' => ⟨hf'.1, fun hzero => absurd hzero hcost⟩) fun _ h => h
    · exact ⟨h, fun hcost _ => hcost⟩

theorem pFL_outcome (hw : Weighted a.num s₀) {iter : ℕ} {e : K} (he : 0 < e) (fuel : ℕ) (f : Location K)
    (h : Located a s₀ numfeasible f) (hz : 0 < z ∨ f.cost = 0) :
    Outcome (fun f' => Located a s₀ numfeasible f' ∧ (f.cost = 0 → ¬0 < z → f'.cost = 0))
      (fun e => e = .fuel ∨ e = .division ∧ numfeasible = 0 ∧ 0 < iter ∧ 0 < z)
      (pFL a fuel numfeasible z iter e f) :=
  pFLLoop_outcome hw he fuel { f with change := f.cost } ⟨h.points, h.consistent, h.feasible⟩ hz

/-- The prices in the binary search, for `n` different places. -/
structure Bounded (n : ℕ) (t : Bounds K) : Prop where
  hiz : Priced n t.hiz
  z : Priced n t.z
  loz : 0 ≤ t.loz
  loz_zero : n ≤ 1 → t.loz = 0
  cost : n ≤ 1 → t.location.cost = 0

omit [FloorSemiring K] in
theorem Bounded.raise {n : ℕ} {t : Bounds K} (h : Bounded n t) : Bounded n (raise a t) := by
  rw [Pgain.raise]
  split_ifs
  · have hz : Priced n ((t.hiz + t.z) / 2) := h.hiz.half h.z.nonneg h.z.2
    refine ⟨h.hiz, hz, h.z.nonneg, h.z.2, fun hn => ?_⟩
    dsimp only
    rw [h.cost hn, hz.2 hn, h.z.2 hn, sub_self, zero_mul, add_zero]
  · exact h

omit [FloorSemiring K] in
theorem Bounded.reduce {n : ℕ} {t : Bounds K} (h : Bounded n t) : Bounded n (reduce a t) := by
  rw [Pgain.reduce]
  split_ifs
  · have hz : Priced n ((t.z + t.loz) / 2) := h.z.half h.loz h.loz_zero
    refine ⟨h.z, hz, h.loz, h.loz_zero, fun hn => ?_⟩
    dsimp only
    rw [h.cost hn, hz.2 hn, h.z.2 hn, sub_self, zero_mul, add_zero]
  · exact h

omit [LinearOrder K] [IsStrictOrderedRing K] [FloorSemiring K] in
/-- A new price changes nothing but the cost. -/
theorem located_reduce_raise {t : Bounds K} (h : Located a s₀ numfeasible t.location) :
    Located a s₀ numfeasible (reduce a (raise a t)).location := by
  have hraise : Located a s₀ numfeasible (raise a t).location := by
    rw [raise]
    split_ifs
    · exact ⟨h.points, h.consistent, h.feasible⟩
    · exact h
  rw [reduce]
  split_ifs
  · exact ⟨hraise.points, hraise.consistent, hraise.feasible⟩
  · exact hraise

variable {n : ℕ}

theorem searchStep_outcome (hw : Weighted a.num s₀) (fuel : ℕ) {t : Bounds K}
    (h : Located a s₀ numfeasible t.location) (hb : Bounded n t) :
    Outcome (fun t' => Located a s₀ numfeasible t'.location ∧ Bounded n t')
      (fun e => e = .fuel ∨ e = .division ∧ numfeasible = 0 ∧ 0 < a.iter ∧ 1 < n)
      (searchStep a fuel numfeasible t) := by
  have hprice : 0 < t.z ∨ t.location.cost = 0 := by
    rcases Nat.lt_or_ge 1 n with hn | hn
    · exact .inl (hb.z.1 hn)
    · exact .inr (hb.cost hn)
  have hplaces : 0 < t.z → 1 < n := fun hz => not_le.1 fun hn => hz.ne' (hb.z.2 hn)
  have hcost : ∀ {f' : Location K}, (t.location.cost = 0 → ¬0 < t.z → f'.cost = 0) → n ≤ 1 → f'.cost = 0 :=
    fun hf' hn => hf' (hb.cost hn) fun hz => absurd (hplaces hz) (not_lt.2 hn)
  have herror : ∀ e : Stop, (e = .fuel ∨ e = .division ∧ numfeasible = 0 ∧ 0 < a.iter ∧ 0 < t.z) →
      e = .fuel ∨ e = .division ∧ numfeasible = 0 ∧ 0 < a.iter ∧ 1 < n := fun e he =>
    he.imp id fun ⟨hdiv, hzero, hiter, hz⟩ => ⟨hdiv, hzero, hiter, hplaces hz⟩
  rw [searchStep]
  refine (pFL_outcome hw (by norm_num) fuel t.location h hprice).bind' herror ?_
  rintro f ⟨hf, hfcost⟩
  have hagain : Outcome (fun f' => Located a s₀ numfeasible f' ∧ (f.cost = 0 → ¬0 < t.z → f'.cost = 0))
      (fun e => e = .fuel ∨ e = .division ∧ numfeasible = 0 ∧ 0 < a.iter ∧ 0 < t.z)
      (accurate a fuel numfeasible t.z f) := by
    rw [accurate]
    split_ifs
    · refine pFL_outcome hw (by norm_num) fuel f hf ?_
      by_cases hz : 0 < t.z
      · exact .inl hz
      · exact .inr (hfcost (hprice.resolve_left hz) hz)
    · exact ⟨hf, fun hzero _ => hzero⟩
  refine hagain.bind' herror ?_
  rintro g ⟨hg, hgcost⟩
  refine ⟨located_reduce_raise hg, Bounded.reduce (Bounded.raise ?_)⟩
  exact ⟨hb.hiz, hb.z, hb.loz, hb.loz_zero, hcost fun hzero hz => hgcost (hfcost hzero hz) hz⟩

theorem searchLoop_outcome (hw : Weighted a.num s₀) (fuel : ℕ) : ∀ (m : ℕ) (t : Bounds K),
    Located a s₀ numfeasible t.location → Bounded n t →
      Outcome (fun t' => Located a s₀ numfeasible t'.location)
        (fun e => e = .fuel ∨ e = .division ∧ numfeasible = 0 ∧ 0 < a.iter ∧ 1 < n)
        (searchLoop a numfeasible fuel m t)
  | 0, _, _, _ => .inl rfl
  | m + 1, t, h, hb => by
    rw [searchLoop]
    refine (searchStep_outcome hw fuel h hb).bind fun t' ⟨h', hb'⟩ => ?_
    split_ifs
    · exact h'
    · exact searchLoop_outcome hw fuel m t' h' hb'

/-! ### `pkmedian` -/

/-- Why `pkmedian` may fail on points in `n` different places. -/
def Fails (a : Search K) (n : ℕ) (e : Stop) : Prop :=
  e = .fuel ∨ e = .overflow ∧ (2 ^ 31 ≤ a.num ∨ CanOverflow a ∧ a.kmin ≤ n) ∨
    e = .division ∧ ⌊a.bound⌋₊ = 0 ∧ 0 < a.iter ∧ 1 < n

/-- The points of `f` in another order, in a consistent clustering that has `kfinal` centers. -/
structure Clustered (a : Search K) (f : Found K) (r : Found K × ℤ) : Prop where
  points : Rearranged a.num f.s r.1.s
  consistent : Consistent (a.config 0 0 0) r.1.s
  kfinal : r.2 = r.1.s.numcenters

theorem pkmedian_outcome {f : Found K} (hnum : a.kmax < a.num) (hw : Weighted a.num f.s)
    (hclear : ∀ i, f.s.isCenter i = false) (fuel : ℕ) :
    Outcome (Clustered a f) (Fails a (places a.num a.dim f.s)) (pkmedian a fuel f) := by
  have hpos : 0 < a.num := Nat.lt_of_le_of_lt (Nat.zero_le _) hnum
  rw [pkmedian, if_neg (not_le.2 hnum)]
  split_ifs with hmany
  · exact .inr (.inl ⟨rfl, .inl hmany⟩)
  refine (enoughCenters_outcome hpos hw fuel _ (Tried.speedyAgain hpos hw SP _ (tried_firstTry hpos hw))).bind'
    (fun e he => .inl he) ?_
  rintro t ⟨ht, hk⟩
  have hkmin : a.kmin ≤ places a.num a.dim f.s := by
    have := ht.k_le
    omega
  refine (selectfeasibleFast_outcome hpos t.found.s t.found.draws).bind'
    (fun e ⟨he, hover⟩ => .inr (.inl ⟨he, .inr ⟨hover, hkmin⟩⟩)) ?_
  rintro ⟨feasible, numfeasible⟩ hselect
  have hfeasible : ∀ i < numfeasible, feasible i < a.num := by
    rcases hselect with heq | ⟨-, hfalls⟩
    · cases heq
      exact fun i hi => hi
    · exact fun i hi => (hfalls i hi).lt
  have hzero : numfeasible = 0 → ⌊a.bound⌋₊ = 0 := by
    intro hnone
    rcases hselect with heq | ⟨heq, -⟩
    · have hall : numfeasible = a.num := congrArg Prod.snd heq
      omega
    · exact heq.symm.trans hnone
  have hclear' : ∀ i, t.found.s.isCenter i = false := by
    rw [ht.isCenter]
    exact hclear
  have hcost : places a.num a.dim f.s ≤ 1 → t.cost = 0 := by
    intro hn
    rw [ht.cost, ht.z.2 hn, zero_mul, zero_add]
    refine Finset.sum_eq_zero fun k hk => ?_
    have hk := Finset.mem_range.1 hk
    have hplace : place a.dim t.found.s k = place a.dim t.found.s (t.found.s.p k).assign := by
      rw [← ht.points.places a.dim] at hn
      exact Finset.card_le_one.1 hn _ (Finset.mem_image_of_mem _ (Finset.mem_range.2 hk)) _
        (Finset.mem_image_of_mem _ (Finset.mem_range.2 (ht.seeded.lt k hk)))
    rw [ht.seeded.cost k hk, dist_eq_zero_iff.2 hplace, zero_mul]
  have hstart : Located a t.found.s numfeasible ⟨markCenters a.num t.found.s, feasible,
      later (if numfeasible = a.num then 0 else numfeasible) t.found.draws, t.found.called, 0, t.cost⟩ :=
    ⟨fun _ => ⟨rfl, rfl⟩, ht.seeded.consistent hclear', hfeasible⟩
  refine (searchLoop_outcome (n := places a.num a.dim f.s) (ht.points.weighted hw) fuel fuel _ hstart
    ⟨ht.hiz, ht.z, le_rfl, fun _ => rfl, hcost⟩).bind' ?_ ?_
  · rintro e (he | ⟨he, hnone, hiter, hn⟩)
    · exact .inl he
    · exact .inr (.inr ⟨he, hzero hnone, hiter, hn⟩)
  · intro l hl
    exact ⟨ht.points.trans (hl.points.rearranged a.num), hl.consistent, rfl⟩

end Location

end Turkey.Pgain
