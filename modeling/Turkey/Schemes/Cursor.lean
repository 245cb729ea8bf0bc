import Mathlib.Data.List.Count
import Mathlib.Data.List.Infix
import Mathlib.Data.List.Nodup
import Mathlib.Order.Basic
import Mathlib.Order.Lattice
import Mathlib.Tactic.ByContra

/-! Markers cut a log into parts, and a cursor goes over the markers while the log is read. The part of a record
    is that of the last marker up to its time; the cursor, however, only moves when the marker that it is at has
    exactly the time of the record, and then by one. `OnTime` says of the times and names alone when the cursor
    finds the right names in the end. -/

namespace Turkey.Cursor
variable {T N : Type*} [LinearOrder T] (markers : List (T × N))

/-- The cursor goes on at a time that is the one of its marker. -/
def advance (c : ℕ) (t : T) : ℕ := if markers[c]?.map Prod.fst = some t then c + 1 else c

/-- Where the cursor is after these times. -/
def cursor (log : List T) : ℕ := log.foldl (advance markers) 0

/-- The number of markers up to a time. -/
def due (t : T) : ℕ := markers.countP fun m => m.1 ≤ t

/-- The name of the last of the first `c` markers. -/
def current : ℕ → Option N
  | 0 => none
  | c + 1 => markers[c]?.map Prod.snd

/-- Every record gets the name of the last marker up to its time, and the markers that have been reached have
    different names. -/
structure Right (log : List T) : Prop where
  part : ∀ as t bs, log = as ++ t :: bs → current markers (cursor markers (as ++ [t])) =
    current markers (due markers t)
  names : ((markers.take (cursor markers log)).map Prod.snd).Nodup

/-- The first `c` markers have different names and times, and a record of each of these times. Of the next one's time
    there is no record but the first one of an earlier marker; and the records behind it are of a part with the same
    name. -/
structure OnTime (log : List T) (c : ℕ) : Prop where
  le : c ≤ markers.length
  names : ((markers.take c).map Prod.snd).Nodup
  times : ∀ i j m m', i < j → j < c → markers[i]? = some m → markers[j]? = some m' → m.1 < m'.1
  hit : ∀ i m, i < c → markers[i]? = some m → m.1 ∈ log
  missed : ∀ m as bs, markers[c]? = some m → log = as ++ m.1 :: bs →
    m.1 ∉ as ∧ ∃ i m', i < c ∧ markers[i]? = some m' ∧ m'.1 = m.1
  rest : ∀ t ∈ log, c < due markers t → current markers (due markers t) = current markers c

variable {markers} {log as bs : List T} {t : T} {c k : ℕ} {m : T × N}

/-! ### The cursor -/

theorem cursor_concat : cursor markers (as ++ [t]) = advance markers (cursor markers as) t := by
  rw [cursor, List.foldl_append]
  rfl

theorem le_advance : c ≤ advance markers c t := by
  rw [advance]
  split_ifs
  · exact Nat.le_succ c
  · exact le_rfl

theorem cursor_le_append : ∀ as bs : List T, cursor markers as ≤ cursor markers (as ++ bs)
  | as, [] => by rw [List.append_nil]
  | as, t :: bs => by
      have hstep : cursor markers as ≤ cursor markers (as ++ [t]) := by
        rw [cursor_concat]
        exact le_advance
      have hrest := cursor_le_append (as ++ [t]) bs
      rw [List.append_assoc] at hrest
      exact hstep.trans hrest

theorem cursor_mono (h : as <+: bs) : cursor markers as ≤ cursor markers bs := by
  obtain ⟨cs, rfl⟩ := h
  exact cursor_le_append as cs

theorem advance_of_hit (h : markers[c]? = some m) : advance markers c m.1 = c + 1 := by
  simp [advance, h]

/-- The cursor has passed a marker at a record of its time. -/
theorem exists_hit (hk : k < cursor markers log) :
    ∃ as m bs, markers[k]? = some m ∧ log = as ++ m.1 :: bs ∧ cursor markers as = k := by
  induction log using List.reverseRecOn with
  | nil => exact absurd hk (Nat.not_lt_zero k)
  | append_singleton log t ih =>
    rw [cursor_concat, advance] at hk
    rcases lt_or_ge k (cursor markers log) with hlt | hge
    · obtain ⟨as, m, bs, hm, rfl, has⟩ := ih hlt
      exact ⟨as, m, bs ++ [t], hm, by simp, has⟩
    · split_ifs at hk with hhit
      · obtain rfl : k = cursor markers log := by omega
        obtain ⟨m, hm, rfl⟩ := Option.map_eq_some_iff.1 hhit
        exact ⟨log, m, [], hm, rfl, rfl⟩
      · omega

theorem cursor_le_length : cursor markers log ≤ markers.length := by
  by_contra hlong
  obtain ⟨as, m, bs, hm, -, -⟩ := exists_hit (not_le.1 hlong)
  rw [List.getElem?_eq_none le_rfl] at hm
  cases hm

/-- A marker that the cursor passes some time has been passed before any later record. -/
theorem passed_before (hlog : log.Pairwise (· ≤ ·)) (hk : k < cursor markers log) (hm : markers[k]? = some m)
    (hsplit : log = as ++ t :: bs) (hlt : m.1 < t) : k < cursor markers as := by
  obtain ⟨cs, m', ds, hm', hcs, hcursor⟩ := exists_hit hk
  obtain rfl : m' = m := Option.some.inj (hm'.symm.trans hm)
  have hpassed : cursor markers (cs ++ [m'.1]) = k + 1 := by rw [cursor_concat, hcursor, advance_of_hit hm']
  have hprefix : cs ++ [m'.1] <+: as ∨ as <+: cs := by
    have hone : as <+: log := ⟨_, hsplit.symm⟩
    have htwo : cs ++ [m'.1] <+: log := ⟨ds, by simp [hcs]⟩
    rcases List.prefix_or_prefix_of_prefix htwo hone with h | h
    · exact .inl h
    · rw [List.prefix_concat_iff] at h
      exact h.imp (fun h => by rw [h]) id
  obtain h | ⟨es, rfl⟩ := hprefix
  · have hle : cursor markers (cs ++ [m'.1]) ≤ cursor markers as := cursor_mono h
    omega
  · -- the record of the marker's time would be behind `t`
    have htail : es ++ m'.1 :: ds = t :: bs := by
      have heq := hcs.symm.trans hsplit
      rw [List.append_assoc] at heq
      exact List.append_cancel_left heq
    have hmem : m'.1 ∈ t :: bs := htail ▸ List.mem_append_right _ (List.mem_cons_self ..)
    rw [hsplit, List.pairwise_append] at hlog
    obtain rfl | hbs := List.mem_cons.1 hmem
    · exact absurd hlt (lt_irrefl _)
    · exact absurd hlt (not_lt.2 ((List.pairwise_cons.1 hlog.2.1).1 _ hbs))

/-! ### From the condition -/

theorem lt_due_iff (hmarkers : markers.Pairwise fun a b => a.1 ≤ b.1) (hm : markers[k]? = some m) :
    k < due markers t ↔ m.1 ≤ t := by
  induction markers generalizing k with
  | nil => simp at hm
  | cons x xs ih =>
    obtain ⟨hx, hxs⟩ := List.pairwise_cons.1 hmarkers
    have hzero : ¬x.1 ≤ t → due xs t = 0 := by
      intro hlt
      rw [due, List.countP_eq_zero]
      intro y hy
      simpa using lt_of_lt_of_le (not_le.1 hlt) (hx y hy)
    rw [due, List.countP_cons]
    cases k with
    | zero =>
      obtain rfl : x = m := by simpa using hm
      by_cases hle : x.1 ≤ t
      · simp [hle]
      · have := hzero hle
        rw [due] at this
        simp [hle, this]
    | succ k =>
      have hk := ih hxs (by simpa using hm)
      rw [due] at hk
      by_cases hle : x.1 ≤ t
      · simp [hle, hk]
      · have hnone := hzero hle
        rw [due] at hnone
        have hmem : m ∈ xs := List.mem_of_getElem? (by simpa using hm)
        have hgt := lt_of_lt_of_le (not_le.1 hle) (hx m hmem)
        simp [hle, hnone, hgt]

theorem due_le_length : due markers t ≤ markers.length := List.countP_le_length

theorem filter_eq_take (hmarkers : markers.Pairwise fun a b => a.1 ≤ b.1) :
    (markers.filter fun m => m.1 ≤ t) = markers.take (due markers t) := by
  induction markers with
  | nil => rfl
  | cons x xs ih =>
    obtain ⟨hx, hxs⟩ := List.pairwise_cons.1 hmarkers
    rw [due, List.countP_cons]
    have hrest := ih hxs
    rw [due] at hrest
    by_cases hle : x.1 ≤ t
    · simp [hle, hrest]
    · have hnone : xs.filter (fun m => m.1 ≤ t) = [] := by
        rw [List.filter_eq_nil_iff]
        intro y hy
        simpa using lt_of_lt_of_le (not_le.1 hle) (hx y hy)
      have hzero : xs.countP (fun m => m.1 ≤ t) = 0 := by
        rw [List.countP_eq_length_filter, hnone]
        rfl
      simp [hle, hnone, hzero]

/-- The last marker up to a time. -/
theorem getLast?_filter (hmarkers : markers.Pairwise fun a b => a.1 ≤ b.1) :
    (markers.filter fun m => m.1 ≤ t).getLast?.map Prod.snd = current markers (due markers t) := by
  rw [filter_eq_take hmarkers]
  cases hdue : due markers t with
  | zero => rfl
  | succ c =>
    have hlen : c + 1 ≤ markers.length := hdue ▸ due_le_length
    rw [List.getLast?_eq_getElem?, List.length_take_of_le hlen, Nat.add_sub_cancel,
      List.getElem?_take_of_lt (Nat.lt_succ_self c)]
    rfl

/-- Among the first `c` markers the cursor has passed those that are not later than the record. -/
theorem OnTime.passed_iff (h : OnTime markers log c) (hlog : log.Pairwise (· ≤ ·)) (hsplit : log = as ++ bs) :
    cursor markers as ≤ c ∧ ∀ k m, k < c → markers[k]? = some m → (k < cursor markers as ↔ ∃ t ∈ as, m.1 ≤ t) := by
  induction as using List.reverseRecOn generalizing bs with
  | nil => simp [cursor]
  | append_singleton as t ih =>
    have hsplit' : log = as ++ t :: bs := by rw [hsplit, List.append_assoc]; rfl
    obtain ⟨hle, hpassed⟩ := ih hsplit'
    have hbefore : ∀ x ∈ as, x ≤ t := by
      intro x hx
      rw [hsplit', List.pairwise_append] at hlog
      exact hlog.2.2 x hx t (List.mem_cons_self ..)
    have hearlier : ∀ k m, k < c → markers[k]? = some m → k < cursor markers as → ∃ x ∈ as ++ [t], m.1 ≤ x := by
      intro k m hk hm hlt
      obtain ⟨x, hx, hle⟩ := (hpassed k m hk hm).1 hlt
      exact ⟨x, List.mem_append_left _ hx, hle⟩
    have hlater : ∀ (k : ℕ) (m : T × N), m.1 > t → (∃ x ∈ as ++ [t], m.1 ≤ x) → k < cursor markers as := by
      rintro k m hgt ⟨x, hx, hle⟩
      rw [List.mem_append, List.mem_singleton] at hx
      obtain hx | rfl := hx
      · exact absurd (hle.trans (hbefore x hx)) (not_le.2 hgt)
      · exact absurd hle (not_le.2 hgt)
    rw [cursor_concat]
    rcases hle.lt_or_eq with hlt | heq
    · obtain ⟨m, hm⟩ : ∃ m, markers[cursor markers as]? = some m :=
        ⟨_, List.getElem?_eq_getElem (lt_of_lt_of_le hlt h.le)⟩
      rcases eq_or_ne m.1 t with rfl | hne
      · rw [advance_of_hit hm]
        refine ⟨hlt, fun k m' hk hm' => ?_⟩
        rcases lt_trichotomy k (cursor markers as) with hlt' | rfl | hgt
        · exact iff_of_true (Nat.lt_succ_of_lt hlt') (hearlier k m' hk hm' hlt')
        · obtain rfl : m = m' := Option.some.inj (hm.symm.trans hm')
          exact iff_of_true (Nat.lt_succ_self _) ⟨m.1, by simp, le_rfl⟩
        · refine iff_of_false (by omega) fun hx => ?_
          exact absurd (hlater k m' (h.times _ _ _ _ hgt hk hm hm') hx) (by omega)
      · have hstay : advance markers (cursor markers as) t = cursor markers as := by
          simp [advance, hm, hne]
        -- the record of the marker's time is still to come
        have hgt : m.1 > t := by
          have hmem := h.hit _ m hlt hm
          rw [hsplit', List.mem_append] at hmem
          obtain hmem | hmem := hmem
          · exact absurd ((hpassed _ m hlt hm).2 ⟨m.1, hmem, le_rfl⟩) (lt_irrefl _)
          · rw [hsplit', List.pairwise_append, List.pairwise_cons] at hlog
            obtain heq | hmem := List.mem_cons.1 hmem
            · exact absurd heq hne
            · exact lt_of_le_of_ne (hlog.2.1.1 _ hmem) hne.symm
        rw [hstay]
        refine ⟨hle, fun k m' hk hm' => ⟨hearlier k m' hk hm', fun hx => ?_⟩⟩
        rcases lt_trichotomy k (cursor markers as) with hlt' | rfl | hgt'
        · exact hlt'
        · obtain rfl : m = m' := Option.some.inj (hm.symm.trans hm')
          exact hlater _ m hgt hx
        · exact hlater k m' (lt_trans hgt (h.times _ _ _ _ hgt' hk hm hm')) hx
    · have hstay : advance markers (cursor markers as) t = cursor markers as := by
        rw [advance, if_neg]
        intro hhit
        obtain ⟨m, hm, rfl⟩ := Option.map_eq_some_iff.1 hhit
        obtain ⟨hnot, k, m', hk, hm', htime⟩ := h.missed m as bs (heq ▸ hm) hsplit'
        obtain ⟨x, hx, hle⟩ := (hpassed k m' hk hm').1 (heq ▸ hk)
        rw [htime] at hle
        exact hnot (le_antisymm (hbefore x hx) hle ▸ hx)
      rw [hstay]
      refine ⟨hle, fun k m hk hm => iff_of_true (heq ▸ hk) (hearlier k m hk hm (heq ▸ hk))⟩

theorem OnTime.right (h : OnTime markers log c) (hmarkers : markers.Pairwise fun a b => a.1 ≤ b.1)
    (hlog : log.Pairwise (· ≤ ·)) : Right markers log := by
  refine ⟨fun as t bs hsplit => ?_, ?_⟩
  · have hsplit' : log = (as ++ [t]) ++ bs := by rw [hsplit, List.append_assoc]; rfl
    obtain ⟨hle, hpassed⟩ := h.passed_iff hlog hsplit'
    have hbefore : ∀ x ∈ as ++ [t], x ≤ t := by
      intro x hx
      rw [List.mem_append, List.mem_singleton] at hx
      obtain hx | rfl := hx
      · rw [hsplit, List.pairwise_append] at hlog
        exact hlog.2.2 x hx t (List.mem_cons_self ..)
      · exact le_rfl
    have hmin : ∀ k < c, k < cursor markers (as ++ [t]) ↔ k < due markers t := by
      intro k hk
      have hlen : k < markers.length := lt_of_lt_of_le hk h.le
      have hm : markers[k]? = some markers[k] := List.getElem?_eq_getElem hlen
      rw [hpassed k _ hk hm, lt_due_iff hmarkers hm]
      constructor
      · rintro ⟨x, hx, hle⟩
        exact hle.trans (hbefore x hx)
      · intro hle
        exact ⟨t, by simp, hle⟩
    rcases le_or_gt (due markers t) c with hdue | hdue
    · have heq : cursor markers (as ++ [t]) = due markers t := by
        rcases lt_trichotomy (cursor markers (as ++ [t])) (due markers t) with hlt | heq | hgt
        · exact absurd ((hmin _ (by omega)).2 hlt) (lt_irrefl _)
        · exact heq
        · exact absurd ((hmin _ (by omega)).1 hgt) (lt_irrefl _)
      rw [heq]
    · have heq : cursor markers (as ++ [t]) = c := by
        rcases hle.lt_or_eq with hlt | heq
        · exact absurd ((hmin _ hlt).2 (by omega)) (lt_irrefl _)
        · exact heq
      rw [heq]
      exact (h.rest t (by rw [hsplit]; simp) hdue).symm
  · have hle := (h.passed_iff hlog (List.append_nil log).symm).1
    exact h.names.sublist ((List.take_sublist_take_left hle).map _)

/-! ### To the condition -/

/-- Two markers that the cursor has passed have different names. -/
theorem Right.eq_of_current (h : Right markers log) {i j : ℕ} (hi : i < cursor markers log)
    (hj : j < cursor markers log) (heq : current markers (i + 1) = current markers (j + 1)) : i = j := by
  have hget : ∀ k < cursor markers log, ((markers.take (cursor markers log)).map Prod.snd)[k]? =
      current markers (k + 1) := by
    intro k hk
    rw [List.getElem?_map, List.getElem?_take_of_lt hk]
    rfl
  refine (List.getElem?_inj ?_ h.names).1 ((hget i hi).trans (heq.trans (hget j hj).symm))
  rw [List.length_map, List.length_take_of_le cursor_le_length]
  exact hi

/-- The record at which the cursor has passed a marker is filed under this marker. -/
theorem Right.current_due (h : Right markers log) (hk : k < cursor markers log) (hm : markers[k]? = some m) :
    current markers (k + 1) = current markers (due markers m.1) := by
  obtain ⟨as, m', bs, hm', hsplit, hcursor⟩ := exists_hit hk
  obtain rfl : m' = m := Option.some.inj (hm'.symm.trans hm)
  have hpart := h.part as m'.1 bs hsplit
  rwa [cursor_concat, hcursor, advance_of_hit hm'] at hpart

theorem le_of_sorted (hmarkers : markers.Pairwise fun a b => a.1 ≤ b.1) {i j : ℕ} {m' : T × N} (hij : i ≤ j)
    (hm : markers[i]? = some m) (hm' : markers[j]? = some m') : m.1 ≤ m'.1 := by
  obtain ⟨hi, rfl⟩ := List.getElem?_eq_some_iff.1 hm
  obtain ⟨hj, rfl⟩ := List.getElem?_eq_some_iff.1 hm'
  rcases hij.lt_or_eq with hlt | rfl
  · exact List.pairwise_iff_getElem.1 hmarkers i j hi hj hlt
  · exact le_rfl

theorem Right.times (h : Right markers log) (hmarkers : markers.Pairwise fun a b => a.1 ≤ b.1) {i j : ℕ}
    {m' : T × N} (hij : i < j) (hj : j < cursor markers log) (hm : markers[i]? = some m)
      (hm' : markers[j]? = some m') :
    m.1 < m'.1 := by
  refine lt_of_le_of_ne (le_of_sorted hmarkers hij.le hm hm') fun heq => ?_
  have hi := h.current_due (hij.trans hj) hm
  rw [heq, ← h.current_due hj hm'] at hi
  exact hij.ne (h.eq_of_current (hij.trans hj) hj hi)

/-- At a record of the time of the next marker the cursor has been at an earlier marker of this time. -/
theorem at_missed (hmarkers : markers.Pairwise fun a b => a.1 ≤ b.1) (hlog : log.Pairwise (· ≤ ·))
    (hm : markers[cursor markers log]? = some m) (hsplit : log = as ++ m.1 :: bs) :
    cursor markers as < cursor markers log ∧ ∃ m', markers[cursor markers as]? = some m' ∧ m'.1 = m.1 := by
  have hle : cursor markers as ≤ cursor markers log := cursor_mono ⟨_, hsplit.symm⟩
  have hlt : cursor markers as < cursor markers log := by
    refine lt_of_le_of_ne hle fun heq => ?_
    have hpass : cursor markers (as ++ [m.1]) ≤ cursor markers log := cursor_mono ⟨bs, by simp [hsplit]⟩
    rw [cursor_concat, advance_of_hit (heq ▸ hm)] at hpass
    omega
  obtain ⟨m', hm'⟩ : ∃ m', markers[cursor markers as]? = some m' :=
    ⟨_, List.getElem?_eq_getElem (lt_of_lt_of_le hlt cursor_le_length)⟩
  refine ⟨hlt, m', hm', le_antisymm (le_of_sorted hmarkers hle hm' hm) ?_⟩
  by_contra hgt
  exact lt_irrefl _ (passed_before hlog hlt hm' hsplit (not_le.1 hgt))

theorem Right.onTime (h : Right markers log) (hmarkers : markers.Pairwise fun a b => a.1 ≤ b.1)
    (hlog : log.Pairwise (· ≤ ·)) : OnTime markers log (cursor markers log) := by
  refine ⟨cursor_le_length, h.names, fun i j m m' hij hj hm hm' => h.times hmarkers hij hj hm hm', ?_, ?_, ?_⟩
  · intro i m hi hm
    obtain ⟨as, m', bs, hm', hsplit, -⟩ := exists_hit hi
    obtain rfl : m' = m := Option.some.inj (hm'.symm.trans hm)
    rw [hsplit]
    simp
  · intro m as bs hm hsplit
    obtain ⟨hlt, m', hm', htime⟩ := at_missed hmarkers hlog hm hsplit
    refine ⟨fun hmem => ?_, _, m', hlt, hm', htime⟩
    obtain ⟨cs, ds, rfl⟩ := List.append_of_mem hmem
    have hfirst : log = cs ++ m.1 :: (ds ++ m.1 :: bs) := by rw [hsplit, List.append_assoc]; rfl
    obtain ⟨-, m'', hm'', htime'⟩ := at_missed hmarkers hlog hm hfirst
    -- at its first record the cursor has passed the earlier marker, and later it is at another one of this time
    have hpass : cursor markers (cs ++ [m.1]) ≤ cursor markers (cs ++ m.1 :: ds) := cursor_mono ⟨ds, by simp⟩
    rw [cursor_concat, ← htime', advance_of_hit hm'', htime'] at hpass
    have hlt' := h.times hmarkers (Nat.lt_of_succ_le hpass) hlt hm'' hm'
    rw [htime, htime'] at hlt'
    exact lt_irrefl _ hlt'
  · intro t ht hdue
    obtain ⟨as, bs, hsplit⟩ := List.append_of_mem ht
    have hle : cursor markers (as ++ [t]) ≤ cursor markers log := cursor_mono ⟨bs, by simp [hsplit]⟩
    have hpart := h.part as t bs hsplit
    rcases hle.lt_or_eq with hlt | heq
    · obtain ⟨c, hc⟩ : ∃ c, cursor markers log = c + 1 := ⟨_, (Nat.succ_pred_eq_of_pos (by omega)).symm⟩
      have hk : c < cursor markers log := by omega
      obtain ⟨m, hm⟩ : ∃ m, markers[c]? = some m :=
        ⟨_, List.getElem?_eq_getElem (lt_of_lt_of_le hk cursor_le_length)⟩
      have hmt : m.1 = t := by
        refine le_antisymm ((lt_due_iff hmarkers hm).1 (by omega)) (not_lt.1 fun hearly => ?_)
        have hpassed := passed_before hlog hk hm hsplit hearly
        rw [cursor_concat] at hlt
        have hgrow : cursor markers as ≤ advance markers (cursor markers as) t := le_advance
        omega
      rw [hc, ← hmt]
      exact (h.current_due hk hm).symm
    · rw [← heq, hpart]

/-- The cursor finds the right names exactly when some of the markers are on time and the others do not matter. -/
theorem right_iff (hmarkers : markers.Pairwise fun a b => a.1 ≤ b.1) (hlog : log.Pairwise (· ≤ ·)) :
    Right markers log ↔ ∃ c, OnTime markers log c :=
  ⟨fun h => ⟨_, h.onTime hmarkers hlog⟩, fun ⟨_, h⟩ => h.right hmarkers hlog⟩

end Turkey.Cursor
