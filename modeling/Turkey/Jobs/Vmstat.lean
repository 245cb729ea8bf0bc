import Mathlib.Logic.Function.Basic
import Mathlib.Order.Fin.Basic
import Turkey.Jobs.Text
import Turkey.Schemes.Cursor

/-! `split_run` (`vmstat.py`) cuts the output of `vmstat` into one file for each run. Every line of the log
    begins with the date, and so does every line of the list of markers, which has the run behind it. The cursor
    moves on when the date of the line is found in that of the next marker; the file of this marker is opened,
    and what has been in it is gone.

    `Clock` is what `date` prints: texts of one length, and different texts for different seconds. Files are
    other than the two inputs. -/

namespace Turkey.Vmstat
open Turkey.Cursor Turkey.Text

/-- `len('Tue Apr 11 10:17:57 EDT 2017')` -/
def stampLen : ℕ := "Tue Apr 11 10:17:57 EDT 2017".length

structure Marker where
  args : List Text
  timestamp : Text

def readMarker (timestamp : Text) : Marker where
  args := (strip (timestamp.drop (stampLen + 1))).splitOn ' '
  timestamp := timestamp.take stampLen

/-- The name of the file of a marker. -/
def Marker.out (m : Marker) : Text := join ['_'] m.args ++ ".out".toList

/-- What is written for a line of the log. -/
def row (vmstat : Text) : Text := join [','] (split (strip (vmstat.drop (stampLen + 1)))) ++ ['\n']

/-- The rows in the files have the numbers of their lines beside them. -/
structure State where
  markerCounter : ℕ
  output : Option Text
  files : Text → List (ℕ × Text)

/-- The file of the next marker is opened. -/
def State.openFile (s : State) (name : Text) : State where
  markerCounter := s.markerCounter + 1
  output := some name
  files := Function.update s.files name []

def State.write (s : State) (line : ℕ × Text) : State :=
  match s.output with
  | some name => { s with files := Function.update s.files name (s.files name ++ [line]) }
  | none => s

/-- The body of the loop over the log. -/
def step (markers : List Marker) (s : State) (vmstat : Text × ℕ) : State :=
  let s := match markers[s.markerCounter]? with
    | some marker => if vmstat.1.take stampLen <:+: marker.timestamp then s.openFile marker.out else s
    | none => s
  s.write (vmstat.2, row vmstat.1)

/-- The state after the loop. -/
def splitRun (vmstats timestamps : List Text) : State :=
  vmstats.zipIdx.foldl (step (timestamps.map readMarker)) ⟨0, none, fun _ => []⟩

/-! ### The files as they should be -/

/-- The dates. -/
structure Clock (T : Type) where
  stamp : T → Text
  length_stamp : ∀ t, (stamp t).length = stampLen
  injective : Function.Injective stamp

section Filed
variable {T : Type} (clock : Clock T)

/-- A line with its date in front. -/
def Clock.line (x : T × Text) : Text := clock.stamp x.1 ++ x.2

/-- The markers with their files. -/
def Clock.files (markers : List (T × Text)) : List (T × Text) :=
  markers.map fun m => (m.1, (readMarker (clock.line m)).out)

variable [LinearOrder T]

/-- The last marker that is not later. -/
def lastMarker (markers : List (T × Text)) (t : T) : Option (T × Text) := (markers.filter fun m => m.1 ≤ t).getLast?

/-- Every line of the log is in the file of the last marker that is not later, once, and in no other. -/
def Filed (log markers : List (T × Text)) : Prop :=
  ∀ name, (splitRun (log.map clock.line) (markers.map clock.line)).files name =
    (log.zipIdx.filter fun x => (lastMarker (clock.files markers) x.1.1).map Prod.snd = some name).map fun x =>
      (x.2, row (clock.line x.1))

end Filed

/-! ### Lines -/

section Lines
variable {T : Type} {clock : Clock T} {x : T × Text} {markers log : List (T × Text)} {s : State} {name : Text}

theorem take_line : (clock.line x).take stampLen = clock.stamp x.1 := by
  rw [Clock.line, ← clock.length_stamp x.1, List.take_left]

/-- One date is found in another one only when they are the same. -/
theorem stamp_infix_iff {t t' : T} : clock.stamp t <:+: clock.stamp t' ↔ t = t' := by
  constructor
  · intro h
    refine clock.injective (h.eq_of_length ?_)
    rw [clock.length_stamp, clock.length_stamp]
  · rintro rfl
    exact List.infix_rfl

/-- The line of the next marker's date opens its file. -/
theorem step_hit (h : (clock.files markers)[s.markerCounter]? = some (x.1, name)) (i : ℕ) :
    step ((markers.map clock.line).map readMarker) s (clock.line x, i) =
      (s.openFile name).write (i, row (clock.line x)) := by
  rw [Clock.files, List.getElem?_map, Option.map_eq_some_iff] at h
  obtain ⟨m, hm, hx⟩ := h
  obtain ⟨htime, rfl⟩ := Prod.mk.inj hx
  have hstamp : (readMarker (clock.line m)).timestamp = clock.stamp m.1 := take_line
  simp [step, take_line, List.getElem?_map, hm, hstamp, htime]

theorem step_miss (h : (clock.files markers)[s.markerCounter]?.map Prod.fst ≠ some x.1) (i : ℕ) :
    step ((markers.map clock.line).map readMarker) s (clock.line x, i) = s.write (i, row (clock.line x)) := by
  rw [Clock.files, List.getElem?_map] at h
  rw [step, take_line, List.getElem?_map, List.getElem?_map]
  cases hm : markers[s.markerCounter]? with
  | none => rfl
  | some m =>
    have hstamp : (readMarker (clock.line m)).timestamp = clock.stamp m.1 := take_line
    have hne : x.1 ≠ m.1 := fun heq => h (by simp [hm, heq])
    simp [hstamp, stamp_infix_iff, hne]

/-! ### What the files have -/

variable [LinearOrder T]

/-- The cursor behind line `i`. -/
def cursorAt (M : List (T × Text)) (times : List T) (i : ℕ) : ℕ := cursor M (times.take (i + 1))

/-- Line `i` has been written to the file, and the file has not been opened again. -/
def Kept (M : List (T × Text)) (times : List T) (name : Text) (i : ℕ) : Prop :=
  current M (cursorAt M times i) = some name ∧
    ∀ k, cursorAt M times i ≤ k → k < cursor M times → current M (k + 1) ≠ some name

theorem cursorAt_concat {M : List (T × Text)} {times : List T} {t : T} {i : ℕ} (hi : i < times.length) :
    cursorAt M (times ++ [t]) i = cursorAt M times i := by
  rw [cursorAt, cursorAt, List.take_append_of_le_length hi]

theorem cursorAt_length {M : List (T × Text)} {times : List T} {t : T} :
    cursorAt M (times ++ [t]) times.length = cursor M (times ++ [t]) := by
  rw [cursorAt, List.take_of_length_le (by simp)]

theorem kept_last (M : List (T × Text)) (times : List T) (t : T) (name : Text) :
    Kept M (times ++ [t]) name times.length ↔ current M (cursor M (times ++ [t])) = some name := by
  rw [Kept, cursorAt_length]
  exact and_iff_left fun k hle hlt => absurd hle (by omega)

theorem cursorAt_le {M : List (T × Text)} {times : List T} {i : ℕ} : cursorAt M times i ≤ cursor M times :=
  cursor_mono (List.take_prefix _ _)

/-- An opened file keeps nothing of what has been in it. -/
theorem kept_of_hit {M : List (T × Text)} {times : List T} {t : T} {i : ℕ} (hi : i < times.length)
    (h : cursor M (times ++ [t]) = cursor M times + 1) : Kept M (times ++ [t]) name i ↔
      Kept M times name i ∧ current M (cursor M times + 1) ≠ some name := by
  rw [Kept, Kept, cursorAt_concat hi, h, and_assoc]
  refine and_congr_right fun _ => ⟨fun hall => ⟨fun k hle hlt => hall k hle (by omega), ?_⟩, ?_⟩
  · exact hall _ cursorAt_le (Nat.lt_succ_self _)
  · rintro ⟨hall, hlast⟩ k hle hlt
    rcases Nat.lt_succ_iff_lt_or_eq.1 hlt with hlt | rfl
    · exact hall k hle hlt
    · exact hlast

theorem kept_of_miss {M : List (T × Text)} {times : List T} {t : T} {i : ℕ} (hi : i < times.length)
    (h : cursor M (times ++ [t]) = cursor M times) : Kept M (times ++ [t]) name i ↔ Kept M times name i := by
  rw [Kept, Kept, cursorAt_concat hi, h]

open Classical in
/-- The rows of the lines that the file has kept. -/
noncomputable def rows (clock : Clock T) (markers log : List (T × Text)) (name : Text) : List (ℕ × Text) :=
  (log.zipIdx.filter fun x => Kept (clock.files markers) (log.map Prod.fst) name x.2).map fun x =>
    (x.2, row (clock.line x.1))

/-- The state after the loop, in terms of the cursor. -/
structure Follows (clock : Clock T) (markers log : List (T × Text)) (s : State) : Prop where
  markerCounter : s.markerCounter = cursor (clock.files markers) (log.map Prod.fst)
  output : s.output = current (clock.files markers) (cursor (clock.files markers) (log.map Prod.fst))
  files : ∀ name, s.files name = rows clock markers log name

open Classical in
/-- The rows with one more line. -/
theorem rows_concat {P : Prop} [Decidable P] (hold : ∀ i < log.length,
    Kept (clock.files markers) ((log ++ [x]).map Prod.fst) name i ↔
      Kept (clock.files markers) (log.map Prod.fst) name i ∧ P) :
    rows clock markers (log ++ [x]) name = (if P then rows clock markers log name else []) ++
      if current (clock.files markers) (cursor (clock.files markers) ((log ++ [x]).map Prod.fst)) = some name then
        [(log.length, row (clock.line x))] else [] := by
  have hlast := kept_last (clock.files markers) (log.map Prod.fst) x.1 name
  rw [List.length_map, ← List.map_singleton (f := Prod.fst), ← List.map_append] at hlast
  rw [rows, rows, List.zipIdx_append, List.filter_append, List.map_append]
  congr 1
  · have hlt : ∀ y ∈ log.zipIdx, y.2 < log.length := by
      intro y hy
      rw [List.mem_zipIdx_iff_getElem?] at hy
      exact (List.getElem?_eq_some_iff.1 hy).1
    split_ifs with hP
    · congr 1
      refine List.filter_congr fun y hy => ?_
      simp only [hold y.2 (hlt y hy), hP, and_true]
    · rw [List.map_eq_nil_iff, List.filter_eq_nil_iff]
      intro y hy hkept
      rw [decide_eq_true_eq, hold y.2 (hlt y hy)] at hkept
      exact hP hkept.2
  · simp only [List.zipIdx_singleton, Nat.zero_add, List.filter_cons, List.filter_nil, decide_eq_true_eq, hlast]
    split_ifs <;> rfl

theorem write_files (s : State) (line : ℕ × Text) (name : Text) :
    (s.write line).files name = s.files name ++ if s.output = some name then [line] else [] := by
  cases hout : s.output with
  | none => simp [State.write, hout]
  | some out =>
    rcases eq_or_ne name out with rfl | hne
    · simp [State.write, hout]
    · simp [State.write, hout, hne, hne.symm]

theorem write_output (s : State) (line : ℕ × Text) : (s.write line).output = s.output := by
  cases h : s.output <;> simp [State.write, h]

theorem write_markerCounter (s : State) (line : ℕ × Text) : (s.write line).markerCounter = s.markerCounter := by
  cases h : s.output <;> simp [State.write, h]

theorem splitRun_follows (clock : Clock T) (markers : List (T × Text)) : ∀ log : List (T × Text),
    Follows clock markers log (splitRun (log.map clock.line) (markers.map clock.line)) := by
  intro log
  induction log using List.reverseRecOn with
  | nil => exact ⟨rfl, rfl, fun _ => rfl⟩
  | append_singleton log x ih =>
    have hrun : splitRun ((log ++ [x]).map clock.line) (markers.map clock.line) =
        step ((markers.map clock.line).map readMarker) (splitRun (log.map clock.line) (markers.map clock.line))
          (clock.line x, log.length) := by
      simp [splitRun, List.zipIdx_append]
    rw [hrun]
    have htimes : (log ++ [x]).map Prod.fst = log.map Prod.fst ++ [x.1] := by simp
    by_cases hhit : (clock.files markers)[cursor (clock.files markers) (log.map Prod.fst)]?.map Prod.fst = some x.1
    · obtain ⟨⟨t, name⟩, hm, rfl⟩ := Option.map_eq_some_iff.1 hhit
      have hcursor : cursor (clock.files markers) ((log ++ [x]).map Prod.fst) =
          cursor (clock.files markers) (log.map Prod.fst) + 1 := by
        rw [htimes, cursor_concat, advance_of_hit hm]
      have hcurrent : current (clock.files markers) (cursor (clock.files markers) (log.map Prod.fst) + 1) =
          some name := by
        simp [current, hm]
      rw [step_hit (by rw [ih.markerCounter]; exact hm)]
      refine ⟨?_, ?_, fun f => ?_⟩
      · rw [write_markerCounter, hcursor, ← ih.markerCounter]
        rfl
      · rw [write_output, hcursor, hcurrent]
        rfl
      · have hopen : (State.openFile (splitRun (log.map clock.line) (markers.map clock.line)) name).files f =
            if name ≠ f then rows clock markers log f else [] := by
          rcases eq_or_ne f name with rfl | hne
          · simp [State.openFile]
          · simp [State.openFile, hne, hne.symm, ih.files]
        rw [write_files, hopen, rows_concat (P := name ≠ f) fun i hi => ?_, hcursor, hcurrent]
        · rfl
        · rw [htimes, kept_of_hit (by simpa using hi) (by rw [← htimes, hcursor]), hcurrent, ne_eq, Option.some.injEq]
    · have hcursor : cursor (clock.files markers) ((log ++ [x]).map Prod.fst) =
          cursor (clock.files markers) (log.map Prod.fst) := by
        rw [htimes, cursor_concat, advance, if_neg hhit]
      rw [step_miss (by rw [ih.markerCounter]; exact hhit)]
      refine ⟨?_, ?_, fun f => ?_⟩
      · rw [write_markerCounter, ih.markerCounter, hcursor]
      · rw [write_output, ih.output, hcursor]
      · rw [write_files, ih.files, ih.output, rows_concat (P := True) fun i hi => ?_, if_pos trivial, hcursor]
        rw [and_true, htimes]
        exact kept_of_miss (by simpa using hi) (by rw [← htimes, hcursor])

/-! ### When they are right -/

/-- The files are right when each of them keeps the lines that it should have. -/
theorem filed_iff_kept (hmarkers : (clock.files markers).Pairwise fun a b => a.1 ≤ b.1) : Filed clock log markers ↔
    ∀ i t, (log.map Prod.fst)[i]? = some t → ∀ name, Kept (clock.files markers) (log.map Prod.fst) name i ↔
      current (clock.files markers) (due (clock.files markers) t) = some name := by
  have hlast : ∀ t, (lastMarker (clock.files markers) t).map Prod.snd =
      current (clock.files markers) (due (clock.files markers) t) := fun t => getLast?_filter hmarkers
  simp only [Filed, (splitRun_follows clock markers log).files, rows, hlast]
  constructor
  · intro h i t hi name
    rw [List.getElem?_map, Option.map_eq_some_iff] at hi
    obtain ⟨x, hx, rfl⟩ := hi
    have hmem : ∀ P : (T × Text) × ℕ → Bool, (i, row (clock.line x)) ∈
        (log.zipIdx.filter P).map (fun x => (x.2, row (clock.line x.1))) ↔ P (x, i) = true := by
      intro P
      rw [List.mem_map]
      constructor
      · rintro ⟨⟨y, j⟩, hy, heq⟩
        obtain ⟨rfl, -⟩ := Prod.mk.inj heq
        obtain ⟨hy, hP⟩ := List.mem_filter.1 hy
        rw [List.mem_zipIdx_iff_getElem?, hx] at hy
        obtain rfl := Option.some.inj hy
        exact hP
      · intro hP
        exact ⟨(x, i), List.mem_filter.2 ⟨List.mem_zipIdx_iff_getElem?.2 hx, hP⟩, rfl⟩
    have hname := congrArg (fun l => (i, row (clock.line x)) ∈ l) (h name)
    simpa only [hmem, decide_eq_true_eq, eq_iff_iff] using hname
  · intro h name
    congr 1
    refine List.filter_congr fun x hx => ?_
    rw [List.mem_zipIdx_iff_getElem?] at hx
    rw [decide_eq_decide]
    exact h x.2 x.1.1 (by rw [List.getElem?_map, hx]; rfl) name

theorem cursorAt_eq {M : List (T × Text)} {times as bs : List T} {t : T} (h : times = as ++ t :: bs) :
    cursorAt M times as.length = cursor M (as ++ [t]) := by
  rw [cursorAt, h, List.take_append, List.take_of_length_le (Nat.le_succ _), Nat.add_sub_cancel_left]
  rfl

/-- A marker that the cursor has passed is not later than the line. -/
theorem cursorAt_le_due {M : List (T × Text)} {times as bs : List T} {t : T} (hM : M.Pairwise fun a b => a.1 ≤ b.1)
    (htimes : times.Pairwise (· ≤ ·)) (h : times = as ++ t :: bs) : cursor M (as ++ [t]) ≤ due M t := by
  by_contra hgt
  obtain ⟨cs, m, ds, hm, hsplit, -⟩ := exists_hit (not_le.1 hgt)
  have hmem : m.1 ∈ as ++ [t] := hsplit ▸ List.mem_append_right _ (List.mem_cons_self ..)
  refine absurd ((lt_due_iff hM hm).2 ?_) (lt_irrefl _)
  rw [h, List.pairwise_append] at htimes
  rw [List.mem_append, List.mem_singleton] at hmem
  obtain hmem | heq := hmem
  · exact htimes.2.2 _ hmem t (List.mem_cons_self ..)
  · exact heq.le

theorem kept_of_right {M : List (T × Text)} {times : List T} (h : Right M times) {i : ℕ} {t : T}
    (hi : times[i]? = some t) (name : Text) : Kept M times name i ↔ current M (due M t) = some name := by
  obtain ⟨hlt, rfl⟩ := List.getElem?_eq_some_iff.1 hi
  have hsplit : times = times.take i ++ times[i] :: times.drop (i + 1) := by simp
  have hat : cursorAt M times i = cursor M (times.take i ++ [times[i]]) := by
    rw [cursorAt, List.take_append_getElem hlt]
  rw [Kept, ← h.part _ _ _ hsplit, ← hat]
  refine and_iff_left_of_imp fun hname k hle hk hagain => ?_
  cases hc : cursorAt M times i with
  | zero => simp [hc, current] at hname
  | succ j =>
    rw [hc] at hname hle
    have heq := h.eq_of_current (i := j) (j := k) (by omega) hk (hname.trans hagain.symm)
    omega

/-- The names of the parts are right and the files are not opened again exactly when each file keeps its lines. -/
theorem right_iff_kept {M : List (T × Text)} {times : List T} (hM : M.Pairwise fun a b => a.1 ≤ b.1)
    (htimes : times.Pairwise (· ≤ ·)) : Right M times ↔ ∀ i t, times[i]? = some t → ∀ name,
      Kept M times name i ↔ current M (due M t) = some name := by
  refine ⟨fun h i t hi => kept_of_right h hi, fun h => ?_⟩
  have hpart : ∀ as t bs, times = as ++ t :: bs → current M (cursor M (as ++ [t])) = current M (due M t) := by
    intro as t bs hsplit
    have hkept := h as.length t (by rw [hsplit]; simp)
    simp only [Kept, cursorAt_eq hsplit] at hkept
    have hle := cursorAt_le_due hM htimes hsplit
    cases hdue : due M t with
    | zero =>
      rw [hdue] at hle
      rw [Nat.le_zero.1 hle]
    | succ d =>
      have hd : d < M.length := by
        have hlen : due M t ≤ M.length := due_le_length
        omega
      have hsome : current M (d + 1) = some M[d].2 := by simp [current, hd]
      rw [hdue] at hkept
      rw [hsome, ((hkept _).2 hsome).1]
  refine ⟨hpart, ?_⟩
  rw [List.nodup_iff_getElem?_ne_getElem?]
  intro i j hij hj
  rw [List.length_map, List.length_take_of_le cursor_le_length] at hj
  obtain ⟨as, m, bs, hm, hsplit, hcursor⟩ := exists_hit (hij.trans hj)
  have hat : cursorAt M times as.length = i + 1 := by
    rw [cursorAt_eq hsplit, cursor_concat, hcursor, advance_of_hit hm]
  have hname : current M (i + 1) = some m.2 := by simp [current, hm]
  have hkept := h as.length m.1 (by rw [hsplit]; simp) m.2
  rw [← hpart as m.1 bs hsplit, ← cursorAt_eq hsplit, hat, hname] at hkept
  have hagain := (hkept.2 rfl).2 j (by omega) hj
  rw [List.getElem?_map, List.getElem?_map, List.getElem?_take_of_lt (hij.trans hj), List.getElem?_take_of_lt hj, hm]
  exact hagain.symm

/-- CORRECT: for a log and markers in the order of time, every line is in the right file exactly when the markers that
    matter are on time. -/
theorem filed_iff {T : Type} [LinearOrder T] (clock : Clock T) (log markers : List (T × Text))
    (hlog : (log.map Prod.fst).Pairwise (· ≤ ·)) (hmarkers : (markers.map Prod.fst).Pairwise (· ≤ ·)) :
    Filed clock log markers ↔ ∃ c, OnTime (clock.files markers) (log.map Prod.fst) c := by
  have hfiles : (clock.files markers).Pairwise fun a b => a.1 ≤ b.1 := by
    rw [Clock.files, List.pairwise_map]
    exact List.pairwise_map.1 hmarkers
  rw [filed_iff_kept hfiles, ← right_iff_kept hfiles hlog, right_iff hfiles hlog]

end Lines

def digit (n : ℕ) : Char := Char.ofNat (48 + n)

/-- The seconds of one minute. -/
def oneMinute : Clock (Fin 60) where
  stamp t := "Tue Apr 11 10:17:".toList ++ [digit (t / 10), digit (t % 10)] ++ " EDT 2017".toList
  length_stamp _ := by
    rw [List.length_append, List.length_append, List.length_cons, List.length_singleton]
    rfl
  injective := by
    intro a b h
    have hdigit : ∀ m < 10, ∀ n < 10, digit m = digit n → m = n := by decide
    simp only [List.append_cancel_left_eq, List.append_cancel_right_eq, List.cons.injEq, and_true] at h
    have htens := hdigit _ (by omega) _ (by omega) h.1
    have hones := hdigit _ (by omega) _ (by omega) h.2
    exact Fin.ext (by omega)

theorem filed_iff_oneMinute :
    let log : List (Fin 60 × Text) := [(57, " 1 0\n".toList), (58, " 2 0\n".toList)]
    let markers : List (Fin 60 × Text) := [(57, " blackscholes\n".toList), (58, " canneal\n".toList)]
    ((log.map Prod.fst).Pairwise (· ≤ ·) ∧ (markers.map Prod.fst).Pairwise (· ≤ ·)) ∧
      (Filed oneMinute log markers ↔ ∃ c, OnTime (oneMinute.files markers) (log.map Prod.fst) c) :=
  ⟨by decide, filed_iff oneMinute _ _ (by decide) (by decide)⟩

/-- No line has the second of the last marker, and the line behind it is still filed under the first one. -/
theorem missing_second_not_filed :
    let log : List (Fin 60 × Text) := [(57, " 1 0\n".toList), (59, " 2 0\n".toList)]
    let markers : List (Fin 60 × Text) := [(57, " blackscholes\n".toList), (58, " canneal\n".toList)]
    ((log.map Prod.fst).Pairwise (· ≤ ·) ∧ (markers.map Prod.fst).Pairwise (· ≤ ·)) ∧
      ¬Filed oneMinute log markers := by
  refine ⟨by decide, fun h => ?_⟩
  have hfile := h "canneal.out".toList
  revert hfile
  decide +kernel

end Turkey.Vmstat
