import Mathlib.Data.List.Forall2
import Turkey.Jobs.Literals
import Turkey.Jobs.Task

/-! The results of a job (`parser.py`). Every task has left a file: the date at which it was started, the lines
    that the application has printed, and the three lines of `time -p`. `parse_file` goes over the lines and
    looks for a word in each; what it finds goes into the dictionary of the task, and this is a row of
    `parsed.csv`.

    The columns are the keys of the first dictionary and six more. A row with another key raises, and so does a
    text that is not ASCII. Every exception ends the run of the parser, with the rows that have been written
    before. -/

namespace Turkey.Results
open Turkey.Text Turkey.Literals
open Turkey.Launch (Value)

/-- What a dictionary has: a field of the job file, a date, a time in microseconds since the year 1, or a number of
    milliseconds. The number is exact; in the source it is a `double`, of which `str` prints 12 digits in Python 2. -/
inductive Field where
  | json (value : Value)
  | date (d : Stamp)
  | time (us : ℤ)
  | ms (x : Number)

/-- A dictionary, in the order in which its keys were set. -/
abbrev Dict := List (String × Field)

/-- `d.keys()` -/
def keys (d : Dict) : List String := d.map Prod.fst

/-- `d.get(key)` -/
def get : Dict → String → Option Field
  | [], _ => none
  | (k, v) :: d, key => if k = key then some v else get d key

/-- `d[key] = value` -/
def set : Dict → String → Field → Dict
  | [], key, value => [(key, value)]
  | (k, v) :: d, key, value => if k = key then (k, value) :: d else (k, v) :: set d key value

/-! ### `parse_file` -/

/-- `line.split()[1].strip()` -/
def second (line : Text) : Option Text := (split line)[1]?.map strip

/-- The second word of a line, in milliseconds. -/
def parseMs (line : Text) : Option Number :=
  ((second line).bind parseFloat).map fun
    | .finite q => .finite (q * 1000)
    | x => x

/-- The second word of a line, a date. -/
def parseStamp (line : Text) : Option Stamp := (second line).bind strptime

/-- One line; `none` is an exception. -/
def parseLine (params : Dict) (line : Text) : Option Dict :=
  if contains "datetime" line then (parseStamp line).map fun d => set params "starttime" (.date d)
  else if contains "real" line then
    (parseMs line).bind fun real =>
      let params := set params "real" (.ms real)
      match get params "starttime" with
      | some (.date d) => (d.plusMillis real).map fun us => set params "endtime" (.time us)
      | _ => none
  else if contains "user" line then (parseMs line).map fun x => set params "user" (.ms x)
  else if contains "sys" line then (parseMs line).map fun x => set params "sys" (.ms x)
  else some params

/-- All lines of a file; `none` is an exception. -/
def parseFile (params : Dict) (lines : List Text) : Option Dict := lines.foldlM parseLine params

/-! ### `Parser.parse` -/

/-- A text that the ASCII codec can encode. -/
def isAscii (s : String) : Bool := s.toList.all fun c => c.toNat < 128

/-- What the CSV writer can print. -/
def Field.isAscii : Field → Bool
  | .json (.str s) => Results.isAscii s
  | _ => true

/-- The columns of the table. -/
def fieldnames (job : Dict) : List String := keys job ++ ["starttime", "endtime", "id", "real", "user", "sys"]

/-- A row of the file; a missing field is empty. -/
def writerow (names : List String) (row : Dict) : Option (List (Option Field)) :=
  if (keys row).all (· ∈ names) then
    let fields := names.map (get row)
    if fields.all fun f => f.all Field.isAscii then some fields else none
  else none

/-- The loop over the jobs and their files: the rows, and whether it has raised. -/
def parseJobs (names : List String) : ℕ → List (Dict × List Text) → List (List (Option Field)) × Bool
  | _, [] => ([], false)
  | counter, (job, file) :: rest =>
    match (parseFile (set job "id" (.json (.int counter))) file).bind (writerow names) with
    | none => ([], true)
    | some row =>
      let (rows, raised) := parseJobs names (counter + 1) rest
      (row :: rows, raised)

/-- The file that is written; `raised` when an exception ends the program. -/
structure Csv where
  header : List String
  rows : List (List (Option Field))
  raised : Bool

/-- `Parser.parse` for the jobs and the output of each. -/
def parse (jobs : List Dict) (files : List (List Text)) : Csv :=
  match jobs with
  | [] => ⟨[], [], true⟩
  | job :: _ =>
    let names := fieldnames job
    if names.all isAscii then
      let (rows, raised) := parseJobs names 0 (jobs.zip files)
      ⟨names, rows, raised⟩
    else ⟨[], [], true⟩

/-! ### What the rows should be -/

/-- A task and what is in its file. -/
structure Output where
  job : List (String × Value)
  nodup : (job.map Prod.fst).Nodup
  stamp : Stamp
  app : List Text
  real : Seconds
  user : Seconds
  sys : Seconds

namespace Output
variable (t : Output)

/-- What the job file says of a task. -/
def dict : Dict := t.job.map fun p => (p.1, .json p.2)

/-- A line of the output of `time -p`. -/
def timeLine (word : String) (x : Seconds) : Text := word.toList ++ ' ' :: (x.text ++ ['\n'])

/-- The output of a task. -/
def lines : List Text :=
  ("datetime:".toList ++ ' ' :: (t.stamp.text ++ ['\n'])) ::
    (t.app ++ [timeLine "real" t.real, timeLine "user" t.user, timeLine "sys" t.sys])

/-- The seconds in milliseconds. -/
def millis (x : Seconds) : Number := .finite (x.value * 1000)

/-- What the claimed columns have. -/
def expected : String → Option Field
  | "starttime" => some (.date t.stamp)
  | "endtime" => some (.time (t.stamp.micros + roundMicros (t.real.value * 1000000)))
  | "real" => some (.ms (millis t.real))
  | "user" => some (.ms (millis t.user))
  | "sys" => some (.ms (millis t.sys))
  | _ => none

/-- The row has what it should have in every column of the name. -/
def IsRow (header : List String) (row : List (Option Field)) : Prop :=
  ∀ name f, t.expected name = some f →
    name ∈ header ∧ ∀ i : ℕ, header[i]? = some name → row[i]? = some (some f)

end Output

/-- Nothing is raised, and there is one right row for each task, in order. -/
def Extracted (tasks : List Output) : Prop :=
  let csv := parse (tasks.map Output.dict) (tasks.map Output.lines)
  csv.raised = false ∧ List.Forall₂ (fun t row => Output.IsRow t csv.header row) tasks csv.rows

/-- The date behind a line. -/
def nextStamp (d : Stamp) (line : Text) : Stamp :=
  if contains "datetime" line then (parseStamp line).getD d else d

/-- The date behind the lines: that of the last line with one. -/
def lastStamp (d : Stamp) (lines : List Text) : Stamp := lines.foldl nextStamp d

/-- A line that raises nothing, when `d` is the date before it. -/
def Harmless (d : Stamp) (line : Text) : Prop :=
  if contains "datetime" line then parseStamp line ≠ none
  else if contains "real" line then ∃ x, parseMs line = some x ∧ d.plusMillis x ≠ none
  else if contains "user" line ∨ contains "sys" line then parseMs line ≠ none
  else True

/-- What a task needs: its keys are columns and its texts ASCII, the lines of its application raise nothing and do not
    change the date in the end, and the date at which it has ended is one. -/
structure Plain (names : List String) (t : Output) : Prop where
  keys : ∀ p ∈ t.job, p.1 ∈ names
  ascii : ∀ p ∈ t.job, p.1 ∉ ["starttime", "endtime", "id", "real", "user", "sys"] → (Field.json p.2).isAscii = true
  harmless : ∀ as line bs, t.app = as ++ line :: bs → Harmless (lastStamp t.stamp as) line
  last : lastStamp t.stamp t.app = t.stamp
  ends : t.stamp.plusMillis (Output.millis t.real) ≠ none

/-! ### Dictionaries -/

section Dicts
variable {d d' : Dict} {key k : String} {v : Field}

theorem get_set_self : ∀ d : Dict, get (set d key v) key = some v
  | [] => by simp [set, get]
  | (k, w) :: d => by
      rw [set]
      split_ifs with hk
      · simp [get, hk]
      · simp [get, hk, get_set_self d]

theorem get_set_ne (h : k ≠ key) : ∀ d : Dict, get (set d key v) k = get d k
  | [] => by simp [set, get, h.symm]
  | (k', w) :: d => by
      rw [set]
      split_ifs with hk
      · simp [get, hk, h.symm]
      · simp [get, get_set_ne h d]

theorem mem_keys_set : ∀ d : Dict, k ∈ keys (set d key v) ↔ k = key ∨ k ∈ keys d
  | [] => by simp [set, keys]
  | (k', w) :: d => by
      have ih := mem_keys_set d
      rw [keys] at ih
      rw [set]
      split_ifs with hk
      · simp [keys, hk]
      · simp only [keys, List.map_cons, List.mem_cons] at ih ⊢
        rw [ih]
        exact or_left_comm

/-- A field of a dictionary without double keys. -/
theorem get_eq_some_iff : ∀ {d : Dict}, (keys d).Nodup → (get d k = some v ↔ (k, v) ∈ d)
  | [], _ => by simp [get]
  | (k', w) :: d, h => by
      obtain ⟨hk', hd⟩ := List.nodup_cons.1 h
      rw [get]
      split_ifs with heq
      · subst heq
        have hnot : (k', v) ∉ d := fun hmem => hk' (List.mem_map.2 ⟨_, hmem, rfl⟩)
        simp [hnot, eq_comm]
      · have hne : k ≠ k' := fun hk => heq hk.symm
        simp [get_eq_some_iff hd, hne]

/-- Only the columns of the times have changed, and no key is lost. -/
structure Follows (d d' : Dict) : Prop where
  keys : ∀ k, k ∈ keys d' → k ∈ keys d ∨ k ∈ ["starttime", "endtime", "real", "user", "sys"]
  keep : ∀ k ∈ Results.keys d, k ∈ Results.keys d'
  get : ∀ k, k ∉ ["starttime", "endtime", "real", "user", "sys"] → get d' k = get d k

theorem Follows.refl (d : Dict) : Follows d d := ⟨fun _ => .inl, fun _ => id, fun _ _ => rfl⟩

theorem Follows.set (h : Follows d d') (hkey : key ∈ ["starttime", "endtime", "real", "user", "sys"]) :
    Follows d (Results.set d' key v) := by
  refine ⟨fun k hk => ?_, fun k hk => ?_, fun k hk => ?_⟩
  · obtain rfl | hk := (mem_keys_set d').1 hk
    · exact .inr hkey
    · exact h.keys k hk
  · exact (mem_keys_set d').2 (.inr (h.keep k hk))
  · have hne : k ≠ key := by
      rintro rfl
      exact hk hkey
    rw [get_set_ne hne, h.get k hk]

theorem Follows.trans {d'' : Dict} (h : Follows d d') (h' : Follows d' d'') : Follows d d'' := by
  refine ⟨fun k hk => ?_, fun k hk => h'.keep k (h.keep k hk), fun k hk => (h'.get k hk).trans (h.get k hk)⟩
  obtain hk | hk := h'.keys k hk
  · exact h.keys k hk
  · exact .inr hk

end Dicts

/-! ### One line -/

section Line
variable {params params' : Dict} {d : Stamp} {line : Text}

/-- A line with the real time, behind a date. -/
theorem parseLine_real (hstart : get params "starttime" = some (.date d)) (hdate : contains "datetime" line = false)
    (hreal : contains "real" line = true) : parseLine params line = (parseMs line).bind fun real =>
      (d.plusMillis real).map fun us => set (set params "real" (.ms real)) "endtime" (.time us) := by
  rw [parseLine, if_neg (by simp [hdate]), if_pos hreal]
  refine congrArg _ (funext fun real => ?_)
  dsimp only
  rw [get_set_ne (by decide), hstart]

theorem parseLine_isSome (hstart : get params "starttime" = some (.date d)) :
    (parseLine params line).isSome = true ↔ Harmless d line := by
  rw [Harmless]
  split_ifs with hdate hreal hword
  · rw [parseLine, if_pos hdate, Option.isSome_map, Option.isSome_iff_ne_none]
  · rw [parseLine_real hstart (by simpa using hdate) hreal, Option.isSome_iff_exists]
    simp only [Option.bind_eq_some_iff, Option.map_eq_some_iff, ne_eq, Option.ne_none_iff_exists']
    constructor
    · rintro ⟨_, x, hx, us, hus, -⟩
      exact ⟨x, hx, us, hus⟩
    · rintro ⟨x, hx, us, hus⟩
      exact ⟨_, x, hx, us, hus, rfl⟩
  · rw [parseLine, if_neg hdate, if_neg hreal]
    split_ifs with huser hsys
    · rw [Option.isSome_map, Option.isSome_iff_ne_none]
    · rw [Option.isSome_map, Option.isSome_iff_ne_none]
    · exact absurd hword (not_or.2 ⟨huser, hsys⟩)
  · rw [not_or] at hword
    rw [parseLine, if_neg hdate, if_neg hreal, if_neg hword.1, if_neg hword.2]
    exact iff_of_true rfl trivial

theorem parseLine_follows (hstart : get params "starttime" = some (.date d))
    (h : parseLine params line = some params') :
    Follows params params' ∧ get params' "starttime" = some (.date (nextStamp d line)) := by
  rw [nextStamp]
  split_ifs with hdate
  · rw [parseLine, if_pos hdate, Option.map_eq_some_iff] at h
    obtain ⟨d', hd', rfl⟩ := h
    refine ⟨(Follows.refl params).set (by simp), ?_⟩
    rw [get_set_self, hd']
    rfl
  · rcases Bool.eq_false_or_eq_true (contains "real" line) with hreal | hreal
    · rw [parseLine_real hstart (by simpa using hdate) hreal, Option.bind_eq_some_iff] at h
      obtain ⟨x, -, h⟩ := h
      obtain ⟨us, -, rfl⟩ := Option.map_eq_some_iff.1 h
      refine ⟨((Follows.refl params).set (by simp)).set (by simp), ?_⟩
      rw [get_set_ne (by decide), get_set_ne (by decide), hstart]
    · rw [parseLine, if_neg hdate, if_neg (by simp [hreal])] at h
      split_ifs at h
      · obtain ⟨x, -, rfl⟩ := Option.map_eq_some_iff.1 h
        exact ⟨(Follows.refl params).set (by simp), by rw [get_set_ne (by decide), hstart]⟩
      · obtain ⟨x, -, rfl⟩ := Option.map_eq_some_iff.1 h
        exact ⟨(Follows.refl params).set (by simp), by rw [get_set_ne (by decide), hstart]⟩
      · obtain rfl := Option.some.inj h
        exact ⟨Follows.refl params, hstart⟩

theorem parseFile_cons (params : Dict) (line : Text) (lines : List Text) :
    parseFile params (line :: lines) = (parseLine params line).bind fun params => parseFile params lines := rfl

theorem parseFile_append (params : Dict) (as bs : List Text) :
    parseFile params (as ++ bs) = (parseFile params as).bind fun params => parseFile params bs := by
  rw [parseFile, List.foldlM_append]
  rfl

/-- The lines raise nothing when each of them is harmless behind the lines before it. -/
theorem parseFile_isSome : ∀ {lines : List Text} {params : Dict} {d : Stamp},
    get params "starttime" = some (.date d) → ((parseFile params lines).isSome = true ↔
      ∀ as line bs, lines = as ++ line :: bs → Harmless (lastStamp d as) line)
  | [], params, d, _ => iff_of_true rfl (by simp)
  | line :: lines, params, d, hstart => by
      have hline : (parseLine params line).isSome = true ↔ Harmless d line := parseLine_isSome hstart
      rw [parseFile_cons]
      constructor
      · intro h as line' bs hsplit
        obtain ⟨params'', hsome⟩ := Option.isSome_iff_exists.1 h
        obtain ⟨params', hparams, hrest⟩ := Option.bind_eq_some_iff.1 hsome
        cases as with
        | nil =>
          obtain ⟨rfl, rfl⟩ := List.cons.inj hsplit
          exact hline.1 (by rw [hparams]; rfl)
        | cons a as =>
          obtain ⟨rfl, rfl⟩ := List.cons.inj hsplit
          have hnext := (parseLine_follows hstart hparams).2
          exact (parseFile_isSome hnext).1 (Option.isSome_iff_exists.2 ⟨_, hrest⟩) as line' bs rfl
      · intro h
        obtain ⟨params', hparams⟩ := Option.isSome_iff_exists.1 (hline.2 (h [] line lines rfl))
        have hnext := (parseLine_follows hstart hparams).2
        rw [hparams, Option.bind_some]
        refine (parseFile_isSome hnext).2 fun as line' bs hsplit => ?_
        exact h (line :: as) line' bs (by rw [hsplit]; rfl)

theorem parseFile_follows : ∀ {lines : List Text} {params params' : Dict} {d : Stamp},
    get params "starttime" = some (.date d) → parseFile params lines = some params' →
      Follows params params' ∧ get params' "starttime" = some (.date (lastStamp d lines))
  | [], params, params', d, hstart, h => by
      obtain rfl := Option.some.inj h
      exact ⟨Follows.refl params, hstart⟩
  | line :: lines, params, params', d, hstart, h => by
      rw [parseFile_cons, Option.bind_eq_some_iff] at h
      obtain ⟨params'', hline, hrest⟩ := h
      obtain ⟨hfollows, hstart'⟩ := parseLine_follows hstart hline
      obtain ⟨hfollows', hlast⟩ := parseFile_follows hstart' hrest
      exact ⟨hfollows.trans hfollows', hlast⟩

end Line

/-! ### The file of a task -/

section File
variable {params : Dict} {d : Stamp} {word : String} {x : Seconds} {t : Output}

theorem second_line {s w : Text} (hs : Token s) (hw : Token w) : second (s ++ ' ' :: (w ++ ['\n'])) = some w := by
  rw [second, split_line hs hw]
  exact congrArg some (strip_token hw)

theorem parseMs_timeLine (hword : Token word.toList) : parseMs (Output.timeLine word x) = some (Output.millis x) := by
  rw [parseMs, Output.timeLine, second_line hword (token_seconds x), Option.bind_some, parseFloat_text]
  rfl

/-- A letter that is not in the word is nowhere in the line. -/
theorem contains_timeLine {other : String} {c : Char} (hother : c ∈ other.toList) (hword : c ∉ word.toList)
    (hc : c.isDigit = false ∧ c ∉ ['.', ' ', '\n']) : contains other (Output.timeLine word x) = false := by
  refine contains_eq_false hother fun hmem => ?_
  simp only [List.mem_cons, List.not_mem_nil, or_false, not_or] at hc
  obtain ⟨hdigit, hpoint, hspace, hline⟩ := hc
  have hnot : ∀ {s : Text}, (∀ a ∈ s, a.isDigit = true) → c ∉ s := fun hs hmem => by
    rw [hs c hmem] at hdigit
    cases hdigit
  simp only [Output.timeLine, Seconds.text, List.mem_append, List.mem_cons, List.not_mem_nil, or_false] at hmem
  obtain hmem | hmem | (hmem | hmem | hmem) | hmem := hmem
  · exact hword hmem
  · exact hspace hmem
  · exact hnot (fun a ha => isDigit_of_mem_toDigits ha) hmem
  · exact hpoint hmem
  · exact hnot x.isDigit hmem
  · exact hline hmem

theorem not_datetime (hword : 'd' ∉ word.toList) : contains "datetime" (Output.timeLine word x) = false :=
  contains_timeLine (c := 'd') (by decide) hword (by decide)

theorem not_real (hword : 'l' ∉ word.toList) : contains "real" (Output.timeLine word x) = false :=
  contains_timeLine (c := 'l') (by decide) hword (by decide)

theorem parseLine_user (params : Dict) (x : Seconds) :
    parseLine params (Output.timeLine "user" x) = some (set params "user" (.ms (Output.millis x))) := by
  have huser : contains "user" (Output.timeLine "user" x) = true := contains_append _ _
  rw [parseLine, if_neg (by simp [not_datetime]), if_neg (by simp [not_real]), if_pos huser,
    parseMs_timeLine (by decide)]
  rfl

theorem parseLine_sys (params : Dict) (x : Seconds) :
    parseLine params (Output.timeLine "sys" x) = some (set params "sys" (.ms (Output.millis x))) := by
  have huser : contains "user" (Output.timeLine "sys" x) = false :=
    contains_timeLine (c := 'u') (by decide) (by decide) (by decide)
  have hsys : contains "sys" (Output.timeLine "sys" x) = true := contains_append _ _
  rw [parseLine, if_neg (by simp [not_datetime]), if_neg (by simp [not_real]), if_neg (by simp [huser]), if_pos hsys,
    parseMs_timeLine (by decide)]
  rfl

/-- The lines of `time -p`, behind a date. -/
theorem parseFile_times (real user sys : Seconds) (hstart : get params "starttime" = some (.date d)) :
    parseFile params [Output.timeLine "real" real, Output.timeLine "user" user, Output.timeLine "sys" sys] =
      (d.plusMillis (Output.millis real)).map fun us => set (set (set (set params "real" (.ms (Output.millis real)))
        "endtime" (.time us)) "user" (.ms (Output.millis user))) "sys" (.ms (Output.millis sys)) := by
  have hreal : contains "real" (Output.timeLine "real" real) = true := contains_append _ _
  rw [parseFile_cons, parseLine_real hstart (not_datetime (by decide)) hreal, parseMs_timeLine (by decide),
    Option.bind_some]
  cases d.plusMillis (Output.millis real) with
  | none => rfl
  | some us =>
    rw [Option.map_some, Option.bind_some, parseFile_cons, parseLine_user, Option.bind_some, parseFile_cons,
      parseLine_sys]
    rfl

/-- The first line gives the date. -/
theorem parseLine_stamp (params : Dict) (d : Stamp) :
    parseLine params ("datetime:".toList ++ ' ' :: (d.text ++ ['\n'])) =
    some (set params "starttime" (.date d)) := by
  have hdate : contains "datetime" ("datetime:".toList ++ ' ' :: (d.text ++ ['\n'])) = true :=
    contains_append "datetime" (':' :: ' ' :: (d.text ++ ['\n']))
  rw [parseLine, if_pos hdate, parseStamp, second_line (by decide) (token_stamp d), Option.bind_some,
    strptime_text]
  rfl

/-- The dictionary behind the file: the columns of the times, and else what has been in it. -/
structure Read (t : Output) (params params' : Dict) : Prop where
  follows : Follows params params'
  starttime : get params' "starttime" = some (.date (lastStamp t.stamp t.app))
  endtime : ∃ us, (lastStamp t.stamp t.app).plusMillis (Output.millis t.real) = some us ∧
    get params' "endtime" = some (.time us)
  real : get params' "real" = some (.ms (Output.millis t.real))
  user : get params' "user" = some (.ms (Output.millis t.user))
  sys : get params' "sys" = some (.ms (Output.millis t.sys))

theorem parseFile_read {params' : Dict} (h : parseFile params t.lines = some params') : Read t params params' := by
  rw [Output.lines, parseFile_cons, parseLine_stamp, Option.bind_some, parseFile_append, Option.bind_eq_some_iff] at h
  obtain ⟨behind, happ, htimes⟩ := h
  obtain ⟨hfollows, hstart⟩ := parseFile_follows (get_set_self params) happ
  rw [parseFile_times _ _ _ hstart, Option.map_eq_some_iff] at htimes
  obtain ⟨us, hus, rfl⟩ := htimes
  have hfirst : Follows params behind := ((Follows.refl params).set (by simp)).trans hfollows
  refine ⟨(((hfirst.set (by simp)).set (by simp)).set (by simp)).set (by simp), ?_, ⟨us, hus, ?_⟩, ?_, ?_, ?_⟩
  · rw [get_set_ne (by decide), get_set_ne (by decide), get_set_ne (by decide), get_set_ne (by decide), hstart]
  · rw [get_set_ne (by decide), get_set_ne (by decide), get_set_self]
  · rw [get_set_ne (by decide), get_set_ne (by decide), get_set_ne (by decide), get_set_self]
  · rw [get_set_ne (by decide), get_set_self]
  · rw [get_set_self]

/-- When the file raises nothing. -/
theorem parseFile_lines : (parseFile params t.lines).isSome = true ↔
    (∀ as line bs, t.app = as ++ line :: bs → Harmless (lastStamp t.stamp as) line) ∧
      (lastStamp t.stamp t.app).plusMillis (Output.millis t.real) ≠ none := by
  have hstart : get (set params "starttime" (.date t.stamp)) "starttime" = some (.date t.stamp) := get_set_self params
  rw [← parseFile_isSome hstart, Output.lines, parseFile_cons, parseLine_stamp, Option.bind_some, parseFile_append]
  cases happ : parseFile (set params "starttime" (.date t.stamp)) t.app with
  | none => simp
  | some behind =>
    rw [Option.bind_some, parseFile_times _ _ _ (parseFile_follows hstart happ).2, Option.isSome_map,
      Option.isSome_iff_ne_none]
    exact (and_iff_right rfl).symm

end File

/-! ### The row of a task -/

section Row
variable {names : List String} {t : Output} {params params' : Dict} {row : List (Option Field)}

theorem writerow_eq_some_iff : writerow names params = some row ↔ (∀ k ∈ keys params, k ∈ names) ∧
    (∀ name ∈ names, (get params name).all Field.isAscii = true) ∧ row = names.map (get params) := by
  rw [writerow]
  split_ifs with hkeys
  · have hall : ∀ k ∈ keys params, k ∈ names := by simpa using hkeys
    rw [and_iff_right hall, Option.ite_none_right_eq_some, Option.some.injEq, eq_comm (a := row)]
    simp only [List.all_eq_true, List.mem_map, forall_exists_index, and_imp, forall_apply_eq_imp_iff₂]
  · refine iff_of_false nofun fun h => hkeys ?_
    simpa using h.1

/-- The dictionary of a task before its file is read. -/
def Output.started (t : Output) (counter : ℕ) : Dict := set t.dict "id" (.json (.int counter))

theorem keys_dict : keys t.dict = t.job.map Prod.fst := by
  simp [keys, Output.dict]

theorem get_dict {name : String} {f : Field} :
    get t.dict name = some f ↔ ∃ value, (name, value) ∈ t.job ∧ f = .json value := by
  rw [get_eq_some_iff (by rw [keys_dict]; exact t.nodup), Output.dict, List.mem_map]
  constructor
  · rintro ⟨⟨k, value⟩, hmem, heq⟩
    obtain ⟨rfl, rfl⟩ := Prod.mk.inj heq
    exact ⟨value, hmem, rfl⟩
  · rintro ⟨value, hmem, rfl⟩
    exact ⟨_, hmem, rfl⟩

section Read
variable {counter : ℕ}

theorem Read.get_id (h : Read t (t.started counter) params') :
    get params' "id" = some (.json (.int counter)) := by
  rw [h.follows.get "id" (by decide), Output.started, get_set_self]

theorem Read.get_other (h : Read t (t.started counter) params') {name : String}
    (hname : name ∉ ["starttime", "endtime", "id", "real", "user", "sys"]) : get params' name = get t.dict name := by
  simp only [List.mem_cons, List.not_mem_nil, or_false, not_or] at hname
  rw [h.follows.get name (by simp [hname]), Output.started, get_set_ne hname.2.2.1]

theorem Read.keys_iff (h : Read t (t.started counter) params')
    (hnames : ∀ k ∈ ["starttime", "endtime", "id", "real", "user", "sys"], k ∈ names) :
    (∀ k ∈ keys params', k ∈ names) ↔ ∀ p ∈ t.job, p.1 ∈ names := by
  constructor
  · intro hall p hp
    refine hall _ (h.follows.keep _ ((mem_keys_set t.dict).2 (.inr ?_)))
    rw [keys_dict]
    exact List.mem_map_of_mem hp
  · intro hall k hk
    obtain hk | hk := h.follows.keys k hk
    · obtain rfl | hk := (mem_keys_set t.dict).1 hk
      · exact hnames "id" (by decide)
      · rw [keys_dict, List.mem_map] at hk
        obtain ⟨p, hp, rfl⟩ := hk
        exact hall p hp
    · refine hnames k ?_
      simp only [List.mem_cons, List.not_mem_nil, or_false] at hk ⊢
      obtain rfl | rfl | rfl | rfl | rfl := hk <;> simp

/-- The columns that are not from the job file are always ASCII. -/
theorem Read.isAscii_iff (h : Read t (t.started counter) params') (hkeys : ∀ p ∈ t.job, p.1 ∈ names) :
    (∀ name ∈ names, (get params' name).all Field.isAscii = true) ↔
      ∀ p ∈ t.job, p.1 ∉ ["starttime", "endtime", "id", "real", "user", "sys"] → (Field.json p.2).isAscii = true := by
  constructor
  · intro hall p hp hname
    have hascii := hall p.1 (hkeys p hp)
    rw [h.get_other hname, get_dict.2 ⟨p.2, hp, rfl⟩] at hascii
    exact hascii
  · intro hall name _
    by_cases hname : name ∈ ["starttime", "endtime", "id", "real", "user", "sys"]
    · obtain ⟨us, -, hus⟩ := h.endtime
      simp only [List.mem_cons, List.not_mem_nil, or_false] at hname
      obtain rfl | rfl | rfl | rfl | rfl | rfl := hname
      · rw [h.starttime]
        rfl
      · rw [hus]
        rfl
      · rw [h.get_id]
        rfl
      · rw [h.real]
        rfl
      · rw [h.user]
        rfl
      · rw [h.sys]
        rfl
    · rw [h.get_other hname]
      cases hget : get t.dict name with
      | none => rfl
      | some f =>
        obtain ⟨value, hmem, rfl⟩ := get_dict.1 hget
        exact hall _ hmem hname

/-- The row has the right date exactly when the application has not changed it. -/
theorem Read.isRow_iff (h : Read t (t.started counter) params')
    (hnames : ∀ k ∈ ["starttime", "endtime", "id", "real", "user", "sys"], k ∈ names) :
    t.IsRow names (names.map (get params')) ↔ lastStamp t.stamp t.app = t.stamp := by
  constructor
  · intro hrow
    obtain ⟨hmem, hcolumn⟩ := hrow "starttime" _ rfl
    obtain ⟨i, hi, hget⟩ := List.getElem_of_mem hmem
    have hdate := hcolumn i (by rw [List.getElem?_eq_getElem hi, hget])
    rw [List.getElem?_map, List.getElem?_eq_getElem hi, hget, Option.map_some, h.starttime] at hdate
    simpa using hdate
  · intro hlast name f hf
    have hfield : name ∈ ["starttime", "endtime", "id", "real", "user", "sys"] ∧ get params' name = some f := by
      obtain ⟨us, hus, hend⟩ := h.endtime
      unfold Output.expected at hf
      split at hf
      · obtain rfl := Option.some.inj hf
        exact ⟨by decide, by rw [h.starttime, hlast]⟩
      · obtain rfl := Option.some.inj hf
        refine ⟨by decide, ?_⟩
        simp only [hlast, Output.millis, Stamp.plusMillis] at hus
        split_ifs at hus
        obtain rfl := Option.some.inj hus
        rw [hend, mul_assoc]
        norm_num
      · obtain rfl := Option.some.inj hf
        exact ⟨by decide, h.real⟩
      · obtain rfl := Option.some.inj hf
        exact ⟨by decide, h.user⟩
      · obtain rfl := Option.some.inj hf
        exact ⟨by decide, h.sys⟩
      · cases hf
    refine ⟨hnames name hfield.1, fun i hi => ?_⟩
    rw [List.getElem?_map, hi, Option.map_some, hfield.2]

end Read

/-- A task gets its row when it is as it should be. -/
theorem row_iff (hnames : ∀ k ∈ ["starttime", "endtime", "id", "real", "user", "sys"], k ∈ names) (counter : ℕ) :
    (∃ row, (parseFile (t.started counter) t.lines).bind (writerow names) = some row ∧ t.IsRow names row) ↔
      Plain names t := by
  constructor
  · rintro ⟨row, hrow, hright⟩
    obtain ⟨params', hparse, hwrite⟩ := Option.bind_eq_some_iff.1 hrow
    have hread := parseFile_read hparse
    obtain ⟨hharmless, hends⟩ := parseFile_lines.1 (Option.isSome_iff_exists.2 ⟨_, hparse⟩)
    obtain ⟨hkeys, hascii, rfl⟩ := writerow_eq_some_iff.1 hwrite
    have hjob := (hread.keys_iff hnames).1 hkeys
    have hlast := (hread.isRow_iff hnames).1 hright
    exact ⟨hjob, (hread.isAscii_iff hjob).1 hascii, hharmless, hlast, hlast ▸ hends⟩
  · rintro ⟨hjob, hascii, hharmless, hlast, hends⟩
    have hsome : (parseFile (t.started counter) t.lines).isSome = true :=
      parseFile_lines.2 ⟨hharmless, hlast.symm ▸ hends⟩
    obtain ⟨params', hparse⟩ := Option.isSome_iff_exists.1 hsome
    have hread := parseFile_read hparse
    refine ⟨names.map (get params'), ?_, (hread.isRow_iff hnames).2 hlast⟩
    rw [hparse, Option.bind_some, writerow_eq_some_iff]
    exact ⟨(hread.keys_iff hnames).2 hjob, (hread.isAscii_iff hjob).2 hascii, rfl⟩

end Row

/-! ### The file of results -/

theorem parseJobs_iff {names : List String} (hnames :
    ∀ k ∈ ["starttime", "endtime", "id", "real", "user", "sys"], k ∈ names) :
    ∀ (tasks : List Output) (counter : ℕ),
      (parseJobs names counter (tasks.map fun t => (t.dict, t.lines))).2 = false ∧
        List.Forall₂ (fun t row => Output.IsRow t names row) tasks
          (parseJobs names counter (tasks.map fun t => (t.dict, t.lines))).1 ↔
      ∀ t ∈ tasks, Plain names t
  | [], counter => by simp [parseJobs]
  | t :: tasks, counter => by
      have hrow := row_iff (t := t) hnames counter
      have ih := parseJobs_iff hnames tasks (counter + 1)
      rw [List.map_cons, parseJobs, List.forall_mem_cons, ← ih, ← hrow, Output.started]
      cases (parseFile (set t.dict "id" (.json (.int counter))) t.lines).bind (writerow names) with
      | none => simp
      | some row =>
        simp only [List.forall₂_cons, Option.some.injEq, exists_eq_left']
        exact and_left_comm

/-- CORRECT: the results are right exactly when the keys of the first task are ASCII and every task is plain
    with respect to its columns. -/
theorem extracted_iff (first : Output) (rest : List Output) : Extracted (first :: rest) ↔
    (∀ p ∈ first.job, isAscii p.1 = true) ∧ ∀ t ∈ first :: rest, Plain (fieldnames first.dict) t := by
  have hnames : ∀ k ∈ ["starttime", "endtime", "id", "real", "user", "sys"], k ∈ fieldnames first.dict :=
    fun k hk => List.mem_append_right _ hk
  have hheader : (fieldnames first.dict).all isAscii = true ↔ ∀ p ∈ first.job, isAscii p.1 = true := by
    rw [fieldnames, keys_dict, List.all_append, Bool.and_eq_true, and_iff_left (by decide)]
    simp
  rw [← parseJobs_iff hnames (first :: rest) 0, ← hheader]
  rw [Extracted, List.map_cons, List.map_cons, parse, ← List.map_cons, ← List.map_cons, List.zip_map']
  dsimp only
  split_ifs with hall
  · exact (and_iff_right hall).symm
  · exact iff_of_false nofun fun h => hall h.1

/-- An application that prints the word. -/
def realWorld : Output where
  job := [("app", .str "swaptions"), ("conf", .str "native"), ("mode", .str "pthread"), ("threads", .int 4)]
  nodup := by decide
  stamp := ⟨2017, 4, 11, 10, 17, 57, by decide⟩
  app := ["Running a real world simulation\n".toList]
  real := ⟨12, "34".toList, List.all_eq_true.1 rfl⟩
  user := ⟨45, "60".toList, List.all_eq_true.1 rfl⟩
  sys := ⟨0, "07".toList, List.all_eq_true.1 rfl⟩

theorem realWorld_not_extracted : ¬Extracted [realWorld] := by
  intro h
  have hraised := h.1
  revert hraised
  decide +kernel

end Turkey.Results
