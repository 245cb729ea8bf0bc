import Mathlib.Algebra.Field.Rat
import Mathlib.Algebra.Order.Field.Basic
import Mathlib.Data.Nat.Cast.Order.Field
import Mathlib.Data.Rat.Floor
import Turkey.Jobs.Text

/-! The numbers and the dates in the output of a task, as `float` and `datetime.strptime` read them. Finite
    numbers are exact, `inf` and `nan` are what they are to `float`. A date is in the years 1 to 9999; a
    duration that leads out of these years cannot be added to it. -/

namespace Turkey.Literals
open Turkey.Text

/-! ### Numbers -/

/-- A Python float. -/
inductive Number where
  | finite (q : ℚ)
  | inf (negative : Bool)
  | nan
  deriving DecidableEq

/-- The number with these digits. -/
def digits (s : Text) : ℕ := Nat.ofDigitChars 10 s 0

/-- The sign in front of a number; `true` is minus. -/
def splitSign : Text → Bool × Text
  | '-' :: s => (true, s)
  | '+' :: s => (false, s)
  | s => (false, s)

/-- The power of ten behind the digits. -/
def parseExponent : Text → Option ℤ
  | [] => some 0
  | c :: s =>
    let (negative, e) := splitSign s
    if (c = 'e' ∨ c = 'E') ∧ e ≠ [] ∧ e.all Char.isDigit then some (if negative then -digits e else digits e)
      else none

/-- What begins with a point, up to the exponent. -/
def splitDecimals : Text → Text × Text
  | '.' :: s => (s.takeWhile Char.isDigit, s.dropWhile Char.isDigit)
  | s => ([], s)

/-- A number without a sign: digits, a point and an exponent. -/
def parseDecimal (s : Text) : Option ℚ :=
  let whole := s.takeWhile Char.isDigit
  let (decimals, rest) := splitDecimals (s.dropWhile Char.isDigit)
  if whole = [] ∧ decimals = [] then none
  else (parseExponent rest).map fun e : ℤ => (digits (whole ++ decimals) : ℚ) * 10 ^ (e - (decimals.length : ℤ))

/-- `float(s)`; `none` is an exception. The number is the one that is written, not the nearest `double`. -/
def parseFloat (s : Text) : Option Number :=
  let (negative, s) := splitSign s
  let word := s.map Char.toLower
  if word = "inf".toList ∨ word = "infinity".toList then some (.inf negative)
  else if word = "nan".toList then some .nan
  else (parseDecimal s).map fun q => .finite (if negative then -q else q)

/-- Seconds as `time -p` prints them. -/
structure Seconds where
  whole : ℕ
  decimals : Text
  isDigit : ∀ c ∈ decimals, c.isDigit = true

namespace Seconds
variable (x : Seconds)

/-- The seconds as `time -p` writes them. -/
def text : Text := Nat.toDigits 10 x.whole ++ '.' :: x.decimals

/-- The number of seconds. -/
def value : ℚ := x.whole + digits x.decimals / (10 : ℚ) ^ x.decimals.length

end Seconds

theorem isDigit_of_mem_toDigits {c : Char} {n : ℕ} (h : c ∈ Nat.toDigits 10 n) : c.isDigit = true :=
  Nat.isDigit_of_mem_toDigits (by decide) (by decide) h

theorem isSpace_of_isDigit {c : Char} (h : c.isDigit = true) : isSpace c = false := by
  simp only [Char.isDigit, Bool.and_eq_true, decide_eq_true_eq] at h
  have hlow : 48 ≤ c.toNat := UInt32.le_iff_toNat_le.1 h.1
  have hhigh : c.toNat ≤ 57 := UInt32.le_iff_toNat_le.1 h.2
  simp only [isSpace, List.mem_cons, List.not_mem_nil, or_false, decide_eq_false_iff_not]
  omega

theorem ne_of_isDigit {c a : Char} (h : c.isDigit = true) (ha : a.isDigit = false) : c ≠ a := by
  rintro rfl
  rw [h] at ha
  cases ha

theorem takeWhile_digits {s : Text} (rest : Text) (hs : ∀ c ∈ s, c.isDigit = true)
    (hrest : ∀ c ∈ rest.head?, c.isDigit = false) :
    (s ++ rest).takeWhile Char.isDigit = s ∧ (s ++ rest).dropWhile Char.isDigit = rest := by
  have hstop : rest.takeWhile Char.isDigit = [] ∧ rest.dropWhile Char.isDigit = rest := by
    cases rest with
    | nil => exact ⟨rfl, rfl⟩
    | cons c rest => simp [hrest c rfl]
  rw [List.takeWhile_append_of_pos hs, List.dropWhile_append_of_pos hs, hstop.1, hstop.2, List.append_nil]
  exact ⟨rfl, rfl⟩

theorem digits_append (s t : Text) : digits (s ++ t) = 10 ^ t.length * digits s + digits t := by
  rw [digits, Nat.ofDigitChars_append, Nat.ofDigitChars_eq_ofDigitChars_zero]
  rfl

theorem parseDecimal_text (x : Seconds) : parseDecimal x.text = some x.value := by
  have hwhole := takeWhile_digits ('.' :: x.decimals) (fun c hc => isDigit_of_mem_toDigits (n := x.whole) hc)
    (by simp)
  have hdecimals := takeWhile_digits [] x.isDigit (by simp)
  rw [List.append_nil] at hdecimals
  have hne : Nat.toDigits 10 x.whole ≠ [] := Nat.toDigits_ne_nil
  simp only [parseDecimal, Seconds.text, hwhole, splitDecimals, hdecimals, hne, false_and, if_false, parseExponent,
    Option.map_some, Seconds.value, digits_append]
  rw [digits, Nat.ofDigitChars_ten_toDigits]
  have hpow : (10 : ℚ) ^ x.decimals.length ≠ 0 := by positivity
  push_cast
  rw [zero_sub, zpow_neg, zpow_natCast, add_mul]
  field_simp

theorem splitSign_of_isDigit {c : Char} (h : c.isDigit = true) (s : Text) : splitSign (c :: s) = (false, c :: s) := by
  rw [splitSign]
  · exact fun s heq => ne_of_isDigit h rfl (List.cons.inj heq).1
  · exact fun s heq => ne_of_isDigit h rfl (List.cons.inj heq).1

theorem parseFloat_text (x : Seconds) : parseFloat x.text = some (.finite x.value) := by
  obtain ⟨c, s, hs⟩ := List.exists_cons_of_ne_nil (Nat.toDigits_ne_nil (n := x.whole) (b := 10))
  have hdigit : c.isDigit = true := isDigit_of_mem_toDigits (n := x.whole) (hs ▸ List.mem_cons_self ..)
  have hsign : splitSign x.text = (false, x.text) := by
    rw [Seconds.text, hs, List.cons_append]
    exact splitSign_of_isDigit hdigit _
  -- the point is in none of the words
  have hword : ∀ word : Text, '.' ∉ word → x.text.map Char.toLower ≠ word := by
    rintro word hword rfl
    refine hword (List.mem_map.2 ⟨'.', ?_, rfl⟩)
    simp [Seconds.text]
  rw [parseFloat, hsign]
  simp only [hword "inf".toList (by decide), hword "infinity".toList (by decide), hword "nan".toList (by decide),
    or_self, if_false, parseDecimal_text, Option.map_some, Bool.false_eq_true]

theorem token_seconds (x : Seconds) : Token x.text := by
  refine ⟨by simp [Seconds.text], fun c hc => ?_⟩
  rw [Seconds.text, List.mem_append, List.mem_cons] at hc
  obtain hc | rfl | hc := hc
  · exact isSpace_of_isDigit (isDigit_of_mem_toDigits hc)
  · rfl
  · exact isSpace_of_isDigit (x.isDigit c hc)

/-! ### Dates -/

/-- The number of days of a month. -/
def daysIn (year month : ℕ) : ℕ :=
  if month = 2 then if year % 4 = 0 ∧ (year % 100 ≠ 0 ∨ year % 400 = 0) then 29 else 28
  else if month = 4 ∨ month = 6 ∨ month = 9 ∨ month = 11 then 30
  else 31

/-- There is such a date, and such a time. -/
structure IsDate (year month day hour minute second : ℕ) : Prop where
  inYears : 1 ≤ year ∧ year ≤ 9999
  inMonths : 1 ≤ month ∧ month ≤ 12
  inDays : 1 ≤ day ∧ day ≤ daysIn year month
  inTime : hour < 24 ∧ minute < 60 ∧ second < 60

instance (year month day hour minute second : ℕ) : Decidable (IsDate year month day hour minute second) :=
  decidable_of_iff ((1 ≤ year ∧ year ≤ 9999) ∧ (1 ≤ month ∧ month ≤ 12) ∧ (1 ≤ day ∧ day ≤ daysIn year month) ∧
    hour < 24 ∧ minute < 60 ∧ second < 60)
    ⟨fun ⟨hy, hm, hd, ht⟩ => ⟨hy, hm, hd, ht⟩, fun ⟨hy, hm, hd, ht⟩ => ⟨hy, hm, hd, ht⟩⟩

/-- A date and a time that there are. -/
structure Stamp where
  year : ℕ
  month : ℕ
  day : ℕ
  hour : ℕ
  minute : ℕ
  second : ℕ
  isDate : IsDate year month day hour minute second

namespace Stamp
variable (d : Stamp)

/-- The days since the first of January of the year 1. -/
def dayNumber : ℕ :=
  let y := d.year - 1
  365 * y + y / 4 - y / 100 + y / 400 + ((List.range (d.month - 1)).map fun m => daysIn d.year (m + 1)).sum +
    (d.day - 1)

/-- The microseconds since then. -/
def micros : ℤ := (((d.dayNumber * 24 + d.hour) * 60 + d.minute) * 60 + d.second) * 1000000

end Stamp

/-- The microseconds of the years 1 to 9999. -/
def maxMicros : ℤ := 3652059 * 86400 * 1000000

/-- Microseconds are rounded, half of one away from 0. -/
def roundMicros (q : ℚ) : ℤ := if 0 ≤ q then ⌊q + 1 / 2⌋ else ⌈q - 1 / 2⌉

/-- `d + timedelta(milliseconds=x)`, in microseconds since the year 1; `none` is an exception. It is computed from the
    exact number, where the source rounds to a `double` before. -/
def Stamp.plusMillis (d : Stamp) : Number → Option ℤ
  | .finite q =>
    let us := d.micros + roundMicros (q * 1000)
    if 0 ≤ us ∧ us < maxMicros then some us else none
  | _ => none

/-- One or two digits. -/
def parseTwo (s : Text) : Option ℕ :=
  if (s.length = 1 ∨ s.length = 2) ∧ s.all Char.isDigit then some (digits s) else none

/-- A year has four digits. -/
def parseYear (s : Text) : Option ℕ := if s.length = 4 ∧ s.all Char.isDigit then some (digits s) else none

/-- `datetime.strptime(s, '%Y-%m-%dT%H:%M:%S')`; `none` is an exception. The case of the letter does not matter. -/
def strptime (s : Text) : Option Stamp :=
  match s.splitOn '-' with
  | [year, month, s] =>
    match s.splitOnP fun c => c = 'T' ∨ c = 't' with
    | [day, s] =>
      match s.splitOn ':' with
      | [hour, minute, second] => do
        let year ← parseYear year
        let month ← parseTwo month
        let day ← parseTwo day
        let hour ← parseTwo hour
        let minute ← parseTwo minute
        let second ← parseTwo second
        if h : IsDate year month day hour minute second then some ⟨year, month, day, hour, minute, second, h⟩
          else none
      | _ => none
    | _ => none
  | _ => none

/-- A number with zeros in front. -/
def pad (width n : ℕ) : Text := List.replicate (width - (Nat.toDigits 10 n).length) '0' ++ Nat.toDigits 10 n

/-- What `date "+%Y-%m-%dT%H:%M:%S"` prints. -/
def Stamp.text (d : Stamp) : Text :=
  pad 4 d.year ++ '-' :: (pad 2 d.month ++ '-' :: (pad 2 d.day ++ 'T' ::
    (pad 2 d.hour ++ ':' :: (pad 2 d.minute ++ ':' :: pad 2 d.second))))

section Pad
variable {width n : ℕ}

theorem isDigit_of_mem_pad {c : Char} (h : c ∈ pad width n) : c.isDigit = true := by
  rw [pad, List.mem_append] at h
  obtain h | h := h
  · rw [List.eq_of_mem_replicate h]
    rfl
  · exact isDigit_of_mem_toDigits h

theorem length_pad (hwidth : 0 < width) (h : n < 10 ^ width) : (pad width n).length = width := by
  have hlen := (Nat.length_toDigits_le_iff (b := 10) (n := n) (k := width) (by decide) hwidth).2 h
  rw [pad, List.length_append, List.length_replicate]
  omega

theorem digits_pad : digits (pad width n) = n := by
  rw [pad, digits_append, digits, digits, Nat.ofDigitChars_replicate_zero, Nat.ofDigitChars_ten_toDigits]
  simp

theorem parseTwo_pad (h : n < 100) : parseTwo (pad 2 n) = some n := by
  have hall : (pad 2 n).all Char.isDigit = true := List.all_eq_true.2 fun c hc => isDigit_of_mem_pad hc
  rw [parseTwo, if_pos ⟨.inr (length_pad (by decide) h), hall⟩, digits_pad]

theorem parseYear_pad (h : n < 10000) : parseYear (pad 4 n) = some n := by
  have hall : (pad 4 n).all Char.isDigit = true := List.all_eq_true.2 fun c hc => isDigit_of_mem_pad hc
  rw [parseYear, if_pos ⟨length_pad (by decide) h, hall⟩, digits_pad]

/-- A separator that is no digit ends a number. -/
theorem splitOnP_pad {p : Char → Bool} (hp : ∀ c : Char, c.isDigit = true → p c = false) {sep : Char}
    (hsep : p sep = true)
    (s : Text) : (pad width n ++ sep :: s).splitOnP p = pad width n :: s.splitOnP p :=
  List.splitOnP_append_cons_of_forall_mem (fun c hc => hp c (isDigit_of_mem_pad hc)) sep hsep s

end Pad

theorem daysIn_le (year month : ℕ) : daysIn year month ≤ 31 := by
  rw [daysIn]
  split_ifs <;> decide

theorem strptime_text (d : Stamp) : strptime d.text = some d := by
  obtain ⟨year, month, day, hour, minute, second, hdate⟩ := d
  have hyear := hdate.inYears
  have hmonth := hdate.inMonths
  have hdays' := hdate.inDays
  have hclock := hdate.inTime
  have hdays := daysIn_le year month
  have hdash : ∀ c : Char, c.isDigit = true → (c == '-') = false := fun c hc =>
    beq_eq_false_iff_ne.2 (ne_of_isDigit hc rfl)
  have hcolon : ∀ c : Char, c.isDigit = true → (c == ':') = false := fun c hc =>
    beq_eq_false_iff_ne.2 (ne_of_isDigit hc rfl)
  have hletter : ∀ c : Char, c.isDigit = true → decide (c = 'T' ∨ c = 't') = false := fun c hc =>
    decide_eq_false (not_or.2 ⟨ne_of_isDigit hc rfl, ne_of_isDigit hc rfl⟩)
  -- the rest has no more of the separators
  have hlast : ∀ {p : Char → Bool} {n : ℕ}, (∀ c : Char, c.isDigit = true → p c = false) →
      (pad 2 n).splitOnP p = [pad 2 n] := fun hp =>
    List.splitOnP_eq_singleton fun c hc => hp c (isDigit_of_mem_pad hc)
  have htime : ∀ {p : Char → Bool}, (∀ c : Char, c.isDigit = true → p c = false) → p ':' = false → ∀ c ∈
      pad 2 hour ++ ':' :: (pad 2 minute ++ ':' :: pad 2 second), p c = false := by
    intro p hp hsep c hc
    simp only [List.mem_append, List.mem_cons] at hc
    obtain hc | rfl | hc | rfl | hc := hc
    · exact hp c (isDigit_of_mem_pad hc)
    · exact hsep
    · exact hp c (isDigit_of_mem_pad hc)
    · exact hsep
    · exact hp c (isDigit_of_mem_pad hc)
  have hday : ∀ c ∈ pad 2 day ++ 'T' :: (pad 2 hour ++ ':' :: (pad 2 minute ++ ':' :: pad 2 second)),
      (c == '-') = false := by
    intro c hc
    rw [List.mem_append, List.mem_cons] at hc
    obtain hc | rfl | hc := hc
    · exact hdash c (isDigit_of_mem_pad hc)
    · rfl
    · exact htime hdash rfl c hc
  rw [strptime, Stamp.text, List.splitOn_eq_splitOnP, splitOnP_pad hdash rfl, splitOnP_pad hdash rfl,
    List.splitOnP_eq_singleton hday]
  dsimp only
  rw [splitOnP_pad hletter rfl, List.splitOnP_eq_singleton (htime hletter rfl)]
  dsimp only
  rw [List.splitOn_eq_splitOnP, splitOnP_pad hcolon rfl, splitOnP_pad hcolon rfl, hlast hcolon]
  dsimp only
  rw [parseYear_pad (by omega), parseTwo_pad (by omega), parseTwo_pad (by omega), parseTwo_pad (by omega),
    parseTwo_pad (by omega), parseTwo_pad (by omega)]
  simp [hdate]

theorem token_stamp (d : Stamp) : Token d.text := by
  refine ⟨by simp [Stamp.text], fun c hc => ?_⟩
  simp only [Stamp.text, List.mem_append, List.mem_cons] at hc
  obtain hc | rfl | hc | rfl | hc | rfl | hc | rfl | hc | rfl | hc := hc <;>
    first | exact isSpace_of_isDigit (isDigit_of_mem_pad hc) | rfl

end Turkey.Literals
