import Mathlib.Data.List.Infix

/-! The functions on texts that the scripts use. A text from a file is a list of bytes, and white space is what
    it is in ASCII. -/

namespace Turkey

abbrev Text := List Char

namespace Text

def isSpace (c : Char) : Bool := c.toNat ∈ [9, 10, 11, 12, 13, 32]

/-- `s.strip()` -/
def strip (s : Text) : Text := ((s.dropWhile isSpace).reverse.dropWhile isSpace).reverse

/-- `s.split()` -/
def split (s : Text) : List Text := (s.splitOnP isSpace).filter (· ≠ [])

/-- `sep.join(words)` -/
def join (sep : Text) (words : List Text) : Text := sep.intercalate words

/-- `s.find(word) > -1` -/
def contains (word : String) (s : Text) : Bool := word.toList <:+: s

/-- A token has no white space in it. -/
def Token (s : Text) : Prop := s ≠ [] ∧ ∀ c ∈ s, isSpace c = false

instance (s : Text) : Decidable (Token s) :=
  decidable_of_iff (s ≠ [] ∧ s.all (!isSpace ·) = true) (by simp [Token])

theorem strip_token {s : Text} (h : Token s) : strip s = s := by
  have hdrop : ∀ {l : Text}, (∀ c ∈ l, isSpace c = false) → l.dropWhile isSpace = l := by
    intro l hl
    cases l with
    | nil => rfl
    | cons c l => simp [hl c]
  rw [strip, hdrop h.2, hdrop fun c hc => h.2 c (List.mem_reverse.1 hc), List.reverse_reverse]

/-- The tokens of a line of two words. -/
theorem split_line {s t : Text} (hs : Token s) (ht : Token t) : split (s ++ ' ' :: (t ++ ['\n'])) = [s, t] := by
  rw [split, List.splitOnP_append_cons_of_forall_mem hs.2 ' ' rfl,
    List.splitOnP_append_cons_of_forall_mem ht.2 '\n' rfl]
  simp [hs.1, ht.1]

/-- A text does not contain a word with another letter. -/
theorem contains_eq_false {word : String} {s : Text} {c : Char} (hword : c ∈ word.toList) (hs : c ∉ s) :
    contains word s = false := by
  rw [contains, decide_eq_false_iff_not]
  exact fun h => hs (h.subset hword)

theorem contains_append (word : String) (s : Text) : contains word (word.toList ++ s) = true := by
  rw [contains, decide_eq_true_eq]
  exact (List.prefix_append _ _).isInfix

end Text

end Turkey
