import Mathlib.Algebra.Group.Int.Defs
import Mathlib.Algebra.Group.Nat.Defs
import Mathlib.Data.Int.Notation
import Mathlib.Data.List.Basic
import Mathlib.Data.List.Count
import Mathlib.Data.List.Induction
import Mathlib.Data.List.Perm.Basic
import Mathlib.Logic.Function.Basic

/-! The netlist of canneal: the converter `ascii2binary`, which turns the names of the ASCII file into
    numbers, and the constructor of `netlist`, which takes these numbers for places in its array.

    The ASCII file is a list of words and numbers, as `>>` reads it. The binary file is a list of 32-bit
    words: both programs only know `unsigned` and `int32_t`. `none` is an exception, a failed assertion, an
    access out of bounds or a number that `>>` cannot read, after which it reads nothing; arithmetic wraps. -/

namespace Turkey.Netlist

/-- An `int` or `unsigned` of the binary file. -/
abbrev Word := BitVec 32

/-- A line of the ASCII file. -/
structure Line where
  name : List Char
  type : Word
  fanin : List (List Char)
  deriving DecidableEq

/-- An ASCII netlist. -/
structure Ascii where
  maxX : ℕ
  maxY : ℕ
  lines : List Line
  lower : ∀ l ∈ lines, l.name ≠ [] ∧ ∀ c ∈ l.name, 'a' ≤ c ∧ c ≤ 'z'
  five : ∀ l ∈ lines, l.fanin.length = 5
  distinct : (lines.map Line.name).Nodup
  defined : ∀ l ∈ lines, ∀ x ∈ l.fanin, x ∈ lines.map Line.name
  room : lines.length < maxX * maxY

/-- What `>>` reads: a word, or a number. -/
inductive Token where
  | word (s : List Char)
  | num (n : ℤ)
  deriving DecidableEq

/-- A line, as the converter reads it. -/
def Line.tokens (l : Line) : List Token :=
  .word l.name :: .num l.type.toInt :: (l.fanin.map .word ++ [.word ['E', 'N', 'D']])

/-- The whole file, as the converter reads it. -/
def Ascii.tokens (net : Ascii) : List Token :=
  .num net.lines.length :: .num net.maxX :: .num net.maxY :: net.lines.flatMap Line.tokens

/-- `element` -/
structure Element where
  id : Word
  type : Word
  n : List Word

/-- An element in the binary file. -/
def Element.words (e : Element) : List Word := e.id :: e.type :: e.n

/-- The values of an `int` that counts up to an `unsigned`. Above 2^31 it becomes negative, and the array
    is accessed out of bounds. -/
def intIndices (n : ℕ) : Option (List ℕ) := if n ≤ 2 ^ 31 then some (List.range n) else none

/-! ### The converter -/

/-- `string2int` -/
def string2int (str : List Char) : Word :=
  str.foldl (fun id c => id * 26 + BitVec.ofInt 32 (c.toNat - 'a'.toNat + 1)) 0

/-- `>>` into an `unsigned`. -/
def readUnsigned : List Token → Option (Word × List Token)
  | .num n :: ts => if 0 ≤ n ∧ n < 2 ^ 32 then some (BitVec.ofInt 32 n, ts) else none
  | _ => none

/-- `>>` into an `int`. -/
def readInt : List Token → Option (Word × List Token)
  | .num n :: ts => if -2 ^ 31 ≤ n ∧ n < 2 ^ 31 then some (BitVec.ofInt 32 n, ts) else none
  | _ => none

/-- `>>` into a `string`. -/
def readWord : List Token → Option (List Char × List Token)
  | .word s :: ts => some (s, ts)
  | _ => none

/-- The loop over `n[j]`. -/
def readNames : ℕ → List Token → Option (List Word × List Token)
  | 0, ts => some ([], ts)
  | k + 1, ts =>
    (readWord ts).bind fun (raw, ts) =>
      (readNames k ts).map fun (n, ts) => (string2int raw :: n, ts)

/-- One line. -/
def readElement (ts : List Token) : Option (Element × List Token) :=
  (readWord ts).bind fun (raw, ts) =>
    (readInt ts).bind fun (type, ts) =>
      (readNames 5 ts).bind fun (n, ts) =>
        (readWord ts).map fun (_, ts) => (⟨string2int raw, type, n⟩, ts)

/-- The lines of the file, one element each. -/
def readElements : ℕ → List Token → Option (List Element × List Token)
  | 0, ts => some ([], ts)
  | k + 1, ts =>
    (readElement ts).bind fun (e, ts) => (readElements k ts).map fun (data, ts) => (e :: data, ts)

/-- The converter. -/
def ascii2binary (ts : List Token) : Option (List Word) :=
  (readUnsigned ts).bind fun (numElements, ts) =>
    (readUnsigned ts).bind fun (maxX, ts) =>
      (readUnsigned ts).bind fun (maxY, ts) =>
        (intIndices numElements.toNat).bind fun is =>
          (readElements is.length ts).map fun (data, _) =>
            numElements :: maxX :: maxY :: data.flatMap Element.words

/-! ### The constructor -/

/-- `fanin` and `fanout` of the elements, as places in `_elements`; `presentLoc` has the locations of the
    elements in their order. -/
structure Graph where
  presentLoc : List (ℕ × ℕ)
  fanin : ℕ → List ℕ
  fanout : ℕ → List ℕ

/-- `fread` of `n` elements. -/
def readData : ℕ → List Word → Option (List Element)
  | 0, _ => some []
  | k + 1, id :: type :: a :: b :: c :: d :: e :: file =>
    (readData k file).map fun data => ⟨id, type, [a, b, c, d, e]⟩ :: data
  | _ + 1, _ => none

/-- The locations in the order in which they are given to the elements. -/
def locations (maxX maxY : ℕ) : Option (List (ℕ × ℕ)) :=
  (intIndices maxX).bind fun xs =>
    (xs.mapM fun x => (intIndices maxY).map fun ys => ys.map (Prod.mk x)).map List.flatten

/-- One fan-in: the number `w` on line `i`. -/
def connect (chipSize : ℕ) (g : Graph) : ℕ × Word → Option Graph
  | (i, w) =>
    let id := w - 1
    if 0 ≤ id.toInt ∧ id.toInt < chipSize then some { g with
      fanin := Function.update g.fanin i (g.fanin i ++ [id.toNat])
      fanout := Function.update g.fanout id.toNat (g.fanout id.toNat ++ [i]) }
    else none

/-- What the two loops over the elements and their fan-ins come to. -/
def faninList (data : List Element) : List (ℕ × Word) :=
  data.zipIdx.flatMap fun (e, i) => e.n.map (Prod.mk i)

/-- The constructor of `netlist`. -/
def netlist : List Word → Option Graph
  | numElements :: maxX :: maxY :: file =>
    let chipSize := maxX * maxY
    if numElements < chipSize then
      (readData numElements.toNat file).bind fun data =>
        (locations maxX.toNat maxY.toNat).bind fun locs =>
          if locs.length ≤ chipSize.toNat then
            (intIndices numElements.toNat).bind fun _ =>
              (faninList data).foldlM (connect chipSize.toNat) ⟨locs, fun _ => [], fun _ => []⟩
          else none
    else none
  | _ => none

/-! ### What the graph should be -/

/-- The line that defines a name. -/
def Ascii.lineOf (net : Ascii) (name : List Char) : ℕ := (net.lines.map Line.name).idxOf name

/-- Element `i` is line `i`: it has element `j` as fan-in as often as the line names the element of line
    `j`, and the fan-outs are the converse. -/
structure Isomorphic (net : Ascii) (g : Graph) : Prop where
  fanin : ∀ i j, (g.fanin i).count j = match net.lines[i]? with
    | none => 0
    | some l => l.fanin.countP fun x => (net.lines[j]?).map Line.name = some x
  fanout : ∀ i j, (g.fanout j).count i = (g.fanin i).count j

/-- The file that the converter writes can be read, and gives the graph of the netlist. -/
def Converts (net : Ascii) : Prop :=
  ∃ file g, ascii2binary net.tokens = some file ∧ netlist file = some g ∧ Isomorphic net g

/-- The number a name stands for: a, b, …, z, aa, ab, … are 1, 2, …, 26, 27, 28, … -/
def numeral (name : List Char) : ℕ := name.foldl (fun n c => n * 26 + (c.toNat - 'a'.toNat + 1)) 0

/-- The chip and the lines can be counted, and on every line the five names stand for the numbers of the
    lines that define them, counted from 1 modulo 2^32, up to the order of the five. -/
structure Aligned (net : Ascii) : Prop where
  chip : net.maxX * net.maxY < 2 ^ 32
  maxX : net.maxX ≤ 2 ^ 31
  maxY : net.maxY ≤ 2 ^ 31
  length : net.lines.length ≤ 2 ^ 31
  names : ∀ l ∈ net.lines,
    (l.fanin.map fun x => numeral x % 2 ^ 32).Perm (l.fanin.map fun x => net.lineOf x + 1)

/-! ### The converter writes what the lines say -/

/-- What the converter makes of a line. -/
def Line.element (l : Line) : Element := ⟨string2int l.name, l.type, l.fanin.map string2int⟩

theorem readNames_words : ∀ (xs : List (List Char)) (ts : List Token),
    readNames xs.length (xs.map .word ++ ts) = some (xs.map string2int, ts)
  | [], _ => rfl
  | x :: xs, ts => by
    simp only [List.length_cons, List.map_cons, List.cons_append, readNames, readWord, Option.bind_some]
    rw [readNames_words xs ts]
    rfl

theorem readInt_toInt (w : Word) (ts : List Token) : readInt (.num w.toInt :: ts) = some (w, ts) := by
  have hw : -2 ^ 31 ≤ w.toInt ∧ w.toInt < 2 ^ 31 := ⟨w.le_toInt, w.toInt_lt⟩
  simp only [readInt]
  rw [if_pos hw, BitVec.ofInt_toInt]

theorem readElement_tokens {l : Line} (five : l.fanin.length = 5) (ts : List Token) :
    readElement (l.tokens ++ ts) = some (l.element, ts) := by
  have names := readNames_words l.fanin (.word ['E', 'N', 'D'] :: ts)
  rw [five] at names
  simp only [readElement, Line.tokens, List.cons_append, List.append_assoc, readWord, Option.bind_some,
    readInt_toInt, List.nil_append]
  rw [names]
  rfl

theorem readElements_tokens : ∀ (ls : List Line) (_ : ∀ l ∈ ls, l.fanin.length = 5),
    readElements ls.length (ls.flatMap Line.tokens) = some (ls.map Line.element, [])
  | [], _ => rfl
  | l :: ls, five => by
    rw [List.forall_mem_cons] at five
    simp only [List.length_cons, List.flatMap_cons, readElements]
    rw [readElement_tokens five.1, Option.bind_some, readElements_tokens ls five.2]
    rfl

theorem readUnsigned_eq_some {n : ℕ} {ts ts' : List Token} {w : Word} :
    readUnsigned (.num n :: ts) = some (w, ts') ↔ n < 2 ^ 32 ∧ w = BitVec.ofNat 32 n ∧ ts' = ts := by
  simp only [readUnsigned]
  split_ifs with h
  · have hn : n < 2 ^ 32 := by omega
    simp only [Option.some.injEq, Prod.mk.injEq, hn, true_and, BitVec.ofInt_natCast]
    exact ⟨fun ⟨hw, ht⟩ => ⟨hw.symm, ht.symm⟩, fun ⟨hw, ht⟩ => ⟨hw.symm, ht.symm⟩⟩
  · have hn : ¬ n < 2 ^ 32 := by omega
    exact ⟨nofun, fun hw => absurd hw.1 hn⟩

theorem intIndices_eq_some {n : ℕ} {is : List ℕ} :
    intIndices n = some is ↔ n ≤ 2 ^ 31 ∧ is = List.range n := by
  simp only [intIndices]
  split_ifs with h
  · simp only [Option.some.injEq, h, true_and]
    exact eq_comm
  · exact ⟨nofun, fun hn => absurd hn.1 h⟩

/-- The file of the netlist. -/
def Ascii.file (net : Ascii) : List Word :=
  BitVec.ofNat 32 net.lines.length :: BitVec.ofNat 32 net.maxX :: BitVec.ofNat 32 net.maxY ::
    (net.lines.map Line.element).flatMap Element.words

theorem ascii2binary_eq_some {net : Ascii} {file : List Word} :
    ascii2binary net.tokens = some file ↔
      net.lines.length ≤ 2 ^ 31 ∧ net.maxX < 2 ^ 32 ∧ net.maxY < 2 ^ 32 ∧ file = net.file := by
  simp only [ascii2binary, Ascii.tokens, Option.bind_eq_some_iff, Option.map_eq_some_iff, Prod.exists]
  constructor
  · rintro ⟨n, _, hn, x, _, hx, y, _, hy, is, his, data, _, hdata, rfl⟩
    obtain ⟨n_lt, rfl, rfl⟩ := readUnsigned_eq_some.1 hn
    obtain ⟨x_lt, rfl, rfl⟩ := readUnsigned_eq_some.1 hx
    obtain ⟨y_lt, rfl, rfl⟩ := readUnsigned_eq_some.1 hy
    rw [BitVec.toNat_ofNat, Nat.mod_eq_of_lt n_lt] at his
    obtain ⟨n_le, rfl⟩ := intIndices_eq_some.1 his
    rw [List.length_range, readElements_tokens _ net.five] at hdata
    obtain ⟨rfl, -⟩ := Prod.mk.inj (Option.some.inj hdata)
    exact ⟨n_le, x_lt, y_lt, rfl⟩
  · rintro ⟨n_le, x_lt, y_lt, rfl⟩
    have n_lt : net.lines.length < 2 ^ 32 := by omega
    refine ⟨_, _, readUnsigned_eq_some.2 ⟨n_lt, rfl, rfl⟩, _, _, readUnsigned_eq_some.2 ⟨x_lt, rfl, rfl⟩, _, _,
      readUnsigned_eq_some.2 ⟨y_lt, rfl, rfl⟩, List.range net.lines.length, ?_, net.lines.map Line.element, [],
      ?_, rfl⟩
    · rw [BitVec.toNat_ofNat, Nat.mod_eq_of_lt n_lt]
      exact intIndices_eq_some.2 ⟨n_le, rfl⟩
    · rw [List.length_range, readElements_tokens _ net.five]

/-! ### The constructor connects what the numbers say -/

theorem readData_words : ∀ (ls : List Line) (_ : ∀ l ∈ ls, l.fanin.length = 5),
    readData ls.length ((ls.map Line.element).flatMap Element.words) = some (ls.map Line.element)
  | [], _ => rfl
  | l :: ls, five => by
    rw [List.forall_mem_cons] at five
    obtain ⟨a, b, c, d, e, hfanin⟩ : ∃ a b c d e, l.fanin = [a, b, c, d, e] :=
      match l.fanin, five.1 with
      | [a, b, c, d, e], _ => ⟨a, b, c, d, e, rfl⟩
    have element : l.element = ⟨string2int l.name, l.type,
        [string2int a, string2int b, string2int c, string2int d, string2int e]⟩ := by
      simp only [Line.element, hfanin, List.map_cons, List.map_nil]
    simp only [List.length_cons, List.map_cons, List.flatMap_cons, element, Element.words, List.cons_append,
      List.nil_append, readData, readData_words ls five.2, Option.map_some]

theorem mapM_none {α β : Type*} {xs : List α} (hx : xs ≠ []) : (xs.mapM fun _ => (none : Option β)) = none := by
  cases xs with
  | nil => exact absurd rfl hx
  | cons x xs => rfl

theorem mapM_some {α β : Type*} (f : α → β) (xs : List α) : (xs.mapM fun x => some (f x)) = some (xs.map f) :=
  List.mapM_pure

theorem length_of_locations {maxX maxY : ℕ} {locs : List (ℕ × ℕ)} (hx : 0 < maxX)
    (h : locations maxX maxY = some locs) : maxX ≤ 2 ^ 31 ∧ maxY ≤ 2 ^ 31 ∧ locs.length = maxX * maxY := by
  simp only [locations, Option.bind_eq_some_iff, Option.map_eq_some_iff] at h
  obtain ⟨xs, hxs, cols, hcols, rfl⟩ := h
  obtain ⟨x_le, rfl⟩ := intIndices_eq_some.1 hxs
  rcases hy : intIndices maxY with _ | ys
  · have some_x : List.range maxX ≠ [] := by
      rw [Ne, List.range_eq_nil]
      omega
    simp only [hy, Option.map_none, mapM_none some_x, reduceCtorEq] at hcols
  · obtain ⟨y_le, rfl⟩ := intIndices_eq_some.1 hy
    simp only [hy, Option.map_some, mapM_some, Option.some.injEq] at hcols
    refine ⟨x_le, y_le, ?_⟩
    subst hcols
    simp [List.length_flatten, Function.comp_def]

theorem locations_isSome {maxX maxY : ℕ} (hx : maxX ≤ 2 ^ 31) (hy : maxY ≤ 2 ^ 31) :
    ∃ locs, locations maxX maxY = some locs := by
  refine ⟨((List.range maxX).map fun x => (List.range maxY).map (Prod.mk x)).flatten, ?_⟩
  simp only [locations, intIndices_eq_some.2 ⟨hx, rfl⟩, intIndices_eq_some.2 ⟨hy, rfl⟩, Option.bind_some,
    Option.map_some, mapM_some]

/-- The place in `_elements` that a number of the file stands for. -/
def place (w : Word) : ℕ := (w - 1).toNat

/-- The index of a name is one of the array. -/
def InChip (chipSize : ℕ) (w : Word) : Prop := 0 ≤ (w - 1).toInt ∧ (w - 1).toInt < chipSize

/-- The two `push_back`s. -/
def Graph.edge (g : Graph) (i j : ℕ) : Graph := { g with
  fanin := Function.update g.fanin i (g.fanin i ++ [j])
  fanout := Function.update g.fanout j (g.fanout j ++ [i]) }

theorem connect_eq_some {chipSize i : ℕ} {w : Word} {g g' : Graph} :
    connect chipSize g (i, w) = some g' ↔ InChip chipSize w ∧ g' = g.edge i (place w) := by
  simp only [connect]
  split_ifs with h
  · have inChip : InChip chipSize w := h
    simp only [Option.some.injEq, inChip, true_and]
    exact eq_comm
  · have inChip : ¬ InChip chipSize w := h
    simp [inChip]

theorem count_fanin_edge (g : Graph) (k l i j : ℕ) :
    ((g.edge k l).fanin i).count j = (g.fanin i).count j + if (k, l) = (i, j) then 1 else 0 := by
  by_cases hi : i = k
  · subst hi
    simp [Graph.edge, List.count_cons]
  · simp [Graph.edge, hi, Ne.symm hi]

theorem count_fanout_edge (g : Graph) (k l i j : ℕ) :
    ((g.edge k l).fanout j).count i = (g.fanout j).count i + if (k, l) = (i, j) then 1 else 0 := by
  by_cases hj : j = l
  · subst hj
    simp [Graph.edge, List.count_cons]
  · simp [Graph.edge, hj, Ne.symm hj]

theorem foldlM_connect {chipSize : ℕ} : ∀ (edges : List (ℕ × Word)) (g : Graph),
    (∀ e ∈ edges, InChip chipSize e.2) → ∃ g', edges.foldlM (connect chipSize) g = some g'
  | [], g, _ => ⟨g, rfl⟩
  | (i, w) :: edges, g, inChip => by
    rw [List.forall_mem_cons] at inChip
    rw [List.foldlM_cons, connect_eq_some.2 ⟨inChip.1, rfl⟩]
    exact foldlM_connect edges _ inChip.2

theorem of_foldlM_connect {chipSize : ℕ} : ∀ (edges : List (ℕ × Word)) {g g' : Graph},
    edges.foldlM (connect chipSize) g = some g' → (∀ e ∈ edges, InChip chipSize e.2) ∧ ∀ i j,
      (g'.fanin i).count j = (g.fanin i).count j + (edges.map (Prod.map id place)).count (i, j) ∧
      (g'.fanout j).count i = (g.fanout j).count i + (edges.map (Prod.map id place)).count (i, j)
  | [], g, g', h => by
    obtain rfl := Option.some.inj h
    simp
  | (k, w) :: edges, g, g', h => by
    rw [List.foldlM_cons] at h
    obtain ⟨g₁, hstep, h⟩ := Option.bind_eq_some_iff.1 h
    obtain ⟨hw, rfl⟩ := connect_eq_some.1 hstep
    obtain ⟨inChip, ih⟩ := of_foldlM_connect edges h
    refine ⟨List.forall_mem_cons.2 ⟨hw, inChip⟩, fun i j => ?_⟩
    obtain ⟨fin, fout⟩ := ih i j
    rw [fin, fout, count_fanin_edge, count_fanout_edge, List.map_cons, List.count_cons]
    simp only [Prod.map_apply, id_eq, beq_iff_eq]
    omega

/-- Element `i` has the fan-ins of line `i`. -/
theorem count_faninList (data : List Element) (i j : ℕ) :
    ((faninList data).map (Prod.map id place)).count (i, j) = match data[i]? with
      | none => 0
      | some e => (e.n.map place).count j := by
  induction data using List.reverseRecOn with
  | nil => rfl
  | append_singleton data e ih =>
    have last : ((e.n.map (Prod.mk data.length)).map (Prod.map id place)).count (i, j) =
        if i = data.length then (e.n.map place).count j else 0 := by
      rw [List.map_map]
      have split : Prod.map id place ∘ Prod.mk data.length = Prod.mk data.length ∘ place := rfl
      rw [split, ← List.map_map]
      split_ifs with hi
      · subst hi
        exact List.count_map_of_injective _ _ (fun _ _ h => (Prod.mk.inj h).2) _
      · rw [List.count_eq_zero]
        simp [Ne.symm hi]
    have snoc : faninList (data ++ [e]) = faninList data ++ e.n.map (Prod.mk data.length) := by
      simp [faninList, List.zipIdx_append]
    rw [snoc, List.map_append, List.count_append, ih, last]
    rcases Nat.lt_trichotomy i data.length with hi | rfl | hi
    · simp [List.getElem?_append_left hi, Nat.ne_of_lt hi]
    · simp
    · have out : (data ++ [e])[i]? = none := by
        rw [List.getElem?_eq_none_iff, List.length_append, List.length_singleton]
        omega
      simp [out, List.getElem?_eq_none (Nat.le_of_lt hi), Nat.ne_of_gt hi]

/-- The fanins of the file, each with the index of its line. -/
def Ascii.faninList (net : Ascii) : List (ℕ × Word) := Netlist.faninList (net.lines.map Line.element)

/-- The constructor reads the file if and only if its `unsigned` hold the chip, its `int`s count the rows
    and the columns, and every number is a place on the chip. -/
theorem netlist_file_eq_some {net : Ascii} {g : Graph} (n_le : net.lines.length ≤ 2 ^ 31)
    (x_lt : net.maxX < 2 ^ 32) (y_lt : net.maxY < 2 ^ 32) : netlist net.file = some g ↔
      net.maxX * net.maxY < 2 ^ 32 ∧ ∃ locs, locations net.maxX net.maxY = some locs ∧
        net.faninList.foldlM (connect (net.maxX * net.maxY)) ⟨locs, fun _ => [], fun _ => []⟩ = some g := by
  have n_lt : net.lines.length < 2 ^ 32 := by omega
  have room := net.room
  have x_pos : 0 < net.maxX := Nat.pos_of_mul_pos_right (by omega : 0 < net.maxX * net.maxY)
  have chip : (BitVec.ofNat 32 net.maxX * BitVec.ofNat 32 net.maxY).toNat = net.maxX * net.maxY % 2 ^ 32 := by
    simp only [BitVec.toNat_mul, BitVec.toNat_ofNat, Nat.mod_eq_of_lt x_lt, Nat.mod_eq_of_lt y_lt]
  simp only [netlist, Ascii.file, BitVec.lt_def, chip, BitVec.toNat_ofNat, Nat.mod_eq_of_lt x_lt,
    Nat.mod_eq_of_lt y_lt, Nat.mod_eq_of_lt n_lt, readData_words _ net.five, Option.bind_some,
    intIndices_eq_some.2 ⟨n_le, rfl⟩]
  constructor
  · intro h
    rw [Option.ite_none_right_eq_some] at h
    obtain ⟨-, h⟩ := h
    obtain ⟨locs, hlocs, h⟩ := Option.bind_eq_some_iff.1 h
    rw [Option.ite_none_right_eq_some, (length_of_locations x_pos hlocs).2.2] at h
    have chip_lt : net.maxX * net.maxY < 2 ^ 32 := by omega
    rw [Nat.mod_eq_of_lt chip_lt] at h
    exact ⟨chip_lt, locs, hlocs, h.2⟩
  · rintro ⟨chip_lt, locs, hlocs, h⟩
    rw [Nat.mod_eq_of_lt chip_lt, if_pos room, hlocs, Option.bind_some,
      if_pos (Nat.le_of_eq (length_of_locations x_pos hlocs).2.2)]
    exact h

/-! ### The graph of the file against the graph of the lines -/

theorem Ascii.lineOf_eq_iff (net : Ascii) {l : Line} {x : List Char} (hl : l ∈ net.lines) (hx : x ∈ l.fanin)
    (j : ℕ) : net.lineOf x = j ↔ (net.lines[j]?).map Line.name = some x := by
  have mem := net.defined l hl x hx
  rw [← List.getElem?_map, Ascii.lineOf]
  constructor
  · rintro rfl
    exact List.getElem?_idxOf mem
  · intro h
    obtain ⟨hj, rfl⟩ := List.getElem?_eq_some_iff.1 h
    exact net.distinct.idxOf_getElem j hj

theorem Ascii.lineOf_lt (net : Ascii) {l : Line} {x : List Char} (hl : l ∈ net.lines) (hx : x ∈ l.fanin) :
    net.lineOf x < net.lines.length := by
  have := List.idxOf_lt_length_of_mem (net.defined l hl x hx)
  rwa [List.length_map] at this

theorem countP_line (net : Ascii) {l : Line} (hl : l ∈ net.lines) (j : ℕ) :
    (l.fanin.countP fun x => (net.lines[j]?).map Line.name = some x) = (l.fanin.map net.lineOf).count j := by
  rw [List.count, List.countP_map]
  refine List.countP_congr fun x hx => ?_
  simp only [decide_eq_true_eq, Function.comp_apply, beq_iff_eq]
  exact (net.lineOf_eq_iff hl hx j).symm

theorem count_fanin {net : Ascii} {c : ℕ} {locs : List (ℕ × ℕ)} {g : Graph}
    (h : net.faninList.foldlM (connect c) ⟨locs, fun _ => [], fun _ => []⟩ = some g) (i j : ℕ) :
    (g.fanin i).count j = (match net.lines[i]? with
      | none => 0
      | some l => (l.fanin.map fun x => place (string2int x)).count j) ∧
    (g.fanout j).count i = (g.fanin i).count j := by
  obtain ⟨fin, fout⟩ := (of_foldlM_connect _ h).2 i j
  rw [List.count_nil, Nat.zero_add, Ascii.faninList, count_faninList, List.getElem?_map] at fin fout
  refine ⟨?_, fout.trans fin.symm⟩
  rw [fin]
  cases net.lines[i]? with
  | none => rfl
  | some l => simp [Line.element, Function.comp_def]

theorem isomorphic_iff {net : Ascii} {c : ℕ} {locs : List (ℕ × ℕ)} {g : Graph}
    (h : net.faninList.foldlM (connect c) ⟨locs, fun _ => [], fun _ => []⟩ = some g) :
    Isomorphic net g ↔ ∀ l ∈ net.lines,
      (l.fanin.map fun x => place (string2int x)).Perm (l.fanin.map net.lineOf) := by
  constructor
  · intro iso l hl
    obtain ⟨i, hi⟩ := List.mem_iff_getElem?.1 hl
    rw [List.perm_iff_count]
    intro j
    have := iso.fanin i j
    rw [(count_fanin h i j).1, hi] at this
    rw [← countP_line net hl]
    exact this
  · intro perm
    refine ⟨fun i j => ?_, fun i j => (count_fanin h i j).2⟩
    rw [(count_fanin h i j).1]
    cases hi : net.lines[i]? with
    | none => rfl
    | some l =>
      have hl := List.mem_of_getElem? hi
      simp only
      rw [countP_line net hl]
      exact (perm l hl).count_eq j

/-- The 32-bit number of a lower-case name. -/
theorem toNat_string2int {name : List Char} (lower : ∀ c ∈ name, 'a' ≤ c ∧ c ≤ 'z') :
    (string2int name).toNat = numeral name % 2 ^ 32 := by
  induction name using List.reverseRecOn with
  | nil => rfl
  | append_singleton name c ih =>
    have hc : 'a'.toNat ≤ c.toNat := (lower c (by simp)).1
    have step : BitVec.ofInt 32 ((c.toNat : ℤ) - 'a'.toNat + 1) = BitVec.ofNat 32 (c.toNat - 'a'.toNat + 1) := by
      rw [← BitVec.ofInt_natCast]
      congr 1
      omega
    have h := ih fun d hd => lower d (List.mem_append_left _ hd)
    simp only [string2int, numeral, List.foldl_append, List.foldl_cons, List.foldl_nil] at h ⊢
    rw [step, BitVec.toNat_add, BitVec.toNat_mul, h, BitVec.toNat_ofNat]
    simp [Nat.add_mod, Nat.mul_mod]

theorem place_eq (w : Word) : place w = (w.toNat + (2 ^ 32 - 1)) % 2 ^ 32 := by
  rw [place, BitVec.toNat_sub, Nat.add_comm]
  rfl

theorem inChip_iff {c : ℕ} {w : Word} : InChip c w ↔ 0 < w.toNat ∧ w.toNat ≤ 2 ^ 31 ∧ w.toNat ≤ c := by
  have hw := w.isLt
  have hp : (w - 1).toNat = _ := place_eq w
  rw [InChip, BitVec.toInt_eq_toNat_cond, hp]
  split_ifs <;> omega

theorem Ascii.toNat_fanin (net : Ascii) {l : Line} (hl : l ∈ net.lines) {x : List Char} (hx : x ∈ l.fanin) :
    (string2int x).toNat = numeral x % 2 ^ 32 := by
  obtain ⟨m, hm, rfl⟩ := List.mem_map.1 (net.defined l hl x hx)
  exact toNat_string2int (net.lower m hm).2

theorem Ascii.mem_faninList {net : Ascii} {w : Word} :
    (∃ i, (i, w) ∈ net.faninList) ↔ ∃ l ∈ net.lines, ∃ x ∈ l.fanin, string2int x = w := by
  simp only [Ascii.faninList, Netlist.faninList, List.mem_flatMap, List.mem_map, Prod.exists, Prod.mk.injEq]
  constructor
  · rintro ⟨i, e, k, he, v, hv, rfl, rfl⟩
    obtain ⟨l, hl, rfl⟩ := List.mem_map.1 (List.fst_mem_of_mem_zipIdx he)
    obtain ⟨x, hx, rfl⟩ := List.mem_map.1 hv
    exact ⟨l, hl, x, hx, rfl⟩
  · rintro ⟨l, hl, x, hx, rfl⟩
    obtain ⟨i, hi⟩ := List.mem_iff_getElem?.1 (List.mem_map_of_mem (f := Line.element) hl)
    exact ⟨i, l.element, i, List.mk_mem_zipIdx_iff_getElem?.2 hi, string2int x, List.mem_map_of_mem hx, rfl, rfl⟩

/-- If every number is a place, then the places are right exactly when the numbers are. -/
theorem perm_place_iff {net : Ascii} {l : Line} (hl : l ∈ net.lines)
    (pos : ∀ x ∈ l.fanin, 0 < (string2int x).toNat) :
    (l.fanin.map fun x => place (string2int x)).Perm (l.fanin.map net.lineOf) ↔
      (l.fanin.map fun x => numeral x % 2 ^ 32).Perm (l.fanin.map fun x => net.lineOf x + 1) := by
  have succ : (l.fanin.map fun x => numeral x % 2 ^ 32) =
      (l.fanin.map fun x => place (string2int x)).map (· + 1) := by
    rw [List.map_map]
    refine List.map_congr_left fun x hx => ?_
    have lt := (string2int x).isLt
    have px := pos x hx
    rw [← net.toNat_fanin hl hx, Function.comp_apply, place_eq]
    omega
  have line : (l.fanin.map fun x => net.lineOf x + 1) = (l.fanin.map net.lineOf).map (· + 1) := by
    rw [List.map_map]
    rfl
  rw [succ, line]
  exact (List.map_perm_map_iff fun _ _ h => Nat.succ.inj h).symm

theorem Converts.aligned {net : Ascii} : Converts net → Aligned net := by
  rintro ⟨file, g, hfile, hg, iso⟩
  obtain ⟨n_le, x_lt, y_lt, rfl⟩ := ascii2binary_eq_some.1 hfile
  obtain ⟨chip, locs, hlocs, hfold⟩ := (netlist_file_eq_some n_le x_lt y_lt).1 hg
  have room := net.room
  have x_pos : 0 < net.maxX := Nat.pos_of_mul_pos_right (by omega : 0 < net.maxX * net.maxY)
  obtain ⟨x_le, y_le, -⟩ := length_of_locations x_pos hlocs
  refine ⟨chip, x_le, y_le, n_le, fun l hl => ?_⟩
  refine (perm_place_iff hl fun x hx => ?_).1 ((isomorphic_iff hfold).1 iso l hl)
  obtain ⟨i, hi⟩ := Ascii.mem_faninList.2 ⟨l, hl, x, hx, rfl⟩
  exact (inChip_iff.1 ((of_foldlM_connect _ hfold).1 _ hi)).1

theorem Aligned.converts {net : Ascii} (h : Aligned net) : Converts net := by
  have room := net.room
  have x_le := h.maxX
  have y_le := h.maxY
  have n_le := h.length
  have bound : ∀ l ∈ net.lines, ∀ x ∈ l.fanin,
      0 < (string2int x).toNat ∧ (string2int x).toNat ≤ net.lines.length := by
    intro l hl x hx
    have mem := (h.names l hl).subset (List.mem_map_of_mem hx)
    obtain ⟨y, hy, hxy⟩ := List.mem_map.1 mem
    have lt := net.lineOf_lt hl hy
    rw [net.toNat_fanin hl hx, ← hxy]
    omega
  have inChip : ∀ e ∈ net.faninList, InChip (net.maxX * net.maxY) e.2 := by
    rintro ⟨i, w⟩ he
    obtain ⟨l, hl, x, hx, rfl⟩ := Ascii.mem_faninList.1 ⟨i, he⟩
    obtain ⟨x_pos, x_le⟩ := bound l hl x hx
    exact inChip_iff.2 ⟨x_pos, Nat.le_trans x_le n_le, Nat.le_of_lt (Nat.lt_of_le_of_lt x_le room)⟩
  obtain ⟨locs, hlocs⟩ := locations_isSome h.maxX h.maxY
  obtain ⟨g, hg⟩ := foldlM_connect net.faninList ⟨locs, fun _ => [], fun _ => []⟩ inChip
  have x_lt : net.maxX < 2 ^ 32 := by omega
  have y_lt : net.maxY < 2 ^ 32 := by omega
  refine ⟨net.file, g, ascii2binary_eq_some.2 ⟨n_le, x_lt, y_lt, rfl⟩,
    (netlist_file_eq_some n_le x_lt y_lt).2 ⟨h.chip, locs, hlocs, hg⟩, (isomorphic_iff hg).2 fun l hl => ?_⟩
  exact (perm_place_iff hl fun x hx => (bound l hl x hx).1).2 (h.names l hl)

/-- CORRECT: the converted netlist is the netlist if and only if the names are the numbers of their lines. -/
theorem converts_iff_aligned (net : Ascii) : Converts net ↔ Aligned net := ⟨Converts.aligned, Aligned.converts⟩

/-- Two elements that are their own fan-ins, `b` before `a`. -/
def reversed : Ascii where
  maxX := 2
  maxY := 2
  lines := [⟨['b'], 0, List.replicate 5 ['b']⟩, ⟨['a'], 0, List.replicate 5 ['a']⟩]
  lower := by simp
  five := by decide
  distinct := by decide
  defined := by decide
  room := by decide

/-- Line 0 names itself, and element 0 has element 1 as fan-in. -/
theorem reversed_not_converts : ¬ Converts reversed :=
  fun h => absurd (h.aligned.names _ (List.mem_cons_self ..)) (by decide)

end Turkey.Netlist
