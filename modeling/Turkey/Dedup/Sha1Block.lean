import Mathlib.Data.BitVec
import Mathlib.Data.List.GetD
import Mathlib.Data.Option.Basic
import Mathlib.Logic.Function.Basic
import Turkey.Schemes.Streaming

/-! `sha1_block_data_order` (`openssl/sha_locl.h`), the compression function of SHA-1. The rounds are written out:
    instead of moving five variables in each round, the six registers `A` to `T` change their parts from round to
    round, and the schedule of 80 words is made in the 16 words that hold the block. The registers are of type
    `unsigned long`, with 64 bits: the upper half fills up with what overflows, and only the lower half is stored.

    `compress` is the function as the standard has it, on words of 32 bits. -/

namespace Turkey.Sha1

abbrev Bytes := List UInt8

/-- `h0` to `h4` of a `SHA_CTX`. -/
structure Hash where
  h0 : BitVec 32
  h1 : BitVec 32
  h2 : BitVec 32
  h3 : BitVec 32
  h4 : BitVec 32
  deriving DecidableEq

/-! ### The code -/

/-- The registers of the rounds, and `T`. -/
inductive Reg where
  | A
  | B
  | C
  | D
  | E
  | T
  deriving DecidableEq

/-- The registers, the words `X(0)` to `X(15)`, and what `data` points to. -/
structure Locals where
  reg : Reg → BitVec 64
  x : Fin 16 → BitVec 64
  data : Bytes

/-- A register with its new value. -/
def Locals.set (s : Locals) (r : Reg) (v : BitVec 64) : Locals := { s with reg := Function.update s.reg r v }

/-- A word of the block with its new value. -/
def Locals.setX (s : Locals) (i : Fin 16) (v : BitVec 64) : Locals := { s with x := Function.update s.x i v }

/-- `ROTATE` without the assembler of a processor. -/
def ROTATE (a : BitVec 64) (n : ℕ) : BitVec 64 := (a <<< n) ||| ((a &&& 0xffffffff#64) >>> (32 - n))

/-- The constants of the four kinds of rounds. -/
def K_00_19 : BitVec 64 := 0x5a827999#64
def K_20_39 : BitVec 64 := 0x6ed9eba1#64
def K_40_59 : BitVec 64 := 0x8f1bbcdc#64
def K_60_79 : BitVec 64 := 0xca62c1d6#64

/-- The functions of the four kinds of rounds. -/
def F_00_19 (b c d : BitVec 64) : BitVec 64 := ((c ^^^ d) &&& b) ^^^ d
def F_20_39 (b c d : BitVec 64) : BitVec 64 := b ^^^ c ^^^ d
def F_40_59 (b c d : BitVec 64) : BitVec 64 := (b &&& c) ||| ((b ||| c) &&& d)
def F_60_79 (b c d : BitVec 64) : BitVec 64 := F_20_39 b c d

/-- `(a)=(ia^ib^ic^id), ix=(a)=ROTATE((a),1)` -/
def Xupdate (a : Reg) (ix ia ib ic id : Fin 16) (s : Locals) : Locals :=
  let v := ROTATE (s.x ia ^^^ s.x ib ^^^ s.x ic ^^^ s.x id) 1
  (s.set a v).setX ix v

/-- `HOST_c2l` -/
def hostC2l : Bytes → Option (BitVec 64 × Bytes)
  | b0 :: b1 :: b2 :: b3 :: data =>
    some (((b0.toBitVec.setWidth 64 <<< 24) ||| (b1.toBitVec.setWidth 64 <<< 16) ||| (b2.toBitVec.setWidth 64 <<< 8)) |||
      b3.toBitVec.setWidth 64, data)
  | _ => none

/-- A line of the function: a use of one of the macros. -/
inductive Line where
  | load (i : Fin 16)
  | BODY_00_15 (a b c d e f : Reg) (xi : Fin 16)
  | BODY_16_19 (a b c d e f : Reg) (xi xa xb xc xd : Fin 16)
  | BODY_20_31 (a b c d e f : Reg) (xi xa xb xc xd : Fin 16)
  | BODY_32_39 (a b c d e f : Reg) (xa xb xc xd : Fin 16)
  | BODY_40_59 (a b c d e f : Reg) (xa xb xc xd : Fin 16)
  | BODY_60_79 (a b c d e f : Reg) (xa xb xc xd : Fin 16)
  deriving DecidableEq

/-- What the macros stand for; `none` when the data is at its end. -/
def Line.run (s : Locals) : Line → Option Locals
  | .load i => (hostC2l s.data).map fun (l, data) => { s with data := data }.setX i l
  | .BODY_00_15 a b c d e f xi =>
    let s := s.set f (s.x xi + s.reg e + K_00_19 + ROTATE (s.reg a) 5 + F_00_19 (s.reg b) (s.reg c) (s.reg d))
    some (s.set b (ROTATE (s.reg b) 30))
  | .BODY_16_19 a b c d e f xi xa xb xc xd =>
    let s := Xupdate f xi xa xb xc xd s
    let s := s.set f (s.reg f + (s.reg e + K_00_19 + ROTATE (s.reg a) 5 + F_00_19 (s.reg b) (s.reg c) (s.reg d)))
    some (s.set b (ROTATE (s.reg b) 30))
  | .BODY_20_31 a b c d e f xi xa xb xc xd =>
    let s := Xupdate f xi xa xb xc xd s
    let s := s.set f (s.reg f + (s.reg e + K_20_39 + ROTATE (s.reg a) 5 + F_20_39 (s.reg b) (s.reg c) (s.reg d)))
    some (s.set b (ROTATE (s.reg b) 30))
  | .BODY_32_39 a b c d e f xa xb xc xd =>
    let s := Xupdate f xa xa xb xc xd s
    let s := s.set f (s.reg f + (s.reg e + K_20_39 + ROTATE (s.reg a) 5 + F_20_39 (s.reg b) (s.reg c) (s.reg d)))
    some (s.set b (ROTATE (s.reg b) 30))
  | .BODY_40_59 a b c d e f xa xb xc xd =>
    let s := Xupdate f xa xa xb xc xd s
    let s := s.set f (s.reg f + (s.reg e + K_40_59 + ROTATE (s.reg a) 5 + F_40_59 (s.reg b) (s.reg c) (s.reg d)))
    some (s.set b (ROTATE (s.reg b) 30))
  | .BODY_60_79 a b c d e f xa xb xc xd =>
    let s := Xupdate f xa xa xb xc xd s
    let s := s.set f (s.x xa + s.reg e + K_60_79 + ROTATE (s.reg a) 5 + F_60_79 (s.reg b) (s.reg c) (s.reg d))
    some (s.set b (ROTATE (s.reg b) 30))

open Reg Line in
/-- The body of the loop. -/
def lines : List Line := [
  load 0, load 1,
  BODY_00_15 A B C D E T 0, load 2,
  BODY_00_15 T A B C D E 1, load 3,
  BODY_00_15 E T A B C D 2, load 4,
  BODY_00_15 D E T A B C 3, load 5,
  BODY_00_15 C D E T A B 4, load 6,
  BODY_00_15 B C D E T A 5, load 7,
  BODY_00_15 A B C D E T 6, load 8,
  BODY_00_15 T A B C D E 7, load 9,
  BODY_00_15 E T A B C D 8, load 10,
  BODY_00_15 D E T A B C 9, load 11,
  BODY_00_15 C D E T A B 10, load 12,
  BODY_00_15 B C D E T A 11, load 13,
  BODY_00_15 A B C D E T 12, load 14,
  BODY_00_15 T A B C D E 13, load 15,
  BODY_00_15 E T A B C D 14, BODY_00_15 D E T A B C 15,
  BODY_16_19 C D E T A B 0 0 2 8 13, BODY_16_19 B C D E T A 1 1 3 9 14,
  BODY_16_19 A B C D E T 2 2 4 10 15, BODY_16_19 T A B C D E 3 3 5 11 0,
  BODY_20_31 E T A B C D 4 4 6 12 1, BODY_20_31 D E T A B C 5 5 7 13 2,
  BODY_20_31 C D E T A B 6 6 8 14 3, BODY_20_31 B C D E T A 7 7 9 15 4,
  BODY_20_31 A B C D E T 8 8 10 0 5, BODY_20_31 T A B C D E 9 9 11 1 6,
  BODY_20_31 E T A B C D 10 10 12 2 7, BODY_20_31 D E T A B C 11 11 13 3 8,
  BODY_20_31 C D E T A B 12 12 14 4 9, BODY_20_31 B C D E T A 13 13 15 5 10,
  BODY_20_31 A B C D E T 14 14 0 6 11, BODY_20_31 T A B C D E 15 15 1 7 12,
  BODY_32_39 E T A B C D 0 2 8 13, BODY_32_39 D E T A B C 1 3 9 14,
  BODY_32_39 C D E T A B 2 4 10 15, BODY_32_39 B C D E T A 3 5 11 0,
  BODY_32_39 A B C D E T 4 6 12 1, BODY_32_39 T A B C D E 5 7 13 2,
  BODY_32_39 E T A B C D 6 8 14 3, BODY_32_39 D E T A B C 7 9 15 4,
  BODY_40_59 C D E T A B 8 10 0 5, BODY_40_59 B C D E T A 9 11 1 6,
  BODY_40_59 A B C D E T 10 12 2 7, BODY_40_59 T A B C D E 11 13 3 8,
  BODY_40_59 E T A B C D 12 14 4 9, BODY_40_59 D E T A B C 13 15 5 10,
  BODY_40_59 C D E T A B 14 0 6 11, BODY_40_59 B C D E T A 15 1 7 12,
  BODY_40_59 A B C D E T 0 2 8 13, BODY_40_59 T A B C D E 1 3 9 14,
  BODY_40_59 E T A B C D 2 4 10 15, BODY_40_59 D E T A B C 3 5 11 0,
  BODY_40_59 C D E T A B 4 6 12 1, BODY_40_59 B C D E T A 5 7 13 2,
  BODY_40_59 A B C D E T 6 8 14 3, BODY_40_59 T A B C D E 7 9 15 4,
  BODY_40_59 E T A B C D 8 10 0 5, BODY_40_59 D E T A B C 9 11 1 6,
  BODY_40_59 C D E T A B 10 12 2 7, BODY_40_59 B C D E T A 11 13 3 8,
  BODY_60_79 A B C D E T 12 14 4 9, BODY_60_79 T A B C D E 13 15 5 10,
  BODY_60_79 E T A B C D 14 0 6 11, BODY_60_79 D E T A B C 15 1 7 12,
  BODY_60_79 C D E T A B 0 2 8 13, BODY_60_79 B C D E T A 1 3 9 14,
  BODY_60_79 A B C D E T 2 4 10 15, BODY_60_79 T A B C D E 3 5 11 0,
  BODY_60_79 E T A B C D 4 6 12 1, BODY_60_79 D E T A B C 5 7 13 2,
  BODY_60_79 C D E T A B 6 8 14 3, BODY_60_79 B C D E T A 7 9 15 4,
  BODY_60_79 A B C D E T 8 10 0 5, BODY_60_79 T A B C D E 9 11 1 6,
  BODY_60_79 E T A B C D 10 12 2 7, BODY_60_79 D E T A B C 11 13 3 8,
  BODY_60_79 C D E T A B 12 14 4 9, BODY_60_79 B C D E T A 13 15 5 10,
  BODY_60_79 A B C D E T 14 0 6 11, BODY_60_79 T A B C D E 15 1 7 12
]

/-- The lines one after the other; `none` when one of them reads behind the end of the data. -/
def runLines : List Line → Locals → Option Locals
  | [], s => some s
  | line :: lines, s => (line.run s).bind (runLines lines)

/-- The assignments at the start of a block. -/
def Locals.enter (s : Locals) (h : Hash) : Locals :=
  ((((s.set .A (h.h0.setWidth 64)).set .B (h.h1.setWidth 64)).set .C (h.h2.setWidth 64)).set .D (h.h3.setWidth 64)).set .E
    (h.h4.setWidth 64)

/-- `(h+r)&0xffffffffL` -/
def addRegister (h : BitVec 32) (r : BitVec 64) : BitVec 32 := ((h.setWidth 64 + r) &&& 0xffffffff#64).setWidth 32

/-- The assignments at the end of a block. -/
def Locals.leave (s : Locals) (h : Hash) : Hash :=
  ⟨addRegister h.h0 (s.reg .E), addRegister h.h1 (s.reg .T), addRegister h.h2 (s.reg .A), addRegister h.h3 (s.reg .B),
    addRegister h.h4 (s.reg .C)⟩

/-- The loop over the blocks. It is never called with no blocks. -/
def blockLoop : ℕ → Hash → Locals → Option Hash
  | 0, _, _ => none
  | num + 1, h, s => (runLines lines (s.enter h)).bind fun s => if num = 0 then some (s.leave h) else blockLoop num (s.leave h) s

/-- `sha1_block_data_order`; `junk` are the registers and words before they are set. -/
def sha1BlockDataOrder (junk : Locals) (h : Hash) (p : Bytes) (num : ℕ) : Option Hash :=
  blockLoop num h { junk with data := p }

/-! ### The standard -/

/-- The words of the schedule, from those of the block on. -/
def schedule (m : ℕ → BitVec 32) (t : ℕ) : BitVec 32 :=
  if t < 16 then m t
  else (schedule m (t - 3) ^^^ schedule m (t - 8) ^^^ schedule m (t - 14) ^^^ schedule m (t - 16)).rotateLeft 1

/-- The function of round `t`. -/
def f (t : ℕ) (b c d : BitVec 32) : BitVec 32 :=
  if t < 20 then (b &&& c) ||| (~~~b &&& d)
  else if t < 40 then b ^^^ c ^^^ d
  else if t < 60 then (b &&& c) ||| (b &&& d) ||| (c &&& d)
  else b ^^^ c ^^^ d

/-- The constant of round `t`. -/
def constant (t : ℕ) : BitVec 32 :=
  if t < 20 then 0x5a827999#32 else if t < 40 then 0x6ed9eba1#32 else if t < 60 then 0x8f1bbcdc#32 else 0xca62c1d6#32

/-- One round on the five variables. -/
def round (w : ℕ → BitVec 32) (t : ℕ) (v : Hash) : Hash :=
  ⟨v.h0.rotateLeft 5 + f t v.h1 v.h2 v.h3 + v.h4 + constant t + w t, v.h0, v.h1.rotateLeft 30, v.h2, v.h3⟩

/-- The registers after the first rounds. -/
def rounds (w : ℕ → BitVec 32) (v : Hash) : ℕ → Hash
  | 0 => v
  | t + 1 => round w t (rounds w v t)

/-- The variables by number. -/
def Hash.variable (h : Hash) : ℕ → BitVec 32
  | 0 => h.h0
  | 1 => h.h1
  | 2 => h.h2
  | 3 => h.h3
  | _ => h.h4

/-- What a block makes of the hash. -/
def compress (h : Hash) (m : ℕ → BitVec 32) : Hash :=
  let v := rounds (schedule m) h 80
  ⟨h.h0 + v.h0, h.h1 + v.h1, h.h2 + v.h2, h.h3 + v.h3, h.h4 + v.h4⟩

/-- The word with this number, big end first. -/
def wordAt (p : Bytes) (i : ℕ) : BitVec 32 :=
  (p.getD (4 * i) 0).toBitVec ++ (p.getD (4 * i + 1) 0).toBitVec ++ (p.getD (4 * i + 2) 0).toBitVec ++
    (p.getD (4 * i + 3) 0).toBitVec

/-! ### The lower halves -/

/-- The 32 bits that count. -/
def low (x : BitVec 64) : BitVec 32 := x.setWidth 32

@[simp] theorem low_add (x y : BitVec 64) : low (x + y) = low x + low y := BitVec.setWidth_add x y (by decide)

@[simp] theorem low_xor (x y : BitVec 64) : low (x ^^^ y) = low x ^^^ low y := BitVec.setWidth_xor

@[simp] theorem low_and (x y : BitVec 64) : low (x &&& y) = low x &&& low y := BitVec.setWidth_and

@[simp] theorem low_or (x y : BitVec 64) : low (x ||| y) = low x ||| low y := BitVec.setWidth_or

theorem getLsbD_mask (i : ℕ) : (0xffffffff#64).getLsbD i = decide (i < 32) := by
  have hones : 0xffffffff#64 = (BitVec.allOnes 32).setWidth 64 := by decide
  rw [hones, BitVec.getLsbD_setWidth, BitVec.getLsbD_allOnes, Bool.eq_iff_iff]
  simp only [Bool.and_eq_true, decide_eq_true_eq]
  omega

/-- Bits that have overflowed do not come back. -/
@[simp] theorem low_rotate (a : BitVec 64) {n : ℕ} (hn : n < 32) : low (ROTATE a n) = (low a).rotateLeft n := by
  ext i hi
  have hlt : i < 64 := by omega
  rw [BitVec.getElem_rotateLeft]
  simp only [low, ROTATE, Nat.mod_eq_of_lt hn, BitVec.getElem_setWidth, BitVec.getLsbD_or, BitVec.getLsbD_shiftLeft,
    BitVec.getLsbD_ushiftRight, BitVec.getLsbD_and, getLsbD_mask]
  split_ifs with h
  · simp only [hlt, h, decide_true, Bool.not_true, Bool.and_false, Bool.false_and, Bool.false_or]
    rw [decide_eq_true (show 32 - n + i < 32 by omega), Bool.and_true]
  · simp only [hlt, h, decide_true, decide_false, Bool.not_false, Bool.and_true, Bool.true_and]
    rw [decide_eq_false (show ¬32 - n + i < 32 by omega), Bool.and_false, Bool.or_false]

theorem low_setWidth (x : BitVec 32) : low (x.setWidth 64) = x := by
  rw [low, BitVec.setWidth_setWidth_of_le _ (by decide), BitVec.setWidth_eq]

theorem F_00_19_low (b c d : BitVec 64) : low (F_00_19 b c d) = (low b &&& low c) ||| (~~~low b &&& low d) := by
  simp only [F_00_19, low_xor, low_and]
  ext i hi
  simp only [BitVec.getElem_xor, BitVec.getElem_and, BitVec.getElem_or, BitVec.getElem_not]
  cases (low b)[i] <;> cases (low c)[i] <;> cases (low d)[i] <;> rfl

theorem F_40_59_low (b c d : BitVec 64) :
    low (F_40_59 b c d) = (low b &&& low c) ||| (low b &&& low d) ||| (low c &&& low d) := by
  simp only [F_40_59, low_and, low_or]
  ext i hi
  simp only [BitVec.getElem_and, BitVec.getElem_or]
  cases (low b)[i] <;> cases (low c)[i] <;> cases (low d)[i] <;> rfl

/-! ### The lines as rounds -/

theorem runLines_append (l l' : List Line) (s : Locals) : runLines (l ++ l') s = (runLines l s).bind (runLines l') := by
  induction l generalizing s with
  | nil => rfl
  | cons line l ih =>
    rw [List.cons_append, runLines, runLines, Option.bind_assoc]
    exact congrArg _ (funext ih)

/-- The registers in turn. -/
def regAt : ℕ → Reg
  | 0 => .A
  | 1 => .B
  | 2 => .C
  | 3 => .D
  | 4 => .E
  | _ => .T

/-- The register that is variable `k` in round `t`; `k = 5` is the one that gets the new value. -/
def role (k t : ℕ) : Reg := regAt ((k + 5 * t) % 6)

/-- Where word `t` of the schedule is stored. -/
def slot (t : ℕ) : Fin 16 := Fin.ofNat 16 t

/-- The line for round `t`. -/
def lineAt (t : ℕ) : Line :=
  let (a, b, c, d, e, f) := (role 0 t, role 1 t, role 2 t, role 3 t, role 4 t, role 5 t)
  let (xa, xb, xc, xd) := (slot t, slot (t + 2), slot (t + 8), slot (t + 13))
  if t < 16 then .BODY_00_15 a b c d e f xa
  else if t < 20 then .BODY_16_19 a b c d e f xa xa xb xc xd
  else if t < 32 then .BODY_20_31 a b c d e f xa xa xb xc xd
  else if t < 40 then .BODY_32_39 a b c d e f xa xb xc xd
  else if t < 60 then .BODY_40_59 a b c d e f xa xb xc xd
  else .BODY_60_79 a b c d e f xa xb xc xd

/-- What is written out is one line for each round. -/
theorem lines_eq : lines = [.load (slot 0), .load (slot 1)] ++
    (List.range 14).flatMap (fun t => [lineAt t, .load (slot (t + 2))]) ++
      (List.range' 14 66).map lineAt := by
  rfl

theorem role_succ (k t : ℕ) : role (k + 1) (t + 1) = role k t := by
  rw [role, role]
  congr 1
  omega

theorem role_zero (t : ℕ) : role 0 (t + 1) = role 5 t := by
  rw [role, role]
  congr 1
  omega

theorem role_ne {k k' : ℕ} (t : ℕ) (hk : k < 6) (hk' : k' < 6) (hne : k ≠ k') : role k t ≠ role k' t := by
  have hinj : ∀ a < 6, ∀ b < 6, regAt a = regAt b → a = b := by decide
  intro h
  have := hinj _ (Nat.mod_lt _ (by omega)) _ (Nat.mod_lt _ (by omega)) h
  omega

theorem slot_ne {u t : ℕ} (hlt : u < t) (hle : t < u + 16) : slot u ≠ slot t := by
  intro h
  have := congrArg Fin.val h
  simp only [slot, Fin.val_ofNat] at this
  omega

/-- After `t` rounds, with `j` words read: the registers have the variables, and the words are those of the schedule
    that come last. -/
structure At (p : Bytes) (v : Hash) (t j : ℕ) (s : Locals) : Prop where
  reg : ∀ k < 5, low (s.reg (role k t)) = (rounds (schedule (wordAt p)) v t).variable k
  x : ∀ u < max j t, max j t ≤ u + 16 → low (s.x (slot u)) = schedule (wordAt p) u
  data : s.data = p.drop (4 * j)

/-- What a line for a round leaves in the registers. -/
def written (s : Locals) (t : ℕ) (value : BitVec 64) : Reg → BitVec 64 :=
  Function.update (Function.update s.reg (role 5 t) value) (role 1 t) (ROTATE (s.reg (role 1 t)) 30)

namespace At
variable {p : Bytes} {v : Hash} {t j : ℕ} {s : Locals}

/-- The variables behind a round. -/
theorem reg_written (h : At p v t j s) {value : BitVec 64}
    (hvalue : low value = (round (schedule (wordAt p)) t (rounds (schedule (wordAt p)) v t)).h0) :
    ∀ k < 5, low (written s t value (role k (t + 1))) = (rounds (schedule (wordAt p)) v (t + 1)).variable k := by
  intro k hk
  rw [rounds, written]
  cases k with
  | zero =>
    rw [role_zero, Function.update_of_ne (role_ne t (by omega) (by omega) (by omega)), Function.update_self, hvalue]
    rfl
  | succ k =>
    rw [role_succ]
    by_cases hone : k = 1
    · subst hone
      rw [Function.update_self, low_rotate _ (by omega), h.reg 1 (by omega)]
      rfl
    · rw [Function.update_of_ne (role_ne t (by omega) (by omega) hone),
        Function.update_of_ne (role_ne t (by omega) (by omega) (by omega)), h.reg k (by omega)]
      rcases (by omega : k = 0 ∨ k = 2 ∨ k = 3) with rfl | rfl | rfl <;> rfl

theorem schedule_lt {m : ℕ → BitVec 32} (ht : t < 16) : schedule m t = m t := by rw [schedule, if_pos ht]

theorem schedule_ge {m : ℕ → BitVec 32} (ht : 16 ≤ t) : schedule m t =
    (schedule m (t - 3) ^^^ schedule m (t - 8) ^^^ schedule m (t - 14) ^^^ schedule m (t - 16)).rotateLeft 1 := by
  rw [schedule, if_neg (by omega)]

/-- A round that uses a word of the block. -/
theorem old (h : At p v t j s) (ht : t < j) (hj : j ≤ 16) {value : BitVec 64}
    (hvalue : low value = (round (schedule (wordAt p)) t (rounds (schedule (wordAt p)) v t)).h0) :
    At p v (t + 1) j { s with reg := written s t value } := by
  refine ⟨h.reg_written hvalue, fun u hu _ => h.x u (by omega) (by omega), h.data⟩

/-- The next word of the schedule. -/
theorem low_next (h : At p v t 16 s) (ht : 16 ≤ t) :
    low (ROTATE (s.x (slot t) ^^^ s.x (slot (t + 2)) ^^^ s.x (slot (t + 8)) ^^^ s.x (slot (t + 13))) 1) =
      schedule (wordAt p) t := by
  have hslot : ∀ u, slot (u + 16) = slot u := by
    intro u
    simp [slot, Fin.ext_iff]
  have hx : ∀ d, 0 < d → d ≤ 16 → low (s.x (slot (t + (16 - d)))) = schedule (wordAt p) (t - d) := by
    intro d hd hd'
    have heq : t + (16 - d) = t - d + 16 := by omega
    rw [heq, hslot, h.x (t - d) (by omega) (by omega)]
  have h16 : low (s.x (slot t)) = schedule (wordAt p) (t - 16) := hx 16 (by omega) le_rfl
  have h14 : low (s.x (slot (t + 2))) = schedule (wordAt p) (t - 14) := hx 14 (by omega) (by omega)
  have h8 : low (s.x (slot (t + 8))) = schedule (wordAt p) (t - 8) := hx 8 (by omega) (by omega)
  have h3 : low (s.x (slot (t + 13))) = schedule (wordAt p) (t - 3) := hx 3 (by omega) (by omega)
  rw [low_rotate _ (by omega), schedule_ge ht, low_xor, low_xor, low_xor, h16, h14, h8, h3]
  congr 1
  ac_rfl

/-- A round that makes a new word. -/
theorem new (h : At p v t 16 s) (ht : 16 ≤ t) {value word : BitVec 64} (hword : low word = schedule (wordAt p) t)
    (hvalue : low value = (round (schedule (wordAt p)) t (rounds (schedule (wordAt p)) v t)).h0) :
    At p v (t + 1) 16 { s with reg := written s t value, x := Function.update s.x (slot t) word } := by
  refine ⟨h.reg_written hvalue, fun u hu hle => ?_, h.data⟩
  by_cases hut : u = t
  · subst hut
    show low (Function.update s.x (slot u) word (slot u)) = _
    rw [Function.update_self, hword]
  · show low (Function.update s.x (slot t) word (slot u)) = _
    rw [Function.update_of_ne (slot_ne (by omega) (by omega)), h.x u (by omega) (by omega)]

end At

/-! ### What a line does -/

theorem set_reg_of_ne (s : Locals) {r r' : Reg} (v : BitVec 64) (hne : r' ≠ r) : (s.set r v).reg r' = s.reg r' :=
  Function.update_of_ne hne ..

theorem Xupdate_reg_self (s : Locals) (a : Reg) (ix ia ib ic id : Fin 16) : (Xupdate a ix ia ib ic id s).reg a =
    ROTATE (s.x ia ^^^ s.x ib ^^^ s.x ic ^^^ s.x id) 1 :=
  Function.update_self ..

theorem Xupdate_reg_of_ne (s : Locals) {a r : Reg} (ix ia ib ic id : Fin 16) (hne : r ≠ a) :
    (Xupdate a ix ia ib ic id s).reg r = s.reg r :=
  Function.update_of_ne hne ..

theorem Xupdate_x_self (s : Locals) (a : Reg) (ix ia ib ic id : Fin 16) : (Xupdate a ix ia ib ic id s).x ix =
    ROTATE (s.x ia ^^^ s.x ib ^^^ s.x ic ^^^ s.x id) 1 :=
  Function.update_self ..

/-- How a line ends that uses a word of the block. -/
theorem old_eq (s : Locals) (t : ℕ) (value : BitVec 64) :
    let s' := s.set (role 5 t) value
    s'.set (role 1 t) (ROTATE (s'.reg (role 1 t)) 30) = { s with reg := written s t value } := by
  intro s'
  rw [set_reg_of_ne _ _ (role_ne t (by omega) (by omega) (by omega))]
  rfl

/-- How a line ends that makes a new word. -/
theorem new_eq (s : Locals) (t : ℕ) (value : BitVec 64) (ix ia ib ic id : Fin 16) :
    let s' := (Xupdate (role 5 t) ix ia ib ic id s).set (role 5 t) value
    s'.set (role 1 t) (ROTATE (s'.reg (role 1 t)) 30) =
      { s with reg := written s t value,
               x := Function.update s.x ix (ROTATE (s.x ia ^^^ s.x ib ^^^ s.x ic ^^^ s.x id) 1) } := by
  intro s'
  rw [set_reg_of_ne _ _ (role_ne t (by omega) (by omega) (by omega)),
    Xupdate_reg_of_ne _ _ _ _ _ _ (role_ne t (by omega) (by omega) (by omega))]
  simp only [s', Locals.set, Xupdate, Locals.setX, Function.update_idem, written]

theorem setWidth_append_byte {n : ℕ} (a : BitVec n) (b : BitVec 8) :
    (a ++ b).setWidth 64 = (a.setWidth 64 <<< 8) ||| b.setWidth 64 := by
  ext i hi
  simp only [BitVec.getElem_setWidth, BitVec.getLsbD_append, BitVec.getElem_or, BitVec.getElem_shiftLeft]
  by_cases h : i < 8
  · simp only [h, if_true, decide_true, Bool.not_true, Bool.false_and, Bool.false_or]
  · have hb : b.getLsbD i = false := BitVec.getLsbD_of_ge b i (by omega)
    simp only [h, hb, if_false, decide_false, Bool.not_false, Bool.true_and, Bool.or_false]

theorem low_bytes (b0 b1 b2 b3 : BitVec 8) :
    low ((b0.setWidth 64 <<< 24) ||| (b1.setWidth 64 <<< 16) ||| (b2.setWidth 64 <<< 8) ||| b3.setWidth 64) =
      b0 ++ b1 ++ b2 ++ b3 := by
  rw [← low_setWidth (b0 ++ b1 ++ b2 ++ b3), setWidth_append_byte, setWidth_append_byte, setWidth_append_byte]
  simp only [BitVec.shiftLeft_or_distrib, ← BitVec.shiftLeft_add]

theorem hostC2l_drop {p : Bytes} {j : ℕ} (hlen : 4 * j + 4 ≤ p.length) :
    ∃ l, hostC2l (p.drop (4 * j)) = some (l, p.drop (4 * (j + 1))) ∧ low l = wordAt p j := by
  have hdrop : p.drop (4 * j) = p.getD (4 * j) 0 :: p.getD (4 * j + 1) 0 :: p.getD (4 * j + 2) 0 ::
      p.getD (4 * j + 3) 0 :: p.drop (4 * (j + 1)) := by
    have hget : ∀ i < p.length, p.drop i = p.getD i 0 :: p.drop (i + 1) := by
      intro i hi
      rw [List.drop_eq_getElem_cons hi, List.getD_eq_getElem _ _ hi]
    rw [hget _ (by omega), hget (4 * j + 1) (by omega), hget (4 * j + 1 + 1) (by omega),
      hget (4 * j + 1 + 1 + 1) (by omega)]
    rfl
  refine ⟨_, by rw [hdrop]; rfl, ?_⟩
  exact low_bytes ..

namespace At
variable {p : Bytes} {v : Hash} {t j : ℕ} {s : Locals}

/-- What the sum of a round comes to. -/
theorem low_sum (h : At p v t j s) {word : BitVec 64} (hword : low word = schedule (wordAt p) t) :
    (low (s.reg (role 0 t))).rotateLeft 5 +
      f t (low (s.reg (role 1 t))) (low (s.reg (role 2 t))) (low (s.reg (role 3 t))) + low (s.reg (role 4 t)) +
        constant t + low word = (round (schedule (wordAt p)) t (rounds (schedule (wordAt p)) v t)).h0 := by
  rw [h.reg 0 (by omega), h.reg 1 (by omega), h.reg 2 (by omega), h.reg 3 (by omega), h.reg 4 (by omega), hword]
  rfl

/-- The value of a line that makes a new word, from the function and the constant that its macro has. -/
theorem low_value (h : At p v t 16 s) (ht : 16 ≤ t) {F : BitVec 64 → BitVec 64 → BitVec 64 → BitVec 64} {K : BitVec 64}
    (hF : ∀ b c d, low (F b c d) = f t (low b) (low c) (low d)) (hK : low K = constant t)
    (ix : Fin 16) :
    let s' := Xupdate (role 5 t) ix (slot t) (slot (t + 2)) (slot (t + 8)) (slot (t + 13)) s
    low (s'.reg (role 5 t) + (s'.reg (role 4 t) + K + ROTATE (s'.reg (role 0 t)) 5 +
      F (s'.reg (role 1 t)) (s'.reg (role 2 t)) (s'.reg (role 3 t)))) =
        (round (schedule (wordAt p)) t (rounds (schedule (wordAt p)) v t)).h0 := by
  have hne : ∀ k < 5, role k t ≠ role 5 t := fun k hk => role_ne t (by omega) (by omega) (by omega)
  intro s'
  simp only [s', Xupdate_reg_self, Xupdate_reg_of_ne s _ _ _ _ _ (hne 0 (by omega)),
    Xupdate_reg_of_ne s _ _ _ _ _ (hne 1 (by omega)), Xupdate_reg_of_ne s _ _ _ _ _ (hne 2 (by omega)),
    Xupdate_reg_of_ne s _ _ _ _ _ (hne 3 (by omega)), Xupdate_reg_of_ne s _ _ _ _ _ (hne 4 (by omega))]
  rw [← h.low_sum (h.low_next ht)]
  simp only [low_add, hF, hK, low_rotate _ (show 5 < 32 by omega)]
  ac_rfl

/-- A line for a round does the round. -/
theorem run_lineAt (h : At p v t j s) (hj : j ≤ 16) (hlt : t < j ∨ 16 ≤ t ∧ j = 16) (ht : t < 80) :
    ∃ s', (lineAt t).run s = some s' ∧ At p v (t + 1) j s' := by
  rcases hlt with hlt | ⟨hge, rfl⟩
  · have hword : low (s.x (slot t)) = schedule (wordAt p) t := h.x t (by omega) (by omega)
    rw [lineAt, if_pos (by omega)]
    refine ⟨_, congrArg some (old_eq s t _), h.old hlt hj ?_⟩
    rw [← h.low_sum hword]
    have hK : low K_00_19 = constant t := by
      rw [constant, if_pos (by omega)]
      rfl
    simp only [low_add, F_00_19_low, low_rotate _ (show 5 < 32 by omega), f, hK, if_pos (show t < 20 by omega)]
    ac_rfl
  · rw [lineAt, if_neg (by omega)]
    split_ifs with h20 h32 h40 h60
    · refine ⟨_, congrArg some (new_eq s t _ _ _ _ _ _), h.new hge (h.low_next hge) (h.low_value hge ?_ ?_ _)⟩
      · intro b c d
        rw [F_00_19_low, f, if_pos h20]
      · rw [constant, if_pos h20]
        rfl
    · refine ⟨_, congrArg some (new_eq s t _ _ _ _ _ _), h.new hge (h.low_next hge) (h.low_value hge ?_ ?_ _)⟩
      · intro b c d
        rw [F_20_39, low_xor, low_xor, f, if_neg h20, if_pos (by omega)]
      · rw [constant, if_neg h20, if_pos (by omega)]
        rfl
    · refine ⟨_, congrArg some (new_eq s t _ _ _ _ _ _), h.new hge (h.low_next hge) (h.low_value hge ?_ ?_ _)⟩
      · intro b c d
        rw [F_20_39, low_xor, low_xor, f, if_neg h20, if_pos h40]
      · rw [constant, if_neg h20, if_pos h40]
        rfl
    · refine ⟨_, congrArg some (new_eq s t _ _ _ _ _ _), h.new hge (h.low_next hge) (h.low_value hge ?_ ?_ _)⟩
      · intro b c d
        rw [F_40_59_low, f, if_neg h20, if_neg h40, if_pos h60]
      · rw [constant, if_neg h20, if_neg h40, if_pos h60]
        rfl
    · -- this macro adds the word that it has stored, in another order
      have hvalue : low ((Xupdate (role 5 t) (slot t) (slot t) (slot (t + 2)) (slot (t + 8)) (slot (t + 13)) s).x (slot t)) =
          schedule (wordAt p) t := by
        rw [Xupdate_x_self, h.low_next hge]
      refine ⟨_, congrArg some (new_eq s t _ _ _ _ _ _), h.new hge (h.low_next hge) ?_⟩
      rw [← h.low_value hge (F := F_60_79) (K := K_60_79) ?_ ?_ (slot t)]
      · rw [Xupdate_x_self, Xupdate_reg_self]
        congr 1
        ac_rfl
      · intro b c d
        rw [F_60_79, F_20_39, low_xor, low_xor, f, if_neg h20, if_neg h40, if_neg h60]
      · rw [constant, if_neg h20, if_neg h40, if_neg h60]
        rfl

/-- A word of the block is read. -/
theorem run_load (h : At p v t j s) (hj : j < 16) (htj : t ≤ j) (hlen : 4 * j + 4 ≤ p.length) :
    ∃ s', (Line.load (slot j)).run s = some s' ∧ At p v t (j + 1) s' := by
  obtain ⟨l, hl, hlow⟩ := hostC2l_drop hlen
  refine ⟨{ s with x := Function.update s.x (slot j) l, data := p.drop (4 * (j + 1)) }, ?_, h.reg, ?_, rfl⟩
  · rw [Line.run, h.data, hl]
    rfl
  · intro u hu hle
    by_cases huj : u = j
    · subst huj
      show low (Function.update s.x (slot u) l (slot u)) = _
      rw [Function.update_self, hlow, schedule_lt hj]
    · show low (Function.update s.x (slot j) l (slot u)) = _
      rw [Function.update_of_ne (slot_ne (by omega) (by omega)), h.x u (by omega) (by omega)]

/-- The first rounds, a word being read in each. -/
theorem run_first (h : At p v 0 2 s) (hlen : 64 ≤ p.length) {n : ℕ} (hn : n ≤ 14) :
    ∃ s', runLines ((List.range n).flatMap fun t => [lineAt t, .load (slot (t + 2))]) s = some s' ∧
      At p v n (n + 2) s' := by
  induction n with
  | zero => exact ⟨s, rfl, h⟩
  | succ n ih =>
    obtain ⟨s1, hs1, h1⟩ := ih (by omega)
    obtain ⟨s2, hs2, h2⟩ := h1.run_lineAt (by omega) (by omega) (by omega)
    obtain ⟨s3, hs3, h3⟩ := h2.run_load (by omega) (by omega) (by omega)
    refine ⟨s3, ?_, h3⟩
    rw [List.range_succ, List.flatMap_append, runLines_append, hs1, List.flatMap_singleton]
    simp only [runLines, Option.bind_some, hs2, hs3]

/-- The other rounds. -/
theorem run_last (h : At p v 14 16 s) {n : ℕ} (hn : n ≤ 66) :
    ∃ s', runLines ((List.range' 14 n).map lineAt) s = some s' ∧ At p v (14 + n) 16 s' := by
  induction n with
  | zero => exact ⟨s, rfl, h⟩
  | succ n ih =>
    obtain ⟨s1, hs1, h1⟩ := ih (by omega)
    obtain ⟨s2, hs2, h2⟩ := h1.run_lineAt le_rfl (by omega) (by omega)
    refine ⟨s2, ?_, h2⟩
    rw [List.range'_1_concat, List.map_append, runLines_append, hs1, List.map_singleton]
    simp only [runLines, Option.bind_some, hs2]

theorem run_lines (h : At p v 0 0 s) (hlen : 64 ≤ p.length) : ∃ s', runLines lines s = some s' ∧ At p v 80 16 s' := by
  obtain ⟨s1, hs1, h1⟩ := h.run_load (by omega) le_rfl (by omega)
  obtain ⟨s2, hs2, h2⟩ := h1.run_load (by omega) (by omega) (by omega)
  obtain ⟨s3, hs3, h3⟩ := h2.run_first hlen le_rfl
  obtain ⟨s4, hs4, h4⟩ := h3.run_last le_rfl
  refine ⟨s4, ?_, h4⟩
  have hloads : runLines [.load (slot 0), .load (slot 1)] s = some s2 := by
    rw [runLines, hs1, Option.bind_some, runLines, hs2, Option.bind_some, runLines]
  rw [lines_eq, runLines_append, runLines_append, hloads, Option.bind_some, hs3, Option.bind_some, hs4]

end At

/-! ### The blocks -/

theorem enter_at (h : Hash) {s : Locals} {p : Bytes} (hdata : s.data = p) : At p h 0 0 (s.enter h) where
  reg := by
    intro k hk
    rcases (by omega : k = 0 ∨ k = 1 ∨ k = 2 ∨ k = 3 ∨ k = 4) with rfl | rfl | rfl | rfl | rfl <;> exact low_setWidth _
  x := by
    intro u hu
    exact absurd hu (Nat.not_lt_zero u)
  data := hdata

theorem addRegister_eq (h : BitVec 32) (r : BitVec 64) : addRegister h r = h + low r := by
  have hmask : low 0xffffffff#64 = BitVec.allOnes 32 := by decide
  show low _ = _
  rw [low_and, hmask, BitVec.and_allOnes, low_add, low_setWidth]

theorem At.leave_eq {p : Bytes} {h : Hash} {s : Locals} (hat : At p h 80 16 s) :
    s.leave h = compress h (wordAt p) := by
  have h0 : low (s.reg .E) = _ := hat.reg 0 (by omega)
  have h1 : low (s.reg .T) = _ := hat.reg 1 (by omega)
  have h2 : low (s.reg .A) = _ := hat.reg 2 (by omega)
  have h3 : low (s.reg .B) = _ := hat.reg 3 (by omega)
  have h4 : low (s.reg .C) = _ := hat.reg 4 (by omega)
  rw [Locals.leave, compress, addRegister_eq, addRegister_eq, addRegister_eq, addRegister_eq, addRegister_eq, h0, h1, h2,
    h3, h4]
  rfl

/-- A block goes into the hash value. -/
def block (h : Hash) (b : Bytes) : Hash := compress h (wordAt b)

theorem schedule_congr {m m' : ℕ → BitVec 32} (h : ∀ i < 16, m i = m' i) (t : ℕ) : schedule m t = schedule m' t := by
  induction t using Nat.strong_induction_on with
  | _ t ih =>
    by_cases ht : t < 16
    · rw [At.schedule_lt ht, At.schedule_lt ht, h t ht]
    · have hge : 16 ≤ t := by omega
      rw [At.schedule_ge hge, At.schedule_ge (t := t) hge, ih (t - 3) (by omega), ih (t - 8) (by omega),
        ih (t - 14) (by omega), ih (t - 16) (by omega)]

/-- Only the first 64 bytes are in the block. -/
theorem block_take (h : Hash) (p : Bytes) : block h (p.take 64) = compress h (wordAt p) := by
  have hget : ∀ i < 64, (p.take 64).getD i 0 = p.getD i 0 := by
    intro i hi
    rw [List.getD_eq_getElem?_getD, List.getD_eq_getElem?_getD, List.getElem?_take_of_lt hi]
  have hword : ∀ i < 16, wordAt (p.take 64) i = wordAt p i := by
    intro i hi
    rw [wordAt, wordAt, hget _ (by omega), hget _ (by omega), hget _ (by omega), hget _ (by omega)]
  rw [block, compress, compress, funext (schedule_congr hword)]

theorem blockLoop_eq {num : ℕ} {h : Hash} {s : Locals} {p : Bytes} (hnum : 0 < num) (hdata : s.data = p)
    (hlen : 64 * num ≤ p.length) : blockLoop num h s = some (Streaming.absorb block 64 num h p) := by
  induction num generalizing h s p with
  | zero => omega
  | succ num ih =>
    obtain ⟨s', hs', hat⟩ := (enter_at h hdata).run_lines (by omega)
    rw [blockLoop, hs', Option.bind_some, hat.leave_eq, Streaming.absorb, block_take]
    split_ifs with hzero
    · subst hzero
      rfl
    · exact ih (by omega) hat.data (by rw [List.length_drop]; omega)

/-- CORRECT: the written-out rounds are those of the standard, block after block, whatever the registers and words
    held before. -/
theorem sha1BlockDataOrder_eq (junk : Locals) (h : Hash) {p : Bytes} {num : ℕ} (hnum : 0 < num)
    (hlen : 64 * num ≤ p.length) : sha1BlockDataOrder junk h p num = some (Streaming.absorb block 64 num h p) :=
  blockLoop_eq hnum rfl hlen

end Turkey.Sha1
