import Mathlib.Algebra.CharP.Two
import Mathlib.Algebra.Field.ZMod
import Mathlib.Data.Nat.Size
import Mathlib.RingTheory.AdjoinRoot

/-! Numbers as polynomials over the field of two elements: bit `i` is the coefficient of `X ^ i`. Exclusive or adds
    polynomials and a shift multiplies by a power of `X`. A word of `n` bits is a remainder modulo
    `X ^ n + irr`, where `irr` has `n` bits as well: what a shift pushes out of the word comes back as a multiple of
    `irr`. Two words that are equal in the quotient ring are the same remainder, so a loop that
    shifts and reduces is followed by calculating in this ring. -/

namespace Turkey.BinaryPoly
open Polynomial

/-- The bits of a number, as the coefficients of a polynomial. -/
noncomputable def poly (x : ℕ) : (ZMod 2)[X] :=
  ∑ i ∈ Finset.range x.size, if x.testBit i then X ^ i else 0

theorem testBit_of_size_le {x i : ℕ} (h : x.size ≤ i) : x.testBit i = false :=
  Nat.testBit_lt_two_pow (Nat.size_le.1 h)

theorem coeff_poly (x i : ℕ) : (poly x).coeff i = if x.testBit i then 1 else 0 := by
  have hterm : ∀ j, (if x.testBit j then (X : (ZMod 2)[X]) ^ j else 0).coeff i =
      if i = j then (if x.testBit i then 1 else 0) else 0 := by
    intro j
    split_ifs with hj hij hi hij hi
    · rw [hij, coeff_X_pow_self]
    · exact absurd (hij ▸ hj) hi
    · rw [coeff_X_pow, if_neg hij]
    · exact absurd (hij ▸ hi) hj
    · exact coeff_zero _
    · exact coeff_zero _
  rw [poly, finsetSum_coeff, Finset.sum_congr rfl fun j _ => hterm j, Finset.sum_ite_eq]
  split_ifs with hmem hi hi
  · rfl
  · rfl
  · rw [testBit_of_size_le (not_lt.1 fun h => hmem (Finset.mem_range.2 h))] at hi
    cases hi
  · rfl

@[simp] theorem poly_zero : poly 0 = 0 := by
  simp [poly]

@[simp] theorem poly_one : poly 1 = 1 := by
  ext i
  simp only [coeff_poly, coeff_one, Nat.testBit_one_eq_true_iff_self_eq_zero]

theorem poly_xor (x y : ℕ) : poly (x ^^^ y) = poly x + poly y := by
  ext i
  rw [coeff_add, coeff_poly, coeff_poly, coeff_poly, Nat.testBit_xor]
  cases x.testBit i <;> cases y.testBit i <;> decide

theorem poly_shiftLeft (x k : ℕ) : poly (x <<< k) = poly x * X ^ k := by
  ext i
  rw [coeff_mul_X_pow', coeff_poly, coeff_poly, Nat.testBit_shiftLeft]
  by_cases hk : k ≤ i
  · simp [hk]
  · simp [hk]

theorem degree_poly_lt {x n : ℕ} (h : x < 2 ^ n) : (poly x).degree < n := by
  rw [degree_lt_iff_coeff_zero]
  intro i hi
  rw [coeff_poly, Nat.testBit_lt_two_pow (h.trans_le (Nat.pow_le_pow_right (by decide) hi))]
  rfl

/-- The low bits of a number and what is above them. -/
theorem poly_eq_mod_add (x n : ℕ) : poly x = poly (x % 2 ^ n) + poly (x >>> n) * X ^ n := by
  rw [← poly_shiftLeft, ← poly_xor]
  refine congrArg poly (Nat.eq_of_testBit_eq fun i => ?_)
  rw [Nat.testBit_xor, Nat.testBit_mod_two_pow, Nat.testBit_shiftLeft, Nat.testBit_shiftRight]
  rcases Nat.lt_or_ge i n with hi | hi
  · simp [hi, Nat.not_le.2 hi]
  · simp [hi, Nat.not_lt.2 hi]

/-! ### Words as remainders -/

section Remainder
variable (n irr : ℕ)

/-- The polynomial that is divided by. -/
noncomputable def modulus : (ZMod 2)[X] := X ^ n + poly irr

/-- A number in the ring of the remainders. -/
noncomputable def remainder (x : ℕ) : AdjoinRoot (modulus n irr) := AdjoinRoot.mk (modulus n irr) (poly x)

/-- The variable, in the ring of the remainders. -/
noncomputable def root : AdjoinRoot (modulus n irr) := AdjoinRoot.root (modulus n irr)

variable {n irr}

theorem mk_X_pow (k : ℕ) : AdjoinRoot.mk (modulus n irr) (X ^ k) = root n irr ^ k := by
  rw [map_pow, AdjoinRoot.mk_X, root]

theorem remainder_zero : remainder n irr 0 = 0 := by
  rw [remainder, poly_zero, map_zero]

theorem remainder_one : remainder n irr 1 = 1 := by
  rw [remainder, poly_one, map_one]

theorem remainder_xor (a b : ℕ) : remainder n irr (a ^^^ b) = remainder n irr a + remainder n irr b := by
  rw [remainder, poly_xor, map_add, remainder, remainder]

theorem remainder_shiftLeft (a k : ℕ) : remainder n irr (a <<< k) = remainder n irr a * root n irr ^ k := by
  rw [remainder, poly_shiftLeft, map_mul, mk_X_pow, remainder]

theorem add_self (a : AdjoinRoot (modulus n irr)) : a + a = 0 := by
  have h : (2 : (ZMod 2)[X]) = 0 := CharTwo.two_eq_zero
  have h2 : (2 : AdjoinRoot (modulus n irr)) = 0 := by
    rw [← map_ofNat (AdjoinRoot.mk (modulus n irr)) 2, h, map_zero]
  rw [← two_mul, h2, zero_mul]

/-- The modulus itself vanishes. -/
theorem root_pow : root n irr ^ n = remainder n irr irr := by
  have h : AdjoinRoot.mk (modulus n irr) (X ^ n + poly irr) = 0 := AdjoinRoot.mk_self
  rw [map_add, mk_X_pow] at h
  calc root n irr ^ n = root n irr ^ n + (remainder n irr irr + remainder n irr irr) := by rw [add_self, add_zero]
    _ = remainder n irr irr := by rw [← add_assoc, show root n irr ^ n + remainder n irr irr = 0 from h, zero_add]

/-- A shift in a word: the bits that are pushed out count as multiples of the `n`-th power of the root. -/
theorem remainder_shiftLeft_mod {a k : ℕ} (hk : k ≤ n) :
    remainder n irr ((a <<< k) % 2 ^ n) = remainder n irr a * root n irr ^ k + remainder n irr
      (a >>> (n - k)) * root n irr ^ n := by
  have hhigh : (a <<< k) >>> n = a >>> (n - k) := by
    obtain ⟨m, rfl⟩ := Nat.exists_eq_add_of_le hk
    rw [Nat.shiftRight_add, Nat.shiftLeft_shiftRight, Nat.add_sub_cancel_left]
  have hsplit := congrArg (AdjoinRoot.mk (modulus n irr)) (poly_eq_mod_add (a <<< k) n)
  rw [map_add, map_mul, mk_X_pow, hhigh] at hsplit
  have hsum : remainder n irr a * root n irr ^ k =
      remainder n irr ((a <<< k) % 2 ^ n) + remainder n irr (a >>> (n - k)) * root n irr ^ n := by
    rw [← remainder_shiftLeft]
    exact hsplit
  rw [hsum, add_assoc, add_self, add_zero]

theorem modulus_monic (h : irr < 2 ^ n) : (modulus n irr).Monic := monic_X_pow_add (degree_poly_lt h)

theorem degree_modulus (h : irr < 2 ^ n) : (modulus n irr).degree = n := by
  rw [modulus, add_comm, degree_add_eq_right_of_degree_lt, degree_X_pow]
  rw [degree_X_pow]
  exact degree_poly_lt h

/-- A word is the remainder of everything that it is equal to in the quotient. -/
theorem poly_eq_modByMonic (h : irr < 2 ^ n) {a : ℕ} (ha : a < 2 ^ n) {p : (ZMod 2)[X]}
    (heq : remainder n irr a = AdjoinRoot.mk (modulus n irr) p) : poly a = p %ₘ modulus n irr := by
  have hself : poly a %ₘ modulus n irr = poly a := by
    rw [modByMonic_eq_self_iff (modulus_monic h), degree_modulus h]
    exact degree_poly_lt ha
  rw [← hself]
  exact modByMonic_eq_of_dvd_sub (modulus_monic h) (AdjoinRoot.mk_eq_mk.1 heq)

end Remainder

end Turkey.BinaryPoly
