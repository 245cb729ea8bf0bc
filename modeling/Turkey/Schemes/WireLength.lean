import Mathlib.Algebra.BigOperators.Ring.Finset
import Mathlib.Algebra.BigOperators.Group.Finset.Sigma
import Mathlib.Logic.Equiv.Basic
import Mathlib.Tactic.Ring

/-! Nets between the points of a finite set: `m x y` of them go from `x` to `y`, and `d x y` is the length of
    each. The wire length counts every net once, and is half of what the points pay for the nets at their
    ends. It is also known what happens to it when two points change places. -/

namespace Turkey.WireLength

variable {V : Type*} (s : Finset V) (m d : V → V → ℤ)

/-- The length of all nets. -/
def wireLength : ℤ := ∑ x ∈ s, ∑ y ∈ s, m x y * d x y

/-- The nets between two points, in both directions. -/
def between (x y : V) : ℤ := m x y + m y x

/-- What the nets of `x` would cost if `x` were where `z` is. -/
def costAt (x z : V) : ℤ := ∑ y ∈ s, between m x y * d z y

variable {d} (symm : ∀ x y, d x y = d y x)
include symm

theorem sum_costAt : ∑ x ∈ s, costAt s m d x x = 2 * wireLength s m d := by
  have converse : ∑ x ∈ s, ∑ y ∈ s, m y x * d x y = wireLength s m d := by
    rw [Finset.sum_comm, wireLength]
    refine Finset.sum_congr rfl fun x _ => Finset.sum_congr rfl fun y _ => ?_
    rw [symm]
  have split (x : V) : costAt s m d x x = ∑ y ∈ s, m x y * d x y + ∑ y ∈ s, m y x * d x y := by
    simp only [costAt, between, add_mul, Finset.sum_add_distrib]
  simp only [split, Finset.sum_add_distrib, converse]
  rw [wireLength, two_mul]

omit symm in
/-- A sum, with `a` and `b` apart. -/
theorem sum_pair [DecidableEq V] {a b : V} (ha : a ∈ s) (hb : b ∈ s) (hab : a ≠ b) (f : V → ℤ) :
    ∑ x ∈ s, f x = f a + f b + ∑ x ∈ (s.erase a).erase b, f x := by
  rw [← Finset.add_sum_erase s f ha, ← Finset.add_sum_erase (s.erase a) f (Finset.mem_erase.2 ⟨hab.symm, hb⟩),
    add_assoc]

omit symm in
/-- The nets between `a` and `b`, those from the two to the others, those from the others to the two, and
    those among the others. -/
theorem wireLength_pair [DecidableEq V] {a b : V} (ha : a ∈ s) (hb : b ∈ s) (hab : a ≠ b) :
    wireLength s m d = m a a * d a a + m a b * d a b + (m b a * d b a + m b b * d b b) +
      (∑ y ∈ (s.erase a).erase b, m a y * d a y + ∑ y ∈ (s.erase a).erase b, m b y * d b y) +
      (∑ x ∈ (s.erase a).erase b, m x a * d x a + ∑ x ∈ (s.erase a).erase b, m x b * d x b) +
      ∑ x ∈ (s.erase a).erase b, ∑ y ∈ (s.erase a).erase b, m x y * d x y := by
  simp only [wireLength, sum_pair s ha hb hab, Finset.sum_add_distrib]
  ring

theorem costAt_pair [DecidableEq V] {a b : V} (ha : a ∈ s) (hb : b ∈ s) (hab : a ≠ b) (x z : V) :
    costAt s m d x z = between m x a * d z a + between m x b * d z b +
      (∑ y ∈ (s.erase a).erase b, m x y * d z y + ∑ y ∈ (s.erase a).erase b, m y x * d y z) := by
  rw [costAt, sum_pair s ha hb hab, ← Finset.sum_add_distrib]
  congr 1
  refine Finset.sum_congr rfl fun y _ => ?_
  rw [between, add_mul, symm y z]

/-- When `a` and `b` change places, the wire length changes by what the two would pay in each other's place
    less what they pay in their own, except for the nets that have both ends in `a` and `b`: they are as
    long as before. -/
theorem wireLength_swap [DecidableEq V] {a b : V} (self : ∀ x, d x x = 0) (ha : a ∈ s) (hb : b ∈ s)
    (hab : a ≠ b) : wireLength s m (fun x y => d (Equiv.swap a b x) (Equiv.swap a b y)) = wireLength s m d +
      (costAt s m d a b - costAt s m d a a + (costAt s m d b a - costAt s m d b b)) -
        2 * (d a b * (m a a + m b b - (m a b + m b a))) := by
  have stays (f : V → V → ℤ) : ∑ x ∈ (s.erase a).erase b, f x (Equiv.swap a b x) =
      ∑ x ∈ (s.erase a).erase b, f x x := by
    refine Finset.sum_congr rfl fun x hx => ?_
    obtain ⟨hxb, hx⟩ := Finset.mem_erase.1 hx
    rw [Equiv.swap_apply_of_ne_of_ne (Finset.ne_of_mem_erase hx) hxb]
  rw [wireLength_pair s m ha hb hab, wireLength_pair s m ha hb hab]
  simp only [costAt_pair s m symm ha hb hab, Equiv.swap_apply_left, Equiv.swap_apply_right, self, symm b a, between]
  rw [stays fun y p => m a y * d b p, stays fun y p => m b y * d a p, stays fun x p => m x a * d p b,
    stays fun x p => m x b * d p a, stays fun x p => ∑ y ∈ (s.erase a).erase b, m x y * d p (Equiv.swap a b y)]
  have others (x : V) := stays fun y p => m x y * d x p
  simp only [others]
  ring

end Turkey.WireLength
