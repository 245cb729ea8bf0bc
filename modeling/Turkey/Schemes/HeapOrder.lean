import Mathlib.Logic.Function.Basic
import Mathlib.Order.Basic
import Mathlib.Order.Lattice

/-! Binary heaps with a hole.

    Positions 1 to `n` of an array form a binary tree in which `i / 2` is the parent of `i`. While an
    element percolates, one position is a hole: `Rising` says what holds of the other positions on
    the way up, `Sinking` on the way down. Each has a lemma for one level (`up`, `down`) and a lemma
    `place` for putting the element into the hole. -/

namespace Turkey.HeapOrder
variable {κ : Type*} [LinearOrder κ] {n : ℕ}

/-- No key is less than that of its parent. -/
def Ordered (n : ℕ) (key : ℕ → κ) : Prop := ∀ i, 2 ≤ i → i ≤ n → key (i / 2) ≤ key i

/-- The root of an ordered heap has the least key. -/
theorem Ordered.root_le {key : ℕ → κ} (h : Ordered n key) (i : ℕ) (h1 : 1 ≤ i) (hn : i ≤ n) :
    key 1 ≤ key i := by
  induction i using Nat.strongRecOn with
  | _ i ih =>
    by_cases hi : i = 1
    · rw [hi]
    · exact (ih (i / 2) (by omega) (by omega) (by omega)).trans (h i (by omega) hn)

/-- The pairs that do not touch the hole are in order. -/
def OrderedBut (n : ℕ) (key : ℕ → κ) (hole : ℕ) : Prop :=
  ∀ i, 2 ≤ i → i ≤ n → i ≠ hole → i / 2 ≠ hole → key (i / 2) ≤ key i

/-- On the way up: the children of the hole are not below its parent, nor below the element. -/
structure Rising (n : ℕ) (key : ℕ → κ) (hole : ℕ) (x : κ) : Prop where
  others : OrderedBut n key hole
  across : 2 ≤ hole → ∀ c, c / 2 = hole → c ≤ n → key (hole / 2) ≤ key c
  under : ∀ c, c / 2 = hole → c ≤ n → x ≤ key c

theorem Rising.up {key : ℕ → κ} {hole : ℕ} {x : κ} (h : Rising n key hole x) (h2 : 2 ≤ hole)
    (hn : hole ≤ n) (hx : x ≤ key (hole / 2)) :
    Rising n (Function.update key hole (key (hole / 2))) (hole / 2) x := by
  have hpar : 2 ≤ hole / 2 → key (hole / 2 / 2) ≤ key (hole / 2) := fun h4 =>
    h.others (hole / 2) h4 (by omega) (by omega) (by omega)
  -- the other child of the parent
  have hsib : ∀ c, c / 2 = hole / 2 → c ≤ n → c ≠ hole → key (hole / 2) ≤ key c := by
    intro c hc hcn hne
    have := h.others c (by omega) hcn hne (by omega)
    rwa [hc] at this
  refine ⟨fun i hi hin hne hpne => ?_, fun h4 c hc hcn => ?_, fun c hc hcn => ?_⟩
  · have hih : i ≠ hole := fun he => hpne (by rw [he])
    rw [Function.update_of_ne hih]
    by_cases hp : i / 2 = hole
    · rw [hp, Function.update_self]
      exact h.across h2 i hp hin
    · rw [Function.update_of_ne hp]
      exact h.others i hi hin hih hp
  · rw [Function.update_of_ne (by omega : hole / 2 / 2 ≠ hole)]
    by_cases hch : c = hole
    · rw [hch, Function.update_self]
      exact hpar h4
    · rw [Function.update_of_ne hch]
      exact (hpar h4).trans (hsib c hc hcn hch)
  · by_cases hch : c = hole
    · rwa [hch, Function.update_self]
    · rw [Function.update_of_ne hch]
      exact hx.trans (hsib c hc hcn hch)

theorem Rising.place {key : ℕ → κ} {hole : ℕ} {x : κ} (h : Rising n key hole x)
    (hstop : 2 ≤ hole → key (hole / 2) ≤ x) : Ordered n (Function.update key hole x) := by
  intro i hi hin
  by_cases hih : i = hole
  · subst hih
    rw [Function.update_self, Function.update_of_ne (by omega : i / 2 ≠ i)]
    exact hstop hi
  · rw [Function.update_of_ne hih]
    by_cases hp : i / 2 = hole
    · rw [hp, Function.update_self]
      exact h.under i hp hin
    · rw [Function.update_of_ne hp]
      exact h.others i hi hin hih hp

/-- On the way down: neither the element nor the children of the hole are below its parent. -/
structure Sinking (n : ℕ) (key : ℕ → κ) (hole : ℕ) (x : κ) : Prop where
  others : OrderedBut n key hole
  across : 2 ≤ hole → ∀ c, c / 2 = hole → c ≤ n → key (hole / 2) ≤ key c
  above : 2 ≤ hole → key (hole / 2) ≤ x

theorem Sinking.down {key : ℕ → κ} {hole child : ℕ} {x : κ} (h : Sinking n key hole x)
    (h1 : 1 ≤ hole) (hc : child / 2 = hole) (hcn : child ≤ n)
    (hmin : ∀ c, c / 2 = hole → c ≤ n → key child ≤ key c) (hx : key child ≤ x) :
    Sinking n (Function.update key hole (key child)) child x := by
  refine ⟨fun i hi hin hne hpne => ?_, fun _ c hcc hccn => ?_, fun _ => ?_⟩
  · by_cases hih : i = hole
    · subst hih
      rw [Function.update_self, Function.update_of_ne (by omega : i / 2 ≠ i)]
      exact h.across hi child hc hcn
    · rw [Function.update_of_ne hih]
      by_cases hp : i / 2 = hole
      · rw [hp, Function.update_self]
        exact hmin i hp hin
      · rw [Function.update_of_ne hp]
        exact h.others i hi hin hih hp
  · rw [hc, Function.update_self, Function.update_of_ne (by omega : c ≠ hole)]
    have := h.others c (by omega) hccn (by omega) (by omega)
    rwa [hcc] at this
  · rw [hc, Function.update_self]
    exact hx

theorem Sinking.place {key : ℕ → κ} {hole : ℕ} {x : κ} (h : Sinking n key hole x)
    (hstop : ∀ c, c / 2 = hole → c ≤ n → x ≤ key c) : Ordered n (Function.update key hole x) := by
  intro i hi hin
  by_cases hih : i = hole
  · subst hih
    rw [Function.update_self, Function.update_of_ne (by omega : i / 2 ≠ i)]
    exact h.above hi
  · rw [Function.update_of_ne hih]
    by_cases hp : i / 2 = hole
    · rw [hp, Function.update_self]
      exact hstop i hp hin
    · rw [Function.update_of_ne hp]
      exact h.others i hi hin hih hp

end Turkey.HeapOrder
