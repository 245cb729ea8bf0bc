import Mathlib.Data.Finset.Basic
import Mathlib.Data.Set.Basic
import Mathlib.Data.Set.BooleanAlgebra
import Mathlib.Data.Set.Disjoint
import Mathlib.Order.CompletePartialOrder
import Mathlib.Order.Disjoint

/-! Families of disjoint parts of a set.

    `Packed I f X` says that the sets `f i` for `i` in `I` are parts of `X` of which no two meet, and
    `Covered I f X` that together they are all of `X`. A part can be cut in two (`Packed.cut`,
    `Covered.cut`) and taken out of the family (`Packed.erase`). -/

namespace Turkey.Packing
variable {ι α : Type*} [DecidableEq ι] {I : Finset ι} {f g : ι → Set α} {X : Set α} {i j : ι}

/-- The sets of the family are parts of `X` and no two of them meet. -/
structure Packed (I : Finset ι) (f : ι → Set α) (X : Set α) : Prop where
  inside : ∀ i ∈ I, f i ⊆ X
  disjoint : ∀ i ∈ I, ∀ j ∈ I, i ≠ j → Disjoint (f i) (f j)

/-- Every element of `X` is in a set of the family. -/
def Covered (I : Finset ι) (f : ι → Set α) (X : Set α) : Prop := ∀ x ∈ X, ∃ i ∈ I, x ∈ f i

omit [DecidableEq ι] in
theorem packed_singleton (f : ι → Set α) (i : ι) : Packed {i} f (f i) where
  inside k hk := by rw [Finset.mem_singleton.mp hk]
  disjoint k hk l hl hne := absurd (by rw [Finset.mem_singleton.mp hk, Finset.mem_singleton.mp hl]) hne

omit [DecidableEq ι] in
theorem covered_singleton (f : ι → Set α) (i : ι) : Covered {i} f (f i) :=
  fun _ hx => ⟨i, Finset.mem_singleton_self i, hx⟩

omit [DecidableEq ι] in
theorem Packed.congr (h : Packed I f X) (hg : ∀ k ∈ I, g k = f k) : Packed I g X where
  inside k hk := hg k hk ▸ h.inside k hk
  disjoint k hk l hl hne := by
    rw [hg k hk, hg l hl]
    exact h.disjoint k hk l hl hne

omit [DecidableEq ι] in
theorem Covered.congr (h : Covered I f X) (hg : ∀ k ∈ I, g k = f k) : Covered I g X := by
  intro x hx
  obtain ⟨k, hk, hmem⟩ := h x hx
  exact ⟨k, hk, hg k hk ▸ hmem⟩

theorem Packed.erase (h : Packed I f X) (i : ι) : Packed (I.erase i) f X where
  inside k hk := h.inside k (Finset.mem_of_mem_erase hk)
  disjoint k hk l hl := h.disjoint k (Finset.mem_of_mem_erase hk) l (Finset.mem_of_mem_erase hl)

/-- A part is cut in two: the second piece gets a name of its own. -/
theorem Packed.cut (h : Packed I f X) (hi : i ∈ I) (hj : j ∉ I) (hunion : g i ∪ g j = f i)
    (hapart : Disjoint (g i) (g j)) (hrest : ∀ k ∈ I, k ≠ i → g k = f k) :
    Packed (insert j I) g X := by
  have hgi : g i ⊆ f i := hunion ▸ Set.subset_union_left
  have hgj : g j ⊆ f i := hunion ▸ Set.subset_union_right
  -- every piece lies in the part it comes from
  have hold : ∀ k ∈ I, g k ⊆ f k := by
    intro k hk
    rcases eq_or_ne k i with rfl | hne
    · exact hgi
    · exact (hrest k hk hne).subset
  have hnew : ∀ k ∈ I, Disjoint (g k) (g j) := by
    intro k hk
    rcases eq_or_ne k i with rfl | hne
    · exact hapart
    · exact (h.disjoint k hk i hi hne).mono (hold k hk) hgj
  constructor
  · intro k hk
    rcases Finset.mem_insert.mp hk with rfl | hk
    · exact hgj.trans (h.inside i hi)
    · exact (hold k hk).trans (h.inside k hk)
  · intro k hk l hl hne
    rcases Finset.mem_insert.mp hk with rfl | hk'
    · rcases Finset.mem_insert.mp hl with rfl | hl'
      · exact absurd rfl hne
      · exact (hnew l hl').symm
    · rcases Finset.mem_insert.mp hl with rfl | hl'
      · exact hnew k hk'
      · exact (h.disjoint k hk' l hl' hne).mono (hold k hk') (hold l hl')

theorem Covered.cut (h : Covered I f X) (hi : i ∈ I) (hunion : g i ∪ g j = f i)
    (hrest : ∀ k ∈ I, k ≠ i → g k = f k) : Covered (insert j I) g X := by
  intro x hx
  obtain ⟨k, hk, hmem⟩ := h x hx
  rcases eq_or_ne k i with rfl | hne
  · rcases hunion.symm ▸ hmem with hmem | hmem
    · exact ⟨k, Finset.mem_insert_of_mem hi, hmem⟩
    · exact ⟨j, Finset.mem_insert_self j I, hmem⟩
  · exact ⟨k, Finset.mem_insert_of_mem hk, (hrest k hk hne).symm ▸ hmem⟩

end Turkey.Packing
