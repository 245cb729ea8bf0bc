import Mathlib.Algebra.BigOperators.Group.Finset.Basic
import Mathlib.Data.Fintype.Basic

/-! Counting over a family of parties.

    What a system of parties holds is a sum over the parties. A step changes one party, so it is
    enough to know what the step does to that party's own share. The share is a number where one item
    is counted, and a multiset where all of them are. -/

namespace Turkey.Tally
variable {ι α M : Type*} [Fintype ι] [DecidableEq ι] [AddCommMonoid M]

/-- Replacing one party's state replaces its share of the sum. -/
theorem sum_update (F : ι → α → M) (g : ι → α) (i : ι) (x : α) :
    ∑ k, F k (Function.update g i x k) + F i (g i) = ∑ k, F k (g k) + F i x := by
  have hrest : ∑ k ∈ Finset.univ.erase i, F k (Function.update g i x k) =
      ∑ k ∈ Finset.univ.erase i, F k (g k) := by
    refine Finset.sum_congr rfl fun k hk => ?_
    rw [Function.update_of_ne (Finset.ne_of_mem_erase hk)]
  rw [← Finset.add_sum_erase Finset.univ (fun k => F k (Function.update g i x k)) (Finset.mem_univ i),
    ← Finset.add_sum_erase Finset.univ (fun k => F k (g k)) (Finset.mem_univ i), hrest,
    Function.update_self, add_right_comm, add_comm (F i x), add_right_comm, add_comm (F i (g i))]

/-- A step that moves `m` from one party to what is outside the sum, or the other way. -/
theorem sum_update_of_add {F : α → ℕ} {g : ι → α} {i : ι} {x : α} {m n : ℕ}
    (h : F x + m = F (g i) + n) :
    ∑ k, F (Function.update g i x k) + m = ∑ k, F (g k) + n := by
  have hsum := sum_update (fun _ => F) g i x
  omega

end Turkey.Tally
