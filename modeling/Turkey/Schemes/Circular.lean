import Mathlib.Data.List.Basic
import Mathlib.Data.Nat.ModEq
import Mathlib.Logic.Function.Basic

/-! A list in a circular array: its elements lie one behind the other from `start` on, and behind the last of the `m`
    slots it goes on at the first one. The list is shorter than the array, so that the place behind
    its end tells an empty array from a full one. -/

namespace Turkey.Circular
variable {α : Type*} {m start : ℕ} {data : ℕ → Option α} {q : List α}

/-- The elements stand one after the other from `start`, around the end of the array. -/
structure Holds (m : ℕ) (data : ℕ → Option α) (start : ℕ) (q : List α) : Prop where
  start_lt : start < m
  length_lt : q.length < m
  data : ∀ j < q.length, data ((start + j) % m) = q[j]?

/-- The place behind the last element. -/
def finish (m start : ℕ) (q : List α) : ℕ := (start + q.length) % m

theorem mod_inj {i j : ℕ} (hi : i < m) (hj : j < m) (h : (start + i) % m = (start + j) % m) : i = j := by
  have hmod : i % m = j % m := Nat.ModEq.add_left_cancel' start h
  rwa [Nat.mod_eq_of_lt hi, Nat.mod_eq_of_lt hj] at hmod

theorem succ_mod {i : ℕ} (h : i < m) : (i + 1) % m = if i + 1 = m then 0 else i + 1 := by
  split_ifs with heq
  · rw [heq, Nat.mod_self]
  · exact Nat.mod_eq_of_lt (by omega)

theorem Holds.nil (h : 0 < m) : Holds m data 0 [] := ⟨h, h, fun j hj => absurd hj (Nat.not_lt_zero j)⟩

theorem Holds.finish_lt (h : Holds m data start q) : finish m start q < m :=
  Nat.mod_lt _ (Nat.zero_lt_of_lt h.start_lt)

theorem Holds.eq_finish_iff (h : Holds m data start q) : start = finish m start q ↔ q = [] := by
  constructor
  · intro heq
    have hstart : (start + 0) % m = (start + q.length) % m := (Nat.mod_eq_of_lt h.start_lt).trans heq
    exact List.length_eq_zero_iff.1 (mod_inj (Nat.zero_lt_of_lt h.start_lt) h.length_lt hstart).symm
  · rintro rfl
    exact (Nat.mod_eq_of_lt h.start_lt).symm

/-- All but one of the slots are taken. -/
theorem Holds.finish_eq_iff (h : Holds m data start q) : finish m start q = (start + (m - 1)) % m ↔
    q.length + 1 = m := by
  have hlt := h.length_lt
  constructor
  · intro heq
    have := mod_inj hlt (by omega) heq
    omega
  · intro hfull
    rw [finish]
    congr 2
    omega

theorem Holds.head (h : Holds m data start q) : q ≠ [] → data start = q.head? := by
  intro hne
  have hpos := List.length_pos_iff.2 hne
  have hdata := h.data 0 hpos
  rwa [Nat.add_zero, Nat.mod_eq_of_lt h.start_lt, ← List.head?_eq_getElem?] at hdata

/-- The first element is dropped. -/
theorem Holds.tail (h : Holds m data start q) (hne : q ≠ []) : Holds m data ((start + 1) % m) q.tail ∧
    finish m ((start + 1) % m) q.tail = finish m start q := by
  obtain ⟨x, q, rfl⟩ := List.exists_cons_of_ne_nil hne
  have hlen := h.length_lt
  rw [List.length_cons] at hlen
  have hshift : ∀ j, ((start + 1) % m + j) % m = (start + (j + 1)) % m := fun j => by
    rw [Nat.mod_add_mod, Nat.add_assoc, Nat.add_comm 1 j]
  refine ⟨⟨Nat.mod_lt _ (by omega), by rw [List.tail_cons]; omega, fun j hj => ?_⟩, ?_⟩
  · rw [hshift, h.data (j + 1) (Nat.succ_lt_succ hj), List.tail_cons, List.getElem?_cons_succ]
  · rw [finish, hshift, finish, List.tail_cons, List.length_cons]

/-- An element is put behind the last one. -/
theorem Holds.concat (h : Holds m data start q) (room : q.length + 1 < m) (x : α) :
    Holds m (Function.update data (finish m start q) (some x)) start (q ++ [x]) ∧
      finish m start (q ++ [x]) = (finish m start q + 1) % m := by
  refine ⟨⟨h.start_lt, by rwa [List.length_append, List.length_singleton], fun j hj => ?_⟩, ?_⟩
  · rw [List.length_append, List.length_singleton] at hj
    rcases Nat.lt_succ_iff_lt_or_eq.1 hj with hlt | rfl
    · have hne : (start + j) % m ≠ finish m start q := fun heq =>
        absurd (mod_inj (hlt.trans h.length_lt) h.length_lt heq) hlt.ne
      rw [Function.update_of_ne hne, h.data j hlt, List.getElem?_append_left hlt]
    · rw [finish, Function.update_self, List.getElem?_concat_length]
  · rw [finish, finish, List.length_append, List.length_singleton, Nat.mod_add_mod, Nat.add_assoc]

end Turkey.Circular
