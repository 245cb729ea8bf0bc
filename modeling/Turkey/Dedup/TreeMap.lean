import Mathlib.Logic.Function.Basic
import Turkey.Dedup.Tree
import Turkey.Schemes.Objects

/-! Sequences of operations on the search tree of `Reorder` (`tree.c`). The tree and the global `pmin` together are a
    finite map, from keys to the elements that were inserted under them. `Reorder` only inserts keys
    that are not there and deletes keys that are; the other cases change nothing. -/

namespace Turkey.SearchTree
open Turkey.Objects
variable {α : Type}

/-- `pmin` and the tree after `TreeMakeEmpty`. -/
def treeMakeEmpty (pmin : Option (ℕ × α)) : Tree α → Option (ℕ × α) × Tree α
  | .nil => (pmin, .nil)
  | .node .. => (none, .nil)

/-- The operations on the tree. -/
inductive MapOp (α : Type) where
  | makeEmpty
  | insert (l1num : ℕ) (queue : α)
  | delete (l1num : ℕ)
  | find (value : ℕ)
  | findMin

/-- What an operation returns. -/
inductive MapReply (α : Type) where
  | done
  | found (queue : Option α)
  | least (element : Option (ℕ × α))

/-- An operation on `pmin` and the tree. -/
def step (s : Option (ℕ × α) × Tree α) : MapOp α → Option (MapReply α × (Option (ℕ × α) × Tree α))
  | .makeEmpty => some (.done, treeMakeEmpty s.1 s.2)
  | .insert l1num queue => some (.done, treeInsert l1num queue s.1 s.2)
  | .delete l1num => some (.done, treeDelete l1num s.1 s.2)
  | .find value => some (.found (treeFind value s.2), s)
  | .findMin => some (.least (treeFindMin s.1 s.2), s)

/-- What an operation does to the map. -/
def Does (m : ℕ → Option α) : MapOp α → MapReply α → (ℕ → Option α) → Prop
  | .makeEmpty, r, m' => r = .done ∧ m' = fun _ => none
  | .insert l1num queue, r, m' => r = .done ∧
      m' = if (m l1num).isSome then m else Function.update m l1num (some queue)
  | .delete l1num, r, m' => r = .done ∧ m' = Function.update m l1num none
  | .find value, r, m' => r = .found (m value) ∧ m' = m
  | .findMin, r, m' => m' = m ∧ ((∀ v, m v = none) ∧ r = .least none ∨
      ∃ k q, m k = some q ∧ (∀ v, (m v).isSome → k ≤ v) ∧ r = .least (some (k, q)))

/-- The tree is a search tree, and its elements are those of the map. -/
structure IsMap (s : Option (ℕ × α) × Tree α) (m : ℕ → Option α) : Prop where
  pmin : s.1 = none
  ordered : s.2.Ordered
  find : ∀ v, treeFind v s.2 = m v

/-- A key that is there already is left alone. -/
theorem treeInsert_of_find {k : ℕ} {q q' : α} : ∀ {t : Tree α}, treeFind k t = some q' →
    treeInsert k q none t = (none, t)
  | .nil, h => by cases h
  | .node left k' queue right, h => by
    rw [treeFind] at h
    rw [treeInsert]
    simp only [Option.filter_none]
    split_ifs at h ⊢ with h1 h2
    · rw [treeInsert_of_find h]
    · rw [treeInsert_of_find h]
    · rfl

namespace IsMap
variable {s : Option (ℕ × α) × Tree α} {m : ℕ → Option α}

theorem makeEmpty (h : IsMap s m) : IsMap (treeMakeEmpty s.1 s.2) fun _ => none := by
  obtain ⟨pmin, t⟩ := s
  cases t with
  | nil => exact ⟨h.pmin, trivial, fun _ => rfl⟩
  | node => exact ⟨rfl, trivial, fun _ => rfl⟩

theorem insert (h : IsMap s m) (k : ℕ) (q : α) :
    IsMap (treeInsert k q s.1 s.2) (if (m k).isSome then m else Function.update m k (some q)) := by
  rw [h.pmin]
  cases hk : m k with
  | some q' =>
    rw [treeInsert_of_find ((h.find k).trans hk), Option.isSome_some, if_pos rfl]
    exact ⟨rfl, h.ordered, h.find⟩
  | none =>
    rw [Option.isSome_none, if_neg (by simp)]
    refine ⟨treeInsert_pmin k q s.2, treeInsert_ordered k q h.ordered, fun v => ?_⟩
    rw [treeFind_treeInsert v ((h.find k).trans hk), h.find, Function.update_apply]

theorem delete (h : IsMap s m) (k : ℕ) : IsMap (treeDelete k s.1 s.2) (Function.update m k none) := by
  obtain ⟨hpmin, hdeleted⟩ := treeDelete_deleted k h.ordered
  rw [h.pmin]
  refine ⟨hpmin, hdeleted.ordered, fun v => ?_⟩
  rw [hdeleted.find, h.find, Function.update_apply]

theorem findMin (h : IsMap s m) : (∀ v, m v = none) ∧ treeFindMin s.1 s.2 = none ∨
    ∃ k q, m k = some q ∧ (∀ v, (m v).isSome → k ≤ v) ∧ treeFindMin s.1 s.2 = some (k, q) := by
  rw [h.pmin]
  cases hmin : treeFindMin none s.2 with
  | none =>
    refine .inl ⟨fun v => ?_, rfl⟩
    rw [← h.find, treeFindMin_eq_none.1 hmin, treeFind]
  | some kq =>
    obtain ⟨hfind, hall⟩ := treeFindMin_spec h.ordered hmin
    refine .inr ⟨kq.1, kq.2, (h.find _).symm.trans hfind, fun v hv => ?_, rfl⟩
    obtain ⟨q, hq⟩ := Option.isSome_iff_exists.1 hv
    exact treeFind_of_all hall ((h.find v).trans hq)

end IsMap

theorem step_refines : Refines step Does (IsMap (α := α)) := by
  intro s m op h
  cases op with
  | makeEmpty => exact ⟨_, _, _, rfl, ⟨rfl, rfl⟩, h.makeEmpty⟩
  | insert k q => exact ⟨_, _, _, rfl, ⟨rfl, rfl⟩, h.insert k q⟩
  | delete k => exact ⟨_, _, _, rfl, ⟨rfl, rfl⟩, h.delete k⟩
  | find v => exact ⟨_, _, _, rfl, ⟨by rw [h.find], rfl⟩, h⟩
  | findMin =>
    refine ⟨_, _, _, rfl, ⟨rfl, ?_⟩, h⟩
    rcases h.findMin with ⟨hempty, hmin⟩ | ⟨k, q, hk, hleast, hmin⟩
    · exact .inl ⟨hempty, by rw [hmin]⟩
    · exact .inr ⟨k, q, hk, hleast, by rw [hmin]⟩

/-- CORRECT: whatever is done to the empty tree, the replies are those of a finite map and of the least key in
    it, `pmin` is never set, and the tree is a search tree with the elements of the map. -/
theorem tree_map (ops : List (MapOp α)) : ∃ replies t m, run step (none, Tree.nil) ops = some (replies, t) ∧
    Allowed Does (fun _ => none) ops replies m ∧ t.1 = none ∧ t.2.Ordered ∧ ∀ v, treeFind v t.2 = m v := by
  have hstart : IsMap (none, (Tree.nil : Tree α)) fun _ => none := ⟨rfl, trivial, fun _ => rfl⟩
  obtain ⟨replies, t, m, hrun, hallowed, h⟩ := step_refines.run ops hstart
  exact ⟨replies, t, m, hrun, hallowed, h.pmin, h.ordered, h.find⟩

end Turkey.SearchTree
