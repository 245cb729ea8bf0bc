import Mathlib.Data.Nat.Basic
import Mathlib.Data.Option.Basic

/-! `tree.c`: the search tree in which `Reorder` keeps one priority queue for each coarse chunk that
    has fine chunks waiting. The nodes are ordered by `l1num`. The functions look at a global pointer
    `pmin` that is meant to cache the least node; it starts as `NULL` and is only ever set to `NULL`,
    so the theorems below are about `pmin = none`. -/

namespace Turkey.SearchTree
variable {α : Type*}

/-- `TreeNode`, with `nil` for `NULL`. -/
inductive Tree (α : Type*) where
  | nil
  | node (left : Tree α) (l1num : ℕ) (queue : α) (right : Tree α)

def Tree.isNil : Tree α → Bool
  | .nil => true
  | .node .. => false

/-- The queue of the node that `TreeFind` returns. -/
def treeFind (value : ℕ) : Tree α → Option α
  | .nil => none
  | .node left l1num queue right =>
    if value < l1num then treeFind value left
    else if l1num < value then treeFind value right
    else some queue

/-- A change of the queue of the node that `TreeFind` returns, made through the pointer to the node. -/
def treeUpdate (value : ℕ) (f : α → α) : Tree α → Tree α
  | .nil => .nil
  | .node left l1num queue right =>
    if value < l1num then .node (treeUpdate value f left) l1num queue right
    else if l1num < value then .node left l1num queue (treeUpdate value f right)
    else .node left l1num (f queue) right

/-- The element of the node that `TreeFindMin` returns. -/
def treeFindMin (pmin : Option (ℕ × α)) : Tree α → Option (ℕ × α)
  | .nil => pmin
  | .node left l1num queue _ =>
    match pmin with
    | some p => some p
    | none =>
      match left with
      | .nil => some (l1num, queue)
      | .node .. => treeFindMin none left

/-- `pmin` and the tree after `TreeInsert`; a key that is there already is left alone. -/
def treeInsert (l1num : ℕ) (queue : α) (pmin : Option (ℕ × α)) :
    Tree α → Option (ℕ × α) × Tree α
  | .nil => (pmin.filter fun p => ¬l1num < p.1, .node .nil l1num queue .nil)
  | .node left l1num' queue' right =>
    let pmin := pmin.filter fun p => ¬l1num < p.1
    if l1num < l1num' then
      let (pmin, left) := treeInsert l1num queue pmin left
      (pmin, .node left l1num' queue' right)
    else if l1num' < l1num then
      let (pmin, right) := treeInsert l1num queue pmin right
      (pmin, .node left l1num' queue' right)
    else (pmin, .node left l1num' queue' right)

/-- `pmin` and the tree after `TreeDelete`. -/
def treeDelete (l1num : ℕ) (pmin : Option (ℕ × α)) : Tree α → Option (ℕ × α) × Tree α
  | .nil => (pmin.filter fun p => l1num ≠ p.1, .nil)
  | .node left l1num' queue' right =>
    let pmin := pmin.filter fun p => l1num ≠ p.1
    if l1num < l1num' then
      let (pmin, left) := treeDelete l1num pmin left
      (pmin, .node left l1num' queue' right)
    else if l1num' < l1num then
      let (pmin, right) := treeDelete l1num pmin right
      (pmin, .node left l1num' queue' right)
    else if ¬left.isNil ∧ ¬right.isNil then
      -- two children: the smallest of the right subtree takes the place
      match treeFindMin pmin right with
      | none => (pmin, .node left l1num' queue' right)
      | some (k, q) =>
        let (pmin, right) := treeDelete k pmin right
        (pmin, .node left k q right)
    else if left.isNil then (pmin, right)
    else (pmin, left)

/-! ### Search trees -/

def Tree.All (p : ℕ → Prop) : Tree α → Prop
  | .nil => True
  | .node left k _ right => p k ∧ left.All p ∧ right.All p

def Tree.Ordered : Tree α → Prop
  | .nil => True
  | .node left k _ right => left.All (· < k) ∧ right.All (k < ·) ∧ left.Ordered ∧ right.Ordered

theorem Tree.All.imp {p q : ℕ → Prop} (h : ∀ k, p k → q k) : ∀ {t : Tree α}, t.All p → t.All q
  | .nil, _ => trivial
  | .node _ _ _ _, ⟨hk, hl, hr⟩ => ⟨h _ hk, hl.imp h, hr.imp h⟩

theorem treeFind_of_all {p : ℕ → Prop} {v : ℕ} {q : α} : ∀ {t : Tree α}, t.All p →
    treeFind v t = some q → p v
  | .nil, _, h => by cases h
  | .node left k queue right, ⟨hk, hl, hr⟩, h => by
      rw [treeFind] at h
      split at h
      · exact treeFind_of_all hl h
      · split at h
        · exact treeFind_of_all hr h
        · rename_i h1 h2
          exact (by omega : v = k) ▸ hk

theorem treeFind_eq_none_of_all {p : ℕ → Prop} {v : ℕ} {t : Tree α} (h : t.All p) (hv : ¬p v) :
    treeFind v t = none := by
  cases hf : treeFind v t with
  | none => rfl
  | some q => exact absurd (treeFind_of_all h hf) hv

/-- In a search tree a property of every key is one of every key that is found. -/
theorem all_of_treeFind {p : ℕ → Prop} : ∀ {t : Tree α}, t.Ordered →
    (∀ v q, treeFind v t = some q → p v) → t.All p
  | .nil, _, _ => trivial
  | .node left k queue right, ⟨hl, hr, hol, hor⟩, h => by
      refine ⟨h k queue (by simp [treeFind]), all_of_treeFind hol fun v q hv => h v q ?_,
        all_of_treeFind hor fun v q hv => h v q ?_⟩
      · rw [treeFind, if_pos (treeFind_of_all hl hv), hv]
      · have hlt := treeFind_of_all hr hv
        rw [treeFind, if_neg (by omega), if_pos hlt, hv]

/-! ### TreeFindMin -/

theorem treeFindMin_eq_none : ∀ {t : Tree α}, treeFindMin none t = none ↔ t = .nil
  | .nil => by simp [treeFindMin]
  | .node .nil k q right => by simp [treeFindMin]
  | .node (.node a b c d) k q right => by
      rw [treeFindMin]
      simp [treeFindMin_eq_none]

/-- `TreeFindMin` finds the least key. -/
theorem treeFindMin_spec {k : ℕ} {q : α} : ∀ {t : Tree α}, t.Ordered → treeFindMin none t = some (k, q) →
    treeFind k t = some q ∧ t.All (k ≤ ·)
  | .nil, _, h => by cases h
  | .node .nil k' q' right, ⟨_, hr, _, _⟩, h => by
      simp only [treeFindMin, Option.some.injEq, Prod.mk.injEq] at h
      obtain ⟨rfl, rfl⟩ := h
      exact ⟨by simp [treeFind], le_rfl, trivial, hr.imp fun _ h => Nat.le_of_lt h⟩
  | .node (.node a b c d) k' q' right, ⟨hl, hr, hol, hor⟩, h => by
      rw [treeFindMin] at h
      obtain ⟨hf, hall⟩ := treeFindMin_spec hol h
      have hlt : k < k' := treeFind_of_all (p := (· < k')) hl hf
      refine ⟨by rw [treeFind, if_pos hlt, hf], Nat.le_of_lt hlt, hall, hr.imp fun v hv => ?_⟩
      omega

/-! ### TreeInsert -/

theorem treeInsert_pmin (k : ℕ) (q : α) : ∀ t : Tree α, (treeInsert k q none t).1 = none
  | .nil => rfl
  | .node left k' q' right => by
      rw [treeInsert]
      simp only [Option.filter_none]
      split
      · exact treeInsert_pmin k q left
      · split
        · exact treeInsert_pmin k q right
        · rfl

theorem treeFind_treeInsert {k : ℕ} {q : α} (v : ℕ) : ∀ {t : Tree α}, treeFind k t = none →
    treeFind v (treeInsert k q none t).2 = if v = k then some q else treeFind v t
  | .nil, _ => by
      simp only [treeInsert, treeFind]
      split_ifs <;> first | rfl | omega
  | .node left k' q' right, h => by
      rw [treeFind] at h
      rw [treeInsert]
      simp only [Option.filter_none]
      by_cases h1 : k < k'
      · rw [if_pos h1] at h
        simp only [if_pos h1, treeFind, treeFind_treeInsert v h]
        split_ifs <;> first | rfl | omega
      · rw [if_neg h1] at h
        by_cases h2 : k' < k
        · rw [if_pos h2] at h
          simp only [if_neg h1, if_pos h2, treeFind, treeFind_treeInsert v h]
          split_ifs <;> first | rfl | omega
        · simp [if_neg h2] at h

theorem treeInsert_all {p : ℕ → Prop} {k : ℕ} {q : α} (hk : p k) : ∀ {t : Tree α}, t.All p →
    (treeInsert k q none t).2.All p
  | .nil, _ => ⟨hk, trivial, trivial⟩
  | .node left k' q' right, ⟨hk', hl, hr⟩ => by
      rw [treeInsert]
      simp only [Option.filter_none]
      split_ifs
      · exact ⟨hk', treeInsert_all hk hl, hr⟩
      · exact ⟨hk', hl, treeInsert_all hk hr⟩
      · exact ⟨hk', hl, hr⟩

theorem treeInsert_ordered (k : ℕ) (q : α) : ∀ {t : Tree α}, t.Ordered → (treeInsert k q none t).2.Ordered
  | .nil, _ => ⟨trivial, trivial, trivial, trivial⟩
  | .node left k' q' right, ⟨hl, hr, hol, hor⟩ => by
      rw [treeInsert]
      simp only [Option.filter_none]
      split_ifs with h1 h2
      · exact ⟨treeInsert_all (p := (· < k')) h1 hl, hr, treeInsert_ordered k q hol, hor⟩
      · exact ⟨hl, treeInsert_all h2 hr, hol, treeInsert_ordered k q hor⟩
      · exact ⟨hl, hr, hol, hor⟩

/-! ### A queue that is changed in place -/

theorem treeFind_treeUpdate (k : ℕ) (f : α → α) (v : ℕ) : ∀ t : Tree α,
    treeFind v (treeUpdate k f t) = if v = k then (treeFind v t).map f else treeFind v t
  | .nil => by simp [treeUpdate, treeFind]
  | .node left k' q' right => by
      rw [treeUpdate]
      by_cases h1 : k < k'
      · simp only [if_pos h1, treeFind, treeFind_treeUpdate k f v left]
        split_ifs <;> first | rfl | omega
      · by_cases h2 : k' < k
        · simp only [if_neg h1, if_pos h2, treeFind, treeFind_treeUpdate k f v right]
          split_ifs <;> first | rfl | omega
        · simp only [if_neg h1, if_neg h2, treeFind]
          split_ifs <;> first | rfl | omega

theorem treeUpdate_all {p : ℕ → Prop} {k : ℕ} {f : α → α} : ∀ {t : Tree α}, t.All p →
    (treeUpdate k f t).All p
  | .nil, _ => trivial
  | .node left k' q' right, ⟨hk', hl, hr⟩ => by
      rw [treeUpdate]
      split_ifs
      · exact ⟨hk', treeUpdate_all hl, hr⟩
      · exact ⟨hk', hl, treeUpdate_all hr⟩
      · exact ⟨hk', hl, hr⟩

theorem treeUpdate_ordered (k : ℕ) (f : α → α) : ∀ {t : Tree α}, t.Ordered → (treeUpdate k f t).Ordered
  | .nil, _ => trivial
  | .node left k' q' right, ⟨hl, hr, hol, hor⟩ => by
      rw [treeUpdate]
      split_ifs
      · exact ⟨treeUpdate_all hl, hr, treeUpdate_ordered k f hol, hor⟩
      · exact ⟨hl, treeUpdate_all hr, hol, treeUpdate_ordered k f hor⟩
      · exact ⟨hl, hr, hol, hor⟩

/-! ### TreeDelete -/

/-- What deleting a key does to a tree: the result is a search tree, with the same entries but that
    one. -/
structure Deleted (k : ℕ) (t t' : Tree α) : Prop where
  ordered : t'.Ordered
  find : ∀ v, treeFind v t' = if v = k then none else treeFind v t

theorem Deleted.all {k : ℕ} {t t' : Tree α} (h : Deleted k t t') {p : ℕ → Prop} (hp : t.All p) :
    t'.All fun v => p v ∧ v ≠ k := by
  refine all_of_treeFind h.ordered fun v q hv => ?_
  rw [h.find] at hv
  split at hv
  · cases hv
  · rename_i hne
    exact ⟨treeFind_of_all hp hv, hne⟩

theorem treeDelete_deleted (k : ℕ) : ∀ {t : Tree α}, t.Ordered →
    (treeDelete k none t).1 = none ∧ Deleted k t (treeDelete k none t).2
  | .nil, _ => ⟨rfl, trivial, fun v => by simp [treeDelete, treeFind]⟩
  | .node left k' q' right, ⟨hl, hr, hol, hor⟩ => by
      rw [treeDelete]
      simp only [Option.filter_none]
      by_cases h1 : k < k'
      · obtain ⟨hp, hd⟩ := treeDelete_deleted k hol
        simp only [if_pos h1]
        refine ⟨hp, ⟨(hd.all hl).imp fun _ h => h.1, hr, hd.ordered, hor⟩, fun v => ?_⟩
        simp only [treeFind, hd.find v]
        split_ifs <;> first | rfl | omega
      · by_cases h2 : k' < k
        · obtain ⟨hp, hd⟩ := treeDelete_deleted k hor
          simp only [if_neg h1, if_pos h2]
          refine ⟨hp, ⟨hl, (hd.all hr).imp fun _ h => h.1, hol, hd.ordered⟩, fun v => ?_⟩
          simp only [treeFind, hd.find v]
          split_ifs <;> first | rfl | omega
        · obtain rfl : k = k' := by omega
          simp only [if_neg h1]
          have hleft : ∀ v, k ≤ v → treeFind v left = none := fun v hv =>
            treeFind_eq_none_of_all hl (by omega)
          have hright : ∀ v, v ≤ k → treeFind v right = none := fun v hv =>
            treeFind_eq_none_of_all hr (by omega)
          by_cases hnil : ¬left.isNil ∧ ¬right.isNil
          · rw [if_pos hnil]
            cases hmin : treeFindMin none right with
            | none =>
              rw [treeFindMin_eq_none.mp hmin] at hnil
              exact absurd rfl hnil.2
            | some kq =>
              obtain ⟨k', q⟩ := kq
              obtain ⟨hfind, hall⟩ := treeFindMin_spec hor hmin
              obtain ⟨hp, hd⟩ := treeDelete_deleted k' hor
              have hlt : k < k' := treeFind_of_all (p := (k < ·)) hr hfind
              refine ⟨hp, ⟨hl.imp fun v hv => ?_, (hd.all hall).imp fun v hv => ?_, hol, hd.ordered⟩,
                fun v => ?_⟩
              · omega
              · omega
              · simp only [treeFind, hd.find v]
                by_cases hvk : v < k
                · rw [if_pos (by omega), if_neg (by omega), if_pos hvk]
                · rcases Nat.lt_trichotomy v k' with h3 | h3 | h3
                  · rw [if_pos h3, hleft v (by omega), if_neg hvk]
                    split_ifs with h4 h5
                    · rfl
                    · exact (treeFind_eq_none_of_all hall (by omega)).symm
                    · omega
                  · subst h3
                    rw [if_neg (by omega), if_neg (by omega), if_neg (by omega), if_neg hvk, if_pos hlt, hfind]
                  · rw [if_neg (by omega), if_pos h3, if_neg (by omega), if_neg (by omega), if_neg hvk,
                      if_pos (by omega)]
          · rw [if_neg hnil]
            cases left with
            | nil =>
              refine ⟨rfl, hor, fun v => ?_⟩
              change treeFind v right = _
              simp only [treeFind]
              split_ifs with h3 h4 h5
              · exact hright v (by omega)
              · exact hright v (by omega)
              · rfl
              · omega
            | node a b c d =>
              cases right with
              | nil =>
                refine ⟨rfl, hol, fun v => ?_⟩
                change treeFind v (Tree.node a b c d) = _
                rw [treeFind.eq_2 v (Tree.node a b c d) k]
                split_ifs with h3 h4 h5
                · exact hleft v (by omega)
                · rfl
                · exact hleft v (by omega)
                · omega
              | node e f g i => exact absurd ⟨by simp [Tree.isNil], by simp [Tree.isNil]⟩ hnil

end Turkey.SearchTree
