import Mathlib.Data.List.Nodup
import Mathlib.Logic.Function.Basic

/-! Linked lists that share a heap.

    A heap is a function `next : α → Option α` from the address of a node to the address of the next one.
    `Linked next l` says that the nodes of `l` are linked in this order and that the last one has no next.
    `Places next lists` is a family of such lists that have no node in common, so that a node is in at most
    one place. The four rules below are for the updates that programs make: a node is taken from the front
    of its list, put to the front of a list or behind the last node of a list, and a node that is in no
    list is written to. -/

namespace Turkey.Chains
variable {α κ : Type*}

/-- The pointers lead along the list. -/
def Linked (next : α → Option α) : List α → Prop
  | [] => True
  | a :: l => next a = l.head? ∧ Linked next l

theorem Linked.congr {next next' : α → Option α} : ∀ {l : List α}, Linked next l → (∀ a ∈ l, next' a = next a) →
    Linked next' l
  | [], _, _ => trivial
  | a :: l, h, heq => by
    rw [List.forall_mem_cons] at heq
    exact ⟨heq.1.trans h.1, h.2.congr heq.2⟩

theorem Linked.drop {next : α → Option α} : ∀ {l : List α}, Linked next l → ∀ n, Linked next (l.drop n)
  | [], _, n => by rw [List.drop_nil]; trivial
  | _ :: _, h, 0 => h
  | _ :: _, h, n + 1 => h.2.drop n

theorem Linked.next_eq {next : α → Option α} {l : List α} (h : Linked next l) {k : ℕ} {a : α} (ha : l[k]? = some a) :
    next a = l[k + 1]? := by
  obtain ⟨hk, rfl⟩ := List.getElem?_eq_some_iff.1 ha
  have hd := h.drop k
  rw [List.drop_eq_getElem_cons hk] at hd
  rw [hd.1, List.head?_drop]

section
variable [DecidableEq α]

theorem Linked.update {next : α → Option α} {l : List α} (h : Linked next l) {a : α} (ha : a ∉ l) (v : Option α) :
    Linked (Function.update next a v) l :=
  h.congr fun _ hb => Function.update_of_ne (by rintro rfl; exact ha hb) ..

/-- A node behind the last one. -/
theorem Linked.concat {next : α → Option α} {a b : α} (ha : next a = none) : ∀ {l : List α},
    Linked next (l ++ [b]) → (l ++ [b]).Nodup → a ∉ l ++ [b] →
      Linked (Function.update next b (some a)) (l ++ [b] ++ [a])
  | [], _, _, hab => by
    have hne : a ≠ b := fun h => hab (h ▸ List.mem_singleton_self b)
    refine ⟨Function.update_self .., ?_, trivial⟩
    rw [Function.update_of_ne hne, ha]
    rfl
  | c :: l, h, nodup, hab => by
    obtain ⟨hc, hl⟩ := h
    rw [List.cons_append, List.nodup_cons] at nodup
    rw [List.cons_append, List.mem_cons, not_or] at hab
    refine ⟨?_, hl.concat ha nodup.2 hab.2⟩
    have hcb : c ≠ b := by
      rintro rfl
      exact nodup.1 (List.mem_append_right _ (List.mem_singleton_self c))
    rw [Function.update_of_ne hcb, hc]
    cases l <;> rfl

end

/-! ### Lists without common nodes -/

/-- Lists that have no elements in common, with pointers along each. -/
structure Places (next : α → Option α) (lists : κ → List α) : Prop where
  linked : ∀ q, Linked next (lists q)
  nodup : ∀ q, (lists q).Nodup
  apart : ∀ q q' a, a ∈ lists q → a ∈ lists q' → q = q'

theorem Places.getElem_inj {next : α → Option α} {lists : κ → List α} (h : Places next lists) {q q' : κ} {k k' : ℕ}
    {a : α} (ha : (lists q)[k]? = some a) (ha' : (lists q')[k']? = some a) : q = q' ∧ k = k' := by
  obtain rfl := h.apart q q' a (List.mem_of_getElem? ha) (List.mem_of_getElem? ha')
  have hk := (List.getElem?_eq_some_iff.1 ha).1
  exact ⟨rfl, (List.getElem?_inj hk (h.nodup q)).1 (ha.trans ha'.symm)⟩

/-- The node is in one of the lists. -/
def In (lists : κ → List α) (a : α) : Prop := ∃ q, a ∈ lists q

variable [DecidableEq κ]

theorem mem_update {lists : κ → List α} {q q' : κ} {l : List α} {a : α} :
    a ∈ Function.update lists q l q' ↔ if q' = q then a ∈ l else a ∈ lists q' := by
  by_cases h : q' = q
  · subst h
    rw [Function.update_self, if_pos rfl]
  · rw [Function.update_of_ne h, if_neg h]

omit [DecidableEq κ] in
theorem Places.write [DecidableEq α] {next : α → Option α} {lists : κ → List α} (h : Places next lists) {a : α}
    (ha : ¬ In lists a) (v : Option α) : Places (Function.update next a v) lists :=
  ⟨fun q => (h.linked q).update (fun hq => ha ⟨q, hq⟩) v, h.nodup, h.apart⟩

/-- The lists keep apart when one of them loses nodes or gets a node that is in none. -/
theorem Places.of_subset {next next' : α → Option α} {lists : κ → List α} (h : Places next lists) {q : κ}
    {l : List α} {P : α → Prop} (hP : ∀ a, P a → ¬ In lists a) (hl : ∀ a ∈ l, a ∈ lists q ∨ P a)
    (nodup : l.Nodup) (linked : Linked next' l) (other : ∀ q' ≠ q, Linked next' (lists q')) :
    Places next' (Function.update lists q l) := by
  refine ⟨fun q' => ?_, fun q' => ?_, fun q₁ q₂ a h₁ h₂ => ?_⟩
  · by_cases hq : q' = q
    · subst hq
      rwa [Function.update_self]
    · rw [Function.update_of_ne hq]
      exact other q' hq
  · by_cases hq : q' = q
    · subst hq
      rwa [Function.update_self]
    · rw [Function.update_of_ne hq]
      exact h.nodup q'
  · rw [mem_update] at h₁ h₂
    split_ifs at h₁ h₂ with e₁ e₂ e₂
    · rw [e₁, e₂]
    · rcases hl a h₁ with hq | hp
      · exact e₁.trans (h.apart q q₂ a hq h₂)
      · exact absurd ⟨q₂, h₂⟩ (hP a hp)
    · rcases hl a h₂ with hq | hp
      · exact (h.apart q₁ q a h₁ hq).trans e₂.symm
      · exact absurd ⟨q₁, h₁⟩ (hP a hp)
    · exact h.apart q₁ q₂ a h₁ h₂

theorem in_update {lists : κ → List α} {q : κ} {l : List α} {a : α} :
    In (Function.update lists q l) a ↔ a ∈ l ∨ ∃ q' ≠ q, a ∈ lists q' := by
  constructor
  · rintro ⟨q', h⟩
    rw [mem_update] at h
    split_ifs at h with hq
    · exact .inl h
    · exact .inr ⟨q', hq, h⟩
  · rintro (h | ⟨q', hq, h⟩)
    · exact ⟨q, by rwa [Function.update_self]⟩
    · exact ⟨q', by rwa [Function.update_of_ne hq]⟩

theorem in_update_of_subset {lists : κ → List α} {q : κ} {l : List α} {a x : α}
    (h : ∀ y, y ∈ l ↔ y = a ∨ y ∈ lists q) : In (Function.update lists q l) x ↔ x = a ∨ In lists x := by
  rw [in_update, h]
  constructor
  · rintro ((rfl | hx) | ⟨q', -, hx⟩)
    · exact .inl rfl
    · exact .inr ⟨q, hx⟩
    · exact .inr ⟨q', hx⟩
  · rintro (rfl | ⟨q', hx⟩)
    · exact .inl (.inl rfl)
    · by_cases hq : q' = q
      · subst hq
        exact .inl (.inr hx)
      · exact .inr ⟨q', hq, hx⟩

theorem in_push {lists : κ → List α} {q : κ} {a x : α} :
    In (Function.update lists q (a :: lists q)) x ↔ x = a ∨ In lists x :=
  in_update_of_subset fun _ => List.mem_cons

theorem in_concat {lists : κ → List α} {q : κ} {a x : α} :
    In (Function.update lists q (lists q ++ [a])) x ↔ x = a ∨ In lists x :=
  in_update_of_subset fun y => by rw [List.mem_append, List.mem_singleton, or_comm]

/-- A node is taken from the front of its list; it is in none then. -/
theorem Places.pop {next : α → Option α} {lists : κ → List α} (h : Places next lists) {q : κ} {a : α} {l : List α}
    (hq : lists q = a :: l) : Places next (Function.update lists q l) ∧ ¬ In (Function.update lists q l) a ∧
      ∀ x, In lists x ↔ x = a ∨ In (Function.update lists q l) x := by
  have nodup := h.nodup q
  have linked := h.linked q
  rw [hq, List.nodup_cons] at nodup
  rw [hq] at linked
  refine ⟨?_, ?_, fun x => ?_⟩
  · exact h.of_subset (P := fun _ => False) (fun _ hf => hf.elim)
      (fun x hx => .inl (hq ▸ List.mem_cons_of_mem a hx)) nodup.2 linked.2 fun q' _ => h.linked q'
  · rw [in_update]
    rintro (ha | ⟨q', hne, ha⟩)
    · exact nodup.1 ha
    · exact hne (h.apart q' q a ha (hq ▸ List.mem_cons_self ..))
  · rw [in_update]
    constructor
    · rintro ⟨q', hx⟩
      by_cases hne : q' = q
      · rw [hne, hq, List.mem_cons] at hx
        exact hx.imp_right .inl
      · exact .inr (.inr ⟨q', hne, hx⟩)
    · rintro (rfl | hx | ⟨q', -, hx⟩)
      · exact ⟨q, hq ▸ List.mem_cons_self ..⟩
      · exact ⟨q, hq ▸ List.mem_cons_of_mem a hx⟩
      · exact ⟨q', hx⟩

variable [DecidableEq α]

/-- A node is put to the front of a list. -/
theorem Places.push {next : α → Option α} {lists : κ → List α} (h : Places next lists) {a : α}
    (ha : ¬ In lists a) (q : κ) :
    Places (Function.update next a (lists q).head?) (Function.update lists q (a :: lists q)) := by
  have hw := h.write ha (lists q).head?
  refine h.of_subset (P := (· = a)) (fun x hx => hx ▸ ha) (fun x hx => (List.mem_cons.1 hx).symm) ?_ ?_
    fun q' _ => hw.linked q'
  · exact List.nodup_cons.2 ⟨fun hq => ha ⟨q, hq⟩, h.nodup q⟩
  · exact ⟨Function.update_self .., hw.linked q⟩

/-- A node is put behind the last one of a list. -/
theorem Places.concat {next : α → Option α} {lists : κ → List α} (h : Places next lists) {a b : α}
    (ha : ¬ In lists a) (hnext : next a = none) {q : κ} (hb : (lists q).getLast? = some b) :
    Places (Function.update next b (some a)) (Function.update lists q (lists q ++ [a])) := by
  obtain ⟨l, hl⟩ := List.getLast?_eq_some_iff.1 hb
  have hmem : b ∈ lists q := by rw [hl]; simp
  refine h.of_subset (P := (· = a)) (fun x hx => hx ▸ ha) (fun x hx => ?_) ?_ ?_ fun q' hq' => ?_
  · rwa [List.mem_append, List.mem_singleton] at hx
  · rw [List.nodup_append]
    refine ⟨h.nodup q, List.nodup_singleton a, fun x hx y hy => ?_⟩
    rintro rfl
    exact ha ⟨q, (List.mem_singleton.1 hy) ▸ hx⟩
  · rw [hl]
    exact Linked.concat hnext (hl ▸ h.linked q) (hl ▸ h.nodup q) fun hx => ha ⟨q, hl ▸ hx⟩
  · exact (h.linked q').update (fun hx => hq' (h.apart q' q b hx hmem)) _

end Turkey.Chains
