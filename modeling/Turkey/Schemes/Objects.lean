import Mathlib.Data.List.Basic
import Mathlib.Data.Option.Basic

/-! Objects that are used by one operation after the other. `step` gives the reply to an operation and the next
    state, or `none` for undefined behaviour. What an object should do is a relation between states, operations,
    replies and next states of a more abstract kind; it may leave a choice. An object refines it
    when no operation is undefined, and each one does what it is allowed to do; then this holds of every
    sequence of operations. Where this is so of the operations that meet a condition, and the others are undefined,
    it holds of exactly the sequences whose operations all meet it. -/

namespace Turkey.Objects
variable {σ τ α ρ : Type*}

/-- The replies to a sequence of operations, and the state after it. -/
def run (step : σ → α → Option (ρ × σ)) : σ → List α → Option (List ρ × σ)
  | s, [] => some ([], s)
  | s, a :: as => (step s a).bind fun (r, s) => (run step s as).map fun (rs, t) => (r :: rs, t)

/-- The replies to a sequence of operations are allowed, and it may end in the last state. -/
def Allowed (spec : τ → α → ρ → τ → Prop) : τ → List α → List ρ → τ → Prop
  | t, [], [], t' => t = t'
  | t, a :: as, r :: rs, t' => ∃ u, spec t a r u ∧ Allowed spec u as rs t'
  | _, _, _, _ => False

/-- No operation is undefined, and each one does what it is allowed to do. -/
def Refines (step : σ → α → Option (ρ × σ)) (spec : τ → α → ρ → τ → Prop) (R : σ → τ → Prop) : Prop :=
  ∀ s t a, R s t → ∃ r s' t', step s a = some (r, s') ∧ spec t a r t' ∧ R s' t'

/-- Every operation of the sequence meets `G` in the state it is done in. -/
def Meets (step : σ → α → Option (ρ × σ)) (G : σ → α → Prop) : σ → List α → Prop
  | _, [] => True
  | s, a :: as => G s a ∧ ∀ r s', step s a = some (r, s') → Meets step G s' as

/-- An operation does what it is allowed to do where it meets `G`, and is undefined elsewhere. -/
structure RefinesIff (step : σ → α → Option (ρ × σ)) (G : σ → α → Prop) (spec : τ → α → ρ → τ → Prop)
    (R : σ → τ → Prop) : Prop where
  does : ∀ s t a, R s t → G s a → ∃ r s' t', step s a = some (r, s') ∧ spec t a r t' ∧ R s' t'
  undefined : ∀ s t a, R s t → ¬G s a → step s a = none

variable {step : σ → α → Option (ρ × σ)} {spec : τ → α → ρ → τ → Prop} {R : σ → τ → Prop} {G : σ → α → Prop}

theorem run_cons {s : σ} {a : α} {as : List α} {q : List ρ × σ} : run step s (a :: as) = some q ↔
    ∃ r s' rs t, step s a = some (r, s') ∧ run step s' as = some (rs, t) ∧ q = (r :: rs, t) := by
  simp only [run, Option.bind_eq_some_iff, Option.map_eq_some_iff, Prod.exists]
  constructor
  · rintro ⟨r, s', hs, rs, t, ht, rfl⟩
    exact ⟨r, s', rs, t, hs, ht, rfl⟩
  · rintro ⟨r, s', rs, t, hs, ht, rfl⟩
    exact ⟨r, s', hs, rs, t, ht, rfl⟩

/-- What one operation preserves holds after every sequence of operations. -/
theorem Refines.run (h : Refines step spec R) : ∀ (as : List α) {s : σ} {t : τ}, R s t →
    ∃ rs s' t', Objects.run step s as = some (rs, s') ∧ Allowed spec t as rs t' ∧ R s' t'
  | [], s, t, hR => ⟨[], s, t, rfl, rfl, hR⟩
  | a :: as, s, t, hR => by
    obtain ⟨r, s', t', hs, ht, hR'⟩ := h s t a hR
    obtain ⟨rs, s'', t'', hs', ht', hR''⟩ := h.run as hR'
    exact ⟨r :: rs, s'', t'', run_cons.2 ⟨r, s', rs, s'', hs, hs', rfl⟩, ⟨t', ht, ht'⟩, hR''⟩

/-- What one operation that meets `G` preserves holds after every sequence of such operations. -/
theorem RefinesIff.run (h : RefinesIff step G spec R) : ∀ (as : List α) {s : σ} {t : τ}, R s t → Meets step G s as →
    ∃ rs s' t', Objects.run step s as = some (rs, s') ∧ Allowed spec t as rs t' ∧ R s' t'
  | [], s, t, hR, _ => ⟨[], s, t, rfl, rfl, hR⟩
  | a :: as, s, t, hR, ⟨hG, hrest⟩ => by
    obtain ⟨r, s', t', hs, ht, hR'⟩ := h.does s t a hR hG
    obtain ⟨rs, s'', t'', hs', ht', hR''⟩ := h.run as hR' (hrest r s' hs)
    exact ⟨r :: rs, s'', t'', run_cons.2 ⟨r, s', rs, s'', hs, hs', rfl⟩, ⟨t', ht, ht'⟩, hR''⟩

theorem run_append : ∀ {as bs : List α} {s : σ} {q : List ρ × σ}, Objects.run step s (as ++ bs) = some q →
    ∃ rs t rs' t', Objects.run step s as = some (rs, t) ∧ Objects.run step t bs = some (rs', t') ∧ q = (rs ++ rs', t')
  | [], bs, s, q, h => ⟨[], s, q.1, q.2, rfl, h, rfl⟩
  | a :: as, bs, s, q, h => by
    obtain ⟨r, s', rs, t, hs, hrest, rfl⟩ := run_cons.1 h
    obtain ⟨rs₁, t₁, rs₂, t₂, h₁, h₂, heq⟩ := run_append hrest
    obtain ⟨rfl, rfl⟩ := Prod.mk.inj heq
    exact ⟨r :: rs₁, t₁, rs₂, t, run_cons.2 ⟨r, s', rs₁, t₁, hs, h₁, rfl⟩, h₂, rfl⟩

/-- The operations behind some others meet `G` in the state that these lead to. -/
theorem Meets.append : ∀ {as bs : List α} {s t : σ} {rs : List ρ}, Meets step G s (as ++ bs) →
    Objects.run step s as = some (rs, t) → Meets step G t bs
  | [], _, _, _, _, h, hrun => by
    obtain ⟨-, rfl⟩ := Prod.mk.inj (Option.some.inj hrun)
    exact h
  | a :: as, _, _, _, _, h, hrun => by
    obtain ⟨r, s', rs', t', hs, hrest, heq⟩ := run_cons.1 hrun
    obtain ⟨-, rfl⟩ := Prod.mk.inj heq
    exact Meets.append (h.2 r s' hs) hrest

theorem Allowed.append : ∀ {as bs : List α} {rs : List ρ} {t t' : τ}, Allowed spec t (as ++ bs) rs t' →
    ∃ rs₁ rs₂ u, rs = rs₁ ++ rs₂ ∧ Allowed spec t as rs₁ u ∧ Allowed spec u bs rs₂ t'
  | [], bs, rs, t, t', h => ⟨[], rs, t, rfl, rfl, h⟩
  | a :: as, bs, r :: rs, t, t', ⟨u, hu, hrest⟩ => by
    obtain ⟨rs₁, rs₂, v, rfl, h₁, h₂⟩ := Allowed.append hrest
    exact ⟨r :: rs₁, rs₂, v, rfl, ⟨u, hu, h₁⟩, h₂⟩
  | _ :: _, _, [], _, _, h => h.elim

end Turkey.Objects
