import Mathlib.Data.List.Basic
import Mathlib.Data.Option.Basic

/-! Runs of a step function.

    A system is a partial step function `step : σ → α → Option σ`: `none` means that the action is
    not enabled (a thread that waits, a message that is not there). A run is a list of actions, so
    every order in which independent parties take their steps is some list. The two rules below turn
    a fact about one step into a fact about every state a run reaches: `exec_inv` for an invariant
    that every step keeps, `exec_inv_of_meets` for one that is only kept by the steps that meet a
    condition on the state they are taken in; `exec_of_not_meets` is about the other runs, and
    `Meets.of_inv` turns the condition into another one with the help of an invariant. `exec_sim`
    puts a run of a more abstract system beside a run, and `exec_length_le` bounds the length of a run
    by a measure that every step makes smaller. -/

namespace Turkey.Run
variable {σ α : Type*}

/-- The state after a list of actions; `none` as soon as one of them is not enabled. -/
def exec (step : σ → α → Option σ) : σ → List α → Option σ
  | s, [] => some s
  | s, a :: as => (step s a).bind fun s' => exec step s' as

/-- Every action of the run meets `G` in the state it is taken in. -/
def Meets (step : σ → α → Option σ) (G : σ → α → Prop) : σ → List α → Prop
  | _, [] => True
  | s, a :: as => G s a ∧ match step s a with
    | none => True
    | some s' => Meets step G s' as

instance decidableMeets (step : σ → α → Option σ) (G : σ → α → Prop) [∀ s a, Decidable (G s a)] :
    ∀ s as, Decidable (Meets step G s as)
  | _, [] => .isTrue trivial
  | s, a :: as =>
    @instDecidableAnd _ _ _ (match step s a with
      | none => .isTrue trivial
      | some s' => decidableMeets step G s' as)

@[simp] theorem exec_nil (step : σ → α → Option σ) (s : σ) : exec step s [] = some s := rfl

theorem exec_cons_eq_some {step : σ → α → Option σ} {s t : σ} {a : α} {as : List α} :
    exec step s (a :: as) = some t ↔ ∃ s', step s a = some s' ∧ exec step s' as = some t := by
  rw [exec, Option.bind_eq_some_iff]

theorem Meets.tail {step : σ → α → Option σ} {G : σ → α → Prop} {s s' : σ} {a : α} {as : List α}
    (h : Meets step G s (a :: as)) (hs : step s a = some s') : Meets step G s' as := by
  have h2 := h.2
  rwa [hs] at h2

theorem exec_append {step : σ → α → Option σ} : ∀ {s : σ} {as bs : List α},
    exec step s (as ++ bs) = (exec step s as).bind fun s' => exec step s' bs
  | s, [], bs => rfl
  | s, a :: as, bs => by
      rw [List.cons_append, exec, exec, Option.bind_assoc]
      congr 1; funext s'
      exact exec_append

/-- A run that goes on where another one that meets `G` has led. -/
theorem Meets.append {step : σ → α → Option σ} {G : σ → α → Prop} :
    ∀ {as bs : List α} {s t : σ}, Meets step G s as → exec step s as = some t → Meets step G t bs →
      Meets step G s (as ++ bs)
  | [], bs, s, t, _, h, hbs => by
      rw [exec_nil, Option.some.injEq] at h
      rwa [h]
  | a :: as, bs, s, t, has, h, hbs => by
      obtain ⟨s', hs', h⟩ := exec_cons_eq_some.mp h
      refine ⟨has.1, ?_⟩
      rw [hs']
      exact Meets.append (has.tail hs') h hbs

theorem meets_of_forall {step : σ → α → Option σ} {G : σ → α → Prop} :
    ∀ {as : List α} {s : σ}, (∀ s, ∀ a ∈ as, G s a) → Meets step G s as
  | [], _, _ => trivial
  | a :: as, s, h => by
      refine ⟨h s a (List.mem_cons_self ..), ?_⟩
      split
      · trivial
      · exact meets_of_forall fun s b hb => h s b (List.mem_cons_of_mem a hb)

/-- One more step at the end of a run. -/
theorem exec_concat {step : σ → α → Option σ} {s t : σ} {as : List α} {a : α} :
    exec step s (as ++ [a]) = some t ↔ ∃ s', exec step s as = some s' ∧ step s' a = some t := by
  rw [exec_append, Option.bind_eq_some_iff]
  constructor
  · rintro ⟨s', hs', h⟩
    obtain ⟨t', ht', h⟩ := exec_cons_eq_some.mp h
    rw [exec_nil] at h
    exact ⟨s', hs', by rw [ht', ← h]⟩
  · rintro ⟨s', hs', h⟩
    exact ⟨s', hs', exec_cons_eq_some.mpr ⟨t, h, rfl⟩⟩

/-- The last action of a run that meets `G` meets it in the state the others lead to. -/
theorem Meets.last {step : σ → α → Option σ} {G : σ → α → Prop} :
    ∀ {as : List α} {a : α} {s t : σ}, Meets step G s (as ++ [a]) → exec step s as = some t → G t a
  | [], a, s, t, hG, h => by rw [exec_nil, Option.some.injEq] at h; exact h ▸ hG.1
  | b :: as, a, s, t, hG, h => by
      obtain ⟨s', hs', h⟩ := exec_cons_eq_some.mp h
      rw [List.cons_append] at hG
      exact Meets.last (hG.tail hs') h

/-- An invariant that every step meeting `G` keeps holds in every state of a run that meets `G`. -/
theorem exec_inv_of_meets {step : σ → α → Option σ} {G : σ → α → Prop} {I : σ → Prop}
    (hstep : ∀ s a s', I s → G s a → step s a = some s' → I s') :
    ∀ {as : List α} {s t : σ}, I s → Meets step G s as → exec step s as = some t → I t
  | [], s, t, hI, _, h => by rw [exec_nil, Option.some.injEq] at h; exact h ▸ hI
  | a :: as, s, t, hI, hG, h => by
      obtain ⟨s', hs', h⟩ := exec_cons_eq_some.mp h
      exact exec_inv_of_meets hstep (hstep s a s' hI hG.1 hs') (hG.tail hs') h

/-- What an invariant and `G` say of a step holds of every step of a run that meets `G`. -/
theorem Meets.of_inv {step : σ → α → Option σ} {G H : σ → α → Prop} {I : σ → Prop}
    (hstep : ∀ s a s', I s → G s a → step s a = some s' → I s') (hH : ∀ s a, I s → G s a → H s a) :
    ∀ {as : List α} {s : σ}, I s → Meets step G s as → Meets step H s as
  | [], _, _, _ => trivial
  | a :: as, s, hI, hG => by
      refine ⟨hH s a hI hG.1, ?_⟩
      cases hs : step s a with
      | none => trivial
      | some s' => exact Meets.of_inv hstep hH (hstep s a s' hI hG.1 hs) (hG.tail hs)

/-- An invariant that every step keeps holds in every state of every run. -/
theorem exec_inv {step : σ → α → Option σ} {I : σ → Prop}
    (hstep : ∀ s a s', I s → step s a = some s' → I s') :
    ∀ {as : List α} {s t : σ}, I s → exec step s as = some t → I t
  | [], s, t, hI, h => by rw [exec_nil, Option.some.injEq] at h; exact h ▸ hI
  | a :: as, s, t, hI, h => by
      obtain ⟨s', hs', h⟩ := exec_cons_eq_some.mp h
      exact exec_inv hstep (hstep s a s' hI hs') h

/-- A run that does not meet `G` ends in `D`, when a step that does not meet it leads to `D` and `D` is
    not left again. -/
theorem exec_of_not_meets {step : σ → α → Option σ} {G : σ → α → Prop} {D : σ → Prop}
    (hbad : ∀ s a s', ¬G s a → step s a = some s' → D s')
    (hkeep : ∀ s a s', D s → step s a = some s' → D s') :
    ∀ {as : List α} {s t : σ}, ¬Meets step G s as → exec step s as = some t → D t
  | [], s, t, hG, _ => absurd trivial hG
  | a :: as, s, t, hG, h => by
      obtain ⟨s', hs', h⟩ := exec_cons_eq_some.mp h
      by_cases ha : G s a
      · refine exec_of_not_meets hbad hkeep (fun hmeets => hG ⟨ha, ?_⟩) h
        rw [hs']
        exact hmeets
      · exact exec_inv hkeep (hbad s a s' ha hs') h

/-- When every step makes a measure smaller, a run is no longer than the measure at its start. -/
theorem exec_length_le {step : σ → α → Option σ} {I : σ → Prop} {M : σ → ℕ}
    (hinv : ∀ s a s', I s → step s a = some s' → I s')
    (hdec : ∀ s a s', I s → step s a = some s' → M s' < M s) :
    ∀ {as : List α} {s t : σ}, I s → exec step s as = some t → as.length + M t ≤ M s
  | [], s, t, _, h => by
      rw [exec_nil, Option.some.injEq] at h
      subst h
      simp
  | a :: as, s, t, hI, h => by
      obtain ⟨s', hs', h⟩ := exec_cons_eq_some.mp h
      have hrest := exec_length_le hinv hdec (hinv s a s' hI hs') h
      have hone := hdec s a s' hI hs'
      rw [List.length_cons]
      omega

/-- Simulation: where every step of a system is a step of a more abstract one, or leaves it where it is,
    every run of the system has a run of the abstract one beside it. -/
theorem exec_sim {τ β : Type*} {step : σ → α → Option σ} {astep : τ → β → Option τ} {R : σ → τ → Prop}
    (hstep : ∀ s a s' e, R s e → step s a = some s' → R s' e ∨ ∃ b e', astep e b = some e' ∧ R s' e') :
    ∀ {as : List α} {s t : σ} {e : τ}, R s e → exec step s as = some t →
      ∃ bs e', exec astep e bs = some e' ∧ R t e'
  | [], s, t, e, hR, h => by
      rw [exec_nil, Option.some.injEq] at h
      exact ⟨[], e, rfl, h ▸ hR⟩
  | a :: as, s, t, e, hR, h => by
      obtain ⟨s', hs', h⟩ := exec_cons_eq_some.mp h
      rcases hstep s a s' e hR hs' with hR' | ⟨b, e', hb, hR'⟩
      · exact exec_sim hstep hR' h
      · obtain ⟨bs, e'', hbs, hR''⟩ := exec_sim hstep hR' h
        exact ⟨b :: bs, e'', exec_cons_eq_some.mpr ⟨e', hb, hbs⟩, hR''⟩

/-- A property that survives a step exactly when the step meets `G` holds at the end of a run exactly
    when it holds at its start and the run meets `G`; `I` is an invariant of the steps. -/
theorem exec_iff_meets {step : σ → α → Option σ} {G : σ → α → Prop} {I P : σ → Prop}
    (hinv : ∀ s a s', I s → step s a = some s' → I s')
    (hstep : ∀ s a s', I s → step s a = some s' → (P s' ↔ P s ∧ G s a)) :
    ∀ {as : List α} {s t : σ}, I s → exec step s as = some t → (P t ↔ P s ∧ Meets step G s as)
  | [], s, t, _, h => by
      rw [exec_nil, Option.some.injEq] at h
      subst h
      exact (and_iff_left trivial).symm
  | a :: as, s, t, hI, h => by
      obtain ⟨s', hs', h⟩ := exec_cons_eq_some.mp h
      rw [exec_iff_meets hinv hstep (hinv s a s' hI hs') h, hstep s a s' hI hs', Meets, hs', and_assoc]

end Turkey.Run
