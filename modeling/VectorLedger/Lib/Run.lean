import Mathlib.Data.Option.Basic

/-! Runs of a transition system. A step takes a state and a label to the next state, or refuses; a
    condition `ok` on the state and the label says which steps a run may take. -/

namespace Run

variable {σ ε : Type} {step : σ → ε → Option σ} {ok : σ → ε → Prop} {s₀ s t : σ}

/-- The states reached from `s₀` by steps that all meet `ok`. -/
inductive Reachable (step : σ → ε → Option σ) (ok : σ → ε → Prop) (s₀ : σ) : σ → Prop where
  | init : Reachable step ok s₀ s₀
  | step {s t : σ} {e : ε} : Reachable step ok s₀ s → ok s e → step s e = some t → Reachable step ok s₀ t

namespace Reachable

/-- What holds at the start and is kept by every step holds of every reached state. -/
theorem invariant {P : σ → Prop} (h : Reachable step ok s₀ s) (h₀ : P s₀)
    (hstep : ∀ s e t, P s → ok s e → step s e = some t → P t) : P s := by
  induction h with
  | init => exact h₀
  | step _ he hs ih => exact hstep _ _ _ ih he hs

theorem trans (h₁ : Reachable step ok s₀ s) (h₂ : Reachable step ok s t) : Reachable step ok s₀ t := by
  induction h₂ with
  | init => exact h₁
  | step _ he hs ih => exact ih.step he hs

theorem mono {ok' : σ → ε → Prop} (h : Reachable step ok s₀ s) (hok : ∀ s e, ok s e → ok' s e) :
    Reachable step ok' s₀ s := by
  induction h with
  | init => exact .init
  | step _ he hs ih => exact ih.step (hok _ _ he) hs

end Reachable

/-- The state after a list of labels, if no step refuses. -/
def exec (step : σ → ε → Option σ) : σ → List ε → Option σ
  | s, [] => some s
  | s, e :: es => (step s e).bind fun t => exec step t es

/-- Every step of a list of labels meets `ok` at the state it is taken from. -/
def Allowed (step : σ → ε → Option σ) (ok : σ → ε → Prop) : σ → List ε → Prop
  | _, [] => True
  | s, e :: es => ok s e ∧
    match step s e with
    | some t => Allowed step ok t es
    | none => True

instance decidableAllowed [∀ s e, Decidable (ok s e)] : ∀ s es, Decidable (Allowed step ok s es)
  | _, [] => isTrue trivial
  | s, e :: es => by
    unfold Allowed
    have : Decidable (match step s e with
        | some t => Allowed step ok t es
        | none => True) := by
      cases step s e with
      | none => exact isTrue trivial
      | some t => exact decidableAllowed t es
    exact instDecidableAnd

theorem reachable_of_exec {es : List ε} (ha : Allowed step ok s es) (h : exec step s es = some t) :
    Reachable step ok s t := by
  induction es generalizing s with
  | nil =>
    cases h
    exact .init
  | cons e es ih =>
    obtain ⟨u, hu, ht⟩ := Option.bind_eq_some_iff.mp h
    obtain ⟨he, hes⟩ := ha
    rw [hu] at hes
    exact (Reachable.init.step he hu).trans (ih hes ht)

/-- To show of the state after a list of labels what holds of the states that allowed steps reach. -/
theorem exists_of_exec {β : Type} {f : β → σ} {P : β → Prop} {b : β} {es : List ε} (ha : Allowed step ok s es)
    (h : exec step s es = some (f b)) (hP : Reachable step ok s (f b) → P b) : ∃ b, exec step s es = some (f b) ∧ P b :=
  ⟨b, h, hP (reachable_of_exec ha h)⟩

instance decidableExec {P : σ → Prop} [DecidablePred P] {r : Option σ} : Decidable (∃ t, r = some t ∧ P t) :=
  decidable_of_iff (∃ t ∈ r, P t) Iff.rfl

theorem exists_reachable {P : σ → Prop} (es : List ε) (ha : Allowed step ok s es) (h : ∃ t, exec step s es = some t ∧ P t) :
    ∃ t, Reachable step ok s t ∧ P t :=
  h.imp fun _ ⟨ht, hP⟩ => ⟨reachable_of_exec ha ht, hP⟩

end Run
