import Mathlib.Data.List.Induction

/-! Hash chains. A record carries a link and the link of the record before it; the first record carries a
    genesis value instead. When links determine what they were made from, the last link of a chain determines
    all of it. -/

namespace HashChain

open List

variable {ρ η κ : Type} {prev link : ρ → η} {g : η} {r : ρ} {rs rs' : List ρ}

/-- Each record carries the link of the one before it, the first one `g`. -/
def Linked (prev link : ρ → η) : η → List ρ → Prop
  | _, [] => True
  | g, r :: rs => prev r = g ∧ Linked prev link (link r) rs

def tip (link : ρ → η) (g : η) (rs : List ρ) : η := (rs.getLast?.map link).getD g

theorem linked_cons : Linked prev link g (r :: rs) ↔ prev r = g ∧ Linked prev link (link r) rs := Iff.rfl

@[simp] theorem tip_nil : tip link g [] = g := rfl

@[simp] theorem tip_concat : tip link g (rs ++ [r]) = link r := by simp [tip]

theorem tip_cons : tip link g (r :: rs) = tip link (link r) rs := by
  cases rs with
  | nil => rfl
  | cons => simp [tip, getLast?_cons]

theorem linked_concat : Linked prev link g (rs ++ [r]) ↔ Linked prev link g rs ∧ prev r = tip link g rs := by
  induction rs generalizing g with
  | nil => simp [Linked]
  | cons r' rs ih =>
    rw [cons_append, linked_cons, ih, tip_cons]
    exact and_assoc.symm

theorem Linked.map_eq {key : ρ → κ} (h : Linked prev link g rs) (h' : Linked prev link g rs')
    (same : tip link g rs = tip link g rs')
    (determined : ∀ r ∈ rs ++ rs', ∀ r' ∈ rs ++ rs', link r = link r' → key r = key r' ∧ prev r = prev r')
    (fresh : ∀ r ∈ rs ++ rs', link r ≠ g) : rs.map key = rs'.map key := by
  -- Backwards from the tip: equal last links give equal last records and equal tips before them.
  induction rs using reverseRecOn generalizing rs' with
  | nil =>
    rcases eq_nil_or_concat rs' with rfl | ⟨init, r', rfl⟩
    · rfl
    · rw [concat_eq_append, tip_nil, tip_concat] at same
      exact absurd same.symm (fresh r' (by simp))
  | append_singleton init r ih =>
    rcases eq_nil_or_concat rs' with rfl | ⟨init', r', rfl⟩
    · rw [tip_nil, tip_concat] at same
      exact absurd same (fresh r (by simp))
    · rw [concat_eq_append] at *
      rw [tip_concat, tip_concat] at same
      rw [linked_concat] at h h'
      obtain ⟨hkey, hprev⟩ := determined r (by simp) r' (by simp) same
      rw [h.2, h'.2] at hprev
      have hsub : init ++ init' ⊆ init ++ [r] ++ (init' ++ [r']) := by simp [subset_def]; grind
      have hinit := ih h.1 h'.1 hprev (fun x hx x' hx' => determined x (hsub hx) x' (hsub hx')) fun x hx => fresh x (hsub hx)
      rw [map_append, map_append, hinit, map_singleton, map_singleton, hkey]

end HashChain
