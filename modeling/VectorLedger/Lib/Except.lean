import Mathlib.Data.List.Basic

/-! Computations that can fail: when a sequence of them succeeds. -/

namespace Except

open List

variable {ε α β : Type} {x : Except ε α} {b : β}

variable {f : α → Except ε β} {xs : List α}

theorem bind_eq_ok : x >>= f = .ok b ↔ ∃ a, x = .ok a ∧ f a = .ok b := by
  cases x with
  | error | ok => simp [bind, Except.bind]

theorem map_eq_ok {f : α → β} : x.map f = .ok b ↔ ∃ a, x = .ok a ∧ f a = b := by
  cases x with
  | error | ok => simp [Except.map]

instance decidableOk {P : α → Prop} [DecidablePred P] : Decidable (∃ a, x = .ok a ∧ P a) :=
  match x with
  | .error _ => isFalse (by simp)
  | .ok a => decidable_of_iff (P a) (by simp)

instance decidablePair {σ : Type} {y : Except ε α × σ} {P : α → σ → Prop} [∀ a s, Decidable (P a s)] :
    Decidable (∃ a s, y = (.ok a, s) ∧ P a s) :=
  match y with
  | (.error _, _) => isFalse (by simp)
  | (.ok a, s) => decidable_of_iff (P a s) (by simp)

instance decidableError {P : ε → Prop} [DecidablePred P] : Decidable (∃ e, x = .error e ∧ P e) :=
  match x with
  | .error e => decidable_of_iff (P e) (by simp)
  | .ok _ => isFalse (by simp)

theorem mapM_ok {g : α → β} (h : ∀ a ∈ xs, f a = .ok (g a)) : xs.mapM f = .ok (xs.map g) := by
  induction xs with
  | nil => rfl
  | cons a xs ih =>
    rw [mapM_cons, h a mem_cons_self, ih fun a' ha' => h a' (mem_cons_of_mem a ha')]
    rfl

theorem of_mapM_ok {bs : List β} (h : xs.mapM f = .ok bs) :
    (∀ a ∈ xs, ∃ b ∈ bs, f a = .ok b) ∧ ∀ b ∈ bs, ∃ a ∈ xs, f a = .ok b := by
  induction xs generalizing bs with
  | nil =>
    cases h
    simp
  | cons a xs ih =>
    rw [mapM_cons, bind_eq_ok] at h
    obtain ⟨b, hb, h⟩ := h
    obtain ⟨bs', hbs', h⟩ := bind_eq_ok.1 h
    cases h
    obtain ⟨hxs, hbs⟩ := ih hbs'
    grind

theorem mapM_flatten {γ : Type} {f : α → Except ε (List γ)} {Q : α → γ → Prop}
    (h : ∀ a ∈ xs, ∃ b, f a = .ok b ∧ ∀ c, c ∈ b ↔ Q a c) :
    ∃ bs, xs.mapM f = .ok bs ∧ ∀ c, c ∈ bs.flatten ↔ ∃ a ∈ xs, Q a c := by
  induction xs with
  | nil => exact ⟨[], rfl, by simp⟩
  | cons a xs ih =>
    obtain ⟨b, hb, hmem⟩ := h a mem_cons_self
    obtain ⟨bs, hbs, hflat⟩ := ih fun a' ha' => h a' (mem_cons_of_mem a ha')
    refine ⟨b :: bs, ?_, fun c => ?_⟩
    · rw [mapM_cons, hb, hbs]
      rfl
    · rw [flatten_cons, mem_append, hmem, hflat]
      simp

theorem mapM_error {p : α → Bool} {e : ε} (herr : ∀ a ∈ xs, p a → f a = .error e)
    (hok : ∀ a ∈ xs, ¬p a → ∃ b, f a = .ok b) (h : xs.any p) : xs.mapM f = .error e := by
  induction xs with
  | nil => simp at h
  | cons a xs ih =>
    rw [mapM_cons]
    by_cases ha : p a
    · rw [herr a mem_cons_self ha]
      rfl
    · obtain ⟨b, hb⟩ := hok a mem_cons_self ha
      have hany : xs.any p := by simpa [ha] using h
      rw [hb, ih (fun a' ha' => herr a' (mem_cons_of_mem a ha')) (fun a' ha' => hok a' (mem_cons_of_mem a ha')) hany]
      rfl

end Except
