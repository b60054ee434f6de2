import Mathlib.Data.Finmap

/-! Folds, and maps written by assignments in order: the last assignment to a key wins. -/

theorem List.foldl_keeps {α β γ : Type} (π : β → γ) (f : β → α → β) (h : ∀ b a, π (f b a) = π b)
    (as : List α) (b : β) : π (as.foldl f b) = π b := by
  induction as generalizing b with
  | nil => rfl
  | cons a as ih => rw [List.foldl_cons, ih, h]

namespace Assign

variable {κ ν : Type} [DecidableEq κ] {m m' : Finmap fun _ : κ => ν} {ps qs : List (κ × ν)} {k : κ}

def assign (m : Finmap fun _ : κ => ν) (ps : List (κ × ν)) : Finmap fun _ : κ => ν :=
  ps.foldl (fun m p => m.insert p.1 p.2) m

def latest (k : κ) : List (κ × ν) → Option ν
  | [] => none
  | p :: ps => (latest k ps).or (if p.1 = k then some p.2 else none)

/-- Every key that `ps` assigns is assigned by `qs` too. -/
def Covers (ps qs : List (κ × ν)) : Prop := ∀ p ∈ ps, ∃ q ∈ qs, q.1 = p.1

instance (ps qs : List (κ × ν)) : Decidable (Covers ps qs) := by
  unfold Covers
  infer_instance

@[simp] theorem assign_nil : assign m [] = m := rfl

@[simp] theorem assign_cons (p : κ × ν) : assign m (p :: ps) = assign (m.insert p.1 p.2) ps := rfl

theorem assign_append : assign m (ps ++ qs) = assign (assign m ps) qs := List.foldl_append

theorem lookup_assign : (assign m ps).lookup k = (latest k ps).or (m.lookup k) := by
  induction ps generalizing m with
  | nil => rfl
  | cons p ps ih =>
    rw [assign_cons, ih, latest, Option.or_assoc]
    congr 1
    by_cases h : p.1 = k
    · subst h
      simp
    · simp [h, Finmap.lookup_insert_of_ne m (Ne.symm h)]

theorem latest_append : latest k (ps ++ qs) = (latest k qs).or (latest k ps) := by
  induction ps with
  | nil => simp [latest]
  | cons p ps ih => rw [List.cons_append, latest, ih, Option.or_assoc]; rfl

theorem latest_eq_none : latest k ps = none ↔ ∀ p ∈ ps, p.1 ≠ k := by
  induction ps with
  | nil => simp [latest]
  | cons p ps ih =>
    by_cases h : p.1 = k <;> simp [latest, h, ih]

theorem mem_of_latest {v : ν} (h : latest k ps = some v) : (k, v) ∈ ps := by
  induction ps with
  | nil => cases h
  | cons p ps ih =>
    rw [latest, Option.or_eq_some_iff] at h
    rcases h with h | ⟨-, h⟩
    · exact List.mem_cons_of_mem _ (ih h)
    · split at h
      · next hk =>
        cases h
        subst hk
        exact List.mem_cons_self
      · cases h

/-- The same assignments made after two lists give the same map when, for every key they do not assign, the two
    lists end with the same value. -/
theorem assign_append_eq_iff (ps qs rs : List (κ × ν)) : assign ∅ (ps ++ rs) = assign ∅ (qs ++ rs) ↔
      ∀ p ∈ ps ++ qs, (∃ r ∈ rs, r.1 = p.1) ∨ latest p.1 ps = latest p.1 qs := by
  have hlookup : ∀ (xs : List (κ × ν)) (k : κ), (assign ∅ (xs ++ rs)).lookup k = (latest k rs).or (latest k xs) := by
    intro xs k
    rw [lookup_assign, latest_append, Finmap.lookup_empty, Option.or_none]
  constructor
  · intro h p hp
    have hp := congrArg (Finmap.lookup p.1) h
    rw [hlookup, hlookup] at hp
    cases hlast : latest p.1 rs with
    | some => exact .inl ⟨_, mem_of_latest hlast, rfl⟩
    | none =>
      rw [hlast] at hp
      exact .inr hp
  · intro h
    refine Finmap.ext_lookup fun k => ?_
    rw [hlookup, hlookup]
    cases hlast : latest k rs with
    | some => rfl
    | none =>
      have habsent := latest_eq_none.1 hlast
      by_cases hk : ∃ p ∈ ps ++ qs, p.1 = k
      · obtain ⟨p, hp, rfl⟩ := hk
        rcases h p hp with ⟨r, hr, hkey⟩ | hsame
        · exact absurd hkey (habsent r hr)
        · rw [hsame]
      · rw [latest_eq_none.2 fun p hp heq => hk ⟨p, List.mem_append_left _ hp, heq⟩,
          latest_eq_none.2 fun p hp heq => hk ⟨p, List.mem_append_right _ hp, heq⟩]

theorem assign_eq_append_iff (ps qs : List (κ × ν)) : assign ∅ qs = assign ∅ (ps ++ qs) ↔ Covers ps qs := by
  have h := assign_append_eq_iff [] ps qs
  rw [List.nil_append] at h
  rw [h]
  refine forall₂_congr fun p hp => or_iff_left fun hnone => ?_
  exact latest_eq_none.1 hnone.symm p hp rfl

end Assign
