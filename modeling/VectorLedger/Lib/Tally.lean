import Mathlib.Data.Finmap
import Mathlib.Algebra.BigOperators.Group.Finset.Piecewise

/-! Tallies: finite maps that accumulate amounts under keys. A key that is absent counts as zero, and
    adding to it enters it. -/

variable {κ M : Type} [DecidableEq κ] [AddCommMonoid M]

abbrev Tally (κ M : Type) := Finmap fun _ : κ => M

namespace Tally

def get (m : Tally κ M) (k : κ) : M := (m.lookup k).getD 0

def add (m : Tally κ M) (k : κ) (d : M) : Tally κ M := m.insert k (m.get k + d)

def addAll (m : Tally κ M) (ps : List (κ × M)) : Tally κ M := ps.foldl (fun m p => m.add p.1 p.2) m

def total (k : κ) (ps : List (κ × M)) : M := ((ps.filter fun p => p.1 = k).map Prod.snd).sum

variable {m : Tally κ M} {k k' : κ} {d : M} {ps qs : List (κ × M)}

@[simp] theorem get_empty : (∅ : Tally κ M).get k = 0 := by
  simp [get]

theorem get_add : (m.add k d).get k' = m.get k' + if k = k' then d else 0 := by
  by_cases h : k = k'
  · subst h
    simp [add, get]
  · have hne : k' ≠ k := fun h' => h h'.symm
    simp [add, get, h, Finmap.lookup_insert_of_ne _ hne]

@[simp] theorem total_nil : total k ([] : List (κ × M)) = 0 := rfl

theorem total_cons (p : κ × M) : total k (p :: ps) = (if p.1 = k then p.2 else 0) + total k ps := by
  by_cases h : p.1 = k <;> simp [total, h]

@[simp] theorem addAll_nil : m.addAll [] = m := rfl

@[simp] theorem addAll_cons (p : κ × M) : m.addAll (p :: ps) = (m.add p.1 p.2).addAll ps := rfl

theorem get_addAll : (m.addAll ps).get k = m.get k + total k ps := by
  induction ps generalizing m with
  | nil => simp
  | cons p ps ih => rw [addAll_cons, ih, get_add, total_cons, add_assoc]

theorem total_eq_zero (h : ∀ p ∈ ps, p.1 ≠ k) : total k ps = 0 := by
  have hnil : ps.filter (fun p => p.1 = k) = [] := by
    rw [List.filter_eq_nil_iff]
    intro p hp
    simpa using h p hp
  simp [total, hnil]

end Tally
