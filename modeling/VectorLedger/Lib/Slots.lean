import Mathlib.Data.List.Basic

/-! Lists of calls under way. A step of one call changes one place of the list, and a new call is put behind the others. -/

namespace Slots

open List

variable {α β : Type} {cs : List α} {c c' d : α} {n i : Nat}

theorem getElem?_set_cases (h : (cs.set n c')[i]? = some d) : (i = n ∧ d = c') ∨ (i ≠ n ∧ cs[i]? = some d) := by
  by_cases hi : i = n
  · subst hi
    rw [getElem?_set_self'] at h
    cases hcs : cs[i]? with
    | none => simp [hcs] at h
    | some =>
      rw [hcs] at h
      exact .inl ⟨rfl, (Option.some.inj h).symm⟩
  · rw [getElem?_set_ne (Ne.symm hi)] at h
    exact .inr ⟨hi, h⟩

theorem mem_set_cases (h : d ∈ cs.set n c') : d = c' ∨ ∃ i, i ≠ n ∧ cs[i]? = some d := by
  obtain ⟨i, hi⟩ := mem_iff_getElem?.1 h
  rcases getElem?_set_cases hi with ⟨-, rfl⟩ | hold
  · exact .inl rfl
  · exact .inr ⟨i, hold⟩

theorem mem_set_or (hc : cs[n]? = some c) (c' : α) (hd : d ∈ cs) : d ∈ cs.set n c' ∨ d = c := by
  obtain ⟨i, hi⟩ := mem_iff_getElem?.1 hd
  by_cases hin : i = n
  · subst hin
    exact .inr (Option.some.inj (hi.symm.trans hc))
  · refine .inl (mem_iff_getElem?.2 ⟨i, ?_⟩)
    rw [getElem?_set_ne (Ne.symm hin)]
    exact hi

theorem mem_set_self (hc : cs[n]? = some c) (c' : α) : c' ∈ cs.set n c' :=
  List.mem_set (List.getElem?_eq_some_iff.1 hc).1 c'

theorem getElem?_set_self (hc : cs[n]? = some c) (c' : α) : (cs.set n c')[n]? = some c' :=
  List.getElem?_set_self (List.getElem?_eq_some_iff.1 hc).1

theorem getElem?_append_cases (h : (cs ++ [c'])[i]? = some d) : cs[i]? = some d ∨ (i = cs.length ∧ d = c') := by
  rcases Nat.lt_or_ge i cs.length with hi | hi
  · rw [getElem?_append_left hi] at h
    exact .inl h
  · rw [getElem?_append_right hi, getElem?_singleton] at h
    obtain ⟨hzero, heq⟩ := Option.ite_none_right_eq_some.1 h
    exact .inr ⟨by omega, (Option.some.inj heq).symm⟩

theorem getElem?_append_of_some (hc : cs[i]? = some c) (c' : α) : (cs ++ [c'])[i]? = some c := by
  rw [List.getElem?_append_left (List.getElem?_eq_some_iff.1 hc).1]
  exact hc

theorem filterMap_eq_toList {f : α → Option β} (hc : cs[n]? = some c)
    (hothers : ∀ i d, cs[i]? = some d → i ≠ n → f d = none) : cs.filterMap f = (f c).toList := by
  induction cs generalizing n with
  | nil => cases hc
  | cons d ds ih =>
    cases n with
    | zero =>
      obtain rfl := Option.some.inj hc
      have hnone : ds.filterMap f = [] := by
        rw [filterMap_eq_nil_iff]
        intro e he
        obtain ⟨i, hi⟩ := mem_iff_getElem?.1 he
        exact hothers (i + 1) e hi (by omega)
      cases hd : f d with
      | none => rw [filterMap_cons_none hd, hnone]; rfl
      | some => rw [filterMap_cons_some hd, hnone]; rfl
    | succ =>
      have hd : f d = none := hothers 0 d rfl (by omega)
      rw [filterMap_cons_none hd]
      exact ih hc fun i e he hne => hothers (i + 1) e he (by omega)

end Slots
