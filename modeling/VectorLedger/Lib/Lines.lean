import Mathlib.Data.List.Basic

/-! Text files as bytes, and their lines. A line ends with a line feed, or with a carriage return before it; what stands
    behind the last line feed is a line too, unless it is empty. -/

namespace Lines

open List

variable {l : List UInt8} {ls : List (List UInt8)}

def lineFeed : UInt8 := 10

def carriageReturn : UInt8 := 13

def split : List UInt8 → List (List UInt8)
  | [] => []
  | b :: bs =>
    if b = lineFeed then [] :: split bs
    else if b = carriageReturn ∧ bs.head? = some lineFeed then split bs
    else
      match split bs with
      | [] => [[b]]
      | l :: ls => (b :: l) :: ls

def Plain (l : List UInt8) : Prop := ∀ b ∈ l, b ≠ lineFeed ∧ b ≠ carriageReturn

instance (l : List UInt8) : Decidable (Plain l) := inferInstanceAs (Decidable (∀ b ∈ l, _ ∧ _))

def join (ls : List (List UInt8)) : List UInt8 := ls.flatMap fun l => l ++ [lineFeed]

@[simp] theorem split_nil : split [] = [] := rfl

theorem Plain.take (h : Plain l) (k : Nat) : Plain (l.take k) := fun b hb => h b (mem_of_mem_take hb)

theorem split_line (h : Plain l) (rest : List UInt8) : split (l ++ lineFeed :: rest) = l :: split rest := by
  induction l with
  | nil => simp [split]
  | cons b bs ih =>
    obtain ⟨hfeed, hreturn⟩ := h b mem_cons_self
    rw [cons_append, split, if_neg hfeed, if_neg fun hr => hreturn hr.1, ih fun b hb => h b (mem_cons_of_mem _ hb)]

theorem split_plain (h : Plain l) (hne : l ≠ []) : split l = [l] := by
  induction l with
  | nil => exact absurd rfl hne
  | cons b bs ih =>
    obtain ⟨hfeed, hreturn⟩ := h b mem_cons_self
    rw [split, if_neg hfeed, if_neg fun hr => hreturn hr.1]
    cases bs with
    | nil => rfl
    | cons => rw [ih (fun b hb => h b (mem_cons_of_mem _ hb)) (by simp)]

@[simp] theorem join_nil : join [] = [] := rfl

theorem join_append (ls ls' : List (List UInt8)) : join (ls ++ ls') = join ls ++ join ls' := flatMap_append

theorem join_singleton (l : List UInt8) : join [l] = l ++ [lineFeed] := by
  simp [join]

theorem split_join_append (h : ∀ l ∈ ls, Plain l) (rest : List UInt8) : split (join ls ++ rest) = ls ++ split rest := by
  induction ls with
  | nil => rfl
  | cons l ls ih =>
    have hcons : join (l :: ls) ++ rest = l ++ lineFeed :: (join ls ++ rest) := by simp [join]
    rw [hcons, split_line (h l mem_cons_self), ih fun l' hl' => h l' (mem_cons_of_mem _ hl')]
    rfl

theorem split_join (h : ∀ l ∈ ls, Plain l) : split (join ls) = ls := by
  have happend := split_join_append h []
  rwa [append_nil, split_nil, append_nil] at happend

end Lines
