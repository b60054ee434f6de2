import Mathlib.Data.List.Basic

/-! Decoders that take a value off the front of their input, and the encodings that they take back. What two decoders
    take back one after the other is the one encoding followed by the other. -/

namespace Codec

variable {β α γ : Type}

/-- Takes a value off the front of its input, or refuses. -/
abbrev Decoder (β α : Type) := StateT (List β) Option α

/-- At the front of any input, `b` is decoded as `a`. -/
def Decodes (d : Decoder β α) (a : α) (b : List β) : Prop := ∀ rest, d.run (b ++ rest) = some (a, rest)

def take (n : Nat) : Decoder β (List β) := fun bs => if bs.length < n then none else some (bs.take n, bs.drop n)

/-- Decode so many values one after the other. -/
def many (d : Decoder β α) : Nat → Decoder β (List α)
  | 0 => pure []
  | n + 1 => do
    let a ← d
    return a :: (← many d n)

/-- Decode the front of an input and forget the rest. -/
def decode (d : Decoder β α) (bs : List β) : Option α := (d.run bs).map Prod.fst

theorem decodes_pure (a : α) : Decodes (pure a : Decoder β α) a [] := fun _ => rfl

variable {d : Decoder β α} {a : α} {b : List β}

theorem Decodes.bind {f : α → Decoder β γ} {x : γ} {b' : List β} (first : Decodes d a b)
    (second : Decodes (f a) x b') : Decodes (d >>= f) x (b ++ b') := by
  intro rest
  rw [StateT.run_bind, List.append_assoc, first]
  exact second rest

theorem Decodes.map (h : Decodes d a b) (f : α → γ) : Decodes (f <$> d) (f a) b := by
  intro rest
  rw [StateT.run_map, h]
  rfl

theorem decodes_take {n : Nat} (h : b.length = n) : Decodes (take n) b b := by
  intro rest
  show (if _ then _ else _) = _
  rw [if_neg (by rw [List.length_append]; omega), List.take_left' h, List.drop_left' h]

theorem Decodes.decode (h : Decodes d a b) : Codec.decode d b = some a := by
  have hrun := h []
  rw [List.append_nil] at hrun
  rw [Codec.decode, hrun]
  rfl

theorem decodes_many {f : γ → α} {enc : γ → List β} {xs : List γ} (h : ∀ x ∈ xs, Decodes d (f x) (enc x)) :
    Decodes (many d xs.length) (xs.map f) (xs.flatMap enc) := by
  induction xs with
  | nil => exact decodes_pure []
  | cons x xs ih =>
    have hxs := (ih fun y hy => h y (List.mem_cons_of_mem x hy)).map (f x :: ·)
    exact (h x List.mem_cons_self).bind hxs

/-- What holds of every value that is decoded holds of many. -/
theorem forall_many {P : α → Prop} (h : ∀ bs a rest, d.run bs = some (a, rest) → P a) {n : Nat} {bs rest : List β}
    {as : List α} (hrun : (many d n).run bs = some (as, rest)) : ∀ a ∈ as, P a := by
  induction n generalizing bs as with
  | zero => cases hrun; simp
  | succ n ih =>
    obtain ⟨⟨a, bs'⟩, ha, hmany⟩ := Option.bind_eq_some_iff.1 hrun
    obtain ⟨⟨as', rest'⟩, has, hpure⟩ := Option.bind_eq_some_iff.1 hmany
    cases hpure
    exact List.forall_mem_cons.2 ⟨h _ _ _ ha, ih has⟩

end Codec
