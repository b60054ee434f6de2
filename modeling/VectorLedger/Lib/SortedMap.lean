import Mathlib.Data.List.Lex
import Mathlib.Data.Prod.Lex
import Mathlib.Order.Lattice

/-! Maps as lists of pairs in the order of their keys. -/

/-- The keys ascend, so that there is one value for a key. -/
structure SortedMap (κ α : Type) [LinearOrder κ] where
  entries : List (κ × α)
  sorted : entries.Pairwise fun a b => a.1 < b.1

namespace SortedMap

open List

variable {κ α : Type} [LinearOrder κ] {m : SortedMap κ α} {k k' : κ} {v : α} {x : κ × α}

def empty : SortedMap κ α := ⟨[], .nil⟩

def insertInto (k : κ) (v : α) : List (κ × α) → List (κ × α)
  | [] => [(k, v)]
  | x :: xs =>
    if k < x.1 then (k, v) :: x :: xs
    else if k = x.1 then (k, v) :: xs
    else x :: insertInto k v xs

theorem mem_insertInto {xs : List (κ × α)} (sorted : xs.Pairwise fun a b => a.1 < b.1) :
    x ∈ insertInto k v xs ↔ x = (k, v) ∨ (x ∈ xs ∧ x.1 ≠ k) := by
  induction xs with
  | nil => simp [insertInto]
  | cons y ys ih =>
    obtain ⟨hy, hys⟩ := pairwise_cons.1 sorted
    unfold insertInto
    split
    · next hlt =>
      -- All keys are above the new one.
      have hne : ∀ z ∈ y :: ys, z.1 ≠ k := by
        intro z hz
        rcases mem_cons.1 hz with rfl | hz
        · exact hlt.ne'
        · exact (hlt.trans (hy z hz)).ne'
      rw [mem_cons]
      exact or_congr_right ⟨fun hx => ⟨hx, hne x hx⟩, fun hx => hx.1⟩
    · split
      · next heq =>
        rw [mem_cons]
        refine or_congr_right ⟨fun hx => ⟨mem_cons_of_mem y hx, heq ▸ (hy x hx).ne'⟩, fun ⟨hx, hne⟩ => ?_⟩
        exact (mem_cons.1 hx).resolve_left fun hxy => hne (hxy ▸ heq.symm)
      · next heq =>
        rw [mem_cons, ih hys, mem_cons]
        constructor
        · rintro (rfl | hx | ⟨hx, hne⟩)
          · exact .inr ⟨.inl rfl, fun h => heq h.symm⟩
          · exact .inl hx
          · exact .inr ⟨.inr hx, hne⟩
        · rintro (hx | ⟨rfl | hx, hne⟩)
          · exact .inr (.inl hx)
          · exact .inl rfl
          · exact .inr (.inr ⟨hx, hne⟩)

theorem sorted_insertInto {xs : List (κ × α)} (sorted : xs.Pairwise fun a b => a.1 < b.1) :
    (insertInto k v xs).Pairwise fun a b => a.1 < b.1 := by
  induction xs with
  | nil => exact pairwise_singleton _ _
  | cons y ys ih =>
    obtain ⟨hy, hys⟩ := pairwise_cons.1 sorted
    unfold insertInto
    split
    · next hlt =>
      refine pairwise_cons.2 ⟨fun z hz => ?_, sorted⟩
      rcases mem_cons.1 hz with rfl | hz
      · exact hlt
      · exact hlt.trans (hy z hz)
    · next hge =>
      split
      · next heq => exact pairwise_cons.2 ⟨fun z hz => heq ▸ hy z hz, hys⟩
      · next heq =>
        refine pairwise_cons.2 ⟨fun z hz => ?_, ih hys⟩
        rcases (mem_insertInto hys).1 hz with rfl | ⟨hz, -⟩
        · exact lt_of_le_of_ne (not_lt.1 hge) fun h => heq h.symm
        · exact hy z hz

def insert (m : SortedMap κ α) (k : κ) (v : α) : SortedMap κ α := ⟨insertInto k v m.entries, sorted_insertInto m.sorted⟩

def get? (m : SortedMap κ α) (k : κ) : Option α := m.entries.lookup k

theorem mem_insert : x ∈ (m.insert k v).entries ↔ x = (k, v) ∨ (x ∈ m.entries ∧ x.1 ≠ k) := mem_insertInto m.sorted

theorem mem_foldl_insert {β : Type} {f : β → κ} {g : β → α} {xs : List β} (same : ∀ a ∈ xs, ∀ b ∈ xs, f a = f b → g a = g b)
    (fresh : ∀ a ∈ xs, ∀ v, (f a, v) ∈ m.entries → v = g a) :
    x ∈ (xs.foldl (fun m a => m.insert (f a) (g a)) m).entries ↔ x ∈ m.entries ∨ ∃ a ∈ xs, x = (f a, g a) := by
  induction xs generalizing m with
  | nil => simp
  | cons a xs ih =>
    have hsame : ∀ b ∈ xs, ∀ c ∈ xs, f b = f c → g b = g c :=
      fun b hb c hc => same b (mem_cons_of_mem a hb) c (mem_cons_of_mem a hc)
    have hfresh : ∀ b ∈ xs, ∀ v, (f b, v) ∈ (m.insert (f a) (g a)).entries → v = g b := by
      intro b hb v hv
      rcases mem_insert.1 hv with heq | ⟨hv, -⟩
      · obtain ⟨hkey, rfl⟩ := Prod.mk.inj heq
        exact same a mem_cons_self b (mem_cons_of_mem a hb) hkey.symm
      · exact fresh b (mem_cons_of_mem a hb) v hv
    rw [foldl_cons, ih hsame hfresh, mem_insert]
    constructor
    · rintro ((rfl | ⟨hx, -⟩) | ⟨b, hb, rfl⟩)
      · exact .inr ⟨a, mem_cons_self, rfl⟩
      · exact .inl hx
      · exact .inr ⟨b, mem_cons_of_mem a hb, rfl⟩
    · rintro (hx | ⟨b, hb, rfl⟩)
      · by_cases hkey : x.1 = f a
        · have : x.2 = g a := fresh a mem_cons_self x.2 (by rw [← hkey]; exact hx)
          exact .inl (.inl (Prod.ext hkey this))
        · exact .inl (.inr ⟨hx, hkey⟩)
      · rcases mem_cons.1 hb with rfl | hb
        · exact .inl (.inl rfl)
        · exact .inr ⟨b, hb, rfl⟩

theorem get?_eq_some : m.get? k = some v ↔ (k, v) ∈ m.entries := by
  obtain ⟨xs, sorted⟩ := m
  unfold get?
  simp only
  induction xs with
  | nil => simp
  | cons y ys ih =>
    obtain ⟨hy, hys⟩ := pairwise_cons.1 sorted
    rw [lookup_cons, mem_cons]
    cases hkey : k == y.1 with
    | true =>
      have hkey : k = y.1 := by simpa using hkey
      constructor
      · intro h
        exact .inl (Prod.ext hkey (Option.some.inj h).symm)
      · rintro (h | h)
        · exact congrArg some (congrArg Prod.snd h).symm
        · exact absurd hkey (hy _ h).ne'
    | false =>
      have hne : k ≠ y.1 := by simpa using hkey
      rw [ih hys]
      exact ⟨.inr, fun h => h.resolve_left fun heq => hne (congrArg Prod.fst heq)⟩

end SortedMap
