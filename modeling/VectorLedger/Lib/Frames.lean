import Mathlib.Data.List.Basic

/-! Reading a file frame by frame. A reader takes a frame off the front of what is left, ends, or fails; after a failure
    it reads no more of the file. -/

namespace Frames

open List

variable {α β ε : Type} {fs : List (α × List β)}

/-- What a reader finds at the front of its input. -/
inductive Next (α β ε : Type) where
  | ended
  | failed (e : ε)
  | frame (a : α) (rest : List β)

/-- Read frames for so many turns. The reader is told how many items lie before what is left. -/
def scan (next : Nat → List β → Next α β ε) : Nat → Nat → List β → List (Except ε α)
  | 0, _, _ => []
  | fuel + 1, offset, bs =>
    match next offset bs with
    | .ended => []
    | .failed e => [.error e]
    | .frame a rest => .ok a :: scan next fuel (offset + (bs.length - rest.length)) rest

def readFrom (next : Nat → List β → Next α β ε) (offset : Nat) (bs : List β) : List (Except ε α) :=
  scan next (bs.length + 1) offset bs

def good : List (Except ε α) → List α
  | .ok a :: xs => a :: good xs
  | _ => []

def bytes (fs : List (α × List β)) : List β := fs.flatMap (·.2)

@[simp] theorem bytes_nil : bytes ([] : List (α × List β)) = [] := rfl

@[simp] theorem bytes_cons (f : α × List β) (fs : List (α × List β)) : bytes (f :: fs) = f.2 ++ bytes fs := rfl

@[simp] theorem bytes_append (fs gs : List (α × List β)) : bytes (fs ++ gs) = bytes fs ++ bytes gs := by
  simp [bytes]

/-! ### Good frames -/

def Shrinks (next : Nat → List β → Next α β ε) : Prop :=
  ∀ offset bs a rest, next offset bs = .frame a rest → rest.length < bs.length

/-- At the front of any input, `b` is read as `a`. -/
def Reads (next : Nat → List β → Next α β ε) (a : α) (b : List β) : Prop :=
  ∀ offset rest, next offset (b ++ rest) = .frame a rest

section Reading
variable {next : Nat → List β → Next α β ε}

theorem scan_fuel (shrinks : Shrinks next) {n m : Nat} (offset : Nat) (bs : List β) (hn : bs.length < n)
    (hm : bs.length < m) : scan next n offset bs = scan next m offset bs := by
  induction n generalizing m offset bs with
  | zero => omega
  | succ n ih =>
    cases m with
    | zero => omega
    | succ =>
      simp only [scan]
      cases h : next offset bs with
      | ended | failed => rfl
      | frame a rest =>
        have hlt := shrinks offset bs a rest h
        exact congrArg (Except.ok a :: ·) (ih _ rest (by omega) (by omega))

variable {offset : Nat} {bs : List β}

theorem readFrom_ended (h : next offset bs = .ended) : readFrom next offset bs = [] := by
  simp [readFrom, scan, h]

theorem readFrom_failed {e : ε} (h : next offset bs = .failed e) : readFrom next offset bs = [.error e] := by
  simp [readFrom, scan, h]

theorem readFrom_frame (shrinks : Shrinks next) {rest : List β} {a : α} (h : next offset bs = .frame a rest) :
    readFrom next offset bs = .ok a :: readFrom next (offset + (bs.length - rest.length)) rest := by
  have hlt := shrinks offset bs a rest h
  rw [readFrom, scan, h]
  exact congrArg (Except.ok a :: ·) (scan_fuel shrinks _ rest hlt (Nat.lt_succ_self _))

theorem readFrom_append (shrinks : Shrinks next) (reads : ∀ f ∈ fs, Reads next f.1 f.2)
    (offset : Nat) (tail : List β) :
    readFrom next offset (bytes fs ++ tail) =
      fs.map (fun f => .ok f.1) ++ readFrom next (offset + (bytes fs).length) tail := by
  induction fs generalizing offset with
  | nil => rfl
  | cons f fs ih =>
    rw [forall_mem_cons] at reads
    have hnext := reads.1 offset (bytes fs ++ tail)
    rw [bytes_cons, append_assoc, readFrom_frame shrinks hnext, ih reads.2]
    simp only [map_cons, length_append]
    congr 3
    omega

theorem good_append_ok (as : List α) (xs : List (Except ε α)) : good (as.map Except.ok ++ xs) = as ++ good xs := by
  induction as with
  | nil => rfl
  | cons a as ih => simp [good, ih]

theorem good_ok (as : List α) : good (as.map Except.ok : List (Except ε α)) = as := by
  rw [← append_nil (as.map _), good_append_ok]
  exact append_nil as

theorem eq_map_good {xs : List (Except ε α)} (h : ∀ e, .error e ∉ xs) : xs = (good xs).map Except.ok := by
  induction xs with
  | nil => rfl
  | cons x xs ih =>
    cases x with
    | error e => exact absurd mem_cons_self (h e)
    | ok a => exact congrArg (Except.ok a :: ·) (ih fun e he => h e (mem_cons_of_mem _ he))

end Reading

/-! ### Frames of another reader -/

section Other
variable {next : Nat → List β → Next α β ε} (shrinks : Shrinks next)
include shrinks

section
variable (P : α × List β → Prop)
  (cut : ∀ offset bs a rest, next offset bs = .frame a rest → ∃ b, bs = b ++ rest ∧ P (a, b)) {offset : Nat}
  {bs : List β}
include P cut

theorem exists_frame_of_mem {a : α} (h : .ok a ∈ readFrom next offset bs) :
    ∃ fs b rest, bs = bytes fs ++ (b ++ rest) ∧ (∀ f ∈ fs, P f) ∧ P (a, b) := by
  induction hn : bs.length using Nat.strongRecOn generalizing bs offset with
  | _ n ih =>
    cases hnext : next offset bs with
    | ended =>
      rw [readFrom_ended hnext] at h
      cases h
    | failed =>
      rw [readFrom_failed hnext, mem_singleton] at h
      cases h
    | frame a' rest =>
      have hlt := shrinks _ _ _ _ hnext
      obtain ⟨b, rfl, hb⟩ := cut _ _ _ _ hnext
      rw [readFrom_frame shrinks hnext] at h
      rcases mem_cons.1 h with ha | hrest
      · cases ha
        exact ⟨[], b, rest, rfl, nofun, hb⟩
      · obtain ⟨fs, b', rest', rfl, hfs, hb'⟩ := ih _ (hn ▸ hlt) hrest rfl
        exact ⟨(a', b) :: fs, b', rest', by simp, forall_mem_cons.2 ⟨hb, hfs⟩, hb'⟩

/-- A file that is read without a failure is frames, and then something that is taken for the end. -/
theorem exists_frames_of_readFrom {as : List α} (h : readFrom next offset bs = as.map Except.ok) :
    ∃ fs tail, bs = bytes fs ++ tail ∧ fs.map (·.1) = as ∧ (∀ f ∈ fs, P f) ∧ ∃ offset', next offset' tail = .ended := by
  induction as generalizing offset bs with
  | nil =>
    cases hnext : next offset bs with
    | ended => exact ⟨[], bs, rfl, rfl, nofun, offset, hnext⟩
    | failed =>
      rw [readFrom_failed hnext] at h
      cases h
    | frame =>
      rw [readFrom_frame shrinks hnext] at h
      cases h
  | cons a as ih =>
    cases hnext : next offset bs with
    | ended =>
      rw [readFrom_ended hnext] at h
      cases h
    | failed =>
      rw [readFrom_failed hnext] at h
      cases h
    | frame a' =>
      rw [readFrom_frame shrinks hnext, map_cons, cons.injEq] at h
      obtain rfl := Except.ok.inj h.1
      obtain ⟨b, rfl, hb⟩ := cut _ _ _ _ hnext
      obtain ⟨fs, tail, rfl, hmap, hfs, hend⟩ := ih h.2
      refine ⟨(a', b) :: fs, tail, ?_, ?_, forall_mem_cons.2 ⟨hb, hfs⟩, hend⟩
      · rw [bytes_cons, append_assoc]
      · rw [map_cons, hmap]

end

end Other

/-! ### Places -/

def framesFrom : Nat → List (α × List β) → List (α × List β)
  | _, [] => []
  | place, f :: fs =>
    if place = 0 then f :: fs
    else if f.2.length ≤ place then framesFrom (place - f.2.length) fs
    else []

theorem framesFrom_zero (fs : List (α × List β)) : framesFrom 0 fs = fs := by
  cases fs <;> rfl

variable {fs : List (α × List β)} {n : Nat}

theorem framesFrom_add {place : Nat} {later : List (α × List β)} {f : α × List β} (h : framesFrom place fs = f :: later)
    (hf : f.2 ≠ []) : framesFrom (place + f.2.length) fs = later := by
  have hlen := length_pos_of_ne_nil hf
  induction fs generalizing place with
  | nil => cases h
  | cons g fs ih =>
    rw [framesFrom] at h ⊢
    rw [if_neg (by omega)]
    split_ifs at h with hzero hle
    · obtain ⟨rfl, rfl⟩ := cons.inj h
      rw [if_pos (by omega), hzero, Nat.zero_add, Nat.sub_self, framesFrom_zero]
    · rw [if_pos (by omega), Nat.sub_add_comm hle]
      exact ih h

/-- A reader that accepts at each place only the frame that starts there reads the first of the frames, up to a place
    where it ends or fails. -/
theorem readFrom_first {next : Nat → List β → Next α β ε} (shrinks : Shrinks next) {bs : List β}
    (accepts : ∀ place a rest, next place (bs.drop place) = .frame a rest →
      ∃ b later, framesFrom place fs = (a, b) :: later ∧ bs.drop place = b ++ rest) (place : Nat) :
    ∃ before after rest, framesFrom place fs = before ++ after ∧ bs.drop place = bytes before ++ rest ∧
      (readFrom next place (bs.drop place) = (before.map (·.1)).map Except.ok ∧ (∃ offset, next offset rest = .ended) ∨
        ∃ e, readFrom next place (bs.drop place) = (before.map (·.1)).map Except.ok ++ [.error e]) := by
  induction hn : (bs.drop place).length using Nat.strongRecOn generalizing place with
  | _ n ih =>
    cases hnext : next place (bs.drop place) with
    | ended => exact ⟨[], _, _, rfl, rfl, .inl ⟨readFrom_ended hnext, place, hnext⟩⟩
    | failed e => exact ⟨[], _, _, rfl, rfl, .inr ⟨e, readFrom_failed hnext⟩⟩
    | frame a rest =>
      obtain ⟨b, later, hframes, hsplit⟩ := accepts place a rest hnext
      have hshorter := shrinks place _ a rest hnext
      have hb : b ≠ [] := by
        rintro rfl
        rw [hsplit] at hshorter
        exact Nat.lt_irrefl _ hshorter
      have hplace : place + ((bs.drop place).length - rest.length) = place + b.length := by
        rw [hsplit, length_append, Nat.add_sub_cancel]
      have hrest : rest = bs.drop (place + b.length) := by
        rw [← drop_drop, hsplit, drop_left]
      have hread := readFrom_frame shrinks hnext
      rw [hplace, hrest] at hread
      obtain ⟨before, after, tail, hlater, hbytes, hread'⟩ := ih _ (by rw [← hrest, ← hn]; exact hshorter) _ rfl
      rw [framesFrom_add hframes hb] at hlater
      refine ⟨(a, b) :: before, after, tail, by rw [hframes, hlater, cons_append], ?_, ?_⟩
      · rw [hsplit, hrest, hbytes, bytes_cons, append_assoc]
      · rw [hread]
        rcases hread' with ⟨hread', hend⟩ | ⟨e, hread'⟩
        · exact .inl ⟨by rw [hread']; rfl, hend⟩
        · exact .inr ⟨e, by rw [hread']; rfl⟩

/-! ### Cutting -/

def fitting : Nat → List (α × List β) → List (α × List β)
  | _, [] => []
  | n, f :: fs => if f.2.length ≤ n then f :: fitting (n - f.2.length) fs else []

/-- What the first `n` items have of the frame after those. -/
def torn : Nat → List (α × List β) → List β
  | _, [] => []
  | n, f :: fs => if f.2.length ≤ n then torn (n - f.2.length) fs else f.2.take n

theorem take_bytes (n : Nat) (fs : List (α × List β)) : (bytes fs).take n = bytes (fitting n fs) ++ torn n fs := by
  induction fs generalizing n with
  | nil => simp [fitting, torn]
  | cons f fs ih =>
    by_cases h : f.2.length ≤ n
    · rw [fitting, torn, if_pos h, if_pos h, bytes_cons, bytes_cons, append_assoc, ← ih, take_append, take_of_length_le h]
    · rw [fitting, torn, if_neg h, if_neg h, bytes_cons, take_append_of_le_length (by omega)]
      rfl

theorem mem_of_mem_fitting {f : α × List β} (h : f ∈ fitting n fs) : f ∈ fs := by
  induction fs generalizing n with
  | nil => cases h
  | cons g fs ih =>
    rw [fitting] at h
    split_ifs at h
    · rcases mem_cons.1 h with rfl | hrest
      · exact mem_cons_self
      · exact mem_cons_of_mem _ (ih hrest)
    · cases h

theorem fitting_first (n : Nat) (fs : List (α × List β)) : fitting n fs <+: fs := by
  induction fs generalizing n with
  | nil => exact prefix_refl _
  | cons f fs ih =>
    rw [fitting]
    split
    · exact (prefix_cons_inj f).2 (ih _)
    · exact nil_prefix

theorem fitting_append_of_le (h : (bytes fs).length ≤ n) (gs : List (α × List β)) :
    fitting n (fs ++ gs) = fs ++ fitting (n - (bytes fs).length) gs := by
  induction fs generalizing n with
  | nil => rfl
  | cons f fs ih =>
    rw [bytes_cons, length_append] at h ⊢
    rw [cons_append, fitting, if_pos (by omega), ih (by omega), Nat.sub_sub]
    rfl

theorem fitting_append_of_lt (h : n < (bytes fs).length) (gs : List (α × List β)) :
    fitting n (fs ++ gs) = fitting n fs := by
  induction fs generalizing n with
  | nil => cases h
  | cons f fs ih =>
    rw [bytes_cons, length_append] at h
    rw [cons_append, fitting, fitting]
    split
    · rw [ih (by omega)]
    · rfl

theorem torn_cases (n : Nat) (fs : List (α × List β)) :
    torn n fs = [] ∨ ∃ f ∈ fs, torn n fs <+: f.2 ∧ (torn n fs).length < f.2.length := by
  induction fs generalizing n with
  | nil => exact .inl rfl
  | cons f fs ih =>
    rw [torn]
    split_ifs with h
    · refine (ih (n - f.2.length)).imp_right ?_
      rintro ⟨g, hg, hpart⟩
      exact ⟨g, mem_cons_of_mem _ hg, hpart⟩
    · refine .inr ⟨f, mem_cons_self, take_prefix n f.2, ?_⟩
      rw [length_take]
      omega

def ends (p : α → Bool) : Nat → List (α × List β) → List Nat
  | _, [] => []
  | place, f :: fs =>
    if p f.1 then (place + f.2.length) :: ends p (place + f.2.length) fs else ends p (place + f.2.length) fs

theorem ends_append (p : α → Bool) (place : Nat) (fs gs : List (α × List β)) :
    ends p place (fs ++ gs) = ends p place fs ++ ends p (place + (bytes fs).length) gs := by
  induction fs generalizing place with
  | nil => rfl
  | cons f fs ih =>
    rw [cons_append, ends, ends, ih, bytes_cons, length_append, Nat.add_assoc]
    split <;> rfl

theorem le_of_mem_ends {p : α → Bool} {place x : Nat} (h : x ∈ ends p place fs) : place ≤ x := by
  induction fs generalizing place with
  | nil => cases h
  | cons f fs ih =>
    rw [ends] at h
    split at h
    · rcases mem_cons.1 h with rfl | hrest
      · exact Nat.le_add_right _ _
      · exact Nat.le_trans (Nat.le_add_right _ _) (ih hrest)
    · exact Nat.le_trans (Nat.le_add_right _ _) (ih h)

theorem filter_ends (p : α → Bool) (n place : Nat) (fs : List (α × List β)) :
    (ends p place fs).filter (· ≤ place + n) = ends p place (fitting n fs) := by
  induction fs generalizing n place with
  | nil => rfl
  | cons f fs ih =>
    by_cases hfits : f.2.length ≤ n
    · have hrest := ih (n - f.2.length) (place + f.2.length)
      rw [Nat.add_assoc, Nat.add_sub_cancel' hfits] at hrest
      rw [fitting, if_pos hfits, ends, ends]
      split
      · rw [filter_cons_of_pos (by simpa using hfits), hrest]
      · exact hrest
    · rw [fitting, if_neg hfits, ends, filter_eq_nil_iff]
      intro x hx hle
      have hlong : place + f.2.length ≤ x := by
        rw [ends] at hx
        split at hx
        · rcases mem_cons.1 hx with rfl | hrest
          · exact Nat.le_refl _
          · exact le_of_mem_ends hrest
        · exact le_of_mem_ends hx
      have hshort : x ≤ place + n := by simpa using hle
      omega

theorem length_ends (p : α → Bool) (place : Nat) (fs : List (α × List β)) :
    (ends p place fs).length = fs.countP fun f => p f.1 := by
  induction fs generalizing place with
  | nil => rfl
  | cons =>
    rw [ends]
    split <;> simp [*]

end Frames
