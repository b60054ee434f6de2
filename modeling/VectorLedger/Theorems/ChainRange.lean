import VectorLedger.Lib.Except
import VectorLedger.Theorems.Chain
import VectorLedger.Theorems.Leaks

/-! Verification of a range of the chain. Bounds reach the index as signed numbers, and the first link of the range is
    taken from its first entry. -/

namespace VectorLedger

open HashChain List

variable {fromSeq toSeq : Option Nat} {e : JournalEntry} {n : Nat}

/-- The entry is between the bounds. -/
def InRange (fromSeq toSeq : Option Nat) (e : JournalEntry) : Prop :=
  fromSeq.getD 1 ≤ e.sequence ∧ e.sequence ≤ toSeq.getD (2 ^ 64 - 1)

/-- The entry is between the bounds as SQLite has them, as signed numbers. -/
def InSignedRange (fromSeq toSeq : Option Nat) (e : JournalEntry) : Prop :=
  EntryDb.asI64 (fromSeq.getD 1) ≤ e.sequence ∧ (e.sequence : Int) ≤ EntryDb.asI64 (toSeq.getD (2 ^ 64 - 1))

instance : Decidable (InRange fromSeq toSeq e) := inferInstanceAs (Decidable (_ ∧ _))

instance : Decidable (InSignedRange fromSeq toSeq e) := inferInstanceAs (Decidable (_ ∧ _))

namespace EntryDb

def ranged (db : EntryDb) (fromSeq toSeq : Option Nat) : List JournalEntry :=
  db.entries.filter fun e => InRange fromSeq toSeq e

def edge (db : EntryDb) (fromSeq : Option Nat) : Hash :=
  tip JournalEntry.chainHash zeroHash (db.entries.filter fun e => e.sequence < fromSeq.getD 1)

end EntryDb

/-- The stored entries of the range verify, and each is linked to the stored entry before it. -/
def RangeChained (cfg : Config) (db : EntryDb) (fromSeq toSeq : Option Nat) : Prop :=
  (∀ e ∈ db.ranged fromSeq toSeq, e.verifyHashes cfg.blake3 = true) ∧ Linked (db.edge fromSeq) (db.ranged fromSeq toSeq)

/-- The verification tells whether the range is chained, and how many entries it has. -/
def RangeVerified (cfg : Config) (s : LedgerStore) (fromSeq toSeq : Option Nat) : Prop :=
  match s.verifyChainRange cfg fromSeq toSeq with
  | .ok (count, _) => RangeChained cfg s.entryDb fromSeq toSeq ∧ count = (s.entryDb.ranged fromSeq toSeq).length
  | .error _ => ¬RangeChained cfg s.entryDb fromSeq toSeq

theorem asI64_eq (h : n < 2 ^ 63) : EntryDb.asI64 n = n := Int.bmod_eq_of_le (by omega) (by omega)

theorem asI64_neg (h : 2 ^ 63 ≤ n) (h' : n < 2 ^ 64) : EntryDb.asI64 n < 0 := by
  unfold EntryDb.asI64
  rw [Int.bmod_def]
  split <;> omega

section Range
variable {cfg : Config} {s : LedgerStore}

theorem count_eq {count : Nat} {t : Hash} (h : s.verifyChainRange cfg fromSeq toSeq = .ok (count, t)) :
    count = (s.entryDb.entries.filter fun e => InSignedRange fromSeq toSeq e).length := by
  change count = (s.entryDb.scanRange _ _).length
  unfold LedgerStore.verifyChainRange at h
  split at h
  · next hnone =>
    cases h
    rw [hnone]
    rfl
  · next e es hsome =>
    obtain ⟨-, -, heq⟩ := (Except.map_eq_ok).1 h
    cases heq
    rw [hsome]

theorem rangeVerified_iff (same : ∀ e ∈ s.entryDb.entries, InSignedRange fromSeq toSeq e ↔ InRange fromSeq toSeq e) :
    RangeVerified cfg s fromSeq toSeq ↔ ∀ e ∈ (s.entryDb.ranged fromSeq toSeq).head?,
      (∀ e' ∈ s.entryDb.ranged fromSeq toSeq, e'.verifyHashes cfg.blake3 = true) →
      Linked e.prevHash (s.entryDb.ranged fromSeq toSeq) → e.prevHash = s.entryDb.edge fromSeq := by
  have hscan : s.entryDb.scanRange (fromSeq.getD 1) (toSeq.getD (2 ^ 64 - 1)) = s.entryDb.ranged fromSeq toSeq :=
    filter_congr fun e he => decide_eq_decide.2 (same e he)
  unfold RangeVerified LedgerStore.verifyChainRange RangeChained
  rw [hscan]
  cases hranged : s.entryDb.ranged fromSeq toSeq with
  | nil => simp [HashChain.Linked]
  | cons e es =>
    simp only [head?_cons, Option.mem_some_iff, forall_eq']
    cases hverify : LedgerStore.verifyChain cfg.blake3 e.prevHash (e :: es) with
    | ok _ =>
      obtain ⟨hhashes, hlinked⟩ := verifyChain_iff.1 hverify
      simp only [Except.map, length_cons, and_true]
      constructor
      · exact fun h _ _ => h.2.1
      · exact fun h => ⟨hhashes, h hhashes hlinked, hlinked.2⟩
    | error _ =>
      refine iff_of_true (fun h => ?_) fun hhashes hlinked => ?_
      · rw [verifyChain_iff.2 ⟨h.1, rfl, h.2.2⟩] at hverify
        cases hverify
      · rw [verifyChain_iff.2 ⟨hhashes, hlinked⟩] at hverify
        cases hverify

theorem signs_agree_of_rangeVerified (hfrom : ∀ n ∈ fromSeq, n < 2 ^ 64) (hto : ∀ n ∈ toSeq, n < 2 ^ 64)
    (h : RangeVerified cfg s fromSeq toSeq) :
    ∀ e ∈ s.entryDb.entries, InSignedRange fromSeq toSeq e ↔ InRange fromSeq toSeq e := by
  have hlower : fromSeq.getD 1 < 2 ^ 64 := by
    cases fromSeq with
    | none => decide
    | some n => exact hfrom n rfl
  have hupper : toSeq.getD (2 ^ 64 - 1) < 2 ^ 64 := by
    cases toSeq with
    | none => decide
    | some n => exact hto n rfl
  intro e he
  rcases Nat.lt_or_ge (toSeq.getD (2 ^ 64 - 1)) (2 ^ 63) with hb | hb
  · rcases Nat.lt_or_ge (fromSeq.getD 1) (2 ^ 63) with ha | ha
    · rw [InSignedRange, InRange, asI64_eq ha, asI64_eq hb]
      omega
    -- The lower bound is above the upper one, and as a signed number below all.
    have hnone : s.entryDb.ranged fromSeq toSeq = [] :=
      filter_eq_nil_iff.2 fun e _ hin => absurd (of_decide_eq_true hin) (by unfold InRange; omega)
    unfold RangeVerified RangeChained at h
    rw [hnone] at h
    split at h
    · next count t hok =>
      have hempty := (count_eq hok).symm.trans h.2
      have hout := filter_eq_nil_iff.1 (length_eq_zero_iff.1 hempty) e he
      exact iff_of_false (by simpa using hout) (by unfold InRange; omega)
    · exact absurd ⟨by simp, trivial⟩ h
  · -- As a signed number the upper bound is below all, so nothing is read.
    have hout : ∀ e : JournalEntry, ¬InSignedRange fromSeq toSeq e := by
      intro e hin
      have hneg := asI64_neg hb hupper
      have := hin.2
      omega
    have hnone : s.entryDb.scanRange (fromSeq.getD 1) (toSeq.getD (2 ^ 64 - 1)) = [] :=
      filter_eq_nil_iff.2 fun e _ hin => hout e (of_decide_eq_true hin)
    unfold RangeVerified LedgerStore.verifyChainRange at h
    rw [hnone] at h
    have hin := filter_eq_nil_iff.1 (length_eq_zero_iff.1 h.2.symm) e he
    exact iff_of_false (hout e) (by simpa using hin)

end Range

namespace Sample

/-- Two entries with the hashes of a configuration that hashes to zero. The second one is not linked to the first. -/
def unlinked : LedgerStore := { LedgerStore.initial (.fresh none) with
  entryDb := .two (.bare 1 1 "test") { JournalEntry.bare 2 2 "test" with prevHash := .replicate 32 7 }
    (by decide) (by decide) rfl }

end Sample

end VectorLedger
