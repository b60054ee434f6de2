import VectorLedger.Theorems.Torn

/-! The sequence numbers of a log. A writer takes its counter up from the last segment alone. -/

namespace VectorLedger.Wal

open WalWriter List Frames

/-! ### The log and its complete records -/

/-- A log, and the records that were written to it completely. -/
structure Journal where
  log : Log
  complete : List Record

namespace Journal

def start : Journal := ⟨.closed [], []⟩

def completed (c : Crypto) : Log → SessionEvent → List Record
  | .writing w, .append a => [w.recordFor c a]
  | .writing w, .crash a written => if (w.frameOf c a).length ≤ written then [w.recordFor c a] else []
  | _, _ => []

def step (c : Crypto) (j : Journal) (ev : SessionEvent) : Option Journal :=
  (j.log.session c ev).map fun log => ⟨log, j.complete ++ completed c j.log ev⟩

def tornAtMost : Except WalError Record → Bool
  | .ok _ => true
  | .error e => e.isTorn

/-- The condition on a step: a new writer reads the last complete record in the last segment, and the counter has a
    number left for the next record. -/
def Counted (c : Crypto) (j : Journal) (ev : SessionEvent) : Prop :=
  match j.log, ev with
  | .closed d, .openWriter _ key => ∀ r ∈ j.complete.getLast?, ∃ f ∈ d.getLast?,
      r ∈ good (readSegment c key f.index f.bytes) ∧ ∀ item ∈ readSegment c key f.index f.bytes, tornAtMost item
  | .writing w, .append _ => w.sequence ≠ .ofNat (2 ^ 64 - 1)
  | .writing w, .crash _ _ => w.sequence ≠ .ofNat (2 ^ 64 - 1)
  | _, _ => True

/-- The sequence numbers go up. -/
def Increasing (rs : List Record) : Prop := rs.Pairwise fun a b => a.header.sequence < b.header.sequence

variable {c : Crypto} {j : Journal} {w : WalWriter}

/-! ### Counting on -/

theorem le_highestSequence {items : List (Except WalError Record)} (last : UInt64)
    (torn : ∀ item ∈ items, tornAtMost item) :
    ∃ n, highestSequence last items = .ok n ∧ last ≤ n ∧ ∀ r ∈ good items, r.header.sequence ≤ n := by
  induction items generalizing last with
  | nil => exact ⟨last, rfl, UInt64.le_refl last, nofun⟩
  | cons item items ih =>
    rw [forall_mem_cons] at torn
    cases item with
    | error => exact ⟨last, if_pos torn.1, UInt64.le_refl last, nofun⟩
    | ok r =>
      obtain ⟨n, hn, hlast, hgood⟩ := ih (if r.header.sequence > last then r.header.sequence else last) torn.2
      have hboth : last ≤ n ∧ r.header.sequence ≤ n := by
        split_ifs at hlast with hlt
        · exact ⟨UInt64.le_trans (UInt64.le_of_lt hlt) hlast, hlast⟩
        · exact ⟨hlast, UInt64.le_trans (UInt64.not_lt.1 hlt) hlast⟩
      exact ⟨n, hn, hboth.1, forall_mem_cons.2 ⟨hboth.2, hgood⟩⟩

theorem le_openWithOptions {d : Dir} {f : SegmentFile} (size : Nat) {key : Option WalKey} (last : d.getLast? = some f)
    (torn : ∀ item ∈ readSegment c key f.index f.bytes, tornAtMost item) {r : Record}
    (read : r ∈ good (readSegment c key f.index f.bytes)) :
    r.header.sequence ≤ (openWithOptions c d size key).sequence := by
  obtain ⟨n, hn, -, hgood⟩ := le_highestSequence 0 torn
  have hscan : scanLastSequenceInSegment c key f = .ok n := hn
  simp only [openWithOptions, last, hscan]
  exact hgood r read

/-- The numbers increase, and an open writer is at the last of them or beyond. -/
structure Holds (j : Journal) : Prop where
  increasing : Increasing j.complete
  writer : ∀ w, j.log = .writing w → ∀ r ∈ j.complete, r.header.sequence ≤ w.sequence

theorem lt_succ {n : UInt64} (h : n ≠ .ofNat (2 ^ 64 - 1)) : n < n + 1 := by
  rw [UInt64.lt_iff_toNat_lt, UInt64.toNat_add]
  have hlt := n.toNat_lt
  have hne : n.toNat ≠ 2 ^ 64 - 1 := fun heq => h (by rw [← heq, UInt64.ofNat_toNat])
  simp only [UInt64.toNat_one]
  omega

theorem Increasing.concat {rs : List Record} (h : Increasing rs) (bound : ∀ r ∈ rs, r.header.sequence ≤ w.sequence)
    (free : w.sequence ≠ .ofNat (2 ^ 64 - 1)) (a : Append) : Increasing (rs ++ [w.recordFor c a]) := by
  refine pairwise_append.2 ⟨h, pairwise_singleton _ _, ?_⟩
  intro r hr r' hr'
  obtain rfl := mem_singleton.1 hr'
  exact UInt64.lt_of_le_of_lt (bound r hr) (lt_succ free)

theorem Holds.open (h : j.Holds) {d : Dir} (closed : j.log = .closed d) {size : Nat} {key : Option WalKey}
    (counted : j.Counted c (.openWriter size key)) :
    Holds ⟨.writing (.openWithOptions c d size key), j.complete⟩ := by
  refine ⟨h.increasing, ?_⟩
  rintro w ⟨⟩ r hr
  simp only [Counted, closed] at counted
  rcases eq_nil_or_concat j.complete with hnil | ⟨rs, last, hlast⟩
  · rw [hnil] at hr
    cases hr
  · obtain ⟨f, hf, hread, htorn⟩ := counted last (by simp [hlast])
    have hle := le_openWithOptions size hf htorn hread
    have hincreasing := h.increasing
    rw [hlast, concat_eq_append] at hincreasing hr
    rcases mem_append.1 hr with hold | hnew
    · have hlt := (pairwise_append.1 hincreasing).2.2 r hold last (mem_singleton_self last)
      exact UInt64.le_trans (UInt64.le_of_lt hlt) hle
    · obtain rfl := mem_singleton.1 hnew
      exact hle

theorem append_sequence (c : Crypto) (w : WalWriter) (a : Append) : (w.append c a).2.sequence = w.sequence + 1 := by
  unfold append
  simp only
  split <;> rfl

theorem Holds.append (h : j.Holds) (writing : j.log = .writing w) (a : Append)
    (free : w.sequence ≠ .ofNat (2 ^ 64 - 1)) :
    Holds ⟨.writing (w.append c a).2, j.complete ++ [w.recordFor c a]⟩ := by
  have hbound := h.writer w writing
  refine ⟨h.increasing.concat hbound free a, ?_⟩
  rintro w' ⟨⟩ r hr
  rw [append_sequence]
  rcases mem_append.1 hr with hold | hnew
  · exact UInt64.le_trans (hbound r hold) (UInt64.le_of_lt (lt_succ free))
  · obtain rfl := mem_singleton.1 hnew
    exact UInt64.le_refl _

theorem Holds.crash (h : j.Holds) (writing : j.log = .writing w) (a : Append) (written : Nat) (d : Dir)
    (free : w.sequence ≠ .ofNat (2 ^ 64 - 1)) :
    Holds ⟨.closed d, j.complete ++ completed c (.writing w) (.crash a written)⟩ := by
  refine ⟨?_, nofun⟩
  rw [completed]
  split_ifs
  · exact h.increasing.concat (h.writer w writing) free a
  · rw [append_nil]
    exact h.increasing

/-- In every run in which each new writer reads the last complete record in the last segment, the sequence numbers of
    the complete records increase along the log. -/
theorem sequences_increasing (c : Crypto) (j : Journal) (run : Run.Reachable (step c) (Counted c) start j) :
    Increasing j.complete := by
  suffices h : j.Holds from h.increasing
  refine run.invariant ⟨List.Pairwise.nil, nofun⟩ ?_
  intro j ev j' h counted hstep
  obtain ⟨log, hlog, rfl⟩ := Option.map_eq_some_iff.1 hstep
  cases hold : j.log with
  | closed =>
    rw [hold] at hlog
    cases ev with
    | openWriter =>
      cases hlog
      have hopen := h.open hold counted
      rwa [← append_nil j.complete] at hopen
    | append | close | crash => cases hlog
  | writing =>
    simp only [Counted, hold] at counted
    rw [hold] at hlog
    cases ev with
    | openWriter => cases hlog
    | append a =>
      cases hlog
      exact h.append hold a counted
    | close =>
      cases hlog
      exact ⟨by simpa [completed] using h.increasing, nofun⟩
    | crash a written =>
      cases hlog
      exact h.crash hold a written _ counted

instance (c : Crypto) (j : Journal) (ev : SessionEvent) : Decidable (j.Counted c ev) := by
  rcases j with ⟨_ | _, _⟩ <;> rcases ev with _ | _ <;> unfold Counted <;> infer_instance

/-- A crash ten bytes into the second record, and a new writer that goes on. -/
theorem sequences_increasing_torn :
    ∃ j, Run.exec (step Sample.crypto) start [.openWriter 1000 none, .append (Sample.append 1 .begin),
        .crash (Sample.append 1 .commit) 10, .openWriter 1000 none, .append (Sample.append 2 .begin)] = some j ∧
      j.complete.map (·.header.sequence) = [1, 2] ∧ Increasing j.complete :=
  Run.exists_of_exec (by decide +kernel) rfl fun run => ⟨by decide +kernel, sequences_increasing Sample.crypto _ run⟩

/-- When the process dies between rolling the segment and writing to the new one, the next writer counts from 1 again. -/
theorem sequences_restart : ∃ j, Run.exec (step Sample.crypto) start [.openWriter 38 none, .append (Sample.append 1 .begin),
        .crash (Sample.append 1 .commit) 0, .openWriter 38 none, .append (Sample.append 2 .begin)] = some j ∧
      j.complete.map (·.header.sequence) = [1, 1] ∧ ¬Increasing j.complete :=
  ⟨_, rfl, by decide +kernel, by unfold Increasing; decide +kernel⟩

end Journal

end VectorLedger.Wal
