import VectorLedger.Theorems.Events
import VectorLedger.Theorems.Reopen

/-! Recovery of the balances after a crash. An open replays the committed entries and takes the index as a shortcut. -/

namespace VectorLedger

open Sample Machine LedgerStore

/-! ### Steps -/

/-- A post, a reversal or a new account under a new id. -/
def RecoverOp (s : LedgerStore) : Op → Prop
  | .createAccount a => ∀ b ∈ committedAccounts s.disk.wal, b.id ≠ a.id
  | .postEntry _ | .reverseEntry _ _ _ => True
  | _ => False

/-- The condition on a step: no rows are left over under its transaction id and no torn record stands before what it
    appends, SQLite takes the entry of a call that is not cut by a crash, and an open finds the accounts of the segments
    it skips in SQLite and, with a signing key, no transaction that is cut at the first segment it reads. A crash may
    tear a record. -/
def RecoverStep : Machine → Event → Prop
  | .up s, .call io op => s.txManager.Appendable ∧ RecoverOp s op ∧ io.sqliteRow = true
  | .up s, .crash _ op => s.txManager.Appendable ∧ RecoverOp s op
  | .down d, .openStore => d.AccountsKnown ∧ d.WholeIfSigned
  | .down _, .openForImport => False
  | _, _ => True

instance (s : LedgerStore) (op : Op) : Decidable (RecoverOp s op) := by
  rcases op with _ | _ <;> unfold RecoverOp <;> infer_instance

instance (x : Machine) (ev : Event) : Decidable (RecoverStep x ev) := by
  rcases x with _ | _ <;> rcases ev with _ | _ <;> unfold RecoverStep <;> infer_instance

section Steps
variable {cfg : Config} {io : Io} {s s' : LedgerStore} {op : Op} {x y : Machine} {ev : Event}

theorem LedgerStore.Complete.keyIndexed (complete : s.Complete) (op : Op) : KeyIndexed s op := by
  have hkey : ∀ key : String, (∃ c ∈ committedEntries s.txManager.wal, c.idempotencyKey = some key) →
      s.entryDb.idempotencyKeyExists key := by
    rintro key ⟨c, hc, hsame⟩
    have hmem : c ∈ s.entryDb.entries := by
      rw [complete]
      exact hc
    exact EntryDb.idempotencyKeyExists_of_mem hmem hsame
  unfold KeyIndexed
  split
  · split
    · exact hkey _
    · trivial
  · split
    · exact hkey _
    · trivial
  · trivial

theorem RecoverOp.freshId (allowed : RecoverOp s op) : FreshId s op := by
  cases op <;> first | exact allowed | trivial

theorem LedgerStore.Complete.indexReady (complete : s.Complete) (op : Op) : IndexReady s op := by
  cases op <;> first | exact complete | trivial

theorem RecoverOp.normal (allowed : RecoverOp s op) : op.Normal := by
  cases op <;> first | exact allowed.elim | trivial

theorem RowTaken.of_sqliteRow (sqlite : io.sqliteRow = true) (op : Op) : RowTaken io op := by
  cases op <;> first | exact sqlite | trivial

theorem EntryOrigin.rowTaken {e : JournalEntry} (origin : EntryOrigin cfg io s op e) (normal : op.Normal)
    (row : RowTaken io op) : io.sqliteRow = true := by
  cases origin with
  | posted | reversed => exact row
  | imported => exact normal.elim

/-- A call keeps a complete index complete. -/
theorem LedgerStore.Complete.effect (complete : s.Complete) (h : s.disk.Consistent cfg) (current : s.Current)
    (effect : Effect cfg io s op s') (clean : s.txManager.NoLeftover) (normal : op.Normal)
    (row : RowTaken io op) : s'.Complete := by
  have kept : LogsEntries cfg s s' [] → s'.entryDb.entries = s.entryDb.entries → s'.Complete := by
    intro log entries
    rw [LedgerStore.Complete, entries, complete, log.entries_eq clean, List.append_nil]
  cases effect.events with
  | kept log entries => exact kept log entries
  | committed e origin _ log entryDb =>
    have hindex := complete.indexEntry (origin.admitted h current (complete.keyIndexed op)) io
    rw [if_pos (origin.rowTaken normal row), ← entryDb] at hindex
    rw [LedgerStore.Complete, hindex, log.entries_eq clean]
  | imported e hop =>
    subst hop
    exact normal.elim
  | marked entryId status notes hop log entryDb => exact kept log (by rw [entryDb])

/-- What holds between the steps of such a run: while a store is open its index is complete. -/
structure Machine.Recoverable (cfg : Config) (x : Machine) : Prop where
  consistent : x.Consistent cfg
  complete : ∀ s, x = .up s → s.Complete

theorem Machine.Recoverable.ledgerStep (h : x.Recoverable cfg) (ok : RecoverStep x ev) : LedgerStep x ev := by
  cases x with
  | down => cases ev <;> first | exact ok.elim | trivial
  | up s =>
    have complete := h.complete s rfl
    cases ev with
    | call io op => exact ⟨ok.1, ok.2.1.freshId, complete.indexReady op, complete.keyIndexed op⟩
    | crash io op => exact ⟨ok.1, ok.2.freshId, complete.indexReady op, complete.keyIndexed op⟩
    | _ => trivial

/-- Such a step keeps the index of an open store complete. -/
theorem Machine.Recoverable.step (h : x.Recoverable cfg) (ok : RecoverStep x ev)
    (hstep : step cfg x ev = some y) : y.Recoverable cfg := by
  have consistent := h.consistent.step (h.ledgerStep ok) hstep
  cases step_cases hstep with
  | refused => exact h
  | opened => exact ⟨consistent, forall_up h.consistent.disk.opened_complete⟩
  | importing => exact ok.elim
  | called effect =>
    obtain ⟨appendable, allowed, sqlite⟩ := ok
    have current := h.consistent.current _ rfl
    exact ⟨consistent, forall_up ((h.complete _ rfl).effect h.consistent.disk current effect appendable.noLeftover
      allowed.normal (.of_sqliteRow sqlite _))⟩
  | closed | crashed => exact ⟨consistent, fun _ hs => nomatch hs⟩

end Steps

/-! ### Balances after an open -/

/-- In every run of such steps, and wherever it crashes, the next open succeeds and knows every committed
    account. All balances are the signed sums over the committed entries exactly when every committed entry is
    indexed, or the indexed ones sum to zero on every account. -/
theorem recovered_balances_iff (cfg : Config) (sound : cfg.SignaturesVerify) (signingKey : Option SigningKey)
    (d : Disk) (run : Run.Reachable (step cfg) RecoverStep (.down (.fresh signingKey)) (.down d))
    (ok : RecoverStep (.down d) .openStore) :
    ∃ s, openStore cfg d = .ok s ∧ (∀ acct ∈ committedAccounts d.wal, ∃ acct', s.accounts.lookup acct.id = some acct' ∧
        acct'.accountType = acct.accountType) ∧
      ((∀ acct ∈ committedAccounts d.wal,
          s.balance acct.id = signedSum acct.accountType.isDebitNormal acct.id (committedEntries d.wal)) ↔
        d.entryDb.entries = committedEntries d.wal ∨ ∀ acct ∈ committedAccounts d.wal,
          signedSum acct.accountType.isDebitNormal acct.id d.entryDb.entries = 0) := by
  have inv : (down d).Recoverable cfg :=
    run.invariant (P := Machine.Recoverable cfg) ⟨.fresh cfg signingKey, fun _ hs => nomatch hs⟩
      fun _ _ _ hx ok h => hx.step ok h
  have h : d.Consistent cfg := inv.consistent.disk
  obtain ⟨known, whole⟩ := ok
  refine ⟨LedgerStore.opened false d, h.durable.openWith sound whole false,
    fun acct hacct => h.opened_knows known hacct, ?_⟩
  have hbalance : ∀ acct ∈ committedAccounts d.wal, (LedgerStore.opened false d).balance acct.id =
      signedSum acct.accountType.isDebitNormal acct.id d.recounted :=
    fun acct hacct => h.opened_balance known hacct
  rcases h.recounted_cases with ⟨hall, hindex⟩ | ⟨hbehind, hsplit⟩
  · refine iff_of_true (fun acct hacct => ?_) ?_
    · rw [hbalance acct hacct, hall]
    · rcases hindex with hempty | hcomplete
      · refine .inr fun acct hacct => ?_
        rw [hempty, signedSum_nil]
      · exact .inl hcomplete
  · -- Only the entries that were not indexed are counted, so the indexed ones are missing from the sums.
    rw [or_iff_right hbehind]
    refine forall₂_congr fun acct hacct => ?_
    rw [hbalance acct hacct, hsplit, signedSum_append]
    omega

def Sample.crashBeforeIndex (e : JournalEntry) : Event := .crash { io with sqliteRow := false } (.postEntry e)

def Sample.crashedTwice : List Event :=
  twoAccounts ++ [crashBeforeIndex (transfer 10 none 5 2 1), .openStore, crashInRecord 20 (transfer 11 none 7 2 1)]

/-- The first open indexes the entry that the first crash left out, and the record that the second crash tore hides
    nothing. -/
theorem recovered_balances_iff_crashed_twice :
    ∃ d s, Run.exec (step config) (.down (.fresh (some signingKey))) crashedTwice = some (.down d) ∧
      openStore config d = .ok s ∧ d.wal.tears = [⟨0, 10, 20⟩] ∧ committedEntries d.wal ≠ [] ∧
      ∀ acct ∈ committedAccounts d.wal,
        s.balance acct.id = signedSum acct.accountType.isDebitNormal acct.id (committedEntries d.wal) := by
  have hd : Run.exec (step config) (.down (.fresh (some signingKey))) crashedTwice = some (.down _) := rfl
  obtain ⟨s, hopen, -, hiff⟩ := recovered_balances_iff config config_signaturesVerify _ _
    (Run.reachable_of_exec (by decide +kernel) hd) (by decide +kernel)
  exact ⟨_, s, hd, hopen, by decide +kernel, by decide +kernel, hiff.2 (.inl (by decide +kernel))⟩

/-- A crash before the second entry is indexed: the open counts the second entry, 7, and loses the first, 5. And a crash
    inside a record: what the next session commits stands behind the torn record and is not read again, so the open counts
    nothing although the index is empty. -/
theorem balance_lost_after_crash :
    (((Run.exec (step config) (.down (.fresh none)) (twoAccounts ++ [.call io (.postEntry (transfer 10 none 5 2 1)),
          crashBeforeIndex (transfer 11 none 7 2 1), .openStore])).bind store?).map
      fun s => (s.balance 1, signedSum true 1 (committedEntries s.disk.wal))) = some (7, 12) ∧
    ((Run.exec (step config) (.down (.fresh none)) (twoAccounts ++ [crashInRecord 20 (transfer 10 none 5 2 1), .openStore,
          crashBeforeIndex (transfer 11 none 7 2 1), .openStore])).bind store?).map
      (fun s => (s.balance 1, signedSum true 1 (committedEntries s.disk.wal), s.entryDb.entries)) = some (0, 7, []) := by
  constructor <;> decide +kernel

def Sample.secondPostCrashed : List Event :=
  twoAccounts ++ [.call io (.postEntry (transfer 10 none 5 2 1)), crashBeforeIndex (transfer 11 none 7 2 1)]

end VectorLedger
