import VectorLedger.Theorems.Reopen

/-! Import sessions. A session commits entries without indexing them and leaves that to the next normal open. -/

namespace VectorLedger

open Sample LedgerStore

/-- The condition on a step: that the index stays behind the log only by entries the next open replays, and
    that a normal open finds the accounts of the segments it skips in SQLite and, with a signing key, no
    transaction that is cut at the first segment it reads. -/
def ImportStep (x : Machine) (ev : Event) : Prop :=
  LedgerStep x ev ∧
    match x, ev with
    | .down d, .openStore => d.AccountsKnown ∧ d.WholeIfSigned
    | _, _ => True

/-- In every run of such steps, with any number of import sessions, the next normal open succeeds. It has every
    committed entry in its index, sums the balances over entries among which are all that were not indexed
    before, and knows every committed account. -/
theorem imported_entries_recovered (cfg : Config) (sound : cfg.SignaturesVerify) (signingKey : Option SigningKey)
    (d : Disk) (run : Run.Reachable (Machine.step cfg) ImportStep (.down (.fresh signingKey)) (.down d))
    (ok : ImportStep (.down d) .openStore) :
    ∃ s, openStore cfg d = .ok s ∧ (∀ e ∈ committedEntries d.wal, e ∈ s.entryDb.entries) ∧
      (∃ es, es.Sublist (committedEntries d.wal) ∧ (∀ e ∈ committedEntries d.wal, e ∉ d.entryDb.entries → e ∈ es) ∧
        ∀ acct ∈ committedAccounts d.wal, s.balance acct.id = signedSum acct.accountType.isDebitNormal acct.id es) ∧
      ∀ acct ∈ committedAccounts d.wal, ∃ acct', s.accounts.lookup acct.id = some acct' ∧
        acct'.accountType = acct.accountType := by
  have inv : (Machine.down d).Consistent cfg :=
    run.invariant (.fresh cfg signingKey) fun _ _ _ hx ok h => hx.step ok.1 h
  have h : d.Consistent cfg := inv.disk
  obtain ⟨-, known, whole⟩ := ok
  refine ⟨LedgerStore.opened false d, h.durable.openWith sound whole false, ?_, ⟨d.recounted, ?_, ?_,
    fun acct hacct => h.opened_balance known hacct⟩, fun acct hacct => h.opened_knows known hacct⟩
  · intro e he
    rwa [h.opened_complete, opened_wal]
  · rcases h.recounted_cases with ⟨hall, -⟩ | ⟨-, hsplit⟩
    · rw [hall]
    · rw [hsplit]
      exact List.sublist_append_right _ _
  · intro e he hnew
    rcases h.recounted_cases with ⟨hall, -⟩ | ⟨-, hsplit⟩
    · rwa [hall]
    · rw [hsplit, List.mem_append] at he
      exact he.resolve_left hnew

instance (d : Disk) : Decidable d.PendingInLast := by
  unfold Disk.PendingInLast
  infer_instance

instance (s : LedgerStore) (op : Op) : Decidable (IndexReady s op) := by
  rcases op with _ | _ <;> unfold IndexReady <;> infer_instance

instance (x : Machine) (ev : Event) : Decidable (ImportStep x ev) := by
  rcases x with _ | _ <;> rcases ev with _ | _ <;> unfold ImportStep LedgerStep Disk.TipVisible <;> infer_instance

def Sample.twoImports : List Event :=
  twoAccounts ++ [.call io (.postEntry (transfer 10 none 5 2 1)), .close, .openForImport,
      .call io (.importEntryDirect (transfer 11 (some "k") 7 2 1)), .close, .openForImport,
      .call io (.importEntryDirect (transfer 12 (some "l") 8 2 1)), .close]

theorem imported_entries_recovered_two_sessions :
    ∃ d s, Run.exec (Machine.step config) (.down (.fresh (some signingKey))) twoImports = some (.down d) ∧
      (committedEntries d.wal).map (·.sequence) = [1, 2, 3] ∧ d.entryDb.entries.map (·.sequence) = [1] ∧
      openStore config d = .ok s ∧ ∀ e ∈ committedEntries d.wal, e ∈ s.entryDb.entries := by
  have hd : Run.exec (Machine.step config) (.down (.fresh (some signingKey))) twoImports = some (.down _) := rfl
  obtain ⟨s, hopen, hindex, -⟩ := imported_entries_recovered config config_signaturesVerify _ _
    (Run.reachable_of_exec (by decide +kernel) hd) (by decide +kernel)
  exact ⟨_, s, hd, by decide +kernel, by decide +kernel, hopen, hindex⟩

/-- The same key imported twice in one session: both entries are committed, and the next normal open indexes
    only the first. -/
theorem imported_entry_not_indexed : ((Run.exec (Machine.step config) (.down (.fresh none)) (twoAccounts ++
        [.close, .openForImport, .call io (.importEntryDirect (transfer 10 (some "k") 5 2 1)),
          .call io (.importEntryDirect (transfer 11 (some "k") 7 2 1)), .close,
          .openStore])).bind Machine.store?).map
      (fun s => ((committedEntries s.disk.wal).map (·.id), s.entryDb.entries.map (·.id))) = some ([10, 11], [10]) := by
  decide +kernel

end VectorLedger
