import VectorLedger.Theorems.Open

/-! Provenance of committed entries: which call committed an entry, and which checks it passed. -/

namespace VectorLedger

/-- The call that committed an entry, and what it checked before. -/
inductive EntryOrigin (cfg : Config) (io : Io) (s : LedgerStore) : Op → JournalEntry → Prop where
  | posted {e : JournalEntry} (valid : e.validate = .ok ()) (fresh : s.duplicateOf e = none)
      (checked : s.checkEntry cfg e = .ok ()) : EntryOrigin cfg io s (.postEntry e) (s.sealEntry cfg io e)
  | reversed {entryId : Uuid} {description domain : String} {original : JournalEntry}
      (checked : s.checkReversal entryId = .ok original) :
      EntryOrigin cfg io s (.reverseEntry entryId description domain)
        (s.sealReversal cfg io original entryId description domain)
  | imported {e : JournalEntry} (valid : e.validate = .ok ()) (fresh : s.duplicateOf e = none)
      (checked : LedgerStore.checkAll s.checkImportLine e.lines = .ok ()) :
      EntryOrigin cfg io s (.importEntryDirect e) (s.sealEntry cfg io e)

theorem EntryOrigin.counters {cfg : Config} {io : Io} {s : LedgerStore} {op : Op} {e : JournalEntry}
    (origin : EntryOrigin cfg io s op e) : e.sequence = s.nextSequence ∧ e.prevHash = s.lastChainHash := by
  cases origin <;> exact ⟨by simp, rfl⟩

theorem Effect.origin {cfg : Config} {io : Io} {s s' : LedgerStore} {op : Op} (h : Effect cfg io s op s') :
    ∃ ps, Wrote cfg s.txManager ps s'.txManager ∧
      (entriesOf ps = [] ∨ ∃ e, entriesOf ps = [e] ∧ EntryOrigin cfg io s op e) := by
  cases h with
  | rejected => exact ⟨_, .nothing, .inl rfl⟩
  | failed op c₁ c₂ reached wrote | created c₁ c₂ wrote | closed c₁ c₂ found wrote | held c₁ c₂ found wrote
  | settled c₁ c₂ wrote | reconciled c₁ c₂ wrote => exact ⟨_, wrote, .inl rfl⟩
  | posted c₁ c₂ valid fresh checked wrote =>
    exact ⟨_, wrote, .inr ⟨_, rfl, .posted valid fresh checked⟩⟩
  | reversed c₁ c₂ checked wrote => exact ⟨_, wrote, .inr ⟨_, rfl, .reversed checked⟩⟩
  | imported c₁ c₂ valid fresh checked wrote =>
    exact ⟨_, wrote, .inr ⟨_, rfl, .imported valid fresh checked⟩⟩

/-! ### Steps of the machine -/

def Event.running : Event → Option (Io × Op)
  | .call io op | .crash io op => some (io, op)
  | _ => none

/-- The transaction id of a call has no rows left over from an earlier session. -/
def CleanStep : Machine → Event → Prop
  | .up s, .call _ _ | .up s, .crash _ _ => s.txManager.NoLeftover
  | _, _ => True

/-- A call appends nothing behind a torn record, and its transaction id has no rows left over. -/
def AppendStep : Machine → Event → Prop
  | .up s, .call _ _ | .up s, .crash _ _ => s.txManager.Appendable
  | _, _ => True

variable {cfg : Config} {x y : Machine} {ev : Event}

theorem AppendStep.clean (h : AppendStep x ev) : CleanStep x ev := by
  cases x <;> cases ev <;> first | trivial | exact h.noLeftover

/-- What a step of the machine is. -/
inductive StepCase (cfg : Config) : Machine → Event → Machine → Prop where
  /-- An open that finds a commit tampered with. -/
  | refused {d : Disk} (ev : Event) : StepCase cfg (.down d) ev (.down d)
  | opened (d : Disk) (done : LedgerStore.openWith cfg false d = .ok (LedgerStore.opened false d)) :
      StepCase cfg (.down d) .openStore (.up (LedgerStore.opened false d))
  | importing (d : Disk) (done : LedgerStore.openWith cfg true d = .ok (LedgerStore.opened true d)) :
      StepCase cfg (.down d) .openForImport (.up (LedgerStore.opened true d))
  | called {s s' : LedgerStore} {io : Io} {op : Op} (effect : Effect cfg io s op s') :
      StepCase cfg (.up s) (.call io op) (.up s')
  | closed (s : LedgerStore) : StepCase cfg (.up s) .close (.down s.disk)
  | crashed {s s' : LedgerStore} {io : Io} {op : Op} (effect : Effect cfg io s op s') :
      StepCase cfg (.up s) (.crash io op) (.down s'.disk)

theorem Machine.step_cases (h : Machine.step cfg x ev = some y) : StepCase cfg x ev y := by
  cases x with
  | down d =>
    cases ev with
    | openStore =>
      cases h
      cases hopen : LedgerStore.openStore cfg d with
      | error => exact .refused _
      | ok =>
        obtain rfl := LedgerStore.openWith_ok hopen
        exact .opened d hopen
    | openForImport =>
      cases h
      cases hopen : LedgerStore.openForImport cfg d with
      | error => exact .refused _
      | ok =>
        obtain rfl := LedgerStore.openWith_ok hopen
        exact .importing d hopen
    | call | close | crash => cases h
  | up s =>
    cases ev with
    | openStore | openForImport => cases h
    | call io op =>
      cases h
      exact .called (s.call_effect cfg io op)
    | close =>
      cases h
      exact .closed s
    | crash io op =>
      cases h
      exact .crashed (s.call_effect cfg io op)

theorem Machine.forall_up {P : LedgerStore → Prop} {s : LedgerStore} (h : P s) : ∀ t, up s = up t → P t :=
  fun _ ht => up.inj ht ▸ h

theorem Wrote.entries_eq {tm tm' : TransactionManager} {ps : List DataPayload} (h : Wrote cfg tm ps tm')
    (clean : tm.NoLeftover) : committedEntries tm'.wal = committedEntries tm.wal ++ entriesOf ps := by
  rw [committedEntries_eq, committedEntries_eq, ← entriesOf_append, h.journal_eq clean]

theorem Wrote.entries_grow {tm tm' : TransactionManager} {ps : List DataPayload} (h : Wrote cfg tm ps tm') :
    committedEntries tm.wal <+: committedEntries tm'.wal ∧ ∀ e ∈ entriesOf ps, e ∈ committedEntries tm'.wal := by
  obtain ⟨late, happ, -⟩ := h.journal_grows
  simp only [committedEntries_eq, happ, entriesOf_append, List.mem_append]
  exact ⟨List.prefix_append _ _, fun e he => .inr (.inr he)⟩

theorem Effect.entries {io : Io} {s s' : LedgerStore} {op : Op} (h : Effect cfg io s op s')
    (clean : s.txManager.NoLeftover) :
    committedEntries s'.disk.wal = committedEntries s.disk.wal ∨
      ∃ e, EntryOrigin cfg io s op e ∧ committedEntries s'.disk.wal = committedEntries s.disk.wal ++ [e] := by
  obtain ⟨ps, wrote, horigin⟩ := h.origin
  have hentries : committedEntries s'.disk.wal = committedEntries s.disk.wal ++ entriesOf ps :=
    wrote.entries_eq clean
  rcases horigin with hnone | ⟨e, hone, origin⟩
  · left
    rw [hentries, hnone, List.append_nil]
  · right
    exact ⟨e, origin, by rw [hentries, hone]⟩

theorem LedgerStore.opened_wal (m : Bool) (d : Disk) : (LedgerStore.opened m d).disk.wal = d.wal :=
  congrArg TransactionManager.wal LedgerStore.opened_txManager

theorem Machine.step_entries (h : Machine.step cfg x ev = some y) (clean : CleanStep x ev) :
    committedEntries y.disk.wal = committedEntries x.disk.wal ∨
      ∃ s io op e, x = .up s ∧ ev.running = some (io, op) ∧ EntryOrigin cfg io s op e ∧
        committedEntries y.disk.wal = committedEntries x.disk.wal ++ [e] := by
  rcases Machine.step_cases h with _ | ⟨d, -⟩ | ⟨d, -⟩ | effect | _ | effect
  · exact .inl rfl
  · exact .inl (congrArg committedEntries (LedgerStore.opened_wal false d))
  · exact .inl (congrArg committedEntries (LedgerStore.opened_wal true d))
  · refine (effect.entries clean).imp_right ?_
    rintro ⟨e, origin, happ⟩
    exact ⟨_, _, _, e, rfl, rfl, origin, happ⟩
  · exact .inl rfl
  · refine (effect.entries clean).imp_right ?_
    rintro ⟨e, origin, happ⟩
    exact ⟨_, _, _, e, rfl, rfl, origin, happ⟩

end VectorLedger
