import VectorLedger.Theorems.Session

/-! What a call does to the index, the counters and the two event indexes, said once for the results about the
    hash chain, reversals and statuses. -/

namespace VectorLedger

/-- The operation is not an import. -/
def Op.Normal : Op → Prop
  | .importEntryDirect _ => False
  | _ => True

/-- SQLite takes the row of an entry. -/
def RowTaken (io : Io) : Op → Prop
  | .postEntry _ | .reverseEntry _ _ _ => io.sqliteRow = true
  | _ => True

instance (op : Op) : Decidable op.Normal := by
  rcases op with _ | _ <;> unfold Op.Normal <;> infer_instance

instance (io : Io) (op : Op) : Decidable (RowTaken io op) := by
  rcases op with _ | _ <;> unfold RowTaken <;> infer_instance

def Op.recordReversal (op : Op) (e : JournalEntry) (index : Finmap fun _ : Uuid => Uuid) : Finmap fun _ : Uuid => Uuid :=
  match op with
  | .reverseEntry entryId _ _ => index.insert entryId e.id
  | _ => index

/-- Between the two stores these entries were written to the log. -/
def LogsEntries (cfg : Config) (s s' : LedgerStore) (es : List JournalEntry) : Prop :=
  ∃ ps, Wrote cfg s.txManager ps s'.txManager ∧ entriesOf ps = es

/-- A call leaves the index and the events alone, or commits an entry and indexes it, or imports one without
    indexing it, or marks an entry with a status. -/
inductive EventEffect (cfg : Config) (io : Io) (s : LedgerStore) (op : Op) (s' : LedgerStore) : Prop where
  | kept (log : LogsEntries cfg s s' []) (entries : s'.entryDb.entries = s.entryDb.entries) (tip : s'.lastChainHash = s.lastChainHash)
      (next : s.nextSequence ≤ s'.nextSequence) (reversals : s'.reversalEventIndex = s.reversalEventIndex)
      (settlements : s'.settlementEventIndex = s.settlementEventIndex)
  | committed (e : JournalEntry) (origin : EntryOrigin cfg io s op e) (normal : op.Normal)
      (log : LogsEntries cfg s s' [e])
      (entryDb : s'.entryDb = LedgerStore.indexEntry io s.entryDb e) (tip : s'.lastChainHash = e.chainHash)
      (next : s'.nextSequence = s.nextSequence + 1)
      (reversals : s'.reversalEventIndex = op.recordReversal e s.reversalEventIndex)
      (settlements : s'.settlementEventIndex = s.settlementEventIndex)
  | imported (e : JournalEntry) (hop : op = .importEntryDirect e) (reached : op.Reaches cfg s)
      (log : LogsEntries cfg s s' [s.sealEntry cfg io e]) (entryDb : s'.entryDb = s.entryDb)
      (reversals : s'.reversalEventIndex = s.reversalEventIndex)
      (settlements : s'.settlementEventIndex = s.settlementEventIndex)
  | marked (entryId : Uuid) (status : EntryStatus) (notes : Option String)
      (hop : op = .applySettlementEvent entryId status notes) (log : LogsEntries cfg s s' [])
      (entryDb : s'.entryDb = s.entryDb)
      (tip : s'.lastChainHash = s.lastChainHash) (next : s'.nextSequence = s.nextSequence)
      (reversals : s'.reversalEventIndex = s.reversalEventIndex)
      (settlements : s'.settlementEventIndex = s.settlementEventIndex.insert entryId status)

theorem Effect.events {cfg : Config} {io : Io} {s s' : LedgerStore} {op : Op} (h : Effect cfg io s op s') :
    EventEffect cfg io s op s' := by
  cases h with
  | rejected => exact .kept ⟨_, .nothing, rfl⟩ rfl rfl (Nat.le_refl _) rfl rfl
  | failed op c₁ c₂ reached wrote =>
    rcases op.begun_cases s with hsame | htaken | ⟨id, old, new, -, -, -, hversion⟩
    · rw [hsame]
      exact .kept ⟨_, wrote, rfl⟩ rfl rfl (Nat.le_refl _) rfl rfl
    · rw [htaken]
      exact .kept ⟨_, wrote, rfl⟩ rfl rfl (Nat.le_succ _) rfl rfl
    · rw [hversion]
      exact .kept ⟨_, wrote, rfl⟩ rfl rfl (Nat.le_refl _) rfl rfl
  | created c₁ c₂ wrote => exact .kept ⟨_, wrote, rfl⟩ EntryDb.entries_upsertAccount rfl (Nat.le_refl _) rfl rfl
  | closed c₁ c₂ found wrote =>
    exact .kept ⟨_, wrote, rfl⟩ EntryDb.entries_upsertAccount rfl (Nat.le_refl _) rfl rfl
  | held c₁ c₂ found wrote | reconciled c₁ c₂ wrote => exact .kept ⟨_, wrote, rfl⟩ rfl rfl (Nat.le_refl _) rfl rfl
  | posted c₁ c₂ valid fresh checked wrote =>
    exact .committed _ (.posted valid fresh checked) trivial ⟨_, wrote, rfl⟩ rfl rfl rfl rfl rfl
  | reversed c₁ c₂ checked wrote =>
    exact .committed _ (.reversed checked) trivial ⟨_, wrote, rfl⟩ rfl rfl rfl rfl rfl
  | imported c₁ c₂ valid fresh checked wrote => exact .imported _ rfl ⟨valid, fresh, checked⟩ ⟨_, wrote, rfl⟩ rfl rfl rfl
  | settled c₁ c₂ wrote => exact .marked _ _ _ rfl ⟨_, wrote, rfl⟩ rfl rfl rfl rfl rfl

section LogsEntries
variable {cfg : Config} {s s' : LedgerStore} {es : List JournalEntry}

theorem LogsEntries.entries_eq (h : LogsEntries cfg s s' es) (clean : s.txManager.NoLeftover) :
    committedEntries s'.disk.wal = committedEntries s.disk.wal ++ es := by
  obtain ⟨ps, wrote, rfl⟩ := h
  exact wrote.entries_eq clean

theorem LogsEntries.ahead (h : LogsEntries cfg s s' es) (ahead : s.txManager.Ahead) : s'.txManager.Ahead := by
  obtain ⟨ps, wrote, -⟩ := h
  exact wrote.ahead ahead

theorem LedgerStore.ahead_initial (key : Option SigningKey) : (LedgerStore.initial (.fresh key)).txManager.Ahead :=
  fun _ _ => TxLog.rowsOf_empty

end LogsEntries

end VectorLedger
