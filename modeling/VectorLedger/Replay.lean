import VectorLedger.Audit

/-! Opening a ledger: the committed transactions of the log are replayed from the checkpoint on. -/

namespace VectorLedger

/-- What is left in the data directory when no process has it open. -/
structure Disk where
  wal : Segments WalRecord
  entryDb : EntryDb
  walCheckpoint : Option WalCheckpoint
  signingKey : Option SigningKey

def Disk.fresh (key : Option SigningKey) : Disk := ⟨.empty, .empty, none, key⟩

def Disk.startSegment (d : Disk) : Nat :=
  match d.walCheckpoint with
  | some cp => cp.firstNeededSegment
  | none => 0

namespace LedgerStore

def disk (s : LedgerStore) : Disk :=
  ⟨s.txManager.wal, s.entryDb, s.walCheckpoint, s.txManager.signingKey⟩

def initial (d : Disk) : LedgerStore where
  txManager := .opened d.wal d.signingKey
  entryDb := d.entryDb
  accounts := ∅
  balanceCache := ∅
  nextSequence := 1
  lastChainHash := zeroHash
  reversalEventIndex := ∅
  settlementEventIndex := ∅
  reconciliationHistory := []
  legalHoldAccounts := ∅
  currencyRegistry := .new
  nextAccountPage := 0
  nextEntryPage := 0
  walCheckpoint := d.walCheckpoint
  lastCommittedEntryBytes := none

/-! ### Replaying one row -/

/-- The store during the replay, with the flag that the index is taken to be current. -/
structure Replay where
  store : LedgerStore
  sqliteIsCurrent : Bool

def advance (s : LedgerStore) (e : JournalEntry) : LedgerStore :=
  { s with
    nextSequence := if e.sequence ≥ s.nextSequence then e.sequence + 1 else s.nextSequence
    lastChainHash := e.chainHash
    nextEntryPage := s.nextEntryPage + 1 }

def replayIndex (s : LedgerStore) (e : JournalEntry) : LedgerStore :=
  let db := s.entryDb.insert e
  { s with entryDb := e.lines.foldl (fun db line => db.insertAccountEntry line.accountId e.sequence) db }

/-- Replay an entry. While the index is taken to be current only the counters move; the first entry above
    the index's largest sequence ends that, and from it on each entry counts in the balances. -/
def replayEntry (importMode : Bool) (sqliteMaxSeq : Nat) (r : Replay) (e : JournalEntry) : Replay :=
  if importMode then { r with store := r.store.advance e }
  else if r.sqliteIsCurrent then
    if e.sequence > sqliteMaxSeq then
      ⟨((r.store.advance e).updateBalances e).replayIndex e, false⟩
    else { r with store := r.store.advance e }
  else
    let s := (r.store.advance e).updateBalances e
    { r with store := if e.sequence ≤ sqliteMaxSeq then s else s.replayIndex e }

def replayRow (importMode : Bool) (sqliteMaxSeq : Nat) (r : Replay) (p : DataPayload) : Replay :=
  match p.mutation with
  | .insert | .update =>
    match p.row with
    | .account a => { r with store := r.store.applyAccount a }
    | .entry e => replayEntry importMode sqliteMaxSeq r e
    | .reversalEvent e =>
      { r with store := { r.store with
          reversalEventIndex := r.store.reversalEventIndex.insert e.originalEntryId e.reversalEntryId } }
    | .settlementEvent e =>
      { r with store := { r.store with
          settlementEventIndex := r.store.settlementEventIndex.insert e.entryId e.newStatus } }
    | .reconciliationRecord rec =>
      { r with store := { r.store with reconciliationHistory := r.store.reconciliationHistory ++ [rec] } }
  | .delete =>
    match p.row with
    | .account a => { r with store := r.store.applyAccount a }
    | _ => r

def replayTransaction (importMode : Bool) (sqliteMaxSeq : Nat) (r : Replay) (t : CommittedTransaction) :
    Replay :=
  t.rows.foldl (replayRow importMode sqliteMaxSeq) r

/-! ### Replaying the log -/

/-- The accounts of the skipped segments come from SQLite. An import does not load them. -/
def loadAccounts (s : LedgerStore) (startSegment : Nat) (importMode : Bool) : LedgerStore :=
  if startSegment > 0 && !importMode then s.entryDb.accounts.foldl applyAccount s else s

/-- When the index was current to the end, it gives the counters and the balances. -/
def finishReplay (r : Replay) : LedgerStore :=
  if r.sqliteIsCurrent then
    { r.store with
      nextSequence := r.store.entryDb.maxSequence + 1
      lastChainHash := r.store.entryDb.chainTip.getD r.store.lastChainHash
      balanceCache := r.store.entryDb.rebuildBalanceCache r.store.accounts r.store.balanceCache }
  else r.store

def replayFromWal (cfg : Config) (d : Disk) (importMode : Bool) : Except LedgerError LedgerStore :=
  let sqliteMaxSeq := if importMode then 0 else d.entryDb.maxSequence
  let start : Replay := ⟨(initial d).loadAccounts d.startSegment importMode, !importMode && sqliteMaxSeq > 0⟩
  match recoverStreaming cfg d.wal d.signingKey.isSome d.startSegment
      (replayTransaction importMode sqliteMaxSeq) start with
  | .error e => .error (.wal e)
  | .ok r => .ok (finishReplay r)

def writeCheckpoint (s : LedgerStore) : LedgerStore :=
  if s.entryDb.maxSequence > 0 then
    { s with walCheckpoint := some ⟨s.entryDb.maxSequence, s.txManager.wal.lastIndex⟩ }
  else s

def openWith (cfg : Config) (importMode : Bool) (d : Disk) : Except LedgerError LedgerStore :=
  match TransactionManager.openWithSigning d.wal d.signingKey with
  | .error e => .error (.transaction e)
  | .ok _ => (replayFromWal cfg d importMode).map writeCheckpoint

def openStore (cfg : Config) (d : Disk) : Except LedgerError LedgerStore := openWith cfg false d

def openForImport (cfg : Config) (d : Disk) : Except LedgerError LedgerStore := openWith cfg true d

end LedgerStore

end VectorLedger
