import VectorLedger.EntryDb

/-! The state of an open ledger store, the durable write of rows, and the operations on accounts, holds and
    settlement. -/

namespace VectorLedger

/-- What the environment gives to one call: the clock, the identifiers it draws, and how far its writes
    get. -/
structure Io where
  now : DateTime
  effectiveNow : DateTime
  newId : Uuid
  newLineId : Nat → Uuid
  /-- Whether the n-th page write of the call succeeds. -/
  pageWrite : Nat → Bool
  /-- Where the log stops with an error, if it does. -/
  walStop : Option WalStop
  /-- Whether the row of the entry, its full-text row, its n-th cross-reference and the account reach SQLite. -/
  sqliteRow : Bool
  sqliteFts : Bool
  sqliteRef : Nat → Bool
  sqliteAccount : Bool

structure WalCheckpoint where
  sqliteMaxSequence : Nat
  firstNeededSegment : Nat
  deriving DecidableEq, Repr

structure LedgerStore where
  txManager : TransactionManager
  entryDb : EntryDb
  accounts : Accounts
  balanceCache : BalanceCache
  nextSequence : Nat
  lastChainHash : Hash
  reversalEventIndex : Finmap fun _ : Uuid => Uuid
  settlementEventIndex : Finmap fun _ : Uuid => EntryStatus
  reconciliationHistory : List ReconciliationRecord
  legalHoldAccounts : Finset AccountId
  currencyRegistry : CurrencyRegistry
  nextAccountPage : Nat
  nextEntryPage : Nat
  /-- The checkpoint file in the data directory. -/
  walCheckpoint : Option WalCheckpoint
  lastCommittedEntryBytes : Option (List UInt8)

namespace LedgerStore

/-! ### In-memory state -/

def balance (s : LedgerStore) (a : AccountId) : Int := s.balanceCache.get a

def isUnderLegalHold (s : LedgerStore) (a : AccountId) : Bool := a ∈ s.legalHoldAccounts

def applyAccount (s : LedgerStore) (a : Account) : LedgerStore :=
  { s with
    legalHoldAccounts := if a.legalHold then insert a.id s.legalHoldAccounts else s.legalHoldAccounts.erase a.id
    accounts := s.accounts.insert a.id a }

/-- Add a line to the cached balance of its account. A line on an unknown account is passed over. -/
def updateBalanceCache (s : LedgerStore) (line : JournalLine) : LedgerStore :=
  match s.accounts.lookup line.accountId with
  | some acct =>
    { s with
      balanceCache := s.balanceCache.add line.accountId (line.delta acct.accountType.isDebitNormal) }
  | none => s

def updateBalances (s : LedgerStore) (e : JournalEntry) : LedgerStore :=
  if e.status.affectsBalance then e.lines.foldl updateBalanceCache s else s

/-! ### Index writes -/

def insertRefs (io : Io) (db : EntryDb) (e : JournalEntry) : EntryDb :=
  e.lines.zipIdx.foldl
    (fun db line => if io.sqliteRef line.2 then db.insertAccountEntry line.1.accountId e.sequence else db) db

/-- Index a committed entry. An error is only logged; the cross-references follow unless the row or its
    full-text row failed, and a row that was skipped has no full-text row. -/
def indexEntry (io : Io) (db : EntryDb) (e : JournalEntry) : EntryDb :=
  if !io.sqliteRow then db
  else if !io.sqliteFts && !decide (db.Refused e) then db.insert e
  else insertRefs io (db.insert e) e

/-! ### Durable writes -/

def pageFreeBytes : Nat := 8 * 1024 - 66

def writeToPage (cfg : Config) (io : Io) (n : Nat) (row : Row) (cursor : Nat) :
    Except LedgerError (Nat × Nat × Nat) :=
  let needed := 4 + (cfg.encode row).length
  if pageFreeBytes < needed then
    .error (.serialization ("page write_slot: Page " ++ toString cursor ++ " is full (" ++
      toString pageFreeBytes ++ " free, " ++ toString needed ++ " needed)"))
  else if !io.pageWrite n then .error (.serialization "page_store write: I/O error")
  else .ok (cursor, 0, cursor + 1)

def cursorFor (s : LedgerStore) : Row → Nat
  | .account _ => s.nextAccountPage
  | _ => s.nextEntryPage

def setCursorFor (s : LedgerStore) (cursor : Nat) : Row → LedgerStore
  | .account _ => { s with nextAccountPage := cursor }
  | _ => { s with nextEntryPage := cursor }

def payloadOf (cfg : Config) (pageId slotId : Nat) (mutation : MutationKind) (row : Row)
    (prevHash : Option Hash) : DataPayload :=
  ⟨pageId, slotId, mutation, row, cfg.blake3 (cfg.encode row), prevHash⟩

def runTransaction (cfg : Config) (io : Io) (s : LedgerStore) (description : Option String)
    (rows : List DataPayload) : Except LedgerError Unit × LedgerStore :=
  let (res, tm) := s.txManager.runTransaction cfg io.walStop description rows
  (res, { s with txManager := tm })

def persistRow (cfg : Config) (io : Io) (s : LedgerStore) (row : Row) (mutation : MutationKind)
    (prevHash : Option Hash) : Except LedgerError Unit × LedgerStore :=
  match writeToPage cfg io 0 row (s.cursorFor row) with
  | .error e => (.error e, s)
  | .ok (pageId, slotId, next) =>
    (s.setCursorFor next row).runTransaction cfg io none [payloadOf cfg pageId slotId mutation row prevHash]

/-- Write two rows in one transaction. Both take their page from the entry cursor. -/
def persistRowPair (cfg : Config) (io : Io) (s : LedgerStore) (rowA : Row) (prevA : Option Hash) (rowB : Row) :
    Except LedgerError Unit × LedgerStore :=
  match writeToPage cfg io 0 rowA s.nextEntryPage with
  | .error e => (.error e, s)
  | .ok (pageA, slotA, nextA) =>
    let s := { s with nextEntryPage := nextA }
    match writeToPage cfg io 1 rowB s.nextEntryPage with
    | .error e => (.error e, s)
    | .ok (pageB, slotB, nextB) =>
      { s with nextEntryPage := nextB }.runTransaction cfg io (some "reversal")
        [payloadOf cfg pageA slotA .insert rowA prevA, payloadOf cfg pageB slotB .insert rowB none]

/-! ### Accounts -/

def createAccount (cfg : Config) (io : Io) (s : LedgerStore) (a : Account) :
    Except LedgerError AccountId × LedgerStore :=
  match s.persistRow cfg io (.account a) .insert none with
  | (.error e, s) => (.error e, s)
  | (.ok (), s) =>
    let s := if io.sqliteAccount then { s with entryDb := s.entryDb.upsertAccount a } else s
    (.ok a.id, s.applyAccount a)

/-- Close an account: the status changes in memory before the new version is written. -/
def closeAccount (cfg : Config) (io : Io) (s : LedgerStore) (id : AccountId) :
    Except LedgerError Unit × LedgerStore :=
  match s.accounts.lookup id with
  | none => (.error (.accountNotFound (Uuid.toText id)), s)
  | some acct =>
    let acct := { acct with status := .closed }
    let s := { s with accounts := s.accounts.insert id acct }
    match s.persistRow cfg io (.account acct) .delete none with
    | (.error e, s) => (.error e, s)
    | (.ok (), s) =>
      (.ok (), if io.sqliteAccount then { s with entryDb := s.entryDb.upsertAccount acct } else s)

/-- Place or lift a legal hold: the flag of the account changes before the new version is written, the set
    of holds after it. -/
def setLegalHold (cfg : Config) (io : Io) (s : LedgerStore) (id : AccountId) (hold : Bool) :
    Except LedgerError Unit × LedgerStore :=
  match s.accounts.lookup id with
  | none => (.error (.accountNotFound (Uuid.toText id)), s)
  | some acct =>
    let acct := { acct with legalHold := hold }
    let s := { s with accounts := s.accounts.insert id acct }
    match s.persistRow cfg io (.account acct) .delete none with
    | (.error e, s) => (.error e, s)
    | (.ok (), s) =>
      (.ok (), { s with
        legalHoldAccounts := if hold then insert id s.legalHoldAccounts else s.legalHoldAccounts.erase id })

/-! ### Settlement -/

def checkHolds (s : LedgerStore) (lines : List JournalLine) : Except LedgerError Unit :=
  match lines.find? fun l => l.accountId ∈ s.legalHoldAccounts with
  | some line => .error (.accountUnderLegalHold (Uuid.toText line.accountId))
  | none => .ok ()

def applySettlementEvent (cfg : Config) (io : Io) (s : LedgerStore) (entryId : Uuid) (newStatus : EntryStatus)
    (notes : Option String) : Except LedgerError Unit × LedgerStore :=
  match s.entryDb.findById entryId with
  | none => (.error (.entryNotFound (Uuid.toText entryId)), s)
  | some entry =>
    match s.checkHolds entry.lines with
    | .error e => (.error e, s)
    | .ok () =>
      match s.persistRow cfg io (.settlementEvent ⟨entryId, newStatus, io.now, notes⟩) .insert none with
      | (.error e, s) => (.error e, s)
      | (.ok (), s) => (.ok (), { s with settlementEventIndex := s.settlementEventIndex.insert entryId newStatus })

/-- The status of an entry: a settlement event comes first, then a reversal, then the stored status. -/
def effectiveStatus (s : LedgerStore) (entryId : Uuid) : EntryStatus :=
  match s.settlementEventIndex.lookup entryId with
  | some status => status
  | none =>
    if (s.reversalEventIndex.lookup entryId).isSome then .reversed
    else s.entryDb.entries.foldl (fun status e => if e.id = entryId then e.status else status) .posted

def markPending (cfg : Config) (io : Io) (s : LedgerStore) (entryId : Uuid) (notes : Option String) :=
  s.applySettlementEvent cfg io entryId .pending notes

def markSettled (cfg : Config) (io : Io) (s : LedgerStore) (entryId : Uuid) (notes : Option String) :=
  s.applySettlementEvent cfg io entryId .settled notes

def markFailed (cfg : Config) (io : Io) (s : LedgerStore) (entryId : Uuid) (notes : Option String) :=
  s.applySettlementEvent cfg io entryId .failed notes

end LedgerStore

end VectorLedger
