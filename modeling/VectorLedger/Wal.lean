import VectorLedger.Entry
import VectorLedger.Lib.TxLog

/-! The rows of the ledger's tables, the write-ahead log that carries them, and the transaction manager that
    writes it. -/

namespace VectorLedger

/-! ### Rows -/

structure ReversalEvent where
  originalEntryId : Uuid
  reversalEntryId : Uuid
  reversedAt : DateTime
  deriving DecidableEq, Repr

structure SettlementEvent where
  entryId : Uuid
  newStatus : EntryStatus
  settledAt : DateTime
  notes : Option String
  deriving DecidableEq, Repr

structure ReconciliationRecord where
  id : Uuid
  runAt : DateTime
  entriesScanned : Nat
  accountsChecked : Nat
  discrepancyCount : Nat
  discrepancyJson : String
  ledgerSequenceAtRun : Nat
  chainTipAtRun : String
  deriving DecidableEq, Repr

structure ReconciliationDiscrepancy where
  accountId : AccountId
  accountCode : String
  cachedBalance : Int
  recomputedBalance : Int
  delta : Int
  deriving DecidableEq, Repr

inductive Row where
  | account (a : Account)
  | entry (e : JournalEntry)
  | reversalEvent (e : ReversalEvent)
  | settlementEvent (e : SettlementEvent)
  | reconciliationRecord (r : ReconciliationRecord)
  deriving DecidableEq, Repr

inductive Table where
  | accounts
  | entries
  | reversalEvents
  | settlementEvents
  | reconciliationEvents
  deriving DecidableEq, Repr

def Row.table : Row → Table
  | .account _ => .accounts
  | .entry _ => .entries
  | .reversalEvent _ => .reversalEvents
  | .settlementEvent _ => .settlementEvents
  | .reconciliationRecord _ => .reconciliationEvents

inductive MutationKind where
  | insert
  | update
  | delete
  deriving DecidableEq, Repr

/-! ### Records -/

/-- The payload of a begin record is the description of the transaction. -/
abbrev BeginPayload := Option String

structure DataPayload where
  pageId : Nat
  slotId : Nat
  mutation : MutationKind
  row : Row
  rowHash : Hash
  prevHash : Option Hash
  deriving DecidableEq, Repr

structure CommitPayload where
  recordCount : Nat
  txHash : Hash
  signature : List UInt8
  signerPubkey : List UInt8
  deriving DecidableEq, Repr

abbrev WalRecord := TxLog.Record BeginPayload DataPayload CommitPayload

abbrev CommittedTransaction := TxLog.Committed DataPayload CommitPayload

abbrev SigningKey := List UInt8

structure Config where
  blake3 : List UInt8 → Hash
  encode : Row → List UInt8
  /-- The length of a record's payload on disk. -/
  payloadLen : WalRecord → Nat
  toUppercase : String → String
  discrepancyJson : Finset ReconciliationDiscrepancy → String
  sign : SigningKey → List UInt8 → List UInt8
  publicKey : SigningKey → List UInt8
  verify : List UInt8 → List UInt8 → List UInt8 → Except String Unit

/-- A signature made with a key verifies under the public key of that key. -/
def Config.SignaturesVerify (cfg : Config) : Prop :=
  ∀ key msg, cfg.verify (cfg.publicKey key) msg (cfg.sign key msg) = .ok ()

/-! ### Segments -/

def defaultSegmentSize : Nat := 64 * 1024 * 1024

def onDiskSize (cfg : Config) (r : WalRecord) : Nat := 34 + cfg.payloadLen r + 4

/-- The offset of the writer is the length of the file when it was opened and the whole records since: the torn ones count
    that were there before, and these are the first `tearsAtOpen`. -/
def hasSpace (cfg : Config) (tearsAtOpen : Nat) (w : Segments WalRecord) (r : WalRecord) : Bool :=
  (w.active.map (onDiskSize cfg)).sum +
    (((w.tears.take tearsAtOpen).filter (·.segment = w.lastIndex)).map (·.bytes)).sum + onDiskSize cfg r ≤ defaultSegmentSize

/-- Where the writer stops with an error: after so many records, after rolling the segment for the next one if that record
    asks for it, and after so many bytes of that record. -/
structure WalStop where
  appended : Nat
  rolled : Bool
  torn : Nat
  deriving DecidableEq, Repr

/-- Append records until the end or the first error, which comes before the last record is written whole. -/
def appendRecords (cfg : Config) (tearsAtOpen : Nat) (stop : Option WalStop) (w : Segments WalRecord)
    (rs : List WalRecord) : Except WalError Unit × Segments WalRecord :=
  match stop with
  | none => (.ok (), w.appendAll (hasSpace cfg tearsAtOpen) rs)
  | some at_ =>
    let n := min at_.appended (rs.length - 1)
    let w := w.appendAll (hasSpace cfg tearsAtOpen) (rs.take n)
    let torn := (rs.drop n).head?.elim 0 fun r => min at_.torn (onDiskSize cfg r - 1)
    let rolled := (at_.rolled || 0 < torn) && (rs.drop n).head?.any (!hasSpace cfg tearsAtOpen w ·)
    (.error (.io "append"), w.stopAt rolled torn)

/-! ### Reading

A failed write leaves the first bytes of a record behind. The next open appends behind them, and a reader takes what it
finds there for the rest of that record. -/

/-- The records that a reader of these segments gets, and the error that it hands on. A torn record that is shorter than
    its magic number ends the segment, and the reader goes on with the next one. After the magic number alone the first
    byte of what follows is taken for the version, if there is a header to read. Otherwise the scan ends: the record is
    short, or the bytes of the others give it a checksum that does not match. -/
def readSegments (tears : List Tear) : Nat → List (List WalRecord) → List WalRecord × Option WalError
  | _, [] => ([], none)
  | i, segment :: rest =>
    match tears.filter (·.segment = i) with
    | [] => (readSegments tears (i + 1) rest).map (segment ++ ·) id
    | tear :: later =>
      if tear.bytes < 4 then (readSegments tears (i + 1) rest).map (segment.take tear.before ++ ·) id
      else if tear.bytes = 4 ∧ (tear.before < segment.length ∨ 30 ≤ (later.map (·.bytes)).sum) then
        (segment.take tear.before, some (.unsupportedVersion 0x42))
      else (segment.take tear.before, none)

def readLog (w : Segments WalRecord) (startSegment : Nat) : List WalRecord × Option WalError :=
  readSegments w.tears startSegment (w.all.drop startSegment)

/-! ### Recovery -/

def commitMessage (txHash : Hash) (recordCount : Nat) : List UInt8 := txHash.toList ++ leBytes 4 recordCount

/-- A missing, zero or malformed key or signature passes, as written without signing. -/
def verifyCommitSignature (cfg : Config) (p : CommitPayload) : Except WalError Unit :=
  if p.signerPubkey = [] ∨ p.signerPubkey = List.replicate 32 0 then .ok ()
  else if p.signature.length ≠ 64 ∨ p.signerPubkey.length ≠ 32 then .ok ()
  else
    match cfg.verify p.signerPubkey (commitMessage p.txHash p.recordCount) p.signature with
    | .ok () => .ok ()
    | .error e => .error (.signatureInvalid ("signature mismatch: " ++ e))

def txHashOf (cfg : Config) (rows : List DataPayload) : Hash :=
  cfg.blake3 (rows.flatMap (·.rowHash.toList))

def verifyCommitFull (cfg : Config) (t : CommittedTransaction) : Except WalError Unit :=
  if t.info.recordCount ≠ t.rows.length % 2 ^ 32 then
    .error (.signatureInvalid ("record_count mismatch: CommitPayload says " ++ toString t.info.recordCount ++
      ", but " ++ toString (t.rows.length % 2 ^ 32) ++ " Data records found"))
  else if txHashOf cfg t.rows ≠ t.info.txHash then
    .error (.signatureInvalid ("tx_hash mismatch: CommitPayload contains " ++ hexEncode t.info.txHash.toList ++
      ", recomputed from Data records is " ++ hexEncode (txHashOf cfg t.rows).toList ++
      ". Data records may have been tampered with."))
  else verifyCommitSignature cfg t.info

/-- Read the segments from `startSegment` on and hand each committed transaction to `onCommit`. -/
def recoverStreaming {σ : Type} (cfg : Config) (w : Segments WalRecord) (verifySignatures : Bool)
    (startSegment : Nat) (onCommit : σ → CommittedTransaction → σ) (init : σ) : Except WalError σ := do
  let res ← TxLog.recover (fun t => if verifySignatures then verifyCommitFull cfg t else .ok ()) onCommit ∅ init
    (readLog w startSegment).1
  match (readLog w startSegment).2 with
  | some e => .error e
  | none => .ok res

/-! ### Transaction manager -/

structure TransactionManager where
  wal : Segments WalRecord
  tearsAtOpen : Nat
  nextTxId : Nat
  signingKey : Option SigningKey
  deriving DecidableEq, Repr

namespace TransactionManager

def opened (w : Segments WalRecord) (key : Option SigningKey) : TransactionManager where
  wal := w
  tearsAtOpen := w.tears.length
  nextTxId := (TxLog.committed (readLog w 0).1).foldl (fun last t => if t.tx > last then t.tx else last) 0 + 1
  signingKey := key

/-- The log is read as a whole, for the largest id of a committed transaction. -/
def openWithSigning (w : Segments WalRecord) (key : Option SigningKey) : Except WalError TransactionManager :=
  match (readLog w 0).2 with
  | some e => .error e
  | none => .ok (opened w key)

def commitPayload (cfg : Config) (key : Option SigningKey) (rows : List DataPayload) : CommitPayload :=
  let count := rows.length % 2 ^ 32
  let hash := txHashOf cfg rows
  match key with
  | some sk => ⟨count, hash, cfg.sign sk (commitMessage hash count), cfg.publicKey sk⟩
  | none => ⟨count, hash, [], []⟩

def transactionRecords (cfg : Config) (tm : TransactionManager) (description : Option String)
    (rows : List DataPayload) : List WalRecord :=
  TxLog.transaction tm.nextTxId description rows (commitPayload cfg tm.signingKey rows)

/-- Begin a transaction, add its mutations and commit it. The id is taken even when the log fails. -/
def runTransaction (cfg : Config) (stop : Option WalStop) (tm : TransactionManager)
    (description : Option String) (rows : List DataPayload) :
    Except LedgerError Unit × TransactionManager :=
  let (res, wal) := appendRecords cfg tm.tearsAtOpen stop tm.wal (tm.transactionRecords cfg description rows)
  (res.mapError .transaction, { tm with wal := wal, nextTxId := tm.nextTxId + 1 })

end TransactionManager

end VectorLedger
