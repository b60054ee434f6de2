import Mathlib.Data.List.Sort
import VectorLedger.Wal.Payload
import VectorLedger.Wal.Writer

/-! Recovery: the two loops over the records of a log that gather the committed transactions, and the checks of a
    commit. -/

namespace VectorLedger.Wal

inductive SignatureError where
  | invalidPubkey (reason : String)
  | mismatch (reason : String)
  deriving DecidableEq, Repr

structure Verifier where
  blake3 : Bytes → Hash
  verify : Bytes → Bytes → Bytes → Except SignatureError Unit
  /-- What the decoder says of a payload that it refuses. -/
  decodeError : Bytes → String

inductive RecoveryError where
  | reader (e : WalError)
  | unknownRecordType (byte : UInt8)
  | serialization (reason : String)
  | signatureInvalid (sequence : UInt64) (reason : String)
  deriving DecidableEq, Repr

def RecordType.tryFrom (byte : UInt8) : Except RecoveryError RecordType :=
  match byte with
  | 0x01 => .ok .begin
  | 0x02 => .ok .data
  | 0x03 => .ok .commit
  | 0x04 => .ok .rollback
  | 0x05 => .ok .checkpoint
  | 0x06 => .ok .schema
  | 0x07 => .ok .segmentHeader
  | other => .error (.unknownRecordType other)

structure CommittedTransaction where
  txId : UInt64
  commitRecord : Record
  dataPayloads : List DataPayload
  /-- The data records, where signatures are verified or all transactions are collected. -/
  dataRecords : List Record
  deriving DecidableEq, Repr

structure RecoveryResult where
  committed : List CommittedTransaction
  discardedTxCount : Nat
  lastSequence : UInt64
  tornWriteDetected : Bool
  deriving DecidableEq, Repr

/-! ### Checks of a commit -/

section Checks
variable (v : Verifier)

/-- A missing, zero or malformed key or signature passes. A key that is there is the one the signature is checked with. -/
def verifyCommitSignature (commit : Record) : Except RecoveryError Unit :=
  match decodeCommitPayload commit with
  | none => .error (.serialization (v.decodeError commit.payload))
  | some p =>
    if p.signerPubkey = [] ∨ p.signerPubkey = List.replicate 32 0 then .ok ()
    else if p.signature.length ≠ 64 ∨ p.signerPubkey.length ≠ 32 then .ok ()
    else
      match v.verify p.signerPubkey (commitMessage p.txHash p.recordCount.toNat) p.signature with
      | .ok () => .ok ()
      | .error (.invalidPubkey e) => .error (.signatureInvalid commit.header.sequence ("invalid pubkey: " ++ e))
      | .error (.mismatch e) => .error (.signatureInvalid commit.header.sequence ("signature mismatch: " ++ e))

def rowHashes : List Record → Except RecoveryError (List Hash)
  | [] => .ok []
  | r :: rs =>
    match decodeDataPayload r with
    | none => .error (.serialization ("failed to decode Data record (seq " ++ toString r.header.sequence ++
        "): Serialization error: " ++ v.decodeError r.payload))
    | some p => (rowHashes rs).map (p.rowHash :: ·)

def txHash (hashes : List Hash) : Hash := v.blake3 (hashes.flatMap Vector.toList)

def verifyCommitFull (commit : Record) (dataRecords : List Record) : Except RecoveryError Unit :=
  match decodeCommitPayload commit with
  | none => .error (.serialization (v.decodeError commit.payload))
  | some p =>
    let actual := UInt32.ofNat dataRecords.length
    if p.recordCount ≠ actual then
      .error (.signatureInvalid commit.header.sequence ("record_count mismatch: CommitPayload says " ++
        toString p.recordCount ++ ", but " ++ toString actual ++ " Data records found"))
    else
      match rowHashes v dataRecords with
      | .error e => .error e
      | .ok hashes =>
        if txHash v hashes ≠ p.txHash then
          .error (.signatureInvalid commit.header.sequence ("tx_hash mismatch: CommitPayload contains " ++
            hexEncode p.txHash.toList ++ ", recomputed from Data records is " ++ hexEncode (txHash v hashes).toList ++
            ". Data records may have been tampered with."))
        else verifyCommitSignature v commit

end Checks

/-! ### Pending transactions -/

/-- The entry of a transaction, made empty if it is not there. -/
def orDefault {α : Type} (p : TxLog.Pending α) (txId : UInt64) : TxLog.Pending α :=
  p.insert txId.toNat (TxLog.rowsOf p txId.toNat)

def push {α : Type} (p : TxLog.Pending α) (txId : UInt64) (a : α) : TxLog.Pending α :=
  p.insert txId.toNat (TxLog.rowsOf p txId.toNat ++ [a])

def maxSequence (last : UInt64) (r : Record) : UInt64 := if r.header.sequence > last then r.header.sequence else last

/-! ### Streaming -/

/-- What the streaming loop keeps between two records. -/
structure Pending where
  payloads : TxLog.Pending DataPayload
  raw : TxLog.Pending Record
  lastSequence : UInt64

def Pending.start : Pending := ⟨∅, ∅, 0⟩

def Pending.result (p : Pending) (torn : Bool) : RecoveryResult where
  committed := []
  discardedTxCount := p.payloads.keys.card + p.raw.keys.card
  lastSequence := p.lastSequence
  tornWriteDetected := torn

/-- The payload kept of a data record: of the table that is skipped, only its number. -/
def keptPayload (skip : Option UInt32) (r : Record) : Option DataPayload :=
  let tableId := decodeTableIdOnly r.payload
  if skip.any (fun s => tableId = some s) then some ⟨tableId.getD 0, 0, 0, .insert, [], zeroHash, none⟩
  else decodeDataPayload r

/-- Read one record: what is pending after it, and the transaction that it commits. -/
def streamRecord (v : Verifier) (verifySignatures : Bool) (skip : Option UInt32) (p : Pending) (r : Record) :
    Except RecoveryError (Pending × Option CommittedTransaction) := do
  let p := { p with lastSequence := maxSequence p.lastSequence r }
  let txId := r.header.txId
  match ← RecordType.tryFrom r.header.recordType with
  | .begin =>
    if verifySignatures then pure ({ p with raw := orDefault p.raw txId }, none)
    else pure ({ p with payloads := orDefault p.payloads txId }, none)
  | .data =>
    if verifySignatures then pure ({ p with raw := push p.raw txId r }, none)
    else
      match keptPayload skip r with
      | some payload => pure ({ p with payloads := push p.payloads txId payload }, none)
      | none => pure (p, none)
  | .commit =>
    if verifySignatures then
      let records := TxLog.rowsOf p.raw txId.toNat
      verifyCommitFull v r records
      pure ({ p with raw := p.raw.erase txId.toNat }, some ⟨txId, r, records.filterMap decodeDataPayload, records⟩)
    else
      pure ({ p with payloads := p.payloads.erase txId.toNat }, some ⟨txId, r, TxLog.rowsOf p.payloads txId.toNat, []⟩)
  | .rollback => pure ({ p with payloads := p.payloads.erase txId.toNat, raw := p.raw.erase txId.toNat }, none)
  | .checkpoint | .schema | .segmentHeader => pure (p, none)

section Streaming
variable {σ ε : Type} (v : Verifier) (fromWal : RecoveryError → ε) (verifySignatures : Bool) (skip : Option UInt32)
  (onCommit : σ → CommittedTransaction → σ × Except ε Unit)

/-- The loop over what the reader yields. The handler keeps what it has done when recovery fails later. -/
def streamItems (p : Pending) (acc : σ) : List (Except WalError Record) → σ × Except ε RecoveryResult
  | [] => (acc, .ok (p.result false))
  | .error e :: _ => if e.isTorn then (acc, .ok (p.result true)) else (acc, .error (fromWal (.reader e)))
  | .ok r :: items =>
    match streamRecord v verifySignatures skip p r with
    | .error e => (acc, .error (fromWal e))
    | .ok (p, none) => streamItems p acc items
    | .ok (p, some t) =>
      match onCommit acc t with
      | (acc, .error e) => (acc, .error e)
      | (acc, .ok ()) => streamItems p acc items

end Streaming

def Dir.fromSegment (d : Dir) (start : Nat) : Dir := d.filter fun f => start ≤ f.index

def recoverStreaming {σ ε : Type} (c : Crypto) (v : Verifier) (fromWal : RecoveryError → ε) (d : Dir)
    (masterKey : Option WalKey) (verifySignatures : Bool) (skip : Option UInt32) (startSegment : Nat)
    (onCommit : σ → CommittedTransaction → σ × Except ε Unit) (init : σ) : σ × Except ε RecoveryResult :=
  streamItems v fromWal verifySignatures skip onCommit .start init (readDir c masterKey (d.fromSegment startSegment))

def noteCall {ε : Type} (calls : List CommittedTransaction) (t : CommittedTransaction) :
    List CommittedTransaction × Except ε Unit := (calls ++ [t], .ok ())

/-- The calls that streaming recovery makes to its handler, and its result. -/
def streamed (c : Crypto) (v : Verifier) (d : Dir) (masterKey : Option WalKey) (verifySignatures : Bool)
    (skip : Option UInt32) (startSegment : Nat) : List CommittedTransaction × Except RecoveryError RecoveryResult :=
  recoverStreaming c v id d masterKey verifySignatures skip startSegment noteCall []

/-! ### Collecting -/

/-- What the collecting loop keeps between two records. -/
structure Collected where
  pending : TxLog.Pending Record
  committed : List CommittedTransaction
  lastSequence : UInt64

def Collected.start : Collected := ⟨∅, [], 0⟩

def sequenceLE (a b : CommittedTransaction) : Prop := a.commitRecord.header.sequence ≤ b.commitRecord.header.sequence

instance : DecidableRel sequenceLE := fun a b => by unfold sequenceLE; infer_instance

/-- The transactions are sorted by the sequence numbers of their commits, equal ones as they come. -/
def Collected.result (s : Collected) (torn : Bool) : RecoveryResult where
  committed := s.committed.insertionSort sequenceLE
  discardedTxCount := s.pending.keys.card
  lastSequence := s.lastSequence
  tornWriteDetected := torn

def collectRecord (v : Verifier) (verifySignatures : Bool) (s : Collected) (r : Record) :
    Except RecoveryError Collected := do
  let s := { s with lastSequence := maxSequence s.lastSequence r }
  let txId := r.header.txId
  match ← RecordType.tryFrom r.header.recordType with
  | .begin => pure { s with pending := orDefault s.pending txId }
  | .data => pure { s with pending := push s.pending txId r }
  | .commit =>
    let records := TxLog.rowsOf s.pending txId.toNat
    if verifySignatures then
      verifyCommitFull v r records
    pure { s with
      pending := s.pending.erase txId.toNat
      committed := s.committed ++ [⟨txId, r, records.filterMap decodeDataPayload, records⟩] }
  | .rollback => pure { s with pending := s.pending.erase txId.toNat }
  | .checkpoint | .schema | .segmentHeader => pure s

def collectItems (v : Verifier) (verifySignatures : Bool) (s : Collected) :
    List (Except WalError Record) → Except RecoveryError RecoveryResult
  | [] => .ok (s.result false)
  | .error e :: _ => if e.isTorn then .ok (s.result true) else .error (.reader e)
  | .ok r :: items =>
    match collectRecord v verifySignatures s r with
    | .error e => .error e
    | .ok s => collectItems v verifySignatures s items

def recoverWithOptions (c : Crypto) (v : Verifier) (d : Dir) (masterKey : Option WalKey) (verifySignatures : Bool) :
    Except RecoveryError RecoveryResult :=
  collectItems v verifySignatures .start (readDir c masterKey d)

def recover (c : Crypto) (v : Verifier) (d : Dir) : Except RecoveryError RecoveryResult :=
  recoverWithOptions c v d none false

def recoverVerified (c : Crypto) (v : Verifier) (d : Dir) (masterKey : Option WalKey) :
    Except RecoveryError RecoveryResult :=
  recoverWithOptions c v d masterKey true

end VectorLedger.Wal
