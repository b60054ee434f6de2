import VectorLedger.Wal.Recovery

/-! The transaction manager: transactions that buffer their mutations, and the records that beginning, committing and
    rolling them back write to the log. -/

namespace VectorLedger.Tx

open Wal

structure Env where
  crypto : Crypto
  verifier : Verifier
  sign : SigningKey → Bytes → Vector UInt8 64
  publicKey : SigningKey → Vector UInt8 32

/-- A signature made with a key verifies under the public key of that key. -/
def Env.SignaturesVerify (env : Env) : Prop :=
  ∀ key msg, env.verifier.verify (env.publicKey key).toList msg (env.sign key msg).toList = .ok ()

inductive TxError where
  | notFound (txId : UInt64)
  | alreadyCommitted (txId : UInt64)
  | alreadyRolledBack (txId : UInt64)
  | idempotencyKeyConflict (key : String)
  | wal (e : RecoveryError)
  deriving DecidableEq, Repr

/-! ### Transactions -/

inductive TxState where
  | active
  | committed
  | rolledBack
  deriving DecidableEq, Repr

structure PendingMutation where
  tableId : UInt32
  pageId : UInt64
  slotId : UInt16
  kind : MutationKind
  rowData : Bytes
  rowHash : Hash
  prevHash : Option Hash
  deriving DecidableEq, Repr

structure Transaction where
  txId : UInt64
  snapshotTxId : UInt64
  state : TxState
  description : Option String
  mutations : List PendingMutation
  /-- What the hasher of the transaction has taken in. -/
  hasher : Bytes
  idempotencyKey : Option String
  deriving DecidableEq, Repr

namespace Transaction

def new (txId snapshotTxId : UInt64) (description : Option String) : Transaction where
  txId := txId
  snapshotTxId := snapshotTxId
  state := .active
  description := description
  mutations := []
  hasher := []
  idempotencyKey := none

def ensureActive (tx : Transaction) : Except TxError Unit :=
  match tx.state with
  | .active => .ok ()
  | .committed => .error (.alreadyCommitted tx.txId)
  | .rolledBack => .error (.alreadyRolledBack tx.txId)

def addMutation (tx : Transaction) (m : PendingMutation) : Except TxError Transaction := do
  tx.ensureActive
  pure { tx with hasher := tx.hasher ++ m.rowHash.toList, mutations := tx.mutations ++ [m] }

def setIdempotencyKey (tx : Transaction) (key : String) : Except TxError Transaction := do
  tx.ensureActive
  pure { tx with idempotencyKey := some key }

def txHash (blake3 : Bytes → Hash) (tx : Transaction) : Hash := blake3 tx.hasher

def markCommitted (tx : Transaction) : Except TxError Transaction := do
  tx.ensureActive
  pure { tx with state := .committed }

def markRolledBack (tx : Transaction) : Except TxError Transaction := do
  tx.ensureActive
  pure { tx with state := .rolledBack, mutations := [] }

def mutationCount (tx : Transaction) : UInt32 := .ofNat tx.mutations.length

end Transaction

/-! ### Writing -/

/-- The time and the nonces that an append draws. -/
structure Stamp where
  now : Int64
  nonce : Nonce
  rollNonce : Nonce

def Stamp.append (stamp : Stamp) (txId : UInt64) (w : RecordType × Bytes) : Append where
  txId := txId
  recordType := w.1
  payload := w.2
  now := stamp.now
  nonce := stamp.nonce
  rollNonce := stamp.rollNonce

def stamped (txId : UInt64) (stamps : Nat → Stamp) : List (RecordType × Bytes) → List Append
  | [] => []
  | w :: ws => (stamps 0).append txId w :: stamped txId (fun i => stamps (i + 1)) ws

def PendingMutation.payload (m : PendingMutation) : Wal.DataPayload where
  tableId := m.tableId
  pageId := m.pageId
  slotId := m.slotId
  mutation := m.kind
  rowData := m.rowData
  rowHash := m.rowHash
  prevHash := m.prevHash

def commitPayload (env : Env) (signingKey : Option SigningKey) (txHash : Hash) (count : UInt32) : Wal.CommitPayload :=
  match signingKey with
  | some key =>
    { recordCount := count
      txHash := txHash
      signature := (env.sign key (commitMessage txHash count.toNat)).toList
      signerPubkey := (env.publicKey key).toList }
  | none => ⟨count, txHash, [], []⟩

def commitWrites (env : Env) (signingKey : Option SigningKey) (tx : Transaction) : List (RecordType × Bytes) :=
  tx.mutations.map (fun m => (.data, m.payload.toBytes)) ++
    [(.commit, (commitPayload env signingKey (tx.txHash env.verifier.blake3) tx.mutationCount).toBytes)]

/-! ### The manager -/

structure TransactionManager where
  wal : WalWriter
  nextTxId : UInt64
  active : Finmap fun _ : UInt64 => Transaction
  committedIdempotencyKeys : Finset String
  lastCommittedTxId : UInt64
  signingKey : Option SigningKey

structure Mutation where
  tableId : UInt32
  pageId : UInt64
  slotId : UInt16
  kind : MutationKind
  rowData : Bytes
  prevHash : Option Hash
  deriving DecidableEq, Repr

def Mutation.pending (env : Env) (m : Mutation) : PendingMutation where
  tableId := m.tableId
  pageId := m.pageId
  slotId := m.slotId
  kind := m.kind
  rowData := m.rowData
  rowHash := env.verifier.blake3 m.rowData
  prevHash := m.prevHash

inductive Call where
  | begin (description : Option String)
  | addMutation (txId : UInt64) (m : Mutation)
  | setIdempotencyKey (txId : UInt64) (key : String)
  | commit (txId : UInt64)
  | rollback (txId : UInt64)
  deriving DecidableEq, Repr

namespace TransactionManager

/-- Open the log for writing, and read it for the highest committed id. The next id is one above that. -/
def openWithSigning (env : Env) (d : Dir) (signingKey : Option SigningKey) : Except TxError TransactionManager :=
  let wal := WalWriter.openWithOptions env.crypto d defaultSegmentSize none
  match Wal.recoverStreaming env.crypto env.verifier TxError.wal wal.dir none false none 0
      (fun last tx => (if tx.txId > last then tx.txId else last, .ok ())) (0 : UInt64) with
  | (_, .error e) => .error e
  | (last, .ok _) => .ok
    { wal := wal
      nextTxId := last + 1
      active := ∅
      committedIdempotencyKeys := ∅
      lastCommittedTxId := last
      signingKey := signingKey }

/-- A transaction whose idempotency key is committed already. -/
def repeatsKey (tm : TransactionManager) (tx : Transaction) : Bool :=
  tx.idempotencyKey.any (· ∈ tm.committedIdempotencyKeys)

/-- The transaction that a call writes records for, and these records. -/
def writes (env : Env) (tm : TransactionManager) : Call → UInt64 × List (RecordType × Bytes)
  | .begin description => (tm.nextTxId, [(.begin, beginBytes description)])
  | .addMutation txId _ | .setIdempotencyKey txId _ => (txId, [])
  | .commit txId =>
    match tm.active.lookup txId with
    | none => (txId, [])
    | some tx => (txId, if tm.repeatsKey tx then [] else commitWrites env tm.signingKey tx)
  | .rollback txId =>
    match tm.active.lookup txId with
    | none => (txId, [])
    | some tx =>
      match tx.markRolledBack with
      | .error _ => (txId, [])
      | .ok _ => (txId, [(.rollback, [])])

def appends (env : Env) (tm : TransactionManager) (call : Call) (stamps : Nat → Stamp) : List Append :=
  stamped (tm.writes env call).1 stamps (tm.writes env call).2

def append (env : Env) (tm : TransactionManager) (call : Call) (stamps : Nat → Stamp) : TransactionManager :=
  { tm with wal := (tm.wal.appendAll env.crypto (tm.appends env call stamps)).2 }

def begin (env : Env) (tm : TransactionManager) (description : Option String) (stamps : Nat → Stamp) :
    UInt64 × TransactionManager :=
  let txId := tm.nextTxId
  let snapshotTxId := tm.lastCommittedTxId + 1
  let tm := tm.append env (.begin description) stamps
  (txId, { tm with
    nextTxId := txId + 1
    active := tm.active.insert txId (.new txId snapshotTxId description) })

def addMutation (env : Env) (tm : TransactionManager) (txId : UInt64) (m : Mutation) :
    Except TxError Unit × TransactionManager :=
  match tm.active.lookup txId with
  | none => (.error (.notFound txId), tm)
  | some tx =>
    match tx.addMutation (m.pending env) with
    | .error e => (.error e, tm)
    | .ok tx => (.ok (), { tm with active := tm.active.insert txId tx })

def setIdempotencyKey (tm : TransactionManager) (txId : UInt64) (key : String) :
    Except TxError Unit × TransactionManager :=
  if key ∈ tm.committedIdempotencyKeys then (.error (.idempotencyKeyConflict key), tm)
  else
    match tm.active.lookup txId with
    | none => (.error (.notFound txId), tm)
    | some tx =>
      match tx.setIdempotencyKey key with
      | .error e => (.error e, tm)
      | .ok tx => (.ok (), { tm with active := tm.active.insert txId tx })

/-- A transaction whose key is committed already is dropped without a record. -/
def commit (env : Env) (tm : TransactionManager) (txId : UInt64) (stamps : Nat → Stamp) :
    Except TxError Unit × TransactionManager :=
  match tm.active.lookup txId with
  | none => (.error (.notFound txId), tm)
  | some tx =>
    if tm.repeatsKey tx then (.ok (), { tm with active := tm.active.erase txId })
    else
      let tm := tm.append env (.commit txId) stamps
      let tm := { tm with active := tm.active.erase txId }
      match tx.markCommitted with
      | .error e => (.error e, tm)
      | .ok _ =>
        (.ok (), { tm with
          lastCommittedTxId := if txId > tm.lastCommittedTxId then txId else tm.lastCommittedTxId
          committedIdempotencyKeys :=
            match tx.idempotencyKey with
            | some key => insert key tm.committedIdempotencyKeys
            | none => tm.committedIdempotencyKeys })

def rollback (env : Env) (tm : TransactionManager) (txId : UInt64) (stamps : Nat → Stamp) :
    Except TxError Unit × TransactionManager :=
  match tm.active.lookup txId with
  | none => (.error (.notFound txId), tm)
  | some tx =>
    match tx.markRolledBack with
    | .error e => (.error e, tm)
    | .ok _ =>
      let tm := tm.append env (.rollback txId) stamps
      (.ok (), { tm with active := tm.active.erase txId })

def run (env : Env) (tm : TransactionManager) (call : Call) (stamps : Nat → Stamp) :
    Except TxError Unit × TransactionManager :=
  match call with
  | .begin description => (.ok (), (tm.begin env description stamps).2)
  | .addMutation txId m => tm.addMutation env txId m
  | .setIdempotencyKey txId key => tm.setIdempotencyKey txId key
  | .commit txId => tm.commit env txId stamps
  | .rollback txId => tm.rollback env txId stamps

/-- The files when the process dies in a call, between two records: the first ones are written, and the segment may be
    rolled for the next one. -/
def crash (env : Env) (tm : TransactionManager) (call : Call) (stamps : Nat → Stamp) (appended : Nat) (rolled : Bool) :
    Dir :=
  let as := tm.appends env call stamps
  let wal := (tm.wal.appendAll env.crypto (as.take appended)).2
  match (as.drop appended).head? with
  | some next => if rolled then (wal.prepared env.crypto next).dir else wal.dir
  | none => wal.dir

end TransactionManager

/-! ### Sessions -/

inductive Db where
  | closed (d : Dir)
  | opened (tm : TransactionManager)

def Db.dir : Db → Dir
  | .closed d => d
  | .opened tm => tm.wal.dir

inductive Event where
  | openManager (signingKey : Option SigningKey)
  | call (call : Call) (stamps : Nat → Stamp)
  | close
  | crash (call : Call) (stamps : Nat → Stamp) (appended : Nat) (rolled : Bool)

/-- A manager that cannot be opened leaves the files as its writer found or made them. -/
def Db.step (env : Env) : Db → Event → Option Db
  | .closed d, .openManager signingKey =>
    match TransactionManager.openWithSigning env d signingKey with
    | .ok tm => some (.opened tm)
    | .error _ => some (.closed (WalWriter.openWithOptions env.crypto d defaultSegmentSize none).dir)
  | .opened tm, .call call stamps => some (.opened (tm.run env call stamps).2)
  | .opened tm, .close => some (.closed tm.wal.dir)
  | .opened tm, .crash call stamps appended rolled => some (.closed (tm.crash env call stamps appended rolled))
  | _, _ => none

end VectorLedger.Tx
