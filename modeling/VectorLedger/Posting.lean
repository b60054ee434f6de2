import VectorLedger.Store

/-! The three ways an entry is committed: posting, reversal and bulk import. -/

namespace VectorLedger.LedgerStore

/-! ### Checks of an entry -/

def duplicateOf (s : LedgerStore) (e : JournalEntry) : Option Nat :=
  match e.idempotencyKey with
  | some key =>
    if s.entryDb.idempotencyKeyExists key then some ((s.entryDb.sequenceForIdempotencyKey key).getD 0) else none
  | none => none

def saturate (v : Int) : Int := min v (2 ^ 63 - 1)

def maxMinor (precision : UInt8) : Int :=
  saturate (saturate (10 ^ (18 - precision.toNat)) * saturate (10 ^ precision.toNat))

def checkPrecision (cfg : Config) (s : LedgerStore) (line : JournalLine) : Except LedgerError Unit :=
  match CurrencyRegistry.precision cfg.toUppercase s.currencyRegistry line.currencyCode with
  | some precision =>
    if maxMinor precision < line.amount.asI64.abs.toInt then
      .error (.precisionViolation line.currencyCode precision line.amount.asI64 (.ofInt (maxMinor precision)))
    else .ok ()
  | none => .ok ()

def checkLine (cfg : Config) (s : LedgerStore) (approvedBy : Option String) (line : JournalLine) :
    Except LedgerError Unit :=
  match s.accounts.lookup line.accountId with
  | none => .error (.accountNotFound (Uuid.toText line.accountId))
  | some acct =>
    if !acct.isActive then .error (.accountClosed (Uuid.toText line.accountId))
    else if acct.legalHold then .error (.accountUnderLegalHold (Uuid.toText line.accountId))
    else if acct.currencyCode ≠ line.currencyCode then
      .error (.currencyMismatch acct.currencyCode line.currencyCode)
    else
      match s.checkPrecision cfg line with
      | .error e => .error e
      | .ok () => if acct.requireFourEyes && approvedBy.isNone then .error .fourEyesRequired else .ok ()

def netDebitDelta (lines : List JournalLine) : BalanceCache :=
  Tally.addAll ∅ (lines.map fun l => (l.accountId, l.delta true))

def totalDebit (lines : List JournalLine) : BalanceCache :=
  Tally.addAll ∅ ((lines.filter fun l => l.drCr = .debit).map fun l => (l.accountId, l.amount.asI128))

def checkExposure (acct : Account) (a : AccountId) (lines : List JournalLine) : Except LedgerError Unit :=
  match acct.exposureLimit with
  | some limit =>
    if (totalDebit lines).get a > limit.toInt then
      .error (.exposureLimitExceeded (Uuid.toText a) limit.toInt ((totalDebit lines).get a))
    else .ok ()
  | none => .ok ()

/-- The balance of the account must not fall below zero by what the whole entry does to it. -/
def checkNonNegative (s : LedgerStore) (acct : Account) (a : AccountId) (delta : Int) :
    Except LedgerError Unit :=
  if acct.requireNonNegativeBalance && acct.accountType.isDebitNormal && delta < 0 then
    if s.balance a + delta < 0 then .error (.insufficientFunds (Uuid.toText a) (s.balance a) (-delta)) else .ok ()
  else .ok ()

/-- The checks that a post makes on one account over all lines of the entry. -/
def checkAccount (s : LedgerStore) (lines : List JournalLine) (a : AccountId) : Except LedgerError Unit :=
  match s.accounts.lookup a with
  | none => .error (.accountNotFound (Uuid.toText a))
  | some acct =>
    match checkExposure acct a lines with
    | .error e => .error e
    | .ok () => s.checkNonNegative acct a ((netDebitDelta lines).get a)

def checkAll {α : Type} (check : α → Except LedgerError Unit) : List α → Except LedgerError Unit
  | [] => .ok ()
  | a :: as =>
    match check a with
    | .error e => .error e
    | .ok () => checkAll check as

def checkEntry (cfg : Config) (s : LedgerStore) (e : JournalEntry) : Except LedgerError Unit :=
  match checkAll (s.checkLine cfg e.approvedBy) e.lines with
  | .error err => .error err
  | .ok () => checkAll (s.checkAccount e.lines) (e.lines.map (·.accountId)).dedup

/-! ### Posting -/

/-- The entry as it is committed: with its sequence, its posting time and its place in the chain. -/
def sealEntry (cfg : Config) (io : Io) (s : LedgerStore) (e : JournalEntry) : JournalEntry :=
  { e with sequence := s.nextSequence, postedAt := io.now }.finalizeChainHash cfg.blake3 s.lastChainHash

def takeSequence (s : LedgerStore) : LedgerStore := { s with nextSequence := s.nextSequence + 1 }

def postEntry (cfg : Config) (io : Io) (s : LedgerStore) (e : JournalEntry) :
    Except LedgerError Nat × LedgerStore :=
  match e.validate with
  | .error err => (.error err, s)
  | .ok () =>
    match s.duplicateOf e with
    | some sequence => (.ok sequence, s)
    | none =>
      match s.checkEntry cfg e with
      | .error err => (.error err, s)
      | .ok () =>
        let entry := s.sealEntry cfg io e
        match s.takeSequence.persistRow cfg io (.entry entry) .insert (some entry.prevHash) with
        | (.error err, s) => (.error err, s)
        | (.ok (), s) =>
          let s := { s with
            lastCommittedEntryBytes := some (cfg.encode (.entry entry))
            lastChainHash := entry.chainHash }
          let s := s.updateBalances entry
          (.ok entry.sequence, { s with entryDb := indexEntry io s.entryDb entry })

/-! ### Reversal -/

def reversalLine (io : Io) (line : JournalLine) (n : Nat) : JournalLine where
  id := io.newLineId n
  accountId := line.accountId
  currencyCode := line.currencyCode
  amount := line.amount
  drCr := line.drCr.flip
  memo := some ("Reversal of line " ++ Uuid.toText line.id)

def reversalEntry (io : Io) (s : LedgerStore) (original : JournalEntry) (entryId : Uuid)
    (description domain : String) : JournalEntry where
  id := io.newId
  sequence := s.nextSequence
  status := .reversal
  description := description
  lines := original.lines.zipIdx.map fun l => reversalLine io l.1 l.2
  effectiveAt := io.effectiveNow
  postedAt := io.now
  externalRef := none
  idempotencyKey := none
  reversesEntryId := some entryId
  reversedByEntryId := none
  domain := domain
  contentHash := zeroHash
  prevHash := zeroHash
  chainHash := zeroHash
  approvedBy := none
  metadata := none

def sealReversal (cfg : Config) (io : Io) (s : LedgerStore) (original : JournalEntry) (entryId : Uuid)
    (description domain : String) : JournalEntry :=
  (reversalEntry io s original entryId description domain).finalizeHashes cfg.blake3 s.lastChainHash

def checkReversal (s : LedgerStore) (entryId : Uuid) : Except LedgerError JournalEntry :=
  match (s.entryDb.findById entryId).bind fun e => s.entryDb.getBySequence e.sequence with
  | none => .error (.entryNotFound (Uuid.toText entryId))
  | some original =>
    if original.status ≠ .posted then .error (.cannotReverse (Uuid.toText entryId) original.status)
    else
      match s.checkHolds original.lines with
      | .error err => .error err
      | .ok () =>
        match s.reversalEventIndex.lookup entryId with
        | some reversalId => .error (.alreadyReversed (Uuid.toText entryId) (Uuid.toText reversalId))
        | none => .ok original

def reverseEntry (cfg : Config) (io : Io) (s : LedgerStore) (entryId : Uuid) (description domain : String) :
    Except LedgerError Uuid × LedgerStore :=
  match s.checkReversal entryId with
  | .error err => (.error err, s)
  | .ok original =>
    let reversal := s.sealReversal cfg io original entryId description domain
    let event : ReversalEvent := ⟨entryId, reversal.id, reversal.postedAt⟩
    match s.takeSequence.persistRowPair cfg io (.entry reversal) (some reversal.prevHash)
      (.reversalEvent event) with
    | (.error err, s) => (.error err, s)
    | (.ok (), s) =>
      let s := { s with
        lastChainHash := reversal.chainHash
        reversalEventIndex := s.reversalEventIndex.insert entryId reversal.id }
      let s := s.updateBalances reversal
      (.ok reversal.id, { s with entryDb := indexEntry io s.entryDb reversal })

def isReversed (s : LedgerStore) (entryId : Uuid) : Bool := (s.reversalEventIndex.lookup entryId).isSome

/-! ### Import -/

def checkImportLine (s : LedgerStore) (line : JournalLine) : Except LedgerError Unit :=
  match s.accounts.lookup line.accountId with
  | none => .error (.accountNotFound (Uuid.toText line.accountId))
  | some acct =>
    if !acct.isActive then .error (.accountClosed (Uuid.toText line.accountId))
    else if acct.currencyCode ≠ line.currencyCode then
      .error (.currencyMismatch acct.currencyCode line.currencyCode)
    else .ok ()

/-- Commit an entry without indexing it. A known idempotency key answers with sequence zero. -/
def importEntryDirect (cfg : Config) (io : Io) (s : LedgerStore) (e : JournalEntry) :
    Except LedgerError Nat × LedgerStore :=
  match e.validate with
  | .error err => (.error err, s)
  | .ok () =>
    match s.duplicateOf e with
    | some _ => (.ok 0, s)
    | none =>
      match checkAll s.checkImportLine e.lines with
      | .error err => (.error err, s)
      | .ok () =>
        let entry := s.sealEntry cfg io e
        match s.takeSequence.persistRow cfg io (.entry entry) .insert (some entry.prevHash) with
        | (.error err, s) => (.error err, s)
        | (.ok (), s) => (.ok entry.sequence, { s with lastChainHash := entry.chainHash })

end VectorLedger.LedgerStore
