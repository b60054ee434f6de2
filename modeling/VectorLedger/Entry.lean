import VectorLedger.Types

/-! Journal entries: the balance check, the canonical bytes and the hash chain. -/

namespace VectorLedger

inductive DrCr where
  | debit
  | credit
  deriving DecidableEq, Repr

def DrCr.flip : DrCr → DrCr
  | .debit => .credit
  | .credit => .debit

structure JournalLine where
  id : Uuid
  accountId : AccountId
  currencyCode : String
  amount : Amount
  drCr : DrCr
  memo : Option String
  deriving DecidableEq, Repr

structure JournalEntry where
  id : Uuid
  sequence : Nat
  status : EntryStatus
  description : String
  lines : List JournalLine
  effectiveAt : DateTime
  postedAt : DateTime
  externalRef : Option String
  idempotencyKey : Option String
  reversesEntryId : Option Uuid
  reversedByEntryId : Option Uuid
  domain : String
  contentHash : Hash
  prevHash : Hash
  chainHash : Hash
  approvedBy : Option String
  metadata : Option String
  deriving DecidableEq, Repr

def EntryStatus.affectsBalance : EntryStatus → Bool
  | .posted | .reversal => true
  | _ => false

/-- The change of a line to the balance of a debit-normal account, or of another one. -/
def JournalLine.delta (line : JournalLine) (debitNormal : Bool) : Int :=
  if debitNormal then
    match line.drCr with
    | .debit => line.amount.asI128
    | .credit => -line.amount.asI128
  else
    match line.drCr with
    | .credit => line.amount.asI128
    | .debit => -line.amount.asI128

namespace JournalEntry

def totalOf (d : DrCr) (lines : List JournalLine) : Int :=
  ((lines.filter fun l => l.drCr = d).map (·.amount.asI128)).sum

def validate (e : JournalEntry) : Except LedgerError Unit :=
  if e.lines.length < 2 then .error (.tooFewLines e.lines.length)
  else if totalOf .debit e.lines ≠ totalOf .credit e.lines then
    .error (.unbalancedEntry (totalOf .debit e.lines) (totalOf .credit e.lines))
  else .ok ()

/-! ### Canonical bytes -/

def writeBytes (data : List UInt8) : List UInt8 := leBytes 4 data.length ++ data

def writeOptBytes : Option (List UInt8) → List UInt8
  | some data => writeBytes data
  | none => leBytes 4 0xFFFFFFFF

def writeOptUuid : Option Uuid → List UInt8
  | some id => Uuid.asBytes id ++ [1]
  | none => List.replicate 16 0 ++ [0]

def utf8 (s : String) : List UInt8 := s.toUTF8.toList

def statusByte : EntryStatus → UInt8
  | .posted => 0
  | .reversed => 1
  | .reversal => 2
  | .pendingApproval => 3
  | .rejected => 4
  | .pending => 5
  | .settled => 6
  | .failed => 7

def drCrByte : DrCr → UInt8
  | .debit => 0
  | .credit => 1

def leBytesI64 (v : Int) : List UInt8 := leBytes 8 (v % 2 ^ 64).toNat

def timestampNanos (t : DateTime) : Int := if -(2 ^ 63) ≤ t ∧ t < 2 ^ 63 then t else 0

def lineBytes (l : JournalLine) : List UInt8 :=
  Uuid.asBytes l.id ++ Uuid.asBytes l.accountId ++ leBytesI64 l.amount.asI64.toInt ++ [drCrByte l.drCr] ++
    writeBytes (utf8 l.currencyCode) ++ writeOptBytes (l.memo.map utf8)

def canonicalBytes (e : JournalEntry) : List UInt8 :=
  [1] ++ Uuid.asBytes e.id ++ leBytes 8 e.sequence ++ [statusByte e.status] ++
    leBytesI64 (timestampNanos e.effectiveAt) ++ leBytesI64 (timestampNanos e.postedAt) ++
    writeBytes (utf8 e.description) ++ writeBytes (utf8 e.domain) ++
    writeOptBytes (e.externalRef.map utf8) ++ writeOptBytes (e.idempotencyKey.map utf8) ++
    writeOptUuid e.reversesEntryId ++ writeOptUuid e.reversedByEntryId ++
    writeOptBytes (e.approvedBy.map utf8) ++ writeOptBytes (e.metadata.map utf8) ++
    leBytes 4 e.lines.length ++ e.lines.flatMap lineBytes

/-! ### Hash chain -/

section Hashes

variable (blake3 : List UInt8 → Hash)

def precomputeContentHash (e : JournalEntry) : JournalEntry :=
  { e with contentHash := blake3 e.canonicalBytes }

/-- Link the entry to the previous one. A content hash that is still zero is computed here. -/
def finalizeChainHash (e : JournalEntry) (prevChainHash : Hash) : JournalEntry :=
  let e := if e.contentHash = zeroHash then e.precomputeContentHash blake3 else e
  { e with
    prevHash := prevChainHash
    chainHash := blake3 (leBytes 8 e.sequence ++ prevChainHash.toList ++ e.contentHash.toList) }

def finalizeHashes (e : JournalEntry) (prevChainHash : Hash) : JournalEntry :=
  (e.precomputeContentHash blake3).finalizeChainHash blake3 prevChainHash

def chainBytes (e : JournalEntry) : List UInt8 :=
  leBytes 8 e.sequence ++ e.prevHash.toList ++ e.contentHash.toList

def verifyHashes (e : JournalEntry) : Bool :=
  if blake3 e.canonicalBytes ≠ e.contentHash then false else blake3 e.chainBytes == e.chainHash

end Hashes

/-! ### What the chain leaves alone -/

variable {blake3 : List UInt8 → Hash} {e : JournalEntry} {prev : Hash}

@[simp] theorem finalizeChainHash_sequence : (e.finalizeChainHash blake3 prev).sequence = e.sequence := by
  unfold finalizeChainHash; split <;> rfl

@[simp] theorem finalizeChainHash_lines : (e.finalizeChainHash blake3 prev).lines = e.lines := by
  unfold finalizeChainHash; split <;> rfl

@[simp] theorem finalizeChainHash_idempotencyKey :
    (e.finalizeChainHash blake3 prev).idempotencyKey = e.idempotencyKey := by
  unfold finalizeChainHash; split <;> rfl

@[simp] theorem finalizeChainHash_id : (e.finalizeChainHash blake3 prev).id = e.id := by
  unfold finalizeChainHash; split <;> rfl

@[simp] theorem finalizeChainHash_status : (e.finalizeChainHash blake3 prev).status = e.status := by
  unfold finalizeChainHash; split <;> rfl

@[simp] theorem finalizeChainHash_reversesEntryId :
    (e.finalizeChainHash blake3 prev).reversesEntryId = e.reversesEntryId := by
  unfold finalizeChainHash; split <;> rfl

@[simp] theorem finalizeChainHash_approvedBy :
    (e.finalizeChainHash blake3 prev).approvedBy = e.approvedBy := by
  unfold finalizeChainHash; split <;> rfl

end JournalEntry

/-! ### Building an entry -/

structure JournalEntryBuilder where
  description : String
  lines : List JournalLine
  effectiveAt : DateTime
  externalRef : Option String
  idempotencyKey : Option String
  domain : String
  reversesEntryId : Option Uuid
  metadata : Option String

namespace JournalEntryBuilder

def new (now : DateTime) (description domain : String) : JournalEntryBuilder where
  description := description
  lines := []
  effectiveAt := now
  externalRef := none
  idempotencyKey := none
  domain := domain
  reversesEntryId := none
  metadata := none

variable (toUppercase : String → String) (b : JournalEntryBuilder)

def line (id : Uuid) (a : AccountId) (amount : Amount) (currency : String) (drCr : DrCr) : JournalEntryBuilder :=
  { b with lines := b.lines ++ [⟨id, a, toUppercase currency, amount, drCr, none⟩] }

def debit (id : Uuid) (a : AccountId) (amount : Amount) (currency : String) : JournalEntryBuilder :=
  b.line toUppercase id a amount currency .debit

def credit (id : Uuid) (a : AccountId) (amount : Amount) (currency : String) : JournalEntryBuilder :=
  b.line toUppercase id a amount currency .credit

def build (id : Uuid) (now : DateTime) : JournalEntry where
  id := id
  sequence := 0
  status := if b.reversesEntryId.isSome then .reversal else .posted
  description := b.description
  lines := b.lines
  effectiveAt := b.effectiveAt
  postedAt := now
  externalRef := b.externalRef
  idempotencyKey := b.idempotencyKey
  reversesEntryId := b.reversesEntryId
  reversedByEntryId := none
  domain := b.domain
  contentHash := zeroHash
  prevHash := zeroHash
  chainHash := zeroHash
  approvedBy := none
  metadata := b.metadata

end JournalEntryBuilder

end VectorLedger
