import VectorLedger.Wal.Format

/-! The segment files of a log, the writer that appends to the last of them, and the reader of them all. -/

namespace VectorLedger.Wal

structure SegmentFile where
  index : Nat
  bytes : Bytes
  deriving DecidableEq, Repr

/-- The segment files of a directory, in the order of their indices. -/
abbrev Dir := List SegmentFile

/-- The last file loses all but its first bytes, as a crash can leave it. -/
def Dir.truncate (d : Dir) (n : Nat) : Dir :=
  match d.getLast? with
  | some f => d.dropLast ++ [{ f with bytes := f.bytes.take n }]
  | none => []

/-! ### Reader -/

/-- What the reader of a directory yields, segment by segment. -/
def readDir (c : Crypto) (masterKey : Option WalKey) (d : Dir) : List (Except WalError Record) :=
  d.flatMap fun f => readSegment c masterKey f.index f.bytes

def WalError.isTorn : WalError → Bool
  | .checksumMismatch _ _ | .truncatedRecord _ _ _ | .decryption => true
  | .unsupportedVersion _ | .encryption _ => false

def highestSequence (last : UInt64) : List (Except WalError Record) → Except WalError UInt64
  | [] => .ok last
  | .ok r :: items => highestSequence (if r.header.sequence > last then r.header.sequence else last) items
  | .error e :: _ => if e.isTorn then .ok last else .error e

def scanLastSequenceInSegment (c : Crypto) (masterKey : Option WalKey) (f : SegmentFile) : Except WalError UInt64 :=
  highestSequence 0 (readSegment c masterKey f.index f.bytes)

/-! ### Writer -/

structure WalWriter where
  sealed : Dir
  activeIndex : Nat
  /-- The active file. Its length is the write offset. -/
  active : Bytes
  sequence : UInt64
  segmentMaxSize : Nat
  nextSegmentIndex : Nat
  encryptionKey : Option WalKey

namespace WalWriter

def dir (w : WalWriter) : Dir := w.sealed ++ [⟨w.activeIndex, w.active⟩]

def hasSpace (w : WalWriter) (needed : Nat) : Bool := w.active.length + needed ≤ w.segmentMaxSize

def rollSegment (w : WalWriter) : WalWriter :=
  { w with
    sealed := w.dir
    activeIndex := w.nextSegmentIndex
    active := []
    nextSegmentIndex := w.nextSegmentIndex + 1 }

/-- Open a writer: a new log starts at segment 0, an old one goes on at the end of its last file. -/
def openWithOptions (c : Crypto) (d : Dir) (segmentMaxSize : Nat) (masterKey : Option WalKey) : WalWriter :=
  match d.getLast? with
  | none =>
    { sealed := []
      activeIndex := 0
      active := []
      sequence := 0
      segmentMaxSize := segmentMaxSize
      nextSegmentIndex := 1
      encryptionKey := masterKey }
  | some f =>
    { sealed := d.dropLast
      activeIndex := f.index
      active := f.bytes
      sequence := (scanLastSequenceInSegment c masterKey f).toOption.getD 0
      segmentMaxSize := segmentMaxSize
      nextSegmentIndex := f.index + 1
      encryptionKey := masterKey }

end WalWriter

/-- One call of append, with the time and the nonces it draws. -/
structure Append where
  txId : UInt64
  recordType : RecordType
  payload : Bytes
  now : Int64
  nonce : Nonce
  rollNonce : Nonce

namespace WalWriter

/-- The record that an append writes, under the next sequence number. -/
def recordFor (c : Crypto) (w : WalWriter) (a : Append) : Record :=
  let header : RecordHeader :=
    { magic := walMagic
      version := walVersion
      recordType := a.recordType.toByte
      txId := a.txId
      sequence := w.sequence + 1
      timestampNs := a.now
      payloadLen := .ofNat a.payload.length }
  ⟨header, a.payload, c.crc32 (header.toBytes ++ a.payload)⟩

/-- The bytes of a record in the active segment, encrypted or not. -/
def frameFor (c : Crypto) (w : WalWriter) (nonce : Nonce) (r : Record) : Bytes :=
  match w.encryptionKey with
  | some key => encryptRecord c (c.deriveSegmentKey key w.activeIndex) nonce r.toBytes w.activeIndex
  | none => r.toBytes

/-- Append a record. A segment without space for it is rolled, and the record is encrypted anew for the next one. -/
def append (c : Crypto) (w : WalWriter) (a : Append) : Record × WalWriter :=
  let r := w.recordFor c a
  let w := { w with sequence := w.sequence + 1 }
  let frame := w.frameFor c a.nonce r
  if w.hasSpace frame.length then (r, { w with active := w.active ++ frame })
  else
    let w := w.rollSegment
    (r, { w with active := w.active ++ w.frameFor c a.rollNonce r })

/-- Append one record after the other: the records, and the writer after them. -/
def appendAll (c : Crypto) (w : WalWriter) : List Append → List Record × WalWriter
  | [] => ([], w)
  | a :: as =>
    let (r, w) := w.append c a
    let (rs, w) := w.appendAll c as
    (r :: rs, w)

end WalWriter

/-! ### Sessions -/

/-- A log on disk, or the writer that has it open. -/
inductive Log where
  | closed (d : Dir)
  | writing (w : WalWriter)

def Log.dir : Log → Dir
  | .closed d => d
  | .writing w => w.dir

inductive LogEvent where
  | openWriter (segmentMaxSize : Nat) (masterKey : Option WalKey)
  | append (a : Append)
  | close

def Log.step (c : Crypto) : Log → LogEvent → Option Log
  | .closed d, .openWriter segmentMaxSize masterKey => some (.writing (.openWithOptions c d segmentMaxSize masterKey))
  | .writing w, .append a => some (.writing (w.append c a).2)
  | .writing w, .close => some (.closed w.dir)
  | _, _ => none

/-! ### Sessions that a crash ends -/

namespace WalWriter

/-- The writer when an append has taken a number and made room: a segment without space for the record is rolled. -/
def prepared (c : Crypto) (w : WalWriter) (a : Append) : WalWriter :=
  let w' := { w with sequence := w.sequence + 1 }
  if w'.hasSpace (w'.frameFor c a.nonce (w.recordFor c a)).length then w' else w'.rollSegment

def frameOf (c : Crypto) (w : WalWriter) (a : Append) : Bytes :=
  let r := w.recordFor c a
  let frame := w.frameFor c a.nonce r
  if w.hasSpace frame.length then frame else w.rollSegment.frameFor c a.rollNonce r

/-- The writer when an append has put down the first bytes of its record. -/
def appendPart (c : Crypto) (w : WalWriter) (a : Append) (written : Nat) : WalWriter :=
  let w' := w.prepared c a
  { w' with active := w'.active ++ (w.frameOf c a).take written }

end WalWriter

inductive SessionEvent where
  | openWriter (segmentMaxSize : Nat) (masterKey : Option WalKey)
  | append (a : Append)
  | close
  /-- The process dies in an append that has written so many bytes of its record. -/
  | crash (a : Append) (written : Nat)

def Log.session (c : Crypto) : Log → SessionEvent → Option Log
  | .closed d, .openWriter segmentMaxSize masterKey => some (.writing (.openWithOptions c d segmentMaxSize masterKey))
  | .writing w, .append a => some (.writing (w.append c a).2)
  | .writing w, .close => some (.closed w.dir)
  | .writing w, .crash a written => some (.closed (w.appendPart c a written).dir)
  | _, _ => none

end VectorLedger.Wal
