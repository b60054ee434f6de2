import VectorLedger.Lib.Frames
import VectorLedger.Types

/-! The bytes of the write-ahead log: records, their encrypted form, and the reader of one segment file. -/

namespace VectorLedger.Wal

abbrev Bytes := List UInt8

abbrev WalKey := Vector UInt8 32

abbrev Nonce := Vector UInt8 12

structure Crypto where
  crc32 : Bytes → UInt32
  deriveSegmentKey : WalKey → Nat → WalKey
  /-- Key, nonce, associated data and message to ciphertext with tag. -/
  encrypt : WalKey → Bytes → Bytes → Bytes → Bytes
  decrypt : WalKey → Bytes → Bytes → Bytes → Option Bytes

/-- What is encrypted is decrypted with the same key, nonce and data, and the tag takes 16 bytes. -/
structure Crypto.Lawful (c : Crypto) : Prop where
  decrypt_encrypt : ∀ key nonce aad msg, c.decrypt key nonce aad (c.encrypt key nonce aad msg) = some msg
  length_encrypt : ∀ key nonce aad msg, (c.encrypt key nonce aad msg).length = msg.length + 16

inductive WalError where
  | checksumMismatch (expected actual : UInt32)
  | unsupportedVersion (version : UInt8)
  | truncatedRecord (offset needed available : Nat)
  | encryption (reason : String)
  | decryption
  deriving DecidableEq, Repr

/-! ### Records -/

def walMagic : UInt32 := 0x56474442

def walVersion : UInt8 := 1

inductive RecordType where
  | begin
  | data
  | commit
  | rollback
  | checkpoint
  | schema
  | segmentHeader
  deriving DecidableEq, Repr

def RecordType.toByte : RecordType → UInt8
  | .begin => 0x01
  | .data => 0x02
  | .commit => 0x03
  | .rollback => 0x04
  | .checkpoint => 0x05
  | .schema => 0x06
  | .segmentHeader => 0x07

structure RecordHeader where
  magic : UInt32
  version : UInt8
  recordType : UInt8
  txId : UInt64
  sequence : UInt64
  timestampNs : Int64
  payloadLen : UInt32
  deriving DecidableEq, Repr

structure Record where
  header : RecordHeader
  payload : Bytes
  crc32 : UInt32
  deriving DecidableEq, Repr

def serializedSize : Nat := 34

def RecordHeader.toBytes (h : RecordHeader) : Bytes :=
  leBytes 4 h.magic.toNat ++ (leBytes 1 h.version.toNat ++ (leBytes 1 h.recordType.toNat ++
    (leBytes 8 h.txId.toNat ++ (leBytes 8 h.sequence.toNat ++ (leBytes 8 h.timestampNs.toUInt64.toNat ++
      leBytes 4 h.payloadLen.toNat)))))

def takeNat (n : Nat) (bs : Bytes) : Nat × Bytes := (leNat (bs.take n), bs.drop n)

def decodeHeader (bs : Bytes) : RecordHeader :=
  let (magic, bs) := takeNat 4 bs
  let (version, bs) := takeNat 1 bs
  let (recordType, bs) := takeNat 1 bs
  let (txId, bs) := takeNat 8 bs
  let (sequence, bs) := takeNat 8 bs
  let (timestampNs, bs) := takeNat 8 bs
  let (payloadLen, _) := takeNat 4 bs
  { magic := .ofNat magic
    version := .ofNat version
    recordType := .ofNat recordType
    txId := .ofNat txId
    sequence := .ofNat sequence
    timestampNs := (UInt64.ofNat timestampNs).toInt64
    payloadLen := .ofNat payloadLen }

def Record.toBytes (r : Record) : Bytes := r.header.toBytes ++ (r.payload ++ leBytes 4 r.crc32.toNat)

/-! ### Encryption -/

def encryptedMagic : UInt32 := 0x45574C52

/-- The size of the header of an encrypted record: magic, nonce and length. -/
def encHeaderSize : Nat := 20

def encryptRecord (c : Crypto) (key : WalKey) (nonce : Nonce) (recordBytes : Bytes) (segmentIndex : Nat) : Bytes :=
  let ciphertext := c.encrypt key nonce.toList (leBytes 8 segmentIndex) recordBytes
  leBytes 4 encryptedMagic.toNat ++ (nonce.toList ++ (leBytes 4 ciphertext.length ++ ciphertext))

def hexU32 (v : Nat) : String := "0x" ++ hexEncode (leBytes 4 v).reverse

def decryptRecord (c : Crypto) (key : WalKey) (blob : Bytes) (segmentIndex : Nat) : Except WalError Bytes :=
  let magic := leNat (blob.take 4)
  let ctLen := leNat ((blob.drop 16).take 4)
  if blob.length < encHeaderSize then
    .error (.encryption ("encrypted blob too short: " ++ toString blob.length ++ " bytes"))
  else if magic ≠ encryptedMagic.toNat then
    .error (.encryption ("expected ENCRYPTED_MAGIC " ++ hexU32 encryptedMagic.toNat ++ ", got " ++ hexU32 magic))
  else if blob.length < encHeaderSize + ctLen then
    .error (.encryption ("encrypted blob truncated: declared ciphertext_len=" ++ toString ctLen ++ ", available=" ++
      toString (blob.length - encHeaderSize)))
  else
    match c.decrypt key ((blob.drop 4).take 12) (leBytes 8 segmentIndex) ((blob.drop encHeaderSize).take ctLen) with
    | some plaintext => .ok plaintext
    | none => .error .decryption

/-! ### Reading a segment -/

def maxRecordPayload : Nat := 64 * 1024 * 1024

def readExact (n : Nat) (bs : Bytes) : Except WalError (Bytes × Bytes) :=
  if bs.length < n then .error (.truncatedRecord 0 n 0) else .ok (bs.take n, bs.drop n)

open Frames (Next)

def checkRecord (c : Crypto) (headerBytes payload : Bytes) (storedCrc : UInt32) (rest : Bytes) :
    Next Record UInt8 WalError :=
  if c.crc32 (headerBytes ++ payload) ≠ storedCrc then
    .failed (.checksumMismatch storedCrc (c.crc32 (headerBytes ++ payload)))
  else .frame ⟨decodeHeader headerBytes, payload, storedCrc⟩ rest

/-- Parse a decrypted record. A magic number that does not fit ends the segment. -/
def parsePlaintextRecord (c : Crypto) (offset : Nat) (plaintext rest : Bytes) : Next Record UInt8 WalError :=
  if plaintext.length < serializedSize + 4 then
    .failed (.truncatedRecord offset (serializedSize + 4) plaintext.length)
  else
    let headerBytes := plaintext.take serializedSize
    let payload := (plaintext.drop serializedSize).take (plaintext.length - 4 - serializedSize)
    let header := decodeHeader headerBytes
    if header.magic ≠ walMagic then .ended
    else if header.version ≠ walVersion then .failed (.unsupportedVersion header.version)
    else checkRecord c headerBytes payload (.ofNat (leNat (plaintext.drop (plaintext.length - 4)))) rest

def nextEncrypted (c : Crypto) (masterKey : Option WalKey) (segmentIndex offset : Nat) (magicBytes bs : Bytes) :
    Next Record UInt8 WalError :=
  match readExact 16 bs with
  | .error e => .failed e
  | .ok (restHeader, bs) =>
    let ctLen := leNat (restHeader.drop 12)
    if maxRecordPayload < ctLen then .failed (.truncatedRecord offset ctLen 0)
    else
      match readExact ctLen bs with
      | .error e => .failed e
      | .ok (ciphertext, bs) =>
        let blob := magicBytes ++ (restHeader ++ ciphertext)
        match masterKey with
        | none => .failed .decryption
        | some key =>
          match decryptRecord c (c.deriveSegmentKey key segmentIndex) blob segmentIndex with
          | .error e => .failed e
          | .ok plaintext => parsePlaintextRecord c (offset + blob.length) plaintext bs

def nextPlaintext (c : Crypto) (offset : Nat) (magicBytes bs : Bytes) : Next Record UInt8 WalError :=
  match readExact (serializedSize - 4) bs with
  | .error e => .failed e
  | .ok (remainingHeader, bs) =>
    let headerBytes := magicBytes ++ remainingHeader
    let header := decodeHeader headerBytes
    let payloadLen := header.payloadLen.toNat
    if header.version ≠ walVersion then .failed (.unsupportedVersion header.version)
    else if maxRecordPayload < payloadLen then .failed (.truncatedRecord offset payloadLen 0)
    else
      match readExact payloadLen bs with
      | .error e => .failed e
      | .ok (payload, bs) =>
        match readExact 4 bs with
        | .error e => .failed e
        | .ok (crcBytes, bs) => checkRecord c headerBytes payload (.ofNat (leNat crcBytes)) bs

/-- The next record of a segment. Fewer than four bytes, or four that are no magic number, end the segment. -/
def nextRecord (c : Crypto) (masterKey : Option WalKey) (segmentIndex offset : Nat) (bs : Bytes) :
    Next Record UInt8 WalError :=
  match readExact 4 bs with
  | .error _ => .ended
  | .ok (magicBytes, bs) =>
    if leNat magicBytes = encryptedMagic.toNat then nextEncrypted c masterKey segmentIndex offset magicBytes bs
    else if leNat magicBytes ≠ walMagic.toNat then .ended
    else nextPlaintext c offset magicBytes bs

def readSegment (c : Crypto) (masterKey : Option WalKey) (segmentIndex : Nat) (bs : Bytes) :
    List (Except WalError Record) :=
  Frames.readFrom (nextRecord c masterKey segmentIndex) 0 bs

end VectorLedger.Wal
