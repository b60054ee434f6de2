import VectorLedger.Wal.Writer

/-! Rotation of the key of a log: the records of each segment are read with the old key and written anew with the new
    one. -/

namespace VectorLedger.Wal

structure KeyRotationResult where
  segmentsRotated : Nat
  segmentsEncrypted : Nat
  segmentsSkipped : Nat
  deriving DecidableEq, Repr

def recordsToRotate : List (Except WalError Record) → Except WalError (List Record)
  | [] => .ok []
  | .ok r :: items => (recordsToRotate items).map (r :: ·)
  | .error e :: _ => if e.isTorn then .ok [] else .error e

/-- The bytes of records under a key, each with a nonce of its own. -/
def encryptRecords (c : Crypto) (segmentKey : WalKey) (segmentIndex : Nat) : (Nat → Nonce) → List Record → Bytes
  | _, [] => []
  | nonces, r :: rs => encryptRecord c segmentKey (nonces 0) r.toBytes segmentIndex ++
      encryptRecords c segmentKey segmentIndex (fun i => nonces (i + 1)) rs

/-- Whether the segment began with something else than an encrypted record, and its new file. A segment without records is
    left as it is. -/
def reencryptSegment (c : Crypto) (oldMasterKey : Option WalKey) (newMasterKey : WalKey) (nonces : Nat → Nonce)
    (f : SegmentFile) : Except WalError (Bool × SegmentFile) := do
  let newSegKey := c.deriveSegmentKey newMasterKey f.index
  let records ← recordsToRotate (readSegment c oldMasterKey f.index f.bytes)
  let wasPlaintext := 4 ≤ f.bytes.length && leNat (f.bytes.take 4) ≠ encryptedMagic.toNat
  if records.isEmpty then pure (wasPlaintext, f)
  else pure (wasPlaintext, ⟨f.index, encryptRecords c newSegKey f.index nonces records⟩)

/-- Rewrite the segments one after the other, up to one that fails: the numbers of segments rotated and encrypted for the
    first time, and the files. -/
def rotateSegments (c : Crypto) (oldMasterKey : Option WalKey) (newMasterKey : WalKey) (nonces : Nat → Nat → Nonce) :
    Dir → Except WalError (Nat × Nat) × Dir
  | [] => (.ok (0, 0), [])
  | f :: fs =>
    match reencryptSegment c oldMasterKey newMasterKey (nonces f.index) f with
    | .error e => (.error e, f :: fs)
    | .ok (wasPlaintext, f') =>
      let (counts, fs') := rotateSegments c oldMasterKey newMasterKey nonces fs
      (counts.map fun (rotated, encrypted) =>
        if wasPlaintext then (rotated, encrypted + 1) else (rotated + 1, encrypted), f' :: fs')

def rotateWalKey (c : Crypto) (d : Dir) (oldMasterKey : Option WalKey) (newMasterKey : WalKey) (skipActive : Bool)
    (nonces : Nat → Nat → Nonce) : Except WalError KeyRotationResult × Dir :=
  let segments := if skipActive then d.dropLast else d
  let active := if skipActive then d.getLast? else none
  let (counts, files) := rotateSegments c oldMasterKey newMasterKey nonces segments
  (counts.map fun (rotated, encrypted) => ⟨rotated, encrypted, if active.isSome then 1 else 0⟩, files ++ active.toList)

/-! ### File-system steps -/

inductive RotationStep where
  /-- Open the file beside the segment, empty. -/
  | createTmp (index : Nat)
  | writeTmp (index : Nat) (blob : Bytes)
  | syncTmp (index : Nat)
  | renameTmp (index : Nat)

/-- The segments, and the files beside them. Those end in .wal.tmp, and no listing of the segments has them. -/
structure RotationDisk where
  segments : Dir
  tmp : Nat → Option Bytes

def RotationDisk.apply (disk : RotationDisk) : RotationStep → RotationDisk
  | .createTmp i => { disk with tmp := Function.update disk.tmp i (some []) }
  | .writeTmp i blob => { disk with tmp := Function.update disk.tmp i ((disk.tmp i).map (· ++ blob)) }
  | .syncTmp _ => disk
  | .renameTmp i =>
    match disk.tmp i with
    | some bs => ⟨disk.segments.map fun f => if f.index = i then ⟨i, bs⟩ else f, Function.update disk.tmp i none⟩
    | none => disk

/-- The records, each with its bytes under a key. -/
def newFrames (c : Crypto) (segmentKey : WalKey) (segmentIndex : Nat) : (Nat → Nonce) → List Record → List (Record × Bytes)
  | _, [] => []
  | nonces, r :: rs => (r, encryptRecord c segmentKey (nonces 0) r.toBytes segmentIndex) ::
      newFrames c segmentKey segmentIndex (fun i => nonces (i + 1)) rs

def tmpSteps (i : Nat) (fs : List (Record × Bytes)) : List RotationStep :=
  .createTmp i :: fs.map (fun f => .writeTmp i f.2) ++ [.syncTmp i]

def reencryptSteps (c : Crypto) (oldMasterKey : Option WalKey) (newMasterKey : WalKey) (nonces : Nat → Nonce)
    (f : SegmentFile) : Except WalError (List RotationStep) := do
  let newSegKey := c.deriveSegmentKey newMasterKey f.index
  let records ← recordsToRotate (readSegment c oldMasterKey f.index f.bytes)
  if records.isEmpty then pure []
  else pure (tmpSteps f.index (newFrames c newSegKey f.index nonces records) ++ [.renameTmp f.index])

/-- The steps of a rotation that skips no segment, up to a segment that fails. -/
def rotationSteps (c : Crypto) (oldMasterKey : Option WalKey) (newMasterKey : WalKey) (nonces : Nat → Nat → Nonce) :
    Dir → List RotationStep
  | [] => []
  | f :: fs =>
    match reencryptSteps c oldMasterKey newMasterKey (nonces f.index) f with
    | .error _ => []
    | .ok steps => steps ++ rotationSteps c oldMasterKey newMasterKey nonces fs

end VectorLedger.Wal
