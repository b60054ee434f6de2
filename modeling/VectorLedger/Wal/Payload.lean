import VectorLedger.Lib.Codec
import VectorLedger.Wal
import VectorLedger.Wal.Format

/-! The payloads of the records in the log, and their bytes: numbers of fixed width with the least significant byte
    first, a length of eight bytes before a sequence, a tag before an optional value. -/

namespace VectorLedger.Wal

open Codec (Decoder Decodes)

/-- The payload of a data record: one change of a row. -/
structure DataPayload where
  tableId : UInt32
  pageId : UInt64
  slotId : UInt16
  mutation : MutationKind
  rowData : Bytes
  rowHash : Hash
  prevHash : Option Hash
  deriving DecidableEq, Repr

structure CommitPayload where
  recordCount : UInt32
  txHash : Hash
  signature : Bytes
  signerPubkey : Bytes
  deriving DecidableEq, Repr

/-! ### Encoding -/

def encodeSeq (bs : Bytes) : Bytes := leBytes 8 bs.length ++ bs

def encodeOption : Option Bytes → Bytes
  | none => [0]
  | some bs => 1 :: bs

def variantIndex : MutationKind → Nat
  | .insert => 0
  | .update => 1
  | .delete => 2

def beginBytes (description : BeginPayload) : Bytes := encodeOption (description.map fun s => encodeSeq (JournalEntry.utf8 s))

def DataPayload.toBytes (p : DataPayload) : Bytes :=
  leBytes 4 p.tableId.toNat ++ (leBytes 8 p.pageId.toNat ++ (leBytes 2 p.slotId.toNat ++
    (leBytes 4 (variantIndex p.mutation) ++ (encodeSeq p.rowData ++ (p.rowHash.toList ++
      encodeOption (p.prevHash.map Vector.toList))))))

def CommitPayload.toBytes (p : CommitPayload) : Bytes :=
  leBytes 4 p.recordCount.toNat ++ (p.txHash.toList ++ (encodeSeq p.signature ++ encodeSeq p.signerPubkey))

/-! ### Decoding -/

def decodeNat (n : Nat) : Decoder UInt8 Nat := leNat <$> Codec.take n

def decodeU16 : Decoder UInt8 UInt16 := UInt16.ofNat <$> decodeNat 2

def decodeU32 : Decoder UInt8 UInt32 := UInt32.ofNat <$> decodeNat 4

def decodeU64 : Decoder UInt8 UInt64 := UInt64.ofNat <$> decodeNat 8

def decodeSeq : Decoder UInt8 Bytes := do
  let n ← decodeNat 8
  Codec.take n

def hashOf (bs : Bytes) : Hash := Vector.ofFn fun i => bs.getD i 0

def decodeHash : Decoder UInt8 Hash := hashOf <$> Codec.take 32

def decodeOption {α : Type} (d : Decoder UInt8 α) : Decoder UInt8 (Option α) := do
  let tag ← decodeNat 1
  match tag with
  | 0 => pure none
  | 1 => some <$> d
  | _ => failure

def decodeMutation : Decoder UInt8 MutationKind := do
  let index ← decodeNat 4
  match index with
  | 0 => pure .insert
  | 1 => pure .update
  | 2 => pure .delete
  | _ => failure

def dataDecoder : Decoder UInt8 DataPayload := do
  let tableId ← decodeU32
  let pageId ← decodeU64
  let slotId ← decodeU16
  let mutation ← decodeMutation
  let rowData ← decodeSeq
  let rowHash ← decodeHash
  DataPayload.mk tableId pageId slotId mutation rowData rowHash <$> decodeOption decodeHash

def commitDecoder : Decoder UInt8 CommitPayload := do
  let recordCount ← decodeU32
  let txHash ← decodeHash
  let signature ← decodeSeq
  CommitPayload.mk recordCount txHash signature <$> decodeSeq

def decodeDataPayload (r : Record) : Option DataPayload := Codec.decode dataDecoder r.payload

def decodeCommitPayload (r : Record) : Option CommitPayload := Codec.decode commitDecoder r.payload

/-- The table of a data payload, from its first four bytes alone. -/
def decodeTableIdOnly (payload : Bytes) : Option UInt32 :=
  if payload.length < 4 then none else some (.ofNat (leNat (payload.take 4)))

/-! ### Round trips -/

theorem decodes_nat {n v : Nat} (h : v < 256 ^ n) : Decodes (decodeNat n) v (leBytes n v) := by
  have htake := (Codec.decodes_take (length_leBytes n v)).map leNat
  rwa [leNat_leBytes h] at htake

theorem decodes_u16 (v : UInt16) : Decodes decodeU16 v (leBytes 2 v.toNat) := by
  have hnat := (decodes_nat (n := 2) v.toNat_lt).map UInt16.ofNat
  rwa [UInt16.ofNat_toNat] at hnat

theorem decodes_u32 (v : UInt32) : Decodes decodeU32 v (leBytes 4 v.toNat) := by
  have hnat := (decodes_nat (n := 4) v.toNat_lt).map UInt32.ofNat
  rwa [UInt32.ofNat_toNat] at hnat

theorem decodes_u64 (v : UInt64) : Decodes decodeU64 v (leBytes 8 v.toNat) := by
  have hnat := (decodes_nat (n := 8) v.toNat_lt).map UInt64.ofNat
  rwa [UInt64.ofNat_toNat] at hnat

theorem decodes_seq {bs : Bytes} (h : bs.length < 256 ^ 8) : Decodes decodeSeq bs (encodeSeq bs) :=
  (decodes_nat h).bind (Codec.decodes_take rfl)

theorem hashOf_toList (h : Hash) : hashOf h.toList = h := by
  apply Vector.ext
  intro i hi
  simp [hashOf]

theorem decodes_hash (h : Hash) : Decodes decodeHash h h.toList := by
  have htake := (Codec.decodes_take h.length_toList).map hashOf
  rwa [hashOf_toList] at htake

theorem decodes_option {α : Type} {d : Decoder UInt8 α} {enc : α → Bytes} (hd : ∀ a, Decodes d a (enc a)) (o : Option α) :
    Decodes (decodeOption d) o (encodeOption (o.map enc)) := by
  cases o with
  | none => exact (decodes_nat (n := 1) (v := 0) (by decide)).bind (Codec.decodes_pure none)
  | some a => exact (decodes_nat (n := 1) (v := 1) (by decide)).bind ((hd a).map some)

theorem decodes_mutation (k : MutationKind) : Decodes decodeMutation k (leBytes 4 (variantIndex k)) := by
  cases k with
  | insert => exact (decodes_nat (n := 4) (v := 0) (by decide)).bind (Codec.decodes_pure _)
  | update => exact (decodes_nat (n := 4) (v := 1) (by decide)).bind (Codec.decodes_pure _)
  | delete => exact (decodes_nat (n := 4) (v := 2) (by decide)).bind (Codec.decodes_pure _)

theorem DataPayload.decodes (p : DataPayload) (h : p.rowData.length < 256 ^ 8) : Decodes dataDecoder p p.toBytes := by
  have hlast := (decodes_option decodes_hash p.prevHash).map (DataPayload.mk p.tableId p.pageId p.slotId p.mutation
    p.rowData p.rowHash)
  exact (decodes_u32 p.tableId).bind ((decodes_u64 p.pageId).bind ((decodes_u16 p.slotId).bind
    ((decodes_mutation p.mutation).bind ((decodes_seq h).bind ((decodes_hash p.rowHash).bind hlast)))))

theorem CommitPayload.decodes (p : CommitPayload) (hs : p.signature.length < 256 ^ 8)
    (hk : p.signerPubkey.length < 256 ^ 8) : Decodes commitDecoder p p.toBytes := by
  have hlast := (decodes_seq hk).map (CommitPayload.mk p.recordCount p.txHash p.signature)
  exact (decodes_u32 p.recordCount).bind ((decodes_hash p.txHash).bind ((decodes_seq hs).bind hlast))

end VectorLedger.Wal
