import VectorLedger.AuditPackage
import VectorLedger.Wal.Writer

/-! Divergence checks: the rolling hash of a log, and the answer of a replica to a checkpoint of the primary. -/

namespace VectorLedger

open Wal
open AuditPackage (hashToHex decodeHash sliceTo)

namespace Replication

structure DivergenceCheckpoint where
  lsn : UInt64
  chainHashHex : String
  ledgerSequence : UInt64
  ledgerChainTipHex : String
  deriving DecidableEq, Repr

structure DivergenceReport where
  lsn : UInt64
  localChainHashHex : String
  localLedgerChainTipHex : String
  diverged : Bool
  reason : Option String
  deriving DecidableEq, Repr

def linkBytes (chain : Hash) (r : Record) : Bytes :=
  chain.toList ++ (leBytes 8 r.header.sequence.toNat ++ (leBytes 8 r.header.txId.toNat ++ r.header.recordType :: r.payload))

def foldRecords (blake3 : Bytes → Hash) (targetLsn : UInt64) : Hash → List (Except Wal.WalError Record) → Hash
  | chain, .ok r :: items =>
    if r.header.sequence > targetLsn then chain else foldRecords blake3 targetLsn (blake3 (linkBytes chain r)) items
  | chain, _ => chain

/-- A directory that cannot be listed is given as the text of the error. -/
def computeWalChainHash (c : Crypto) (blake3 : Bytes → Hash) (wal : Except String Dir) (targetLsn : UInt64) :
    Except String Hash :=
  match wal with
  | .error e => .error ("WAL ledger error: " ++ e)
  | .ok d => .ok (foldRecords blake3 targetLsn zeroHash (readDir c none d))

def mismatch (what : String) (n : UInt64) (primaryHex : String) (own : Hash) : Option String := do
  let primary ← sliceTo 16 primaryHex.toList
  let own ← sliceTo 16 (hashToHex own).toList
  pure (what ++ toString n ++ ": primary=" ++ String.ofList primary ++ ", local=" ++ String.ofList own)

/-- The answer to a checkpoint, none where the task of the replica panics. -/
def verifyCheckpoint (c : Crypto) (blake3 : Bytes → Hash) (wal : Except String Dir) (checkpoint : DivergenceCheckpoint)
    (localTip : Hash) : Option DivergenceReport :=
  let report (localHash : Hash) (diverged : Bool) (reason : Option String) : DivergenceReport :=
    ⟨checkpoint.lsn, hashToHex localHash, hashToHex localTip, diverged, reason⟩
  match computeWalChainHash c blake3 wal checkpoint.lsn with
  | .error e => some (report zeroHash true (some ("WAL hash computation failed: " ++ e)))
  | .ok localHash =>
    match decodeHash checkpoint.chainHashHex with
    | none => some (report localHash true (some "Primary sent invalid chain_hash_hex"))
    | some primaryHash => do
      let walDiverged := localHash ≠ primaryHash
      let ledgerDiverged := localTip ≠ (decodeHash checkpoint.ledgerChainTipHex).getD zeroHash
      let walReasons ← if walDiverged then
          ([·]) <$> mismatch "WAL chain hash mismatch at LSN " checkpoint.lsn checkpoint.chainHashHex localHash
        else some []
      let ledgerReasons ← if ledgerDiverged then
          ([·]) <$> mismatch "Ledger chain tip mismatch at sequence " checkpoint.ledgerSequence
            checkpoint.ledgerChainTipHex localTip
        else some []
      let diverged := decide (walDiverged ∨ ledgerDiverged)
      pure (report localHash diverged (if diverged then some ("; ".intercalate (walReasons ++ ledgerReasons)) else none))

end Replication

end VectorLedger
