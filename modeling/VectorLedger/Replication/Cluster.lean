import VectorLedger.Replication.Network
import VectorLedger.Server.Shipping
import VectorLedger.Wal.Recovery

/-! A server that executes SQL writes and ships its records to replicas, and what a replica finds in its log. -/

namespace VectorLedger.Replication

def replayWal (c : Wal.Crypto) (v : Wal.Verifier) (walDir : Wal.Dir) : Except Wal.RecoveryError Wal.RecoveryResult :=
  Wal.recover c v walDir

def tableEntries : UInt32 := 1

/-- The rows of the table of entries in what was recovered, transaction by transaction. -/
def entryRows (r : Wal.RecoveryResult) : List Wal.Bytes :=
  (r.committed.flatMap Wal.CommittedTransaction.dataPayloads).filterMap fun p =>
    if p.tableId = tableEntries then some p.rowData else none

structure Cluster where
  server : WriteServer
  network : Network

inductive ClusterAction where
  | server (a : WriteAction)
  | network (a : Action)

namespace Cluster

/-- A write that ships calls the shipper of the server. Nothing else does. -/
def step (cfg : Config) (env : Sql.Env) (q : Cluster) : ClusterAction → Option Cluster
  | .server (.ship n) => do
    let c ← q.server.writes[n]?
    let server ← q.server.step cfg env (.ship n)
    match c.pc with
    | .shipping bytes segment _ => some ⟨server, q.network.ship cfg.blake3 bytes segment⟩
    | _ => none
  | .server a => (q.server.step cfg env a).map fun server => { q with server := server }
  | .network (.ship _ _) => none
  | .network a => (q.network.step cfg.blake3 a).map fun network => { q with network := network }

def start (ledger : LedgerStore) (queryTimeoutMs ackTimeoutMs replicas : Nat) : Cluster :=
  ⟨.start ledger queryTimeoutMs, .start ackTimeoutMs replicas⟩

end Cluster

end VectorLedger.Replication
