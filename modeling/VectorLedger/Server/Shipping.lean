import VectorLedger.Server.Auth
import VectorLedger.Sql

/-! SQL writes of many connections, and the records that are handed to the WAL shipper. A write is executed under the lock of
    the ledger, which gives the bytes to ship; they are shipped after the lock is released. -/

namespace VectorLedger

def LedgerStore.lastEntryBytes (s : LedgerStore) : Option (List UInt8) := s.lastCommittedEntryBytes

def LedgerStore.activeWalSegment (s : LedgerStore) : Nat := s.txManager.wal.lastIndex

inductive WriteError where
  | plan (e : Sql.SqlError)
  | denied (reason : String)
  | queryTimeout (ms : Nat)
  | execution (e : Sql.SqlError)
  deriving DecidableEq, Repr

def checkWritePrivilege (role : Role) : Sql.LogicalPlan → Except String Unit
  | .postEntry _ =>
    if role.canInsertLedger then .ok () else .error ("role '" ++ role.display ++ "' cannot post journal entries")
  | .createAccount _ =>
    if role.canInsertAccounts then .ok () else .error ("role '" ++ role.display ++ "' cannot create accounts")

inductive WritePc where
  | locking (plan : Sql.LogicalPlan)
  /-- The lock is released, and the bytes are still to be shipped. -/
  | shipping (bytes : List UInt8) (segment : Nat) (result : Except WriteError Sql.QueryResult)
  | done (result : Except WriteError Sql.QueryResult)
  deriving DecidableEq

structure WriteCall where
  listener : Listener
  pc : WritePc
  deriving DecidableEq

structure WriteServer where
  ledger : LedgerStore
  /-- The limit on the time that a native statement waits, zero for none. -/
  queryTimeoutMs : Nat
  writes : List WriteCall
  /-- What was handed to the shipper, with the segment. -/
  shipped : List (List UInt8 × Nat)
  /-- The writes that have bytes to ship, in the order in which they had the lock. -/
  pending : List (Nat × List UInt8)

inductive WriteAction where
  | submit (listener : Listener) (role : Role) (ins : Sql.Insert)
  /-- A write has the lock: it is executed, and the lock is released. -/
  | run (n : Nat) (io : Io)
  | timeOut (n : Nat)
  | ship (n : Nat)

namespace WriteServer

def start (ledger : LedgerStore) (queryTimeoutMs : Nat) : WriteServer := ⟨ledger, queryTimeoutMs, [], [], []⟩

def accept (env : Sql.Env) (role : Role) (ins : Sql.Insert) : Except WriteError Sql.LogicalPlan := do
  let plan ← (Sql.planInsert env ins).mapError .plan
  (checkWritePrivilege role plan).mapError .denied
  pure plan

def setPc (q : WriteServer) (n : Nat) (c : WriteCall) (pc : WritePc) : WriteServer :=
  { q with writes := q.writes.set n { c with pc := pc } }

/-- What a write that was executed ships: after a post that succeeded, the entry that was committed last. -/
def capture (plan : Sql.LogicalPlan) (result : Except Sql.SqlError Sql.QueryResult) (ledger : LedgerStore) :
    Option (List UInt8) :=
  match plan, result with
  | .postEntry _, .ok _ => ledger.lastEntryBytes
  | _, _ => none

/-- Execute a write under the lock. The pgwire listener has no shipper. -/
def execute (cfg : Config) (env : Sql.Env) (io : Io) (q : WriteServer) (n : Nat) (c : WriteCall) (plan : Sql.LogicalPlan) :
    WriteServer :=
  let (result, ledger) := Sql.execute cfg env io q.ledger plan
  let q := { q with ledger := ledger }
  match c.listener, capture plan result ledger with
  | .native, some bytes =>
    { q with pending := q.pending ++ [(n, bytes)] }.setPc n c
      (.shipping bytes ledger.activeWalSegment (result.mapError .execution))
  | _, _ => q.setPc n c (.done (result.mapError .execution))

def step (cfg : Config) (env : Sql.Env) (q : WriteServer) : WriteAction → Option WriteServer
  | .submit listener role ins =>
    match accept env role ins with
    | .ok plan => some { q with writes := q.writes ++ [⟨listener, .locking plan⟩] }
    | .error e => some { q with writes := q.writes ++ [⟨listener, .done (.error e)⟩] }
  | .run n io => do
    let c ← q.writes[n]?
    match c.pc with
    | .locking plan => some (q.execute cfg env io n c plan)
    | _ => none
  | .timeOut n => do
    let c ← q.writes[n]?
    match c.pc, c.listener with
    | .locking _, .native =>
      if q.queryTimeoutMs = 0 then none else some (q.setPc n c (.done (.error (.queryTimeout q.queryTimeoutMs))))
    | _, _ => none
  | .ship n => do
    let c ← q.writes[n]?
    match c.pc with
    | .shipping bytes segment result =>
      some ({ q with
        shipped := q.shipped ++ [(bytes, segment)]
        pending := q.pending.filter (·.1 ≠ n) }.setPc n c (.done result))
    | _ => none

end WriteServer

end VectorLedger
