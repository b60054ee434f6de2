import VectorLedger.FourEyes.Queue
import VectorLedger.Wal.Writer

/-! WAL shipping: a primary, the connections to it, and its replicas. Every step of a call on the primary and of a replica is
    one action, and the two directions of a connection are queues of lines. -/

namespace VectorLedger.Replication

/-! ### Messages -/

/-- The number of a shipped record. It is a u64 in the source; here it does not wrap, so that the model is one of runs with
    fewer than 2^64 calls of `ship`. -/
abbrev Lsn := Nat

structure WalRecordMsg where
  lsn : Lsn
  segment : Nat
  recordHex : String
  recordHashHex : String
  deriving DecidableEq, Repr

inductive ReplicationMessage where
  | walRecord (rec : WalRecordMsg)
  | heartbeat (lastLsn : Lsn)
  deriving DecidableEq, Repr

inductive AckMessage where
  | ack (lsn : Lsn)
  | heartbeatAck (lastLsn : Lsn)
  | error (lsn : Option Lsn) (message : String)
  deriving DecidableEq, Repr

inductive ReplicationError where
  | ackTimeout (lsn : Lsn) (ms : Nat)
  | ackMismatch (expected got : Lsn)
  | streamEnded
  | invalidRecord (reason : String)
  deriving DecidableEq, Repr

def WalRecordMsg.of (blake3 : List UInt8 → Hash) (lsn : Lsn) (recordBytes : List UInt8) (segment : Nat) : WalRecordMsg where
  lsn := lsn
  segment := segment
  recordHex := hexEncode recordBytes
  recordHashHex := hexEncode (blake3 recordBytes).toList

/-! ### State -/

structure Link where
  replica : Nat
  joined : Bool
  /-- A write to the replica has failed, and nothing written later arrives. -/
  severed : Bool
  toReplica : List ReplicationMessage
  /-- The lines to the primary. A line of which a part is lost does not decode. -/
  toPrimary : List (Option AckMessage)
  deriving DecidableEq, Repr

def Link.opened (replica : Nat) : Link := ⟨replica, false, false, [], []⟩

def Link.deliver (k : Link) (msg : ReplicationMessage) : Link :=
  if k.severed then k else { k with toReplica := k.toReplica ++ [msg] }

inductive Request where
  | ship (rec : WalRecordMsg)
  | heartbeat (lastLsn : Lsn)
  deriving DecidableEq, Repr

def Request.message : Request → ReplicationMessage
  | .ship rec => .walRecord rec
  | .heartbeat lastLsn => .heartbeat lastLsn

/-- Where a call on the primary stands. The connections that failed are kept until it returns. -/
inductive Pc where
  | locking
  | writing (i : Nat) (dead : List Nat)
  | reading (i : Nat) (dead : List Nat)
  | done (result : Except ReplicationError Lsn)
  | finished
  deriving DecidableEq

structure Call where
  request : Request
  pc : Pc
  deriving DecidableEq

inductive ReplicaPc where
  | receiving
  | answering (a : AckMessage)
  deriving DecidableEq, Repr

structure Session where
  link : Nat
  lastLsn : Lsn
  pc : ReplicaPc
  deriving DecidableEq, Repr

structure Replica where
  session : Option Session
  wal : Wal.Dir
  /-- The records applied, in their order, over all sessions. -/
  applied : List WalRecordMsg
  deriving DecidableEq, Repr

structure Network where
  ackTimeoutMs : Nat
  nextLsn : Lsn
  /-- The connections that records are shipped over. -/
  conns : List Nat
  lock : Option Nat
  calls : List Call
  links : List Link
  replicas : List Replica

/-! ### Primary -/

def swapRemove {α : Type} (xs : List α) (i : Nat) : List α :=
  match xs.getLast? with
  | some x => (xs.set i x).dropLast
  | none => []

def removeDead {α : Type} (xs : List α) (dead : List Nat) : List α := dead.foldr (fun i xs => swapRemove xs i) xs

inductive ReadOutcome where
  | line
  /-- A read that is given up can have taken a part of the next line. -/
  | timedOut (torn : Bool)
  | failed
  | closed
  deriving DecidableEq, Repr

namespace Network

@[simps] def setPc (q : Network) (n : Nat) (c : Call) (pc : Pc) : Network := { q with calls := q.calls.set n { c with pc := pc } }

@[simps] def setLink (q : Network) (l : Nat) (k : Link) : Network := { q with links := q.links.set l k }

def ship (blake3 : List UInt8 → Hash) (q : Network) (recordBytes : List UInt8) (segment : Nat) : Network :=
  { q with
    nextLsn := q.nextLsn + 1
    calls := q.calls ++ [⟨.ship (.of blake3 q.nextLsn recordBytes segment), .locking⟩] }

def heartbeat (q : Network) : Network := { q with calls := q.calls ++ [⟨.heartbeat (q.nextLsn - 1), .locking⟩] }

def returned : Request → Pc
  | .ship rec => .done (.ok rec.lsn)
  | .heartbeat _ => .finished

/-- Go on with the next connection, or remove the dead ones and return. -/
def passOn (q : Network) (n : Nat) (c : Call) (i : Nat) (dead : List Nat) : Network :=
  if i < q.conns.length then q.setPc n c (.writing i dead)
  else { q with conns := removeDead q.conns dead, lock := none }.setPc n c (returned c.request)

/-- Return at once. The connections that failed stay in the list. -/
def giveUp (q : Network) (n : Nat) (c : Call) (e : ReplicationError) : Network :=
  { q with lock := none }.setPc n c (.done (.error e))

def acquire (q : Network) (n : Nat) : Option Network := do
  let c ← q.calls[n]?
  if c.pc = .locking ∧ q.lock = none then some ({ q with lock := some n }.passOn n c 0 []) else none

def write (q : Network) (n : Nat) (ok : Bool) : Option Network := do
  let c ← q.calls[n]?
  match c.pc with
  | .writing i dead =>
    let l ← q.conns[i]?
    let k ← q.links[l]?
    if ok then
      let q := q.setLink l (k.deliver c.request.message)
      match c.request with
      | .ship _ => some (q.setPc n c (.reading i dead))
      | .heartbeat _ => some (q.passOn n c (i + 1) dead)
    else some ((q.setLink l { k with severed := true }).passOn n c (i + 1) (dead ++ [i]))
  | _ => none

def takeAnswer (q : Network) (n : Nat) (c : Call) (i : Nat) (dead : List Nat) (lsn : Lsn) : Option AckMessage → Network
  | none => q.passOn n c (i + 1) dead
  | some (.ack got) => if got ≠ lsn then q.giveUp n c (.ackMismatch lsn got) else q.passOn n c (i + 1) dead
  | some (.error _ _) => q.passOn n c (i + 1) (dead ++ [i])
  | some (.heartbeatAck _) => q.passOn n c (i + 1) dead

def inUse (q : Network) (l : Nat) : Bool := q.replicas.any fun rp => rp.session.any fun s => s.link = l

def read (q : Network) (n : Nat) (outcome : ReadOutcome) : Option Network := do
  let c ← q.calls[n]?
  match c.pc, c.request with
  | .reading i dead, .ship rec =>
    let l ← q.conns[i]?
    let k ← q.links[l]?
    match outcome, k.toPrimary with
    | .line, a :: lines => some ((q.setLink l { k with toPrimary := lines }).takeAnswer n c i dead rec.lsn a)
    | .timedOut true, _ :: lines =>
      some ((q.setLink l { k with toPrimary := none :: lines }).giveUp n c (.ackTimeout rec.lsn q.ackTimeoutMs))
    | .timedOut false, _ => some (q.giveUp n c (.ackTimeout rec.lsn q.ackTimeoutMs))
    | .failed, _ => some (q.passOn n c (i + 1) (dead ++ [i]))
    | .closed, [] => if q.inUse l then none else some (q.giveUp n c .streamEnded)
    | _, _ => none
  | _, _ => none

def join (q : Network) (l : Nat) : Option Network := do
  let k ← q.links[l]?
  if k.joined ∨ q.lock ≠ none then none
  else some ({ q with conns := q.conns ++ [l] }.setLink l { k with joined := true })

end Network

/-! ### Replica -/

def applyBytes (recordBytes : List UInt8) (segment : Nat) : Wal.Dir → Wal.Dir
  | [] => [⟨segment, recordBytes⟩]
  | f :: fs =>
    if segment < f.index then ⟨segment, recordBytes⟩ :: f :: fs
    else if segment = f.index then { f with bytes := f.bytes ++ recordBytes } :: fs
    else f :: applyBytes recordBytes segment fs

/-- What a replica does with a message that it has read. -/
inductive Handling where
  | apply (rec : WalRecordMsg) (recordBytes : List UInt8)
  | answer (a : AckMessage)
  /-- The session ends, with an answer if there is one. -/
  | refuse (a : Option AckMessage) (e : ReplicationError)

def handle (blake3 : List UInt8 → Hash) (lastLsn : Lsn) : ReplicationMessage → Handling
  | .walRecord rec =>
    match FourEyes.hexDecode rec.recordHex with
    | .error e => .refuse none (.invalidRecord e)
    | .ok recordBytes =>
      if hexEncode (blake3 recordBytes).toList ≠ rec.recordHashHex then
        .refuse (some (.error (some rec.lsn) "hash mismatch on received WAL record"))
          (.invalidRecord ("hash mismatch at lsn " ++ toString rec.lsn))
      else .apply rec recordBytes
  | .heartbeat _ => .answer (.heartbeatAck lastLsn)

inductive Written where
  | all
  | part (bytes : Nat)
  deriving DecidableEq, Repr

inductive Sent where
  | sent
  /-- The write fails, and a part of the line may have been sent. -/
  | failed (torn : Bool)
  deriving DecidableEq, Repr

namespace Network

@[simps] def setReplica (q : Network) (r : Nat) (rp : Replica) : Network := { q with replicas := q.replicas.set r rp }

def connect (q : Network) (r : Nat) : Option Network := do
  let rp ← q.replicas[r]?
  match rp.session with
  | none =>
    some ({ q with links := q.links ++ [Link.opened r] }.setReplica r
      { rp with session := some ⟨q.links.length, 0, .receiving⟩ })
  | some _ => none

def receive (blake3 : List UInt8 → Hash) (q : Network) (r : Nat) (outcome : Written) : Option Network := do
  let rp ← q.replicas[r]?
  let s ← rp.session
  let k ← q.links[s.link]?
  match s.pc, k.toReplica with
  | .receiving, msg :: msgs =>
    let q := q.setLink s.link { k with toReplica := msgs }
    match handle blake3 s.lastLsn msg, outcome with
    | .apply rec recordBytes, .all =>
      some (q.setReplica r
        { session := some { s with lastLsn := rec.lsn, pc := .answering (.ack rec.lsn) }
          wal := applyBytes recordBytes rec.segment rp.wal
          applied := rp.applied ++ [rec] })
    | .apply rec recordBytes, .part n =>
      some (q.setReplica r
        { rp with session := none, wal := applyBytes (recordBytes.take n) rec.segment rp.wal })
    | .answer a, _ => some (q.setReplica r { rp with session := some { s with pc := .answering a } })
    | .refuse (some a) _, .all =>
      some ((q.setLink s.link { k with toReplica := msgs, toPrimary := k.toPrimary ++ [some a] }).setReplica r
        { rp with session := none })
    | .refuse _ _, _ => some (q.setReplica r { rp with session := none })
  | _, _ => none

/-- A replica writes its answer. Only an acknowledgement that fails ends the session. -/
def answer (q : Network) (r : Nat) (outcome : Sent) : Option Network := do
  let rp ← q.replicas[r]?
  let s ← rp.session
  let k ← q.links[s.link]?
  match s.pc with
  | .answering a =>
    let next := { s with pc := .receiving }
    match outcome with
    | .sent =>
      some ((q.setLink s.link { k with toPrimary := k.toPrimary ++ [some a] }).setReplica r
        { rp with session := some next })
    | .failed torn =>
      let q := if torn then q.setLink s.link { k with toPrimary := k.toPrimary ++ [none] } else q
      match a with
      | .heartbeatAck _ => some (q.setReplica r { rp with session := some next })
      | _ => some (q.setReplica r { rp with session := none })
  | .receiving => none

def drop (q : Network) (r : Nat) : Option Network := do
  let rp ← q.replicas[r]?
  let _ ← rp.session
  some (q.setReplica r { rp with session := none })

end Network

/-! ### Steps -/

inductive Action where
  | ship (recordBytes : List UInt8) (segment : Nat)
  | heartbeat
  | acquire (n : Nat)
  | write (n : Nat) (ok : Bool)
  | read (n : Nat) (outcome : ReadOutcome)
  | join (l : Nat)
  | connect (r : Nat)
  | receive (r : Nat) (outcome : Written)
  | answer (r : Nat) (outcome : Sent)
  | drop (r : Nat)
  deriving DecidableEq, Repr

namespace Network

def start (ackTimeoutMs replicas : Nat) : Network := ⟨ackTimeoutMs, 1, [], none, [], [], List.replicate replicas ⟨none, [], []⟩⟩

def step (blake3 : List UInt8 → Hash) (q : Network) : Action → Option Network
  | .ship recordBytes segment => some (q.ship blake3 recordBytes segment)
  | .heartbeat => some q.heartbeat
  | .acquire n => q.acquire n
  | .write n ok => q.write n ok
  | .read n outcome => q.read n outcome
  | .join l => q.join l
  | .connect r => q.connect r
  | .receive r outcome => q.receive blake3 r outcome
  | .answer r outcome => q.answer r outcome
  | .drop r => q.drop r

end Network

end VectorLedger.Replication
