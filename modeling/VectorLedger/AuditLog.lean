import VectorLedger.Entry
import VectorLedger.Lib.Lines

/-! The audit log: events of one line each, linked by hashes; its appends, which take a number before they take the lock on
    the chain; its verification, and what is restored when it is opened. -/

namespace VectorLedger

/-! ### Events -/

inductive AuditEventKind where
  | queryExecuted (sql callerId : String) (rowsAffected durationMs : UInt64)
  | entryPosted (entryId : Uuid) (entrySequence : UInt64) (domain : String) (amountSum : Int64) (callerId : String)
  | accountCreated (accountId : Uuid) (accountCode domain callerId : String)
  | accountClosed (accountId : Uuid) (callerId : String)
  | keyRotated (keyId callerId : String)
  | replicationEvent (lsn : UInt64) (direction peer : String)
  | authEvent (callerId : String) (success : Bool) (peerAddr : String)
  | fourEyesSubmitted (approvalId entryId : Uuid) (submitter domain : String)
  | fourEyesApproved (approvalId : Uuid) (approver : String)
  | fourEyesRejected (approvalId : Uuid) (approver reason : String)
  | backupCreated (path : String) (sizeBytes : UInt64) (callerId : String)
  | keyRotationStarted (keyIds : List String) (callerId : String)
  | serverStarted (bindAddr version : String)
  deriving DecidableEq, Repr

structure AuditEvent where
  sequence : UInt64
  ts : DateTime
  event : AuditEventKind
  contentHash : String
  chainHash : String
  prevHash : String
  deriving DecidableEq, Repr

inductive AuditError where
  | io
  | serialisation (reason : String)
  | chainBroken (sequence : UInt64) (reason : String)
  deriving DecidableEq, Repr

/-- The hash function, and the texts that serde_json writes and reads. -/
structure AuditEnv where
  blake3 : List UInt8 → Hash
  kindJson : AuditEventKind → String
  toJson : AuditEvent → String
  fromJson : String → Except String AuditEvent

namespace AuditEvent

open JournalEntry (utf8 leBytesI64 timestampNanos)

def zeroHash : String := "0000000000000000000000000000000000000000000000000000000000000000"

def canonicalBytes (env : AuditEnv) (e : AuditEvent) : List UInt8 :=
  leBytes 8 e.sequence.toNat ++ leBytesI64 (timestampNanos e.ts) ++ utf8 (env.kindJson e.event)

def contentHex (env : AuditEnv) (e : AuditEvent) : String := hexEncode (env.blake3 (e.canonicalBytes env)).toList

def chainBytes (sequence : UInt64) (prevHash contentHex : String) : List UInt8 :=
  leBytes 8 sequence.toNat ++ utf8 prevHash ++ utf8 contentHex

def chainHex (env : AuditEnv) (sequence : UInt64) (prevHash contentHex : String) : String :=
  hexEncode (env.blake3 (chainBytes sequence prevHash contentHex)).toList

def finalise (env : AuditEnv) (e : AuditEvent) (prevChainHash : String) : AuditEvent :=
  { e with
    contentHash := e.contentHex env
    prevHash := prevChainHash
    chainHash := chainHex env e.sequence prevChainHash (e.contentHex env) }

def verify (env : AuditEnv) (e : AuditEvent) : Bool :=
  e.contentHex env == e.contentHash && chainHex env e.sequence e.prevHash (e.contentHex env) == e.chainHash

end AuditEvent

/-! ### Files -/

def readLine (line : List UInt8) : Except AuditError String :=
  match String.fromUTF8? ⟨line.toArray⟩ with
  | some text => .ok text
  | none => .error .io

def isWhitespace (c : Char) : Bool :=
  (0x09 ≤ c.toNat && c.toNat ≤ 0x0D) || (0x2000 ≤ c.toNat && c.toNat ≤ 0x200A) ||
    [0x20, 0x85, 0xA0, 0x1680, 0x2028, 0x2029, 0x202F, 0x205F, 0x3000].contains c.toNat

def isBlank (text : String) : Bool := text.toList.all isWhitespace

structure AuditLog where
  file : List UInt8
  nextSeq : UInt64
  lastChain : String
  deriving DecidableEq, Repr

namespace AuditLog

open JournalEntry (utf8)

def verifyLines (env : AuditEnv) (prevHash : String) (count : Nat) : List (List UInt8) → Except AuditError Nat
  | [] => .ok count
  | line :: lines => do
    let text ← readLine line
    if isBlank text then verifyLines env prevHash count lines
    else do
      let event ← (env.fromJson text).mapError .serialisation
      if event.verify env = false then
        .error (.chainBroken event.sequence "content_hash or chain_hash mismatch")
      else if event.prevHash ≠ prevHash then
        .error (.chainBroken event.sequence
          ("prev_hash mismatch: expected " ++ prevHash ++ ", got " ++ event.prevHash))
      else verifyLines env event.chainHash (count + 1) lines

/-- The number of events, if every line is an event and the events are linked. -/
def verifyChain (env : AuditEnv) (file : List UInt8) : Except AuditError Nat :=
  verifyLines env AuditEvent.zeroHash 0 (Lines.split file)

/-- The number and the chain hash of the last event that can be read. Other lines are skipped. -/
def scanLines (env : AuditEnv) (tail : UInt64 × String) : List (List UInt8) → Except AuditError (UInt64 × String)
  | [] => .ok tail
  | line :: lines => do
    let text ← readLine line
    if isBlank text then scanLines env tail lines
    else
      match env.fromJson text with
      | .ok event => scanLines env (event.sequence, event.chainHash) lines
      | .error _ => scanLines env tail lines

def scanTail (env : AuditEnv) (file : List UInt8) : Except AuditError (UInt64 × String) := do
  let (lastSeq, lastChain) ← scanLines env (0, AuditEvent.zeroHash) (Lines.split file)
  pure (lastSeq + 1, lastChain)

/-- Open the log. A file that does not exist is created, and has no bytes. -/
def openLog (env : AuditEnv) (file : List UInt8) : Except AuditError AuditLog := do
  let (nextSeq, lastChain) ← scanTail env file
  pure ⟨file, nextSeq, lastChain⟩

/-! ### Appending -/

def newEvent (sequence : UInt64) (ts : DateTime) (kind : AuditEventKind) : AuditEvent :=
  ⟨sequence, ts, kind, "", "", ""⟩

def takeNumber (log : AuditLog) : UInt64 × AuditLog := (log.nextSeq, { log with nextSeq := log.nextSeq + 1 })

def write (log : AuditLog) (bytes : List UInt8) : AuditLog := { log with file := log.file ++ bytes }

def line (env : AuditEnv) (e : AuditEvent) : List UInt8 := utf8 (env.toJson e)

def append (env : AuditEnv) (log : AuditLog) (ts : DateTime) (kind : AuditEventKind) : AuditLog × AuditEvent :=
  let (seq, log) := log.takeNumber
  let event := (newEvent seq ts kind).finalise env log.lastChain
  let log := (log.write (line env event)).write [Lines.lineFeed]
  ({ log with lastChain := event.chainHash }, event)

end AuditLog

/-! ### Concurrent appends -/

inductive AppendPc where
  /-- It has its number, and waits for the lock on the chain. -/
  | waiting (sequence : UInt64)
  /-- It has the lock and has linked its event. -/
  | writing (event : AuditEvent)
  /-- It has written the event, and is to end the line and to fsync. -/
  | ending (event : AuditEvent)
  /-- It is to store the chain hash and to release the lock. -/
  | storing (event : AuditEvent)
  | done (result : Except AuditError AuditEvent)

def AppendPc.over : AppendPc → Bool
  | .done _ => true
  | _ => false

structure AppendCall where
  ts : DateTime
  kind : AuditEventKind
  pc : AppendPc

structure AuditProcess where
  log : AuditLog
  /-- The append that holds the lock on the chain. -/
  holder : Option Nat
  calls : List AppendCall
  /-- The events of the appends that have returned them, in all processes so far. -/
  completed : List AuditEvent

inductive AuditAction where
  | append (ts : DateTime) (kind : AuditEventKind)
  | step (n : Nat)
  /-- The write of an append fails, after so many bytes. -/
  | fail (n : Nat) (written : Nat)
  /-- The process ends when no append is under way, and the log is opened again. -/
  | restart

namespace AuditProcess

def start : AuditProcess := ⟨⟨[], 1, AuditEvent.zeroHash⟩, none, [], []⟩

def setPc (p : AuditProcess) (n : Nat) (c : AppendCall) (pc : AppendPc) : AuditProcess :=
  { p with calls := p.calls.set n { c with pc } }

def act (env : AuditEnv) (p : AuditProcess) (n : Nat) (c : AppendCall) : Option AuditProcess :=
  match c.pc with
  | .waiting seq =>
    if p.holder = none then
      let event := (AuditLog.newEvent seq c.ts c.kind).finalise env p.log.lastChain
      some ({ p with holder := some n }.setPc n c (.writing event))
    else none
  | .writing e => some ({ p with log := p.log.write (AuditLog.line env e) }.setPc n c (.ending e))
  | .ending e => some ({ p with log := p.log.write [Lines.lineFeed] }.setPc n c (.storing e))
  | .storing e =>
    some ({ p with
      log := { p.log with lastChain := e.chainHash }
      holder := none
      completed := p.completed ++ [e] }.setPc n c (.done (.ok e)))
  | .done _ => none

def failAt (env : AuditEnv) (p : AuditProcess) (n : Nat) (c : AppendCall) (written : Nat) : Option AuditProcess :=
  let giveUp := fun bytes : List UInt8 =>
    some ({ p with log := p.log.write (bytes.take written), holder := none }.setPc n c (.done (.error .io)))
  match c.pc with
  | .writing e => giveUp (AuditLog.line env e)
  | .ending _ => giveUp [Lines.lineFeed]
  | .waiting _ | .storing _ | .done _ => none

def step (env : AuditEnv) (p : AuditProcess) : AuditAction → Option AuditProcess
  | .append ts kind =>
    let (seq, log) := p.log.takeNumber
    some { p with log, calls := p.calls ++ [⟨ts, kind, .waiting seq⟩] }
  | .step n => do
    let c ← p.calls[n]?
    p.act env n c
  | .fail n written => do
    let c ← p.calls[n]?
    p.failAt env n c written
  | .restart =>
    if p.calls.all (·.pc.over) then
      match AuditLog.openLog env p.log.file with
      | .ok log => some ⟨log, none, [], p.completed⟩
      | .error _ => none
    else none

end AuditProcess

end VectorLedger
