import VectorLedger.Types

/-! The four-eyes approval queue: an index in memory, three files of one record a line, and the calls that are under way.
    Each step of a call is one action on the index, on a file or on the ledger. -/

namespace VectorLedger.FourEyes

/-! ### Records -/

inductive ApprovalStatus where
  | pending
  | approved
  | rejected
  deriving DecidableEq, Repr

structure ApprovalRecord where
  id : Uuid
  status : ApprovalStatus
  submitterId : String
  approverId : Option String
  rejectReason : Option String
  submittedAt : DateTime
  decidedAt : Option DateTime
  entryPayloadHex : String
  description : String
  domain : String
  deriving DecidableEq, Repr

inductive FourEyesError where
  | io
  | notFound (id : Uuid)
  | selfApproval (approver : String)
  | postFailed (reason : String)
  | serialisation (reason : String)
  deriving DecidableEq, Repr

def hexValue (c : Char) (index : Nat) : Except String Nat :=
  if '0' ≤ c ∧ c ≤ '9' then .ok (c.toNat - 48)
  else if 'a' ≤ c ∧ c ≤ 'f' then .ok (c.toNat - 87)
  else if 'A' ≤ c ∧ c ≤ 'F' then .ok (c.toNat - 55)
  else .error ("Invalid character " ++ c.quote ++ " at position " ++ toString index)

def hexPairs (index : Nat) : List Char → Except String (List UInt8)
  | [] => .ok []
  | [_] => .error "Odd number of digits"
  | high :: low :: cs => do
    let h ← hexValue high index
    let l ← hexValue low (index + 1)
    let rest ← hexPairs (index + 2) cs
    pure (UInt8.ofNat (16 * h + l) :: rest)

def hexDecode (s : String) : Except String (List UInt8) :=
  if s.length % 2 = 1 then .error "Odd number of digits" else hexPairs 0 s.toList

/-! ### Files -/

/-- What stands on a line: the text of a record, or a part of one that a failed write has left. -/
inductive Piece where
  | text (r : ApprovalRecord)
  | part
  deriving DecidableEq, Repr

/-- A text file: the lines that have been ended, and what stands behind the last line end. -/
structure TextFile where
  lines : List (List Piece)
  last : List Piece
  deriving DecidableEq, Repr

namespace TextFile

def empty : TextFile := ⟨[], []⟩

def allLines (f : TextFile) : List (List Piece) := f.lines ++ [f.last]

def parseLine : List Piece → Option ApprovalRecord
  | [.text r] => some r
  | _ => none

/-- The records of a file. Lines that are empty or no record are skipped. -/
def records (f : TextFile) : List ApprovalRecord := f.allLines.filterMap parseLine

def write (f : TextFile) (p : Piece) : TextFile := { f with last := f.last ++ [p] }

def writeNewline (f : TextFile) : TextFile := ⟨f.lines ++ [f.last], []⟩

def linesWithout (f : TextFile) (id : Uuid) : List (List Piece) :=
  f.allLines.filter fun line => line ≠ [] ∧ ∀ r ∈ parseLine line, r.id ≠ id

end TextFile

/-! ### Calls -/

inductive Request where
  | submit (id : Uuid) (entryBytes : List UInt8) (description domain submitterId : String) (now : DateTime)
  | approve (id : Uuid) (approverId : String) (now : DateTime)
  | reject (id : Uuid) (approverId reason : String) (now : DateTime)
  deriving DecidableEq, Repr

inductive Pc where
  /-- Look for the id in the file of approved records. -/
  | checking
  /-- Look it up in the index, and check that the approver is not the submitter. -/
  | getting
  | posting (r : ApprovalRecord) (entry : List UInt8)
  /-- Look whether the file for the record exists. -/
  | seeking (r : ApprovalRecord)
  | making (r : ApprovalRecord)
  | opening (r : ApprovalRecord)
  /-- Write the record to the file that was opened. -/
  | recording (r : ApprovalRecord) (opened : Nat)
  | ending (r : ApprovalRecord) (opened : Nat)
  /-- Put the record of a submission into the index. -/
  | inserting (r : ApprovalRecord)
  /-- Read the pending file, to rewrite it without the record. -/
  | reading (r : ApprovalRecord)
  | creating (r : ApprovalRecord) (kept : List (List Piece))
  | writing (r : ApprovalRecord) (kept : List (List Piece))
  /-- Rename the temporary file to the pending one. -/
  | replacing (r : ApprovalRecord)
  | forgetting (r : ApprovalRecord)
  | done (result : Except FourEyesError ApprovalRecord)

structure Call where
  request : Request
  pc : Pc

/-- What the calls have done to the ledger and to the files of decisions. -/
inductive Outcome where
  | posted (id : Uuid) (approverId : String) (entry : List UInt8)
  | recorded (r : ApprovalRecord)
  deriving DecidableEq, Repr

abbrev Index := Uuid → Option ApprovalRecord

structure FourEyesQueue where
  pendingFile : TextFile
  approvedFile : TextFile
  rejectedFile : TextFile
  tmpFile : Option TextFile
  /-- Which of the three files exist; one that does not has no text. -/
  present : ApprovalStatus → Bool
  /-- How often the pending file has been replaced. A file that was opened before is no longer the pending one. -/
  replaced : Nat
  /-- The pending records in memory, while the queue is open. -/
  index : Option Index
  calls : List Call
  issued : List ApprovalRecord
  trace : List Outcome

inductive QueueEvent where
  | openQueue
  | call (request : Request)
  | step (n : Nat)
  /-- The posting function of an approval returns. -/
  | post (n : Nat) (result : Except String Unit)
  /-- The next action on a file fails; a write may have put down a part of its text. -/
  | fail (n : Nat) (partly : Bool)
  | crash

namespace FourEyesQueue

def start : FourEyesQueue where
  pendingFile := .empty
  approvedFile := .empty
  rejectedFile := .empty
  tmpFile := none
  present _ := false
  replaced := 0
  index := none
  calls := []
  issued := []
  trace := []

/-- The pending records of the file; of two with one id the later counts. -/
def loadPending (f : TextFile) : Index :=
  f.records.foldl (fun index r => Function.update index r.id (some r)) fun _ => none

def findInDecided (f : TextFile) (id : Uuid) : Option ApprovalRecord := f.records.find? (·.id == id)

def newRecord (id : Uuid) (entryBytes : List UInt8) (description domain submitterId : String) (now : DateTime) :
    ApprovalRecord where
  id := id
  status := .pending
  submitterId := submitterId
  approverId := none
  rejectReason := none
  submittedAt := now
  decidedAt := none
  entryPayloadHex := hexEncode entryBytes
  description := description
  domain := domain

def approvedRecord (r : ApprovalRecord) (approverId : String) (now : DateTime) : ApprovalRecord :=
  { r with status := .approved, approverId := some approverId, decidedAt := some now }

def rejectedRecord (r : ApprovalRecord) (approverId reason : String) (now : DateTime) : ApprovalRecord :=
  { r with status := .rejected, approverId := some approverId, rejectReason := some reason, decidedAt := some now }

/-- Begin a call. A submission draws an id that has not been drawn before. -/
def begin (q : FourEyesQueue) (request : Request) : Option FourEyesQueue :=
  match request with
  | .submit id entryBytes description domain submitterId now =>
    let r := newRecord id entryBytes description domain submitterId now
    if id ∈ q.issued.map (·.id) then none
    else some { q with calls := q.calls ++ [⟨request, .seeking r⟩], issued := q.issued ++ [r] }
  | .approve _ _ _ => some { q with calls := q.calls ++ [⟨request, .checking⟩] }
  | .reject _ _ _ _ => some { q with calls := q.calls ++ [⟨request, .getting⟩] }

def getPending (index : Index) (id : Uuid) : Except FourEyesError ApprovalRecord :=
  match index id with
  | some r => .ok r
  | none => .error (.notFound id)

def checkApprover (r : ApprovalRecord) (approverId : String) : Except FourEyesError Unit :=
  if r.submitterId = approverId then .error (.selfApproval approverId) else .ok ()

/-- What a call does after it has looked up the record: an approval is posted, a rejection recorded. -/
def afterGetting (index : Index) : Request → Except FourEyesError Pc
  -- A submission looks nothing up.
  | .submit _ _ _ _ _ _ => .error .io
  | .approve id approverId _ => do
    let r ← getPending index id
    checkApprover r approverId
    let entry ← (hexDecode r.entryPayloadHex).mapError .serialisation
    pure (.posting r entry)
  | .reject id approverId reason now => do
    let r ← getPending index id
    checkApprover r approverId
    pure (.seeking (rejectedRecord r approverId reason now))

def changeFile (q : FourEyesQueue) (status : ApprovalStatus) (f : TextFile → TextFile) : FourEyesQueue :=
  match status with
  | .pending => { q with pendingFile := f q.pendingFile }
  | .approved => { q with approvedFile := f q.approvedFile }
  | .rejected => { q with rejectedFile := f q.rejectedFile }

def setPresent (q : FourEyesQueue) (status : ApprovalStatus) : FourEyesQueue :=
  { q with present := Function.update q.present status true }

/-- Create a file. One that has come to exist meanwhile loses its text. -/
def create (q : FourEyesQueue) (status : ApprovalStatus) : FourEyesQueue :=
  (q.changeFile status fun _ => .empty).setPresent status

/-- Write to a file that was opened. A pending file that has been replaced since is no longer there to read. -/
def writeTo (q : FourEyesQueue) (status : ApprovalStatus) (opened : Nat) (f : TextFile → TextFile) : FourEyesQueue :=
  if status = .pending ∧ opened ≠ q.replaced then q else q.changeFile status f

def record (q : FourEyesQueue) (r : ApprovalRecord) (opened : Nat) : FourEyesQueue :=
  { q.writeTo r.status opened (·.write (.text r)) with
    trace := if r.status = .pending then q.trace else q.trace ++ [.recorded r] }

def act (q : FourEyesQueue) (index : Index) (request : Request) : Pc → Option (FourEyesQueue × Pc)
  | .checking =>
    match request with
    | .approve id _ _ =>
      match findInDecided q.approvedFile id with
      | some r => some (q, .done (.ok r))
      | none => some (q, .getting)
    | _ => none
  | .getting =>
    match afterGetting index request with
    | .ok pc => some (q, pc)
    | .error e => some (q, .done (.error e))
  | .posting _ _ => none
  | .seeking r => some (q, if q.present r.status then .opening r else .making r)
  | .making r => some (q.create r.status, .opening r)
  | .opening r => some (q.setPresent r.status, .recording r q.replaced)
  | .recording r opened => some (q.record r opened, .ending r opened)
  | .ending r opened =>
    some (q.writeTo r.status opened (·.writeNewline), if r.status = .pending then .inserting r else .reading r)
  | .inserting r => some ({ q with index := some (Function.update index r.id (some r)) }, .done (.ok r))
  | .reading r =>
    some (q, if q.present .pending then .creating r (q.pendingFile.linesWithout r.id) else .forgetting r)
  | .creating r kept => some ({ q with tmpFile := some .empty }, .writing r kept)
  | .writing r kept =>
    match q.tmpFile with
    | some _ => some ({ q with tmpFile := some ⟨kept, []⟩ }, .replacing r)
    | none => some (q, .done (.error .io))
  | .replacing r =>
    match q.tmpFile with
    | some f => some ({ q with pendingFile := f, tmpFile := none, replaced := q.replaced + 1 }, .forgetting r)
    | none => some (q, .done (.error .io))
  | .forgetting r => some ({ q with index := some (Function.update index r.id none) }, .done (.ok r))
  | .done _ => none

def post (q : FourEyesQueue) (request : Request) (result : Except String Unit) : Pc → Option (FourEyesQueue × Pc)
  | .posting r entry =>
    match request, result with
    | .approve id approverId now, .ok _ =>
      some ({ q with trace := q.trace ++ [.posted id approverId entry] }, .seeking (approvedRecord r approverId now))
    | _, .error e => some (q, .done (.error (.postFailed e)))
    | _, _ => none
  | _ => none

def failAt (q : FourEyesQueue) (partly : Bool) : Pc → Option FourEyesQueue
  | .recording r opened => some (if partly then q.writeTo r.status opened (·.write .part) else q)
  | .checking | .making _ | .opening _ | .ending _ _ | .reading _ | .creating _ _ | .replacing _ => some q
  | .writing _ _ =>
    some (if partly then { q with tmpFile := q.tmpFile.map fun _ => ⟨[], [.part]⟩ } else q)
  | .getting | .posting _ _ | .seeking _ | .inserting _ | .forgetting _ | .done _ => none

def setPc (q : FourEyesQueue) (n : Nat) (request : Request) (pc : Pc) : FourEyesQueue :=
  { q with calls := q.calls.set n ⟨request, pc⟩ }

def step (q : FourEyesQueue) (ev : QueueEvent) : Option FourEyesQueue :=
  match q.index, ev with
  | none, .openQueue => some { q with index := some (loadPending q.pendingFile) }
  | some _, .call request => q.begin request
  | some index, .step n => do
    let call ← q.calls[n]?
    let (q', pc) ← q.act index call.request call.pc
    pure (q'.setPc n call.request pc)
  | some _, .post n result => do
    let call ← q.calls[n]?
    let (q', pc) ← q.post call.request result call.pc
    pure (q'.setPc n call.request pc)
  | some _, .fail n partly => do
    let call ← q.calls[n]?
    let q' ← q.failAt partly call.pc
    pure (q'.setPc n call.request (.done (.error .io)))
  | some _, .crash => some { q with index := none, calls := [] }
  | _, _ => none

end FourEyesQueue

end VectorLedger.FourEyes
