import VectorLedger.Entry
import Mathlib.Data.List.Infix

/-! The user store of the server: accounts, sessions and failed logins, each behind a lock of its own, and the calls that
    are under way. A step of a call is what it does while it has one of the locks, or the end of a delay. -/

namespace VectorLedger

/-! ### Roles, accounts and sessions -/

inductive Role where
  | admin
  | operator
  | auditor
  | readOnly
  deriving DecidableEq, Repr

namespace Role

def canSelect : Role → Bool := fun _ => true

def canInsertLedger (r : Role) : Bool := r = .admin ∨ r = .operator

def canInsertAccounts (r : Role) : Bool := r = .admin ∨ r = .operator

def canVerify (r : Role) : Bool := r = .admin ∨ r = .operator ∨ r = .auditor

def display : Role → String
  | .admin => "admin"
  | .operator => "operator"
  | .auditor => "auditor"
  | .readOnly => "readonly"

end Role

inductive Listener where
  | native
  | pgwire (username : String)
  deriving DecidableEq, Repr

abbrev Time := Nat

structure UserRecord where
  username : String
  passwordHash : String
  role : Role
  enabled : Bool
  domainFilter : Option String
  deriving DecidableEq, Repr

abbrev Users := Finmap fun _ : String => UserRecord

structure Session where
  username : String
  role : Role
  token : String
  expiresAt : Time
  deriving DecidableEq, Repr

def Session.isExpired (s : Session) (now : Time) : Bool := s.expiresAt < now

inductive ServerError where
  | io (reason : String)
  | auth (reason : String)
  deriving DecidableEq, Repr

/-! ### Failed logins -/

def maxSessions : Nat := 4096

def maxFailedAttempts : Nat := 5

def lockoutDuration : Time := 300 * 1000

def baseFailDelayMs : Nat := 200

def maxFailDelayMs : Nat := 3000

def sessionTtl : Time := 3600 * 1000

structure FailureState where
  count : Nat
  lockedAt : Option Time
  deriving DecidableEq, Repr

namespace FailureState

def new : FailureState := ⟨0, none⟩

def isLocked (st : FailureState) (now : Time) : Bool :=
  match st.lockedAt with
  | some t => now - t < lockoutDuration
  | none => false

/-- Count a failure. The lock is set once: a time that is there stays, also when the lock is over. -/
def recordFailure (st : FailureState) (now : Time) : FailureState where
  count := st.count + 1
  lockedAt := if maxFailedAttempts ≤ st.count + 1 ∧ st.lockedAt = none then some now else st.lockedAt

def reset (_ : FailureState) : FailureState := new

def delayMs (st : FailureState) : Nat := min (baseFailDelayMs * 2 ^ min st.count 10) maxFailDelayMs

end FailureState

/-! ### The environment -/

/-- Argon2, the keyed hash of the server's secret, and the order in which the map of sessions is iterated. -/
structure AuthEnv where
  verifyPassword : String → String → Bool
  hashPassword : Nat → String → Except String String
  blake3Keyed : List UInt8 → Hash
  sessionOrder : List Session → List Session

/-- What one step draws: a salt, the nonce of a token, and the result of writing the users file. -/
structure AuthIo where
  salt : Nat
  nonce : List UInt8
  written : Except String Unit

def needsRehash (phc : String) : Bool := !decide ("m=65536,t=3,p=4".toList <:+: phc.toList)

def mintToken (env : AuthEnv) (username : String) (role : Role) (nonce : List UInt8) : String :=
  hexEncode (env.blake3Keyed (JournalEntry.utf8 username ++ JournalEntry.utf8 role.display ++ nonce)).toList

/-! ### Calls -/

inductive AuthRequest where
  | authenticate (username password : String)
  | validateToken (token : String)
  | purgeExpiredSessions
  | createUser (username password : String) (role : Role) (domain : Option String)
  | setPassword (username newPassword : String)
  | setEnabled (username : String) (enabled : Bool)
  | setRole (username : String) (newRole : Role)
  | deleteUser (username : String)
  deriving DecidableEq, Repr

inductive AuthPc where
  /-- Look whether the username is locked out. -/
  | checking
  /-- Check the password, and make the session. -/
  | looking
  | failing (e : ServerError)
  | sleeping (wake : Time) (e : ServerError)
  /-- Write back a stronger hash of the password that was checked. -/
  | rehashing (s : Session)
  | resetting (s : Session)
  | inserting (s : Session)
  | purging
  | getting
  | writing
  | revoking
  /-- Write the users file; then a login goes on with its session. -/
  | persisting (s : Option Session)
  | done (result : Except ServerError (Option Session))
  deriving DecidableEq

def AuthPc.result : AuthPc → Option (Except ServerError (Option Session))
  | .done result => some result
  | _ => none

structure AuthCall where
  request : AuthRequest
  pc : AuthPc
  deriving DecidableEq

inductive AuthEvent where
  | failed (username : String) (time : Time)
  | succeeded (username : String)
  | inserted (s : Session)
  /-- A management call has changed an account. -/
  | changed (n : Nat) (request : AuthRequest)
  /-- The sessions of a user have been dropped. -/
  | revoked (username : String)
  deriving DecidableEq, Repr

structure UserStore where
  users : Users
  /-- The users file, unless its last write has failed. -/
  usersJson : Option Users
  sessions : List Session
  failures : Finmap fun _ : String => FailureState
  now : Time
  calls : List AuthCall
  trace : List AuthEvent

inductive AuthAction where
  | call (request : AuthRequest)
  | step (n : Nat) (io : AuthIo)
  | tick (ms : Nat)

namespace AuthRequest

def username : AuthRequest → Option String
  | .authenticate username _ | .createUser username _ _ _ | .setPassword username _ | .setEnabled username _
  | .setRole username _ | .deleteUser username => some username
  | .validateToken _ | .purgeExpiredSessions => none

def first : AuthRequest → AuthPc
  | .authenticate _ _ => .checking
  | .validateToken _ | .purgeExpiredSessions => .purging
  | .createUser _ _ _ _ | .setPassword _ _ | .setEnabled _ _ | .setRole _ _ | .deleteUser _ => .writing

def revokes : AuthRequest → Bool
  | .setPassword _ _ | .setRole _ _ | .deleteUser _ => true
  | .setEnabled _ enabled => !enabled
  | .authenticate _ _ | .validateToken _ | .purgeExpiredSessions | .createUser _ _ _ _ => false

end AuthRequest

namespace UserStore

def start (users : Users) : UserStore where
  users := users
  usersJson := some users
  sessions := []
  failures := ∅
  now := 0
  calls := []
  trace := []

/-! ### Accounts -/

def domainFilter (q : UserStore) (username : String) : Option String :=
  (q.users.lookup username).bind (·.domainFilter)

def modify (users : Users) (username : String) (f : UserRecord → UserRecord) : Except ServerError Users :=
  match users.lookup username with
  | some user => .ok (users.insert username (f user))
  | none => .error (.auth ("user '" ++ username ++ "' not found"))

def change (env : AuthEnv) (salt : Nat) (users : Users) : AuthRequest → Except ServerError Users
  | .createUser username password role domain => do
    let hash ← (env.hashPassword salt password).mapError .auth
    if (users.lookup username).isSome then .error (.auth ("user '" ++ username ++ "' already exists"))
    else pure (users.insert username ⟨username, hash, role, true, domain⟩)
  | .setPassword username newPassword => do
    let hash ← (env.hashPassword salt newPassword).mapError .auth
    modify users username fun user => { user with passwordHash := hash }
  | .setEnabled username enabled => modify users username fun user => { user with enabled := enabled }
  | .setRole username newRole => modify users username fun user => { user with role := newRole }
  | .deleteUser username =>
    match users.lookup username with
    | some _ => .ok (users.erase username)
    | none => .error (.auth ("user '" ++ username ++ "' not found"))
  -- The other calls change no account.
  | .authenticate _ _ | .validateToken _ | .purgeExpiredSessions => .error (.io "")

/-! ### Logins -/

def failureState (q : UserStore) (username : String) : FailureState := (q.failures.lookup username).getD .new

def lockedError : ServerError := .auth "account temporarily locked — too many failed attempts"

def checkLockout (q : UserStore) (username : String) : Except ServerError Unit :=
  if (q.failureState username).isLocked q.now then .error lockedError else .ok ()

/-- Check the credentials. A login that succeeds gets its session, and the hash that the password was checked against. -/
def checkCredentials (env : AuthEnv) (nonce : List UInt8) (q : UserStore) (username password : String) :
    Except ServerError (Session × String) :=
  match q.users.lookup username with
  | none => .error (.auth "invalid credentials")
  | some user =>
    if !user.enabled then .error (.auth "account disabled")
    else if !env.verifyPassword password user.passwordHash then .error (.auth "invalid credentials")
    else .ok (⟨username, user.role, mintToken env username user.role nonce, q.now + sessionTtl⟩, user.passwordHash)

def recordFailure (q : UserStore) (username : String) : UserStore :=
  { q with
    failures := q.failures.insert username ((q.failureState username).recordFailure q.now)
    trace := q.trace ++ [.failed username q.now] }

def resetFailures (q : UserStore) (username : String) : UserStore :=
  { q with
    failures := q.failures.insert username (q.failureState username).reset
    trace := q.trace ++ [.succeeded username] }

def rehash (users : Users) (username hash : String) : Users :=
  match users.lookup username with
  | some user => users.insert username { user with passwordHash := hash }
  | none => users

/-! ### Sessions -/

/-- The session that ends first, of several the first in the order of the map. -/
def oldest : List Session → Option Session
  | [] => none
  | s :: ss =>
    match oldest ss with
    | some t => some (if t.expiresAt < s.expiresAt then t else s)
    | none => some s

def evictExpired (sessions : List Session) (now : Time) : List Session :=
  if maxSessions ≤ sessions.length then sessions.filter (now < ·.expiresAt) else sessions

def evictOldest (env : AuthEnv) (sessions : List Session) : List Session :=
  if maxSessions ≤ sessions.length then
    match oldest (env.sessionOrder sessions) with
    | some old => sessions.filter (·.token ≠ old.token)
    | none => sessions
  else sessions

def insertSessionBounded (env : AuthEnv) (q : UserStore) (s : Session) : UserStore :=
  { q with
    sessions := (evictOldest env (evictExpired q.sessions q.now)).filter (·.token ≠ s.token) ++ [s]
    trace := q.trace ++ [.inserted s] }

def getSession (q : UserStore) (token : String) : Except ServerError Session :=
  match (q.sessions.find? (·.token = token)).filter (!·.isExpired q.now) with
  | some s => .ok s
  | none => .error (.auth "invalid or expired session token")

def revokeSessionsFor (q : UserStore) (username : String) : UserStore :=
  { q with
    sessions := q.sessions.filter (·.username ≠ username)
    trace := q.trace ++ [.revoked username] }

def persist (q : UserStore) (written : Except String Unit) : UserStore :=
  { q with usersJson := written.toOption.map fun _ => q.users }

/-! ### Steps -/

def act (env : AuthEnv) (io : AuthIo) (q : UserStore) (n : Nat) (request : AuthRequest) : AuthPc → Option (UserStore × AuthPc)
  | .checking =>
    match request with
    | .authenticate username _ =>
      match q.checkLockout username with
      | .ok () => some (q, .looking)
      | .error e => some (q, .done (.error e))
    | _ => none
  | .looking =>
    match request with
    | .authenticate username password =>
      match q.checkCredentials env io.nonce username password with
      | .ok (s, hash) => some (q, if needsRehash hash then .rehashing s else .resetting s)
      | .error e => some (q, .failing e)
    | _ => none
  | .failing e =>
    match request with
    | .authenticate username _ =>
      some (q.recordFailure username, .sleeping (q.now + (q.failureState username).delayMs) e)
    | _ => none
  | .sleeping wake e => if wake ≤ q.now then some (q, .done (.error e)) else none
  | .rehashing s =>
    match request with
    | .authenticate username password =>
      match env.hashPassword io.salt password with
      | .ok hash => some ({ q with users := rehash q.users username hash }, .persisting (some s))
      | .error _ => some (q, .resetting s)
    | _ => none
  | .resetting s =>
    match request with
    | .authenticate username _ => some (q.resetFailures username, .inserting s)
    | _ => none
  | .inserting s => some (q.insertSessionBounded env s, .done (.ok (some s)))
  | .purging =>
    match request with
    | .validateToken _ => some ({ q with sessions := q.sessions.filter (!·.isExpired q.now) }, .getting)
    | .purgeExpiredSessions => some ({ q with sessions := q.sessions.filter (q.now < ·.expiresAt) }, .done (.ok none))
    | _ => none
  | .getting =>
    match request with
    | .validateToken token => some (q, .done ((q.getSession token).map some))
    | _ => none
  | .writing =>
    match change env io.salt q.users request with
    | .ok users =>
      some ({ q with users := users, trace := q.trace ++ [.changed n request] },
        if request.revokes then .revoking else .persisting none)
    | .error e => some (q, .done (.error e))
  | .revoking =>
    match request.username with
    | some username => some (q.revokeSessionsFor username, .persisting none)
    | none => none
  -- A login takes no notice of an error.
  | .persisting (some s) => some (q.persist io.written, .resetting s)
  | .persisting none => some (q.persist io.written, .done ((io.written.mapError .io).map fun _ => none))
  | .done _ => none

def setPc (q : UserStore) (n : Nat) (request : AuthRequest) (pc : AuthPc) : UserStore :=
  { q with calls := q.calls.set n ⟨request, pc⟩ }

def step (env : AuthEnv) (q : UserStore) : AuthAction → Option UserStore
  | .call request => some { q with calls := q.calls ++ [⟨request, request.first⟩] }
  | .step n io => do
    let call ← q.calls[n]?
    let (q', pc) ← q.act env io n call.request call.pc
    pure (q'.setPc n call.request pc)
  | .tick ms => some { q with now := q.now + ms }

end UserStore

end VectorLedger
