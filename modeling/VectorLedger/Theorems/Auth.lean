import VectorLedger.Lib.Run
import VectorLedger.Lib.Slots
import VectorLedger.Server.Auth

/-! What a step of the user store can do: to the failed logins, to the accounts, to the sessions and to its own call. -/

namespace VectorLedger.UserStore

variable {env : AuthEnv} {io : AuthIo} {q q' : UserStore} {n : Nat} {request : AuthRequest} {pc pc' : AuthPc}
  {a : AuthAction} {s : Session}

/-! ### Steps of calls -/

variable (env io q n) in
/-- What a call does at each of its steps. -/
inductive Acted : AuthRequest → AuthPc → UserStore → AuthPc → Prop where
  | admitted (username password : String) (free : q.checkLockout username = .ok ()) :
      Acted (.authenticate username password) .checking q .looking
  | locked (username password : String) (e : ServerError) (refused : q.checkLockout username = .error e) :
      Acted (.authenticate username password) .checking q (.done (.error e))
  | verified (username password : String) (s : Session) (hash : String)
      (checked : q.checkCredentials env io.nonce username password = .ok (s, hash)) :
      Acted (.authenticate username password) .looking q
        (if needsRehash hash then .rehashing s else .resetting s)
  | rejected (username password : String) (e : ServerError)
      (checked : q.checkCredentials env io.nonce username password = .error e) :
      Acted (.authenticate username password) .looking q (.failing e)
  | failed (username password : String) (e : ServerError) :
      Acted (.authenticate username password) (.failing e) (q.recordFailure username)
        (.sleeping (q.now + (q.failureState username).delayMs) e)
  | woken (request : AuthRequest) (wake : Time) (e : ServerError) (due : wake ≤ q.now) :
      Acted request (.sleeping wake e) q (.done (.error e))
  | rehashed (username password : String) (s : Session) (hash : String)
      (hashed : env.hashPassword io.salt password = .ok hash) :
      Acted (.authenticate username password) (.rehashing s)
        { q with users := rehash q.users username hash } (.persisting (some s))
  | unhashed (username password : String) (s : Session) :
      Acted (.authenticate username password) (.rehashing s) q (.resetting s)
  | reset (username password : String) (s : Session) :
      Acted (.authenticate username password) (.resetting s) (q.resetFailures username) (.inserting s)
  | inserted (request : AuthRequest) (s : Session) :
      Acted request (.inserting s) (q.insertSessionBounded env s) (.done (.ok (some s)))
  | cleared (token : String) : Acted (.validateToken token) .purging
      { q with sessions := q.sessions.filter (!·.isExpired q.now) } .getting
  | purged : Acted .purgeExpiredSessions .purging
      { q with sessions := q.sessions.filter (q.now < ·.expiresAt) } (.done (.ok none))
  | got (token : String) : Acted (.validateToken token) .getting q (.done ((q.getSession token).map some))
  | changed (request : AuthRequest) (users : Users) (made : change env io.salt q.users request = .ok users) :
      Acted request .writing { q with users := users, trace := q.trace ++ [.changed n request] }
        (if request.revokes then .revoking else .persisting none)
  | refused (request : AuthRequest) (e : ServerError) : Acted request .writing q (.done (.error e))
  | revoked (request : AuthRequest) (username : String) (about : request.username = some username) :
      Acted request .revoking (q.revokeSessionsFor username) (.persisting none)
  | upgraded (request : AuthRequest) (s : Session) :
      Acted request (.persisting (some s)) (q.persist io.written) (.resetting s)
  | persisted (request : AuthRequest) :
      Acted request (.persisting none) (q.persist io.written) (.done ((io.written.mapError .io).map fun _ => none))

theorem act_cases (h : q.act env io n request pc = some (q', pc')) : Acted env io q n request pc q' pc' := by
  cases pc with
  | checking =>
    cases request with
    | authenticate username password =>
      simp only [act] at h
      split at h
      · next hfree => cases h; exact .admitted username password hfree
      · next e hlocked => cases h; exact .locked username password e hlocked
    | _ => cases h
  | looking =>
    cases request with
    | authenticate username password =>
      simp only [act] at h
      split at h
      · next s hash hchecked => cases h; exact .verified username password s hash hchecked
      · next e hchecked => cases h; exact .rejected username password e hchecked
    | _ => cases h
  | failing e =>
    cases request with
    | authenticate username password => cases h; exact .failed username password e
    | _ => cases h
  | sleeping wake e =>
    obtain ⟨hdue, h⟩ := Option.ite_none_right_eq_some.1 h
    cases h
    exact .woken request wake e hdue
  | rehashing s =>
    cases request with
    | authenticate username password =>
      simp only [act] at h
      split at h
      · next hash hhashed => cases h; exact .rehashed username password s hash hhashed
      · cases h; exact .unhashed username password s
    | _ => cases h
  | resetting s =>
    cases request with
    | authenticate username password => cases h; exact .reset username password s
    | _ => cases h
  | inserting s => cases h; exact .inserted request s
  | purging =>
    cases request with
    | validateToken token => cases h; exact .cleared token
    | purgeExpiredSessions => cases h; exact .purged
    | _ => cases h
  | getting =>
    cases request with
    | validateToken token => cases h; exact .got token
    | _ => cases h
  | writing =>
    simp only [act] at h
    split at h
    · next users hmade => cases h; exact .changed request users hmade
    · next e _ => cases h; exact .refused request e
  | revoking =>
    simp only [act] at h
    split at h
    · next username habout => cases h; exact .revoked request username habout
    · cases h
  | persisting s =>
    cases s with
    | some s => cases h; exact .upgraded request s
    | none => cases h; exact .persisted request
  | done => cases h

/-- A call begins, a call does a step, or time passes. -/
inductive Stepped (env : AuthEnv) (q : UserStore) : AuthAction → UserStore → Prop where
  | began (request : AuthRequest) : Stepped env q (.call request) { q with calls := q.calls ++ [⟨request, request.first⟩] }
  | acted (n : Nat) (io : AuthIo) (request : AuthRequest) (pc : AuthPc) (call : q.calls[n]? = some ⟨request, pc⟩)
      (q' : UserStore) (pc' : AuthPc) (h : Acted env io q n request pc q' pc') :
      Stepped env q (.step n io) (q'.setPc n request pc')
  | ticked (ms : Nat) : Stepped env q (.tick ms) { q with now := q.now + ms }

theorem step_cases (h : q.step env a = some q') : Stepped env q a q' := by
  cases a with
  | call request =>
    cases h
    exact .began request
  | step n io =>
    obtain ⟨⟨request, pc⟩, hcall, h⟩ := Option.bind_eq_some_iff.1 h
    obtain ⟨⟨q₁, pc'⟩, hact, h⟩ := Option.bind_eq_some_iff.1 h
    cases h
    exact .acted n io request pc hcall q₁ pc' (act_cases hact)
  | tick ms =>
    cases h
    exact .ticked ms

/-! ### Frames -/

theorem Acted.frame (h : Acted env io q n request pc q' pc') : q'.calls = q.calls ∧ q'.now = q.now := by
  cases h <;> exact ⟨rfl, rfl⟩

/-! ### Tokens -/

theorem getSession_ok {token : String} (h : q.getSession token = .ok s) : s ∈ q.sessions ∧ s.isExpired q.now = false := by
  unfold getSession at h
  split at h
  · next found hfound =>
    cases h
    obtain ⟨hfind, hlive⟩ := Option.filter_eq_some_iff.1 hfound
    exact ⟨List.mem_of_find?_eq_some hfind, by simpa using hlive⟩
  · cases h

/-! ### A store with one user -/

namespace Sample

def authEnv : AuthEnv where
  verifyPassword password hash := hash = "m=65536,t=3,p=4$" ++ password ∨ hash = "m=19456,t=2,p=1$" ++ password
  hashPassword _ password := .ok ("m=65536,t=3,p=4$" ++ password)
  blake3Keyed bytes := Vector.replicate 32 (bytes.getLastD 0)
  sessionOrder sessions := sessions

def authIo (nonce : UInt8) : AuthIo := ⟨0, [nonce], .ok ()⟩

def account (hash : String) (role : Role) : UserRecord := ⟨"ann", hash, role, true, none⟩

def users (hash : String) : Users := (∅ : Users).insert "ann" (account hash .admin)

def stepsOf (n count : Nat) : List AuthAction := List.replicate count (.step n (authIo (UInt8.ofNat n)))

def store : UserStore := start (users "m=65536,t=3,p=4$right")

end Sample

end VectorLedger.UserStore
