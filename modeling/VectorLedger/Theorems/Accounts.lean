import VectorLedger.Theorems.Auth

/-! The accounts, as the management calls have left them. A login may replace the hash of a password, and nothing else. -/

namespace VectorLedger.UserStore

variable {env : AuthEnv} {io : AuthIo} {q q' : UserStore} {a : AuthAction} {users users' : Users} {u : String} {salt : Nat}
  {request : AuthRequest}

/-! ### Changes -/

def changeOf : AuthEvent → Option (Nat × AuthRequest)
  | .changed n request => some (n, request)
  | .failed _ _ | .succeeded _ | .inserted _ | .revoked _ => none

def changes (q : UserStore) : List (Nat × AuthRequest) := q.trace.filterMap changeOf

theorem changes_concat {e : AuthEvent} (h : q'.trace = q.trace ++ [e]) : q'.changes = q.changes ++ (changeOf e).toList := by
  rw [changes, changes, h, List.filterMap_append]
  cases hchange : changeOf e with
  | none => rw [List.filterMap_cons_none hchange]; rfl
  | some => rw [List.filterMap_cons_some hchange]; rfl

/-- What a step does to the accounts: nothing, a hash upgraded at login, or the change that a call makes. -/
inductive AccountStep (env : AuthEnv) (q : UserStore) (a : AuthAction) (q' : UserStore) : Prop where
  | kept (users : q'.users = q.users) (changes : q'.changes = q.changes)
  | rehashed (n : Nat) (io : AuthIo) (username password : String) (s : Session) (hash : String) (action : a = .step n io)
      (call : q.calls[n]? = some ⟨.authenticate username password, .rehashing s⟩)
      (hashed : env.hashPassword io.salt password = .ok hash) (users : q'.users = rehash q.users username hash)
      (changes : q'.changes = q.changes)
  | changed (n : Nat) (io : AuthIo) (request : AuthRequest) (users : Users) (action : a = .step n io)
      (call : q.calls[n]? = some ⟨request, .writing⟩) (made : change env io.salt q.users request = .ok users)
      (after : q'.users = users) (changes : q'.changes = q.changes ++ [(n, request)])
      (calls : q'.calls = q.calls.set n ⟨request, if request.revokes then .revoking else .persisting none⟩)

theorem account_step (h : q.step env a = some q') : AccountStep env q a q' := by
  cases step_cases h with
  | began | ticked => exact .kept rfl rfl
  | acted n io request pc call q₁ pc' hacted =>
    cases hacted with
    | rehashed username password s hash hashed =>
      exact .rehashed n io username password s hash rfl call hashed rfl rfl
    | changed _ users made => exact .changed n io request users rfl call made rfl (changes_concat (e := .changed n request) rfl) rfl
    | failed | reset | inserted | revoked =>
      exact .kept rfl ((changes_concat rfl).trans (List.append_nil _))
    | _ => exact .kept rfl rfl

theorem modify_ok {f : UserRecord → UserRecord} (h : modify users u f = .ok users') :
    ∃ user, users.lookup u = some user ∧ users' = users.insert u (f user) := by
  unfold modify at h
  split at h
  · next user huser => exact ⟨user, huser, (Except.ok.inj h).symm⟩
  · cases h

variable (env : AuthEnv) (salt : Nat) (users : Users) in
/-- The accounts after a management call that succeeds. -/
inductive Changed : AuthRequest → Users → Prop where
  | created (username password : String) (role : Role) (domain : Option String) (hash : String)
      (hashed : env.hashPassword salt password = .ok hash) (absent : users.lookup username = none) :
      Changed (.createUser username password role domain)
        (users.insert username ⟨username, hash, role, true, domain⟩)
  | password (username newPassword : String) (user : UserRecord) (hash : String)
      (hashed : env.hashPassword salt newPassword = .ok hash) (found : users.lookup username = some user) :
      Changed (.setPassword username newPassword) (users.insert username { user with passwordHash := hash })
  | enabled (username : String) (enabled : Bool) (user : UserRecord) (found : users.lookup username = some user) :
      Changed (.setEnabled username enabled) (users.insert username { user with enabled := enabled })
  | role (username : String) (newRole : Role) (user : UserRecord) (found : users.lookup username = some user) :
      Changed (.setRole username newRole) (users.insert username { user with role := newRole })
  | deleted (username : String) : Changed (.deleteUser username) (users.erase username)

theorem hash_ok {password : String} {f : String → Except ServerError Users}
    (h : (env.hashPassword salt password).mapError ServerError.auth >>= f = .ok users') :
    ∃ hash, env.hashPassword salt password = .ok hash ∧ f hash = .ok users' := by
  cases hhash : env.hashPassword salt password with
  | error => rw [hhash] at h; cases h
  | ok hash => rw [hhash] at h; exact ⟨hash, rfl, h⟩

theorem change_cases (h : change env salt users request = .ok users') : Changed env salt users request users' := by
  cases request with
  | createUser username password role domain =>
    obtain ⟨hash, hhash, h⟩ := hash_ok h
    split at h
    · cases h
    · next habsent =>
      cases h
      exact .created username password role domain hash hhash (Option.not_isSome_iff_eq_none.1 habsent)
  | setPassword username newPassword =>
    obtain ⟨hash, hhash, h⟩ := hash_ok h
    obtain ⟨user, hfound, rfl⟩ := modify_ok h
    exact .password username newPassword user hash hhash hfound
  | setEnabled username enabled =>
    obtain ⟨user, hfound, rfl⟩ := modify_ok h
    exact .enabled username enabled user hfound
  | setRole username newRole =>
    obtain ⟨user, hfound, rfl⟩ := modify_ok h
    exact .role username newRole user hfound
  | deleteUser username =>
    simp only [change] at h
    split at h
    · cases h
      exact .deleted username
    · cases h
  | _ => cases h

end VectorLedger.UserStore
