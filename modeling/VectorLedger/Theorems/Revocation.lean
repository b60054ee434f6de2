import VectorLedger.Theorems.Accounts

/-! Sessions and the management calls that end them. A login checks the account and inserts its session under different
    locks. -/

namespace VectorLedger.UserStore

open List Sample Slots

variable {env : AuthEnv} {io : AuthIo} {q q' : UserStore} {a : AuthAction} {users users' : Users} {u : String} {salt n : Nat}
  {request : AuthRequest} {s : Session} {changes changes' : List (Nat × AuthRequest)}

/-! ### The standing of a user -/

def standingOf (users : Users) (u : String) : Option (Bool × Role) :=
  (users.lookup u).map fun user => (user.enabled, user.role)

def standAfter (u : String) (st : Option (Bool × Role)) : AuthRequest → Option (Bool × Role)
  | .createUser username _ role _ => if username = u then some (true, role) else st
  | .setEnabled username enabled => if username = u then st.map fun x => (enabled, x.2) else st
  | .setRole username newRole => if username = u then st.map fun x => (x.1, newRole) else st
  | .deleteUser username => if username = u then none else st
  | .setPassword _ _ | .authenticate _ _ | .validateToken _ | .purgeExpiredSessions => st

def standing (users : Users) (changes : List (Nat × AuthRequest)) (u : String) : Option (Bool × Role) :=
  changes.foldl (fun st c => standAfter u st c.2) (standingOf users u)

theorem standingOf_insert (username : String) (user : UserRecord) : standingOf (users.insert username user) u =
    if username = u then some (user.enabled, user.role) else standingOf users u := by
  rw [standingOf]
  split
  · next heq => rw [heq, Finmap.lookup_insert]; rfl
  · next hne => rw [Finmap.lookup_insert_of_ne _ (Ne.symm hne)]; rfl

theorem standingOf_changed (h : Changed env salt users request users') :
    standingOf users' u = standAfter u (standingOf users u) request := by
  cases h with
  | created => rw [standingOf_insert]; rfl
  | password username newPassword user hash hashed found | enabled username enabled user found
  | role username newRole user found =>
    rw [standingOf_insert, standAfter]
    split
    · next heq => rw [← heq, standingOf, found]; rfl
    · rfl
  | deleted =>
    rw [standAfter, standingOf]
    split
    · next heq => rw [heq, Finmap.lookup_erase]; rfl
    · next hne => rw [Finmap.lookup_erase_ne (Ne.symm hne)]; rfl

theorem standingOf_rehash (username hash : String) : standingOf (rehash users username hash) u = standingOf users u := by
  unfold rehash
  split
  · next user hfound =>
    rw [standingOf_insert]
    split
    · next heq => rw [← heq, standingOf, hfound]; rfl
    · rfl
  · rfl

/-- In every run the accounts are as the changes have made them. -/
theorem standing_of_run {ok : UserStore → AuthAction → Prop} (run : Run.Reachable (step env) ok (start users) q)
    (u : String) : standingOf q.users u = standing users q.changes u := by
  refine run.invariant (P := fun q => standingOf q.users u = standing users q.changes u) rfl ?_
  intro q a q' ih _ hstep
  cases account_step hstep with
  | kept husers hchanges => rw [husers, hchanges, ih]
  | rehashed n io username password s hash action call hashed husers hchanges =>
    rw [husers, standingOf_rehash, hchanges, ih]
  | changed n io request users' action call made husers hchanges =>
    rw [husers, hchanges, standing, foldl_append, standingOf_changed (change_cases made), ih]
    rfl

/-! ### Sessions -/

theorem mem_evict {sessions : List Session} (h : s ∈ evictOldest env (evictExpired sessions q.now)) : s ∈ sessions := by
  have hfirst : s ∈ evictExpired sessions q.now := by
    unfold evictOldest at h
    split at h
    · split at h
      · exact mem_of_mem_filter h
      · exact h
    · exact h
  unfold evictExpired at hfirst
  split at hfirst
  · exact mem_of_mem_filter hfirst
  · exact hfirst

theorem session_step (h : q.step env a = some q') (hs : s ∈ q'.sessions) :
    s ∈ q.sessions ∨ ∃ n io request, a = .step n io ∧ q.calls[n]? = some ⟨request, .inserting s⟩ := by
  cases step_cases h with
  | began | ticked => exact .inl hs
  | acted n io request pc call q₁ pc' hacted =>
    cases hacted with
    | inserted =>
      rcases mem_append.1 hs with hold | hnew
      · exact .inl (mem_evict (mem_of_mem_filter hold))
      · obtain rfl := mem_singleton.1 hnew
        exact .inr ⟨n, io, request, rfl, call⟩
    | cleared | purged | revoked => exact .inl (mem_of_mem_filter hs)
    | _ => exact .inl hs

theorem revoking_step (h : q.step env a = some q') (call : q.calls[n]? = some ⟨request, .revoking⟩)
    (hs : s ∈ q'.sessions) (about : request.username = some s.username) : q'.calls[n]? = some ⟨request, .revoking⟩ := by
  cases step_cases h with
  | began => exact getElem?_append_of_some call _
  | ticked => exact call
  | acted m io request' pc call' q₁ pc' hacted =>
    by_cases hm : m = n
    · subst hm
      obtain ⟨rfl, rfl⟩ := AuthCall.mk.inj (Option.some.inj (call'.symm.trans call))
      cases hacted with
      | revoked _ username about' =>
        obtain rfl := Option.some.inj (about'.symm.trans about)
        have hne := of_mem_filter hs
        simp at hne
    · show (q₁.calls.set m _)[n]? = _
      rw [getElem?_set_ne hm, hacted.frame.1]
      exact call

/-- The changes up to some point have given the user of a session its role, and no call that takes it away after that has
    dropped the sessions of the user. -/
def Held (users : Users) (q : UserStore) (s : Session) : Prop :=
  ∃ before after, q.changes = before ++ after ∧ standing users before s.username = some (true, s.role) ∧
    ∀ c ∈ after, c.2.username = some s.username → c.2.revokes = true → q.calls[c.1]? = some ⟨c.2, .revoking⟩

/-- A step that keeps the session keeps the changes that it rests on. -/
theorem Held.step (h : Held users q s) (hstep : q.step env a = some q') (hs : s ∈ q'.sessions) : Held users q' s := by
  obtain ⟨before, after, hchanges, hstanding, hafter⟩ := h
  have hkept : ∀ c ∈ after, c.2.username = some s.username → c.2.revokes = true → q'.calls[c.1]? = some ⟨c.2, .revoking⟩ :=
    fun c hc habout hrevokes => revoking_step hstep (hafter c hc habout hrevokes) hs habout
  cases account_step hstep with
  | kept _ hsame | rehashed _ _ _ _ _ _ _ _ _ _ hsame => exact ⟨before, after, hsame.trans hchanges, hstanding, hkept⟩
  | changed n io request users action call made _ hsame hcalls =>
    refine ⟨before, after ++ [(n, request)], ?_, hstanding, ?_⟩
    · rw [hsame, hchanges, append_assoc]
    · intro c hc habout hrevokes
      rcases mem_append.1 hc with hc | hc
      · exact hkept c hc habout hrevokes
      · obtain rfl := mem_singleton.1 hc
        rw [hcalls, if_pos hrevokes]
        exact Slots.getElem?_set_self call _

def toInsert : AuthPc → Option Session
  | .inserting s => some s
  | _ => none

/-- A session is inserted only while its user is enabled and has its role. -/
def Current (q : UserStore) : AuthAction → Prop
  | .step n _ => ∀ c ∈ q.calls[n]?, ∀ s ∈ toInsert c.pc, standingOf q.users s.username = some (true, s.role)
  | .call _ | .tick _ => True

instance (q : UserStore) (a : AuthAction) : Decidable (q.Current a) :=
  match a with
  | .step n _ => inferInstanceAs (Decidable (∀ c ∈ q.calls[n]?, ∀ s ∈ toInsert c.pc, _ = _))
  | .call _ | .tick _ => inferInstanceAs (Decidable True)

/-- A token that is accepted was granted by the management calls up to some point, and the calls after that which take it
    away have not returned. -/
theorem accepted_session_held {token : String} (run : Run.Reachable (step env) Current (start users) q)
    (accepted : q.getSession token = .ok s) : Held users q s := by
  have hinvariant : Run.Reachable (step env) Current (start users) q ∧ ∀ s ∈ q.sessions, Held users q s := by
    refine run.invariant (P := fun q => Run.Reachable (step env) Current (start users) q ∧ ∀ s ∈ q.sessions, Held users q s)
      ⟨.init, fun s hs => nomatch hs⟩ ?_
    intro q a q' ⟨hrun, ih⟩ hcurrent hstep
    refine ⟨hrun.step hcurrent hstep, fun s hs => ?_⟩
    rcases session_step hstep hs with hold | ⟨n, io, request, rfl, hcall⟩
    · exact (ih s hold).step hstep hs
    · have hheld : Held users q s := by
        refine ⟨q.changes, [], (append_nil _).symm, ?_, fun c hc => nomatch hc⟩
        rw [← standing_of_run hrun]
        exact hcurrent _ hcall s rfl
      exact hheld.step hstep hs
  exact hinvariant.2 s (getSession_ok accepted).1

/-! ### A role change -/

namespace Sample

def token (n : Nat) (role : Role) : String := mintToken authEnv "ann" role [UInt8.ofNat n]

def demoted : AuthRequest := .setRole "ann" .operator

def loginsAround : List AuthAction :=
  [.call (.authenticate "ann" "right")] ++ stepsOf 0 4 ++ [.call demoted] ++ stepsOf 1 3 ++
    [.call (.authenticate "ann" "right")] ++ stepsOf 2 4

/-- A management call runs to its end between the check of a login and the insertion of its session. -/
def loginAcross (request : AuthRequest) : List AuthAction :=
  [.call (.authenticate "ann" "right")] ++ stepsOf 0 3 ++ [.call request] ++ stepsOf 1 3 ++ stepsOf 0 1

end Sample

theorem accepted_session_held_new_role : ∃ q s, Run.exec (step authEnv) store loginsAround = some q ∧
    q.getSession (token 2 .operator) = .ok s ∧ s.role = .operator ∧ q.changes = [(1, demoted)] ∧
    Held (Sample.users "m=65536,t=3,p=4$right") q s := by
  obtain ⟨q, hq, haccepted, hchanges⟩ : ∃ q, Run.exec (step authEnv) store loginsAround = some q ∧
      q.getSession (token 2 .operator) = .ok ⟨"ann", .operator, token 2 .operator, sessionTtl⟩ ∧ q.changes =
      [(1, demoted)] := by decide +kernel
  exact ⟨q, _, hq, haccepted, rfl, hchanges, accepted_session_held (Run.reachable_of_exec (by decide +kernel) hq) haccepted⟩

/-- The token of the login is accepted after the call that changed the role, disabled the account or deleted it has
    returned. -/
theorem revoked_token_accepted : [demoted, .setEnabled "ann" false, .deleteUser "ann"].all (fun request =>
      (Run.exec (step authEnv) store (loginAcross request)).map (fun q =>
        (q.calls[1]?, standingOf q.users "ann", (q.getSession (token 0 .admin)).map (·.role))) =
      some (some ⟨request, .done (.ok none)⟩, standAfter "ann" (some (true, .admin)) request, .ok .admin)) = true := by
  decide +kernel

end VectorLedger.UserStore
