import VectorLedger.Theorems.Accounts

/-! Passwords and the lazy rehash. A login that finds an old hash writes back a hash of the password it has checked. -/

namespace VectorLedger

/-- A hash verifies the password that it was made from, and no other. -/
def AuthEnv.Exact (env : AuthEnv) : Prop :=
  ∀ salt password hash, env.hashPassword salt password = .ok hash →
    ∀ other, env.verifyPassword other hash = true ↔ other = password

namespace UserStore

open Sample Slots

variable {env : AuthEnv} {io : AuthIo} {q q' : UserStore} {a : AuthAction} {users users' : Users} {u p : String} {salt n : Nat}
  {request : AuthRequest}

/-! ### The password of a user -/

def passwordAfter (u : String) (password : Option String) : AuthRequest → Option String
  | .createUser username new _ _ | .setPassword username new => if username = u then some new else password
  | .deleteUser username => if username = u then none else password
  | .setEnabled _ _ | .setRole _ _ | .authenticate _ _ | .validateToken _ | .purgeExpiredSessions => password

def lastPassword (changes : List (Nat × AuthRequest)) (u : String) : Option String :=
  changes.foldl (fun password c => passwordAfter u password c.2) none

/-- The stored hash of the user verifies this password, and no other. -/
def Verifies (env : AuthEnv) (users : Users) (u password : String) : Prop :=
  ∃ user, users.lookup u = some user ∧ ∀ other, env.verifyPassword other user.passwordHash = true ↔ other = password

variable {user : UserRecord} {username : String}

theorem Verifies.insert_self (h : ∀ other, env.verifyPassword other user.passwordHash = true ↔ other = p) :
    Verifies env (users.insert u user) u p := ⟨user, Finmap.lookup_insert _, h⟩

theorem Verifies.insert_ne (h : Verifies env users u p) (hne : username ≠ u) :
    Verifies env (users.insert username user) u p := by
  obtain ⟨stored, hfound, hverifies⟩ := h
  exact ⟨stored, by rw [Finmap.lookup_insert_of_ne _ (Ne.symm hne), hfound], hverifies⟩

theorem Verifies.insert_of_hash {user' : UserRecord} (h : Verifies env users u p)
    (found : users.lookup username = some user) (same : user'.passwordHash = user.passwordHash) :
    Verifies env (users.insert username user') u p := by
  by_cases heq : username = u
  · subst heq
    obtain ⟨stored, hfound, hverifies⟩ := h
    obtain rfl := Option.some.inj (hfound.symm.trans found)
    exact .insert_self (by rw [same]; exact hverifies)
  · exact h.insert_ne heq

theorem verifies_changed {password : Option String} (argon : env.Exact) (h : Changed env salt users request users')
    (before : ∀ p ∈ password, Verifies env users u p) :
    ∀ p ∈ passwordAfter u password request, Verifies env users' u p := by
  intro p hp
  cases h with
  | created username new _ _ hash hashed | password username new _ hash hashed =>
    by_cases heq : username = u
    · rw [passwordAfter, if_pos heq] at hp
      cases hp
      rw [heq]
      exact .insert_self (argon _ _ _ hashed)
    · rw [passwordAfter, if_neg heq] at hp
      exact (before p hp).insert_ne heq
  | enabled username enabled user found | role username newRole user found =>
    exact (before p hp).insert_of_hash found rfl
  | deleted username =>
    by_cases heq : username = u
    · rw [passwordAfter, if_pos heq] at hp
      cases hp
    · rw [passwordAfter, if_neg heq] at hp
      obtain ⟨user, hfound, hverifies⟩ := before p hp
      exact ⟨user, by rw [Finmap.lookup_erase_ne (Ne.symm heq), hfound], hverifies⟩

theorem Verifies.rehash {password hash : String} (h : Verifies env users u p) (argon : env.Exact)
    (hashed : env.hashPassword salt password = .ok hash)
    (checked : ∀ user ∈ users.lookup username, env.verifyPassword password user.passwordHash = true) :
    Verifies env (rehash users username hash) u p := by
  unfold UserStore.rehash
  split
  · next user hfound =>
    by_cases heq : username = u
    · subst heq
      obtain ⟨stored, hstored, hverifies⟩ := h
      obtain rfl := Option.some.inj (hstored.symm.trans hfound)
      obtain rfl := (hverifies password).1 (checked stored hfound)
      exact .insert_self (argon _ _ _ hashed)
    · exact h.insert_ne heq
  · exact h

/-! ### The users file -/

def unsaved : AuthPc → Bool
  | .revoking | .persisting _ => true
  | _ => false

/-- The users file has the accounts, unless its last write has failed or a call has still to write it. -/
def Saved (q : UserStore) : Prop :=
  (∃ c ∈ q.calls, unsaved c.pc = true) ∨ q.usersJson = none ∨ q.usersJson = some q.users

/-- A step keeps the users file saved, or leaves a call that has still to save it. -/
theorem Saved.step (h : q.Saved) (hstep : q.step env a = some q') : q'.Saved := by
  have hpersist : ∀ written : Except String Unit, (written.toOption.map fun _ => q.users) = none ∨
      (written.toOption.map fun _ => q.users) = some q.users := by
    rintro (_ | _)
    · exact .inl rfl
    · exact .inr rfl
  cases step_cases hstep with
  | began => exact h.imp_left fun ⟨c, hc, hunsaved⟩ => ⟨c, List.mem_append_left _ hc, hunsaved⟩
  | ticked => exact h
  | acted n io request pc call q₁ pc' hacted =>
    -- Another call that has still to write the file still has to.
    have hother (hsaved : unsaved pc = false) (husers : q₁.users = q.users) (hfile : q₁.usersJson = q.usersJson)
        (hcalls : q₁.calls = q.calls) : (q₁.setPc n request pc').Saved := by
      rcases h with ⟨c, hc, hunsaved⟩ | h
      · rcases mem_set_or call ⟨request, pc'⟩ hc with hmem | rfl
        · exact .inl ⟨c, by rw [setPc, hcalls]; exact hmem, hunsaved⟩
        · rw [hsaved] at hunsaved
          cases hunsaved
      · refine .inr ?_
        rw [setPc, hfile, husers]
        exact h
    cases hacted with
    | rehashed | revoked => exact .inl ⟨_, mem_set_self call _, rfl⟩
    | changed =>
      refine .inl ⟨_, mem_set_self call _, ?_⟩
      cases request.revokes <;> rfl
    | upgraded | persisted => exact .inr (hpersist io.written)
    | _ => exact hother rfl rfl rfl rfl

/-! ### Runs -/

/-- The username and the password of a login that is about to write back a hash. -/
def toRehash : AuthCall → Option (String × String)
  | ⟨.authenticate username password, .rehashing _⟩ => some (username, password)
  | _ => none

/-- A login writes back a hash of its password only while the stored hash verifies that password. -/
def Unchanged (env : AuthEnv) (q : UserStore) : AuthAction → Prop
  | .step n _ => ∀ c ∈ q.calls[n]?, ∀ x ∈ toRehash c, ∀ user ∈ q.users.lookup x.1,
    env.verifyPassword x.2 user.passwordHash = true
  | .call _ | .tick _ => True

instance (q : UserStore) (a : AuthAction) : Decidable (q.Unchanged env a) := by
  cases a <;> unfold Unchanged <;> infer_instance

/-- The stored hash of a user verifies the password that was set last and no other; and so does the one in the users file
    when every call that changed the accounts has written it. -/
theorem stored_hash_exact (argon : env.Exact) (run : Run.Reachable (step env) (Unchanged env) (start users) q)
    (last : lastPassword q.changes u = some p) : Verifies env q.users u p ∧
      ((∀ c ∈ q.calls, unsaved c.pc = false) → ∀ file, q.usersJson = some file → Verifies env file u p) := by
  have hverifies : Verifies env q.users u p := by
    refine run.invariant (P := fun q => ∀ p ∈ lastPassword q.changes u, Verifies env q.users u p) (fun p hp => nomatch hp) ?_
      p last
    intro q a q' ih hunchanged hstep
    cases account_step hstep with
    | kept husers hchanges =>
      rw [husers, hchanges]
      exact ih
    | rehashed n io username password s hash action call hashed husers hchanges =>
      subst action
      rw [husers, hchanges]
      exact fun p hp => (ih p hp).rehash argon hashed (hunchanged _ call _ rfl)
    | changed n io request users' action call made husers hchanges =>
      rw [husers, hchanges, lastPassword, List.foldl_append]
      exact verifies_changed argon (change_cases made) ih
  have hsaved : q.Saved := run.invariant (P := Saved) (.inr (.inr rfl)) fun _ _ _ ih _ hstep => ih.step hstep
  refine ⟨hverifies, fun hall file hfile => ?_⟩
  rcases hsaved with ⟨c, hc, hunsaved⟩ | hnone | hsome
  · rw [hall c hc] at hunsaved
    cases hunsaved
  · rw [hfile] at hnone
    cases hnone
  · obtain rfl := Option.some.inj (hfile.symm.trans hsome)
    exact hverifies

/-- However the calls overlap, once none has still to write the users file, the file has the accounts in memory, unless its
    last write has failed. -/
theorem users_file_current (run : Run.Reachable (step env) (fun _ _ => True) (start users) q)
    (written : ∀ c ∈ q.calls, unsaved c.pc = false) : q.usersJson = none ∨ q.usersJson = some q.users := by
  have hsaved : q.Saved := run.invariant (P := Saved) (.inr (.inr rfl)) fun _ _ _ ih _ hstep => ih.step hstep
  refine hsaved.resolve_left fun ⟨c, hc, hunsaved⟩ => ?_
  rw [written c hc] at hunsaved
  cases hunsaved

/-! ### A password change -/

namespace Sample

def oldStore : UserStore := start (Sample.users "m=19456,t=2,p=1$right")

def renewed : AuthRequest := .setPassword "ann" "new"

def rehashBefore : List AuthAction :=
  [.call (.authenticate "ann" "right")] ++ stepsOf 0 6 ++ [.call renewed] ++ stepsOf 1 3

def rehashAcross : List AuthAction :=
  [.call (.authenticate "ann" "right")] ++ stepsOf 0 2 ++ [.call renewed] ++ stepsOf 1 3 ++ stepsOf 0 4

theorem authEnv_exact : authEnv.Exact := by
  intro salt password hash hashed other
  cases hashed
  rw [authEnv, decide_eq_true_iff, ← String.toList_inj, ← String.toList_inj, ← String.toList_inj]
  simp only [String.toList_append]
  refine ⟨?_, fun heq => .inl (by rw [heq])⟩
  rintro (hsame | hsame)
  · exact (List.append_cancel_left hsame).symm
  · -- The parameters are of one length, and differ.
    exact absurd (List.append_inj_left hsame (by decide +kernel)) (by decide +kernel)

end Sample

theorem stored_hash_exact_renewed : ∃ q, Run.exec (step authEnv) oldStore rehashBefore = some q ∧
    Verifies authEnv q.users "ann" "new" ∧ ∀ file, q.usersJson = some file → Verifies authEnv file "ann" "new" :=
  Run.exists_of_exec (by decide +kernel) rfl fun run =>
    (stored_hash_exact authEnv_exact run (by decide +kernel)).imp_right fun hfile => hfile (by decide +kernel)

theorem users_file_current_across : ∃ q, Run.exec (step authEnv) oldStore rehashAcross = some q ∧
    (q.usersJson = none ∨ q.usersJson = some q.users) :=
  Run.exists_of_exec (by decide +kernel) rfl fun run => users_file_current run (by decide +kernel)

/-- When all calls have returned, the hash verifies the password from before the change, and not the new one. -/
theorem old_password_restored : (Run.exec (step authEnv) oldStore rehashAcross).map (fun q =>
      (q.calls.map (·.pc.result.isSome), q.calls[1]?, (q.users.lookup "ann").map fun user =>
        (authEnv.verifyPassword "new" user.passwordHash, authEnv.verifyPassword "right" user.passwordHash))) =
      some ([true, true], some ⟨renewed, .done (.ok none)⟩, some (false, true)) := by
  decide +kernel

end UserStore

end VectorLedger
