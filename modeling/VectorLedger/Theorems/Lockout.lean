import VectorLedger.Theorems.Auth

/-! The lockout after failed logins, against the clock. -/

namespace VectorLedger

open List

namespace FailureState

variable {st : FailureState} {t now : Time}

theorem lockedAt_recordFailure_of_some (h : st.lockedAt = some t) : (st.recordFailure now).lockedAt = some t := by
  rw [recordFailure, h, if_neg fun hnone => nomatch hnone.2]

theorem lockedAt_recordFailure_of_none (h : st.lockedAt = none) (hcount : maxFailedAttempts ≤ st.count + 1) :
    (st.recordFailure now).lockedAt = some now := by
  rw [recordFailure, if_pos ⟨hcount, h⟩]

theorem isLocked_iff (h : st.lockedAt = some t) : st.isLocked now = true ↔ now - t < lockoutDuration := by
  rw [isLocked, h]
  exact decide_eq_true_iff

end FailureState

namespace UserStore

variable {env : AuthEnv} {io : AuthIo} {q q' : UserStore} {a : AuthAction} {u : String}

/-! ### The failures of a user -/

def noteLogin (u : String) (times : List Time) : AuthEvent → List Time
  | .failed username time => if username = u then times ++ [time] else times
  | .succeeded username => if username = u then [] else times
  | .inserted _ | .changed _ _ | .revoked _ => times

def failedSince (q : UserStore) (u : String) : List Time := q.trace.foldl (noteLogin u) []

/-- The failures of a user since the last success and since the last time a lock was in force. -/
def streak (q : UserStore) (u : String) : List Time :=
  (q.failedSince u).filter fun t => ∀ locked ∈ (q.failureState u).lockedAt, locked + lockoutDuration ≤ t

theorem failedSince_concat {e : AuthEvent} (h : q'.trace = q.trace ++ [e]) :
    q'.failedSince u = noteLogin u (q.failedSince u) e := by
  rw [failedSince, failedSince, h, foldl_append, foldl_cons, foldl_nil]

theorem failureState_insert {username : String} {st : FailureState} (h : q'.failures = q.failures.insert username st) :
    q'.failureState u = if username = u then st else q.failureState u := by
  rw [failureState, h]
  split
  · next heq => rw [heq, Finmap.lookup_insert]; rfl
  · next hne => rw [Finmap.lookup_insert_of_ne _ (Ne.symm hne)]; rfl

/-- A login of the user passes. -/
def Succeeds (q : UserStore) (u : String) : AuthAction → Prop
  | .step n _ => ∃ password s, q.calls[n]? = some ⟨.authenticate u password, .resetting s⟩
  | .call _ | .tick _ => False

/-- What a step does to the failures of a user. -/
inductive LoginStep (q : UserStore) (u : String) (a : AuthAction) (q' : UserStore) : Prop where
  | kept (state : q'.failureState u = q.failureState u) (times : q'.failedSince u = q.failedSince u)
      (now : q.now ≤ q'.now)
  | failed (state : q'.failureState u = (q.failureState u).recordFailure q.now)
      (times : q'.failedSince u = q.failedSince u ++ [q.now]) (now : q'.now = q.now)
  | succeeded (succeeds : q.Succeeds u a) (state : q'.failureState u = .new) (times : q'.failedSince u = [])
      (now : q'.now = q.now)

theorem LoginStep.of_frame (failures : q'.failures = q.failures) (now : q.now ≤ q'.now)
    (trace : q'.trace = q.trace ∨ ∃ e, q'.trace = q.trace ++ [e] ∧ ∀ times, noteLogin u times e = times) :
    LoginStep q u a q' := by
  refine .kept (by rw [failureState, failures, failureState]) ?_ now
  rcases trace with htrace | ⟨e, htrace, hnote⟩
  · rw [failedSince, htrace, failedSince]
  · rw [failedSince_concat htrace, hnote]

theorem login_step (h : q.step env a = some q') (u : String) : LoginStep q u a q' := by
  cases step_cases h with
  | began => exact .of_frame rfl (Nat.le_refl _) (.inl rfl)
  | ticked => exact .of_frame rfl (Nat.le_add_right _ _) (.inl rfl)
  | acted n io request pc call q₁ pc' hacted =>
    cases hacted with
    | failed username =>
      have hstate := failureState_insert (u := u) (show (q.recordFailure username).failures = _ from rfl)
      have htimes := failedSince_concat (u := u) (show (q.recordFailure username).trace = _ from rfl)
      by_cases heq : username = u
      · subst heq
        rw [if_pos rfl] at hstate
        rw [noteLogin, if_pos rfl] at htimes
        exact .failed hstate htimes rfl
      · rw [if_neg heq] at hstate
        rw [noteLogin, if_neg heq] at htimes
        exact .kept hstate htimes (Nat.le_refl _)
    | reset username password s =>
      have hstate := failureState_insert (u := u) (show (q.resetFailures username).failures = _ from rfl)
      have htimes := failedSince_concat (u := u) (show (q.resetFailures username).trace = _ from rfl)
      by_cases heq : username = u
      · subst heq
        rw [if_pos rfl] at hstate
        rw [noteLogin, if_pos rfl] at htimes
        exact .succeeded ⟨password, s, call⟩ hstate htimes rfl
      · rw [if_neg heq] at hstate
        rw [noteLogin, if_neg heq] at htimes
        exact .kept hstate htimes (Nat.le_refl _)
    | inserted | changed | revoked =>
      exact .of_frame rfl (Nat.le_refl _) (.inr ⟨_, rfl, fun _ => rfl⟩)
    | _ => exact .of_frame rfl (Nat.le_refl _) (.inl rfl)

/-! ### The counter and the lock -/

/-- The counter counts the failures since the last success, and the fifth of them has set the lock. -/
structure Tracked (q : UserStore) (u : String) : Prop where
  count : (q.failureState u).count = (q.failedSince u).length
  lock : (q.failureState u).lockedAt = (q.failedSince u)[maxFailedAttempts - 1]?
  past : ∀ t ∈ q.failedSince u, t ≤ q.now

theorem Tracked.step (h : q.Tracked u) (hstep : q.step env a = some q') : q'.Tracked u := by
  cases login_step hstep u with
  | kept state times now =>
    refine ⟨by rw [state, times, h.count], by rw [state, times, h.lock], ?_⟩
    rw [times]
    exact fun t ht => (h.past t ht).trans now
  | failed state times now =>
    refine ⟨by rw [state, times, length_append, ← h.count]; rfl, ?_, ?_⟩
    · rw [state, times, FailureState.recordFailure, h.lock, h.count]
      rcases Nat.lt_trichotomy (q.failedSince u).length (maxFailedAttempts - 1) with hlt | heq | hgt
      · -- Too few failures for a lock.
        have hnone : (q.failedSince u ++ [q.now])[maxFailedAttempts - 1]? = none :=
          getElem?_eq_none (by rw [length_append, length_singleton]; omega)
        rw [hnone, if_neg (by intro h'; have := h'.1; omega)]
        exact getElem?_eq_none (by omega)
      · have hnone : (q.failedSince u)[maxFailedAttempts - 1]? = none := getElem?_eq_none (by omega)
        rw [getElem?_append_right (by omega), heq, hnone]
        rfl
      · have hsome : ∃ t, (q.failedSince u)[maxFailedAttempts - 1]? = some t := ⟨_, getElem?_eq_getElem hgt⟩
        obtain ⟨t, ht⟩ := hsome
        rw [getElem?_append_left hgt, ht, if_neg (by simp)]
    · rw [times, now]
      intro t ht
      rcases mem_append.1 ht with ht | ht
      · exact h.past t ht
      · exact (mem_singleton.1 ht).le
  | succeeded _ state times =>
    refine ⟨by rw [state, times]; rfl, by rw [state, times]; rfl, ?_⟩
    rw [times]
    exact fun t ht => nomatch ht

/-- In every run the failures counted are those in the trace. -/
theorem tracked_of_run {ok : UserStore → AuthAction → Prop} {users : Users}
    (run : Run.Reachable (step env) ok (start users) q) (u : String) : q.Tracked u :=
  run.invariant (P := fun q => q.Tracked u) ⟨rfl, rfl, fun _ ht => nomatch ht⟩ fun _ _ _ ih _ hstep => ih.step hstep

theorem lock_kept {ok : UserStore → AuthAction → Prop} {t : Time} (run : Run.Reachable (step env) ok q q')
    (fails : ∀ q a, ok q a → ¬q.Succeeds u a) (locked : (q.failureState u).lockedAt = some t) :
    (q'.failureState u).lockedAt = some t ∧ q.now ≤ q'.now := by
  refine run.invariant (P := fun p => (p.failureState u).lockedAt = some t ∧ q.now ≤ p.now) ⟨locked, Nat.le_refl _⟩ ?_
  intro p a p' ⟨ih, hnow⟩ hok hstep
  cases login_step hstep u with
  | kept state _ now => exact ⟨by rw [state, ih], hnow.trans now⟩
  | failed state _ now => 
    exact ⟨by rw [state, FailureState.lockedAt_recordFailure_of_some ih], by rw [now]; exact hnow⟩
  | succeeded succeeds => exact absurd succeeds (fails p a hok)

theorem checkLockout_iff : q.checkLockout u = .error lockedError ↔ (q.failureState u).isLocked q.now = true := by
  rw [checkLockout]
  split <;> simp_all

/-- After a further failure in a row of four since the last success and since the last lock, the user is locked out
    exactly if no lock has been set since the last success. -/
theorem fifth_failure_locks_iff {users : Users} {p p' q : UserStore} {n : Nat} {io : AuthIo} {u password : String}
    {e : ServerError} (run : Run.Reachable (step env) (fun _ _ => True) (start users) p)
    (four : maxFailedAttempts - 1 ≤ (p.streak u).length)
    (call : p.calls[n]? = some ⟨.authenticate u password, .failing e⟩) (fifth : p.step env (.step n io) = some p')
    (later : Run.Reachable (step env) (fun q a => ¬q.Succeeds u a) p' q) (within : q.now < p.now + lockoutDuration) :
    q.checkLockout u = .error lockedError ↔ (p.failureState u).lockedAt = none := by
  have htracked := tracked_of_run run u
  have hfifth : (p'.failureState u).lockedAt = ((p.failureState u).recordFailure p.now).lockedAt ∧ p'.now = p.now := by
    simp only [UserStore.step, call, bind, Option.bind, act, pure, Option.some.injEq] at fifth
    subst fifth
    have hstate := failureState_insert (u := u) (show (p.recordFailure u).failures = _ from rfl)
    rw [if_pos rfl] at hstate
    exact ⟨congrArg FailureState.lockedAt hstate, rfl⟩
  rw [checkLockout_iff]
  cases hlock : (p.failureState u).lockedAt with
  | none =>
    -- The four failures are all since the last success, so this is the one that sets the lock.
    have hcount : maxFailedAttempts ≤ (p.failureState u).count + 1 := by
      have hlength := four.trans (length_filter_le _ _)
      rw [htracked.count]
      omega
    rw [FailureState.lockedAt_recordFailure_of_none hlock hcount] at hfifth
    obtain ⟨hkept, hnow⟩ := lock_kept later (fun _ _ h => h) hfifth.1
    simp only [FailureState.isLocked_iff hkept, iff_true]
    rw [hfifth.2] at hnow
    exact Nat.sub_lt_left_of_lt_add hnow within
  | some t =>
    -- The lock that is there was over when the first of the four failed, and it is not set again.
    have hover : t + lockoutDuration ≤ p.now := by
      obtain ⟨time, htime⟩ := exists_mem_of_length_pos (Nat.lt_of_lt_of_le (by decide) four)
      obtain ⟨hmem, hsince⟩ := mem_filter.1 htime
      exact (of_decide_eq_true hsince t hlock).trans (htracked.past time hmem)
    rw [FailureState.lockedAt_recordFailure_of_some hlock] at hfifth
    obtain ⟨hkept, hnow⟩ := lock_kept later (fun _ _ h => h) hfifth.1
    rw [hfifth.2] at hnow
    simp only [FailureState.isLocked_iff hkept, reduceCtorEq, iff_false, Nat.not_lt]
    exact Nat.le_sub_of_add_le' (hover.trans hnow)

/-- However the logins overlap, a user is locked out exactly in the five minutes after the fifth failure since their last
    success; failures after the fifth do not prolong it. -/
theorem locked_iff_fifth_recent {users : Users} (run : Run.Reachable (step env) (fun _ _ => True) (start users) q)
    (u : String) : q.checkLockout u = .error lockedError ↔
      ∃ t, (q.failedSince u)[maxFailedAttempts - 1]? = some t ∧ q.now - t < lockoutDuration := by
  rw [checkLockout_iff, ← (tracked_of_run run u).lock]
  cases hlock : (q.failureState u).lockedAt with
  | none => simp [FailureState.isLocked, hlock]
  | some t => simp [FailureState.isLocked_iff hlock]

/-! ### Two locks in a row -/

namespace Sample

def failedLogin (n : Nat) : List AuthAction :=
  [.call (.authenticate "ann" "wrong")] ++ stepsOf n 3 ++ [.tick maxFailDelayMs] ++ stepsOf n 1

end Sample

open Sample

/-- The fifth failure locks the user out, to the last millisecond of the five minutes. -/
theorem fifth_failure_locks_iff_first : ∃ p p' q, Run.exec (step authEnv) store
      ((range 4).flatMap failedLogin ++ [.call (.authenticate "ann" "wrong")] ++ stepsOf 4 2) = some p ∧
    p.step authEnv (.step 4 (authIo 4)) = some p' ∧ p'.step authEnv (.tick 299999) = some q ∧
    q.checkLockout "ann" = .error lockedError := by
  obtain ⟨p, hp, hfour, hlock, hcall, p', hfifth, hnow⟩ : ∃ p, Run.exec (step authEnv) store ((range 4).flatMap failedLogin ++
      [.call (.authenticate "ann" "wrong")] ++ stepsOf 4 2) = some p ∧ 4 ≤ (p.streak "ann").length ∧
      (p.failureState "ann").lockedAt = none ∧
      p.calls[4]? = some ⟨.authenticate "ann" "wrong", .failing (.auth "invalid credentials")⟩ ∧
      ∃ p', p.step authEnv (.step 4 (authIo 4)) = some p' ∧ p'.now = p.now := by decide +kernel
  have hrun : Run.Reachable (step authEnv) (fun _ _ => True) store p :=
    Run.reachable_of_exec (by decide +kernel) hp
  refine ⟨p, p', { p' with now := p'.now + 299999 }, hp, hfifth, rfl, ?_⟩
  refine (fifth_failure_locks_iff hrun hfour hcall hfifth (.step (e := .tick 299999) .init id rfl) ?_).2 hlock
  rw [← hnow]
  exact Nat.add_lt_add_left (by decide) _

/-- Five further failures after the lock is over set no lock, and the next login is checked. -/
theorem second_lock_missing : (Run.exec (step authEnv) store ((range 5).flatMap failedLogin ++ [.tick lockoutDuration] ++
        (range 5).flatMap fun n => failedLogin (n + 5))).map
      (fun q => ((q.streak "ann").map (q.now - ·), q.checkLockout "ann")) =
    some ([15000, 12000, 9000, 6000, 3000], .ok ()) := by
  decide +kernel

theorem locked_iff_fifth_recent_fifth : ∃ q, Run.exec (step authEnv) store ((range 5).flatMap failedLogin) = some q ∧
    q.checkLockout "ann" = .error lockedError :=
  Run.exists_of_exec (by decide +kernel) rfl fun run => (locked_iff_fifth_recent run "ann").2 ⟨12000, by decide +kernel⟩

end UserStore

end VectorLedger
