import VectorLedger.Theorems.Index
import VectorLedger.Theorems.Reopen

/-! Guards of a commit. The state of a hold is kept twice, and each way to commit an entry looks at one of them. What was
    placed on an account is what the log has of it: the store in memory may know less, after an open that skips
    segments. -/

namespace VectorLedger

open Sample LedgerStore

/-- The accounts as the log has them, each in the last version that was committed. -/
def loggedAccounts (w : Segments WalRecord) : Accounts := enterAccounts ∅ (committedAccounts w)

namespace LedgerStore

/-- The set of held accounts and the flags of the accounts say the same. -/
def HoldsAgree (s : LedgerStore) : Prop :=
  ∀ a, a ∈ s.legalHoldAccounts ↔ ∃ acct ∈ s.accounts.lookup a, acct.legalHold = true

variable {s : LedgerStore} {cfg : Config}

theorem HoldsAgree.applyAccount (h : s.HoldsAgree) (a : Account) : (s.applyAccount a).HoldsAgree := by
  intro b
  show (b ∈ if a.legalHold then insert a.id s.legalHoldAccounts else s.legalHoldAccounts.erase a.id) ↔
    ∃ acct ∈ (s.accounts.insert a.id a).lookup b, acct.legalHold = true
  by_cases hb : b = a.id
  · subst hb
    cases hhold : a.legalHold <;> simp [hhold]
  · rw [Finmap.lookup_insert_of_ne _ hb, ← h b]
    split <;> simp [hb]

theorem HoldsAgree.setAccount (h : s.HoldsAgree) {id : AccountId} {acct acct' : Account}
    (found : s.accounts.lookup id = some acct) (hflag : acct'.legalHold = acct.legalHold) :
    { s with accounts := s.accounts.insert id acct' }.HoldsAgree := by
  intro b
  rw [h b]
  by_cases hb : b = id
  · subst hb
    simp [found, hflag]
  · rw [Finmap.lookup_insert_of_ne _ hb]

/-! ### Opens -/

theorem HoldsAgree.replayRow {m : Bool} {k : Nat} {r : Replay} (h : r.store.HoldsAgree) (p : DataPayload) :
    (replayRow m k r p).store.HoldsAgree := by
  unfold LedgerStore.replayRow replayEntry
  simp only [updateBalances_eq]
  split
  all_goals split
  all_goals first
    | exact h.applyAccount _
    | (split_ifs <;> exact h)
    | exact h

theorem HoldsAgree.foldl_applyAccount (h : s.HoldsAgree) (as : List Account) :
    (as.foldl LedgerStore.applyAccount s).HoldsAgree := by
  induction as generalizing s with
  | nil => exact h
  | cons a as ih => exact ih (h.applyAccount a)

theorem replayStart_holdsAgree (m : Bool) (d : Disk) : (replayStart m d).store.HoldsAgree := by
  have hinit : (initial d).HoldsAgree := by
    intro a
    simp [initial]
  unfold replayStart loadAccounts
  split
  · exact hinit.foldl_applyAccount _
  · exact hinit

theorem opened_holdsAgree (m : Bool) (d : Disk) : (opened m d).HoldsAgree := by
  have hdone : (replayed m d).store.HoldsAgree :=
    replayed_induction (P := fun r => r.store.HoldsAgree) (replayStart_holdsAgree m d) fun _ p _ hr => hr.replayRow p
  unfold opened writeCheckpoint finishReplay
  split_ifs <;> exact hdone

/-! ### Calls -/

/-- The conditions under which the checks that a call leaves out do no harm: a reversed entry has lines on accounts
    only that are in memory, not closed and without the need of a second approver, and an imported entry has none on a
    held one. -/
def Guarded (s : LedgerStore) : Op → Prop
  | .reverseEntry entryId _ _ => ∀ original ∈ s.entryDb.findById entryId, ∀ line ∈ original.lines,
      ∃ acct ∈ s.accounts.lookup line.accountId, acct.status ≠ .closed ∧ acct.requireFourEyes = false
  | .importEntryDirect e => ∀ line ∈ e.lines, ∀ acct ∈ s.accounts.lookup line.accountId, acct.legalHold = false
  | _ => True

/-- A change of a hold is written, so that the flag does not change without the set. -/
def HoldWritten (cfg : Config) (io : Io) (s : LedgerStore) (op : Op) : Prop :=
  match op with
  | .setLegalHold _ _ => op.Fits cfg io s ∧ io.Writes
  | _ => True

/-- A call keeps flags and set of the holds alike. -/
theorem HoldsAgree.effect {io : Io} {op : Op} {s' : LedgerStore} (h : s.HoldsAgree)
    (effect : Effect cfg io s op s') (written : HoldWritten cfg io s op) : s'.HoldsAgree := by
  cases effect with
  | rejected => exact h
  | failed op c₁ c₂ reached wrote fault =>
    cases op with
    | closeAccount =>
      simp only [Op.begun]
      split
      · next acct found => exact h.setAccount found rfl
      · exact h
    | setLegalHold => exact absurd written.2 (fault written.1)
    | _ => exact h
  | created => exact HoldsAgree.applyAccount h _
  | closed c₁ c₂ found => exact h.setAccount found rfl
  | @held id hold =>
    intro b
    by_cases hb : b = id
    · subst hb
      cases hold <;> simp
    · rw [Finmap.lookup_insert_of_ne _ hb, ← h b]
      split <;> simp [hb]
  | posted | reversed | imported | settled | reconciled => exact h

end LedgerStore

/-! ### The accounts of the log -/

/-- A version in memory and one in the log that guard the same, or the account was closed in memory only. -/
structure Account.Mirrors (acct logged : Account) : Prop where
  id : acct.id = logged.id
  hold : acct.legalHold = logged.legalHold
  fourEyes : acct.requireFourEyes = logged.requireFourEyes
  closed : logged.status = .closed → acct.status = .closed

/-- Every account that the first has, the second has in a version that it mirrors. -/
def Accounts.Mirrors (accounts logged : Accounts) : Prop :=
  ∀ a acct, accounts.lookup a = some acct → ∃ l, logged.lookup a = some l ∧ acct.Mirrors l

/-- The last version of an account in the list. -/
def versionOf (a : AccountId) (as : List Account) : Option Account := Assign.latest a (as.map fun x => (x.id, x))

/-- An account that is loaded from SQLite, and has no version in the segments replayed, is loaded in its last version. -/
def Disk.LoadsLatest (d : Disk) : Prop :=
  ∀ a ∈ loadedAccounts false d, (∃ b ∈ accountsOf d.visible, b.id = a.id) ∨
    versionOf a.id (loadedAccounts false d) = versionOf a.id (accountsOf d.skippedRows)

section
variable {accounts accounts' : Accounts} {a : AccountId} {acct : Account} {d : Disk} {cfg : Config}

theorem Account.Mirrors.refl (acct : Account) : acct.Mirrors acct := ⟨rfl, rfl, rfl, fun h => h⟩

theorem Accounts.mirrors_insert {logged : Account} (found : accounts'.lookup a = some logged) (hacct : acct.Mirrors logged)
    (others : ∀ b acct, b ≠ a → accounts.lookup b = some acct → ∃ l, accounts'.lookup b = some l ∧ acct.Mirrors l) :
    Accounts.Mirrors (accounts.insert a acct) accounts' := by
  intro b acct' hlook
  by_cases hb : b = a
  · subst hb
    rw [Finmap.lookup_insert, Option.some.injEq] at hlook
    exact ⟨logged, found, hlook ▸ hacct⟩
  · rw [Finmap.lookup_insert_of_ne _ hb] at hlook
    exact others b acct' hb hlook

theorem Accounts.Mirrors.enter (h : accounts.Mirrors accounts') (as : List Account) :
    Accounts.Mirrors (enterAccounts accounts as) (enterAccounts accounts' as) := by
  induction as generalizing accounts accounts' with
  | nil => exact h
  | cons a as ih =>
    refine ih (Accounts.mirrors_insert (Finmap.lookup_insert _) (.refl a) fun b acct hb found => ?_)
    rw [Finmap.lookup_insert_of_ne _ hb]
    exact h b acct found

theorem Disk.Durable.opened_mirrors (h : d.Durable cfg) (m : Bool) (latest : m = false → d.LoadsLatest) :
    (opened m d).accounts.Mirrors (loggedAccounts d.wal) := by
  rw [opened_accounts, replayed_accounts h.plain_visible, loggedAccounts, committedAccounts, ← h.skippedRows_append,
    accountsOf_append]
  intro a acct found
  refine ⟨acct, ?_, .refl acct⟩
  simp only [enterAccounts, List.map_append, Assign.lookup_assign, Assign.latest_append, Finmap.lookup_empty,
    Option.or_none] at found ⊢
  -- A version in the replayed segments is the last one for both. Otherwise the loaded one counts.
  cases hseen : Assign.latest a ((accountsOf d.visible).map fun x => (x.id, x)) with
  | some => rwa [hseen] at found
  | none =>
    rw [hseen, Option.none_or] at found
    obtain ⟨b, hb, hpair⟩ := List.mem_map.1 (Assign.mem_of_latest found)
    obtain ⟨rfl, rfl⟩ := Prod.mk.inj hpair
    cases m with
    | true => simp [loadedAccounts] at hb
    | false =>
      rcases latest rfl b hb with ⟨c, hc, hid⟩ | hsame
      · exact absurd hid (Assign.latest_eq_none.1 hseen (c.id, c) (List.mem_map.2 ⟨c, hc, rfl⟩))
      · rw [Option.none_or, ← found]
        exact hsame.symm

end

section
variable {cfg : Config} {io : Io} {s s' : LedgerStore} {op : Op}

theorem Wrote.logged_eq {tm tm' : TransactionManager} {ps : List DataPayload} (wrote : Wrote cfg tm ps tm')
    (clean : tm.NoLeftover) : loggedAccounts tm'.wal = enterAccounts (loggedAccounts tm.wal) (accountsOf ps) := by
  simp only [loggedAccounts, wrote.accounts_eq clean, enterAccounts, List.map_append, Assign.assign_append]

/-- A call leaves no account otherwise than the log has it. -/
theorem Accounts.Mirrors.effect (h : s.accounts.Mirrors (loggedAccounts s.disk.wal)) (effect : Effect cfg io s op s')
    (clean : s.txManager.NoLeftover) (written : s.HoldWritten cfg io op) :
    s'.accounts.Mirrors (loggedAccounts s'.disk.wal) := by
  have kept : ∀ {ps : List DataPayload} {tm : TransactionManager} {accounts : Accounts},
      Wrote cfg s.txManager ps tm → accounts.Mirrors (loggedAccounts s.disk.wal) →
      Accounts.Mirrors (enterAccounts accounts (accountsOf ps)) (loggedAccounts tm.wal) := fun wrote hold => by
    rw [wrote.logged_eq clean]
    exact hold.enter _
  have id_eq : ∀ {a : AccountId} {acct : Account}, s.accounts.lookup a = some acct → acct.id = a := fun found => by
    obtain ⟨l, hl, mirrors⟩ := h _ _ found
    exact mirrors.id.trans (mem_of_lookup_enterAccounts hl).2
  cases effect with
  | rejected => exact h
  | failed op c₁ c₂ reached wrote fault =>
    refine kept wrote ?_
    cases op with
    | setLegalHold => exact absurd written.2 (fault written.1)
    | closeAccount =>
      simp only [Op.begun]
      split
      · next acct found =>
        obtain ⟨l, hl, mirrors⟩ := h _ _ found
        exact Accounts.mirrors_insert hl ⟨mirrors.id, mirrors.hold, mirrors.fourEyes, fun _ => rfl⟩ fun b acct _ => h b acct
      · exact h
    | _ => exact h
  | created c₁ c₂ wrote | posted c₁ c₂ valid fresh checked wrote | reversed c₁ c₂ checked wrote
  | imported c₁ c₂ valid fresh checked wrote | settled c₁ c₂ wrote | reconciled c₁ c₂ wrote => exact kept wrote h
  | closed c₁ c₂ found wrote | held c₁ c₂ found wrote =>
    obtain rfl := id_eq found
    exact kept wrote h

end

/-! ### Committed entries -/

/-- An account that an entry may have a line on: it is not closed and not held, and if it asks for a second approver the
    entry has one, or is imported. -/
structure Account.Admits (acct : Account) (op : Op) (e : JournalEntry) : Prop where
  unclosed : acct.status ≠ .closed
  unheld : acct.legalHold = false
  approved : (∃ e', op = .importEntryDirect e') ∨ (acct.requireFourEyes = true → e.approvedBy ≠ none)

theorem Account.Mirrors.admits {acct logged : Account} {op : Op} {e : JournalEntry} (h : acct.Mirrors logged)
    (admits : acct.Admits op e) : logged.Admits op e :=
  ⟨fun hclosed => admits.unclosed (h.closed hclosed), h.hold ▸ admits.unheld, h.fourEyes ▸ admits.approved⟩

theorem EntryOrigin.admitted_by {cfg : Config} {io : Io} {s : LedgerStore} {op : Op} {e : JournalEntry}
    (origin : EntryOrigin cfg io s op e) (agree : s.HoldsAgree) (guarded : s.Guarded op) :
    ∀ line ∈ e.lines, ∃ acct, s.accounts.lookup line.accountId = some acct ∧ acct.Admits op e := by
  intro line hline
  cases origin with
  | @posted e valid fresh checked =>
    rw [sealEntry_lines] at hline
    obtain ⟨acct, found, active, unheld, approved⟩ := checkLine_ok ((checkEntry_ok checked).1 line hline)
    refine ⟨acct, found, fun hclosed => ?_, unheld, .inr fun hfour => by simpa using approved hfour⟩
    rw [active] at hclosed
    cases hclosed
  | @reversed entryId description domain original checked =>
    obtain ⟨found, -, unheld, -⟩ := checkReversal_ok checked
    rw [sealReversal_lines, List.mem_map] at hline
    obtain ⟨⟨line', n⟩, hmem, rfl⟩ := hline
    have hmem' := List.fst_mem_of_mem_zipIdx hmem
    obtain ⟨acct, hacct, unclosed, single⟩ := guarded original found line' hmem'
    refine ⟨acct, hacct, unclosed, ?_, .inr fun hfour => by simp [single] at hfour⟩
    rw [← Bool.not_eq_true]
    exact fun held => unheld line' hmem' ((agree _).2 ⟨acct, hacct, held⟩)
  | @imported e valid fresh checked =>
    rw [sealEntry_lines] at hline
    obtain ⟨acct, found, active⟩ := checkImportLine_ok (checkAll_ok.1 checked line hline)
    refine ⟨acct, found, fun hclosed => ?_, guarded line hline acct found, .inl ⟨_, rfl⟩⟩
    rw [active] at hclosed
    cases hclosed

/-! ### Runs -/

/-- The condition on a step: no rows are left over under its transaction id and no torn record stands before what it
    appends, the checks it leaves out do no harm, a change of a hold that returns to its caller was written, and a normal
    open loads accounts in their last version. -/
def GuardStep (cfg : Config) : Machine → Event → Prop
  | .up s, .call io op => s.txManager.Appendable ∧ s.Guarded op ∧ s.HoldWritten cfg io op
  | .up s, .crash _ op => s.txManager.Appendable ∧ s.Guarded op
  | .down d, .openStore => d.LoadsLatest
  | _, _ => True

theorem GuardStep.ready {cfg : Config} {x : Machine} {ev : Event} (h : GuardStep cfg x ev) : AppendStep x ev := by
  cases x <;> cases ev <;> first | exact h.1 | trivial

/-- What such a run keeps: an open store has no account otherwise than the log has it, and no hold in one place only. -/
structure Machine.Mirrored (cfg : Config) (x : Machine) : Prop where
  durable : x.disk.Durable cfg
  agree : ∀ s, x = .up s → s.HoldsAgree
  mirrors : ∀ s, x = .up s → s.accounts.Mirrors (loggedAccounts s.disk.wal)

/-- A guarded step keeps the accounts as the log has them. -/
theorem Machine.Mirrored.step {cfg : Config} {x y : Machine} {ev : Event} (h : x.Mirrored cfg) (ok : GuardStep cfg x ev)
    (hstep : Machine.step cfg x ev = some y) : y.Mirrored cfg := by
  have durable := h.durable.step hstep ok.ready
  cases Machine.step_cases hstep with
  | refused => exact h
  | opened d =>
    exact ⟨durable, forall_up (opened_holdsAgree false d),
      forall_up (by rw [opened_wal]; exact h.durable.opened_mirrors false fun _ => ok)⟩
  | importing d =>
    exact ⟨durable, forall_up (opened_holdsAgree true d),
      forall_up (by rw [opened_wal]; exact h.durable.opened_mirrors true fun hm => by cases hm)⟩
  | called effect =>
    exact ⟨durable, forall_up ((h.agree _ rfl).effect effect ok.2.2),
      forall_up ((h.mirrors _ rfl).effect effect ok.1.noLeftover ok.2.2)⟩
  | closed | crashed => exact ⟨durable, fun _ hs => (by cases hs), fun _ hs => by cases hs⟩

instance (s : LedgerStore) (op : Op) : Decidable (s.Guarded op) := by
  rcases op with _ | _ <;> unfold LedgerStore.Guarded <;> infer_instance

instance (cfg : Config) (io : Io) (s : LedgerStore) (op : Op) : Decidable (s.HoldWritten cfg io op) := by
  rcases op with _ | _ <;> unfold LedgerStore.HoldWritten Op.Fits <;> infer_instance

instance (cfg : Config) (x : Machine) (ev : Event) : Decidable (GuardStep cfg x ev) := by
  rcases x with _ | _ <;> rcases ev with _ | _ <;> unfold GuardStep <;> try unfold Disk.LoadsLatest
  all_goals infer_instance

/-- Segments that take one transaction of a single row each. -/
def Sample.rolling : Config := { config with payloadLen := fun _ => 22000000 }

/-- The hold is in a segment that the second open skips, and SQLite has the account without it, but it was lifted
    before. -/
def Sample.heldAndLifted : List Event :=
  twoAccounts ++ [.call io (.postEntry (transfer 10 none 5 2 1)), .call io (.setLegalHold 1 true),
    .call io (.setLegalHold 1 false), .call io (.createAccount (account 3 .asset)), .close, .openStore, .close, .openStore]

/-- Before the last event of a run: the status of account 1, whether it is held and whether it asks for an approver, as the
    log has it. After it: the accounts and the approver of each committed entry. -/
def Sample.lastCommit (cfg : Config) (es : List Event) (ev : Event) :
    Option (Option (AccountStatus × Bool × Bool) × List (List AccountId × Option String)) :=
  (Run.exec (Machine.step cfg) (.down (.fresh none)) es).bind fun x => (Machine.step cfg x ev).map fun y =>
    (((loggedAccounts x.disk.wal).lookup 1).map fun acct => (acct.status, acct.legalHold, acct.requireFourEyes),
      (committedEntries y.disk.wal).map fun e => (e.lines.map (·.accountId), e.approvedBy))

end VectorLedger
