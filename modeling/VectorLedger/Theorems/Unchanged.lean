import VectorLedger.Theorems.Sequence
import VectorLedger.Theorems.Session

/-! Calls that return an error, and what they leave changed. -/

namespace VectorLedger

open Sample

/-- The accounts, balances, counters, holds and events of a store are as they were. -/
structure LedgerStore.SameState (s s' : LedgerStore) : Prop where
  accounts : s'.accounts = s.accounts
  balances : s'.balanceCache = s.balanceCache
  nextSequence : s'.nextSequence = s.nextSequence
  chainTip : s'.chainTip = s.chainTip
  holds : s'.legalHoldAccounts = s.legalHoldAccounts
  reversals : s'.reversalEventIndex = s.reversalEventIndex
  settlements : s'.settlementEventIndex = s.settlementEventIndex

/-- The operation changes nothing before its write: it takes no sequence, and the account that it closes or
    holds is unknown or has that status already. -/
def Op.ChangesNothing (s : LedgerStore) : Op → Prop
  | .postEntry _ | .reverseEntry _ _ _ | .importEntryDirect _ => False
  | .closeAccount id => ∀ acct, s.accounts.lookup id = some acct → acct.status = .closed
  | .setLegalHold id hold => ∀ acct, s.accounts.lookup id = some acct → acct.legalHold = hold
  | .createAccount _ | .applySettlementEvent _ _ _ | .reconcileAndRecord => True

section Failed
variable {cfg : Config} {io : Io} {s t : LedgerStore} {op : Op} {err : LedgerError}

theorem LedgerStore.SameState.refl (s : LedgerStore) : s.SameState s := ⟨rfl, rfl, rfl, rfl, rfl, rfl, rfl⟩

theorem LedgerStore.sameState_withLog {tm : TransactionManager} {c₁ c₂ : Nat} :
    s.SameState (t.withLog tm c₁ c₂) ↔ s.SameState t :=
  ⟨fun h => ⟨h.accounts, h.balances, h.nextSequence, h.chainTip, h.holds, h.reversals, h.settlements⟩,
    fun h => ⟨h.accounts, h.balances, h.nextSequence, h.chainTip, h.holds, h.reversals, h.settlements⟩⟩

/-! ### Where a failed call stopped -/

/-- The call has done what it does before its write, and no more to the state. -/
def StoppedAtWrite (s : LedgerStore) (op : Op) (s' : LedgerStore) : Prop :=
  ∃ tm c₁ c₂, s' = (op.begun s).withLog tm c₁ c₂

theorem StoppedAtWrite.of_begun_eq (h : op.begun s = s) : StoppedAtWrite s op s :=
  ⟨s.txManager, s.nextAccountPage, s.nextEntryPage, by rw [h]; rfl⟩

/-- The call failed its checks and changed nothing, or stopped at its write. -/
def FailedAt (cfg : Config) (s : LedgerStore) (op : Op) (s' : LedgerStore) : Prop :=
  (¬ op.Reaches cfg s ∧ s' = s) ∨ (op.Reaches cfg s ∧ StoppedAtWrite s op s')

namespace LedgerStore

theorem call_failed (h : (s.call cfg io op).1 = .error err) : FailedAt cfg s op (s.call cfg io op).2 := by
  have called := call_called cfg io s op
  generalize s.call cfg io op = r at called h
  cases called with
  | refused _ unreached =>
    by_cases reached : op.Reaches cfg s
    · exact .inr ⟨reached, .of_begun_eq (unreached.resolve_left (not_not_intro reached))⟩
    · exact .inl ⟨reached, rfl⟩
  | answered => cases h
  | failed _ c₁ c₂ reached => exact .inr ⟨reached, _, c₁, c₂, rfl⟩
  | done => cases h

end LedgerStore

/-! ### What it left changed -/

theorem insert_account_eq_iff {accounts : Accounts} {id : AccountId} {acct acct' : Account}
    (found : accounts.lookup id = some acct) : accounts.insert id acct' = accounts ↔ acct' = acct := by
  constructor
  · intro h
    have hlookup := congrArg (Finmap.lookup id) h
    rw [Finmap.lookup_insert, found] at hlookup
    exact Option.some.inj hlookup
  · rintro rfl
    refine Finmap.ext_lookup fun a => ?_
    by_cases ha : a = id
    · subst ha
      rw [Finmap.lookup_insert, found]
    · rw [Finmap.lookup_insert_of_ne _ ha]

theorem LedgerStore.sameState_insert {id : AccountId} {acct acct' : Account} (found : s.accounts.lookup id = some acct) :
    s.SameState { s with accounts := s.accounts.insert id acct' } ↔ acct' = acct := by
  rw [← insert_account_eq_iff found]
  exact ⟨fun h => h.accounts, fun h => ⟨h, rfl, rfl, rfl, rfl, rfl, rfl⟩⟩

theorem Op.sameState_begun : s.SameState (op.begun s) ↔ op.ChangesNothing s := by
  have taken : ¬ s.SameState s.takeSequence := fun h => Nat.succ_ne_self _ h.nextSequence
  cases op with
  | createAccount | applySettlementEvent | reconcileAndRecord => exact iff_of_true (.refl s) trivial
  | closeAccount id | setLegalHold id =>
    cases found : s.accounts.lookup id with
    | none => exact iff_of_true (by simpa only [Op.begun, found] using .refl s) (by simp [ChangesNothing, found])
    | some =>
      simp only [Op.begun, found, ChangesNothing, LedgerStore.sameState_insert found, Option.some.injEq, forall_eq']
      exact ⟨fun h => h ▸ rfl, fun h => by rw [← h]⟩
  | postEntry | reverseEntry | importEntryDirect => exact iff_of_false taken id

end Failed

/-- A call that returns an error leaves the state as it was exactly when it failed its checks, or was one that
    changes nothing before its write. -/
theorem failed_call_unchanged_iff (cfg : Config) (io : Io) (s : LedgerStore) (op : Op) (err : LedgerError)
    (failed : (s.call cfg io op).1 = .error err) :
    s.SameState (s.call cfg io op).2 ↔ (op.Reaches cfg s → op.ChangesNothing s) := by
  rcases LedgerStore.call_failed failed with ⟨unreached, hsame⟩ | ⟨reached, tm, c₁, c₂, hstop⟩
  · rw [hsame]
    exact iff_of_true (.refl s) fun reached => absurd reached unreached
  · rw [hstop, LedgerStore.sameState_withLog, Op.sameState_begun]
    exact ⟨fun h _ => h, fun h => h reached⟩

/-- A post without lines fails its checks. -/
theorem failed_call_unchanged_iff_no_lines :
    ∃ s, Run.exec (Machine.step config) (.down (.fresh none)) twoAccounts = some (.up s) ∧
      (s.call config io (.postEntry (entry 10 none []))).1 = .error (.tooFewLines 0) ∧
      s.SameState (s.call config io (.postEntry (entry 10 none []))).2 := by
  refine ⟨_, rfl, rfl, (failed_call_unchanged_iff _ _ _ _ _ rfl).2 fun reached => absurd reached ?_⟩
  decide +kernel

def Sample.noPages : Io := { io with pageWrite := fun _ => false }

/-- A post that does not fit on a page has taken a sequence, and an account whose close could not be written is
    closed in memory. -/
theorem failed_call_changes_state : ∃ s, Run.exec (Machine.step sized) (.down (.fresh none)) twoAccounts = some (.up s) ∧
      (s.call sized io (.postEntry wideEntry)).1 =
        .error (.serialization "page write_slot: Page 0 is full (8126 free, 8400 needed)") ∧
      ¬ s.SameState (s.call sized io (.postEntry wideEntry)).2 ∧
      (s.call sized noPages (.closeAccount 1)).1 = .error (.serialization "page_store write: I/O error") ∧
      ¬ s.SameState (s.call sized noPages (.closeAccount 1)).2 :=
  ⟨_, rfl, by decide +kernel, fun same => absurd same.nextSequence (by decide +kernel), by decide +kernel,
    fun same => absurd (congrArg (Finmap.lookup 1) same.accounts) (by decide +kernel)⟩

end VectorLedger
