import VectorLedger.Theorems.Session

/-! The ledger equation. The check passes exactly when contra and suspense accounts sum to zero. -/

namespace VectorLedger

open Sample

def AccountType.offSides : AccountType → Bool
  | .contra | .suspense => true
  | _ => false

namespace LedgerStore

def side (accounts : Accounts) (a : AccountId) : Int :=
  match accounts.lookup a with
  | some acct => if acct.accountType.isDebitNormal then 1 else -1
  | none => 0

def netPosition (s : LedgerStore) : Int := ∑ a ∈ s.accounts.keys, side s.accounts a * s.balanceCache.get a

variable {s s' : LedgerStore} {accounts : Accounts}

/-! ### The check -/

theorem netPosition_eq (ids : ∀ a acct, s.accounts.lookup a = some acct → acct.id = a) :
    s.netPosition = s.balanceOfTypes (·.isDebitNormal) - s.balanceOfTypes (·.onCreditSide) -
      s.balanceOfTypes (·.offSides) := by
  unfold netPosition balanceOfTypes
  rw [← Finset.sum_sub_distrib, ← Finset.sum_sub_distrib]
  refine Finset.sum_congr rfl fun a ha => ?_
  cases hacct : s.accounts.lookup a with
  | none => simp [side, hacct]
  | some acct =>
    simp only [ids a acct hacct]
    cases htype : acct.accountType <;>
      simp [side, hacct, htype, AccountType.isDebitNormal, AccountType.onCreditSide, AccountType.offSides]

theorem checkFinancialInvariants_ok : s.checkFinancialInvariants = .ok () ↔
      s.balanceOfTypes (·.isDebitNormal) = s.balanceOfTypes (·.onCreditSide) := by
  unfold checkFinancialInvariants
  simp only
  split
  · next hne => exact iff_of_false (by simp) hne
  · next heq => exact iff_of_true rfl (not_not.1 heq)

/-! ### Entries -/

theorem side_mul_delta {a : AccountId} {acct : Account} (found : accounts.lookup a = some acct)
    (line : JournalLine) :
    side accounts a * line.delta acct.accountType.isDebitNormal = line.delta true := by
  unfold side
  rw [found]
  cases hnormal : acct.accountType.isDebitNormal with
  | true => simp [hnormal]
  | false =>
    have hnot : line.delta false = -line.delta true := line.delta_not true
    simp [hnormal, hnot]

theorem sum_side_lineDeltas {lines : List JournalLine}
    (known : ∀ l ∈ lines, ∃ acct, accounts.lookup l.accountId = some acct) :
    ∑ a ∈ accounts.keys, side accounts a * Tally.total a (lineDeltas accounts lines) = (lines.map (·.delta true)).sum := by
  induction lines with
  | nil => simp [lineDeltas]
  | cons line lines ih =>
    rw [List.forall_mem_cons] at known
    obtain ⟨acct, found⟩ := known.1
    have hmem : line.accountId ∈ accounts.keys := by
      rw [Finmap.mem_keys, ← Finmap.lookup_isSome, found]
      rfl
    have hcons : lineDeltas accounts (line :: lines) =
        (line.accountId, line.delta acct.accountType.isDebitNormal) :: lineDeltas accounts lines := by
      simp [lineDeltas, found]
    simp only [hcons, Tally.total_cons, mul_add, Finset.sum_add_distrib, ih known.2, mul_ite, mul_zero,
      Finset.sum_ite_eq, if_pos hmem, side_mul_delta found, List.map_cons, List.sum_cons]

theorem sum_side_entryDeltas {e : JournalEntry}
    (known : ∀ l ∈ e.lines, ∃ acct, accounts.lookup l.accountId = some acct)
    (balanced : JournalEntry.totalOf .debit e.lines = JournalEntry.totalOf .credit e.lines) :
    ∑ a ∈ accounts.keys, side accounts a * Tally.total a (entryDeltas accounts e) = 0 := by
  rw [entryDeltas_eq]
  split
  · rw [sum_side_lineDeltas known, JournalEntry.sum_delta, balanced, sub_self]
  · simp

/-! ### Sessions -/

theorem netPosition_created {a : Account} (unknown : s.accounts.lookup a.id = none)
    (zero : s.balanceCache.get a.id = 0) (accounts : s'.accounts = s.accounts.insert a.id a)
    (cache : s'.balanceCache = s.balanceCache) : s'.netPosition = s.netPosition := by
  have hnew : a.id ∉ s.accounts.keys := by
    rw [Finmap.mem_keys, ← Finmap.lookup_isSome, unknown]
    simp
  have hkeys : (s.accounts.insert a.id a).keys = insert a.id s.accounts.keys := by
    ext b
    simp [Finmap.mem_keys]
  unfold netPosition
  rw [cache, accounts, hkeys, Finset.sum_insert hnew, zero, mul_zero, zero_add]
  refine Finset.sum_congr rfl fun b hb => ?_
  have hne : b ≠ a.id := fun heq => hnew (heq ▸ hb)
  simp only [side, Finmap.lookup_insert_of_ne s.accounts hne]

theorem netPosition_session {cfg : Config} {io : Io} {op : Op} (sound : s.Sound)
    (effect : SessionEffect cfg io s op s') : s'.netPosition = s.netPosition := by
  cases effect with
  | kept accounts cache => simp only [netPosition, accounts, cache]
  | created a unknown accounts cache =>
    exact netPosition_created unknown (sound.unknown _ unknown) accounts cache
  | committed e origin accounts cache =>
    have hentry := sum_side_entryDeltas (origin.known sound) (origin.balanced sound)
    simp only [netPosition, accounts, cache, Tally.get_addAll, mul_add, Finset.sum_add_distrib, hentry, add_zero]

end LedgerStore

/-- In every state of every session the check passes exactly when the balances of contra and suspense accounts
    sum to zero. -/
theorem financial_invariants_iff (cfg : Config) (signingKey : Option SigningKey) (s : LedgerStore)
    (run : Run.Reachable (Machine.step cfg) (SessionStep fun _ s op => SessionOp s op)
      (.down (.fresh signingKey)) (.up s)) :
    s.checkFinancialInvariants = .ok () ↔ s.balanceOfTypes (·.offSides) = 0 := by
  obtain ⟨sound, hzero⟩ : s.Sound ∧ s.netPosition = 0 := by
    refine session_invariant (P := fun s => s.Sound ∧ s.netPosition = 0) run ⟨.initial _ rfl, rfl⟩ ?_
    rintro io s op s' ⟨sound, hzero⟩ allowed effect
    exact ⟨sound.session (effect.session allowed),
      (LedgerStore.netPosition_session sound (effect.session allowed)).trans hzero⟩
  rw [LedgerStore.netPosition_eq sound.ids] at hzero
  rw [LedgerStore.checkFinancialInvariants_ok]
  constructor <;> intro h <;> omega

/-- A transfer between an income and an asset account. -/
theorem financial_invariants_iff_transfer : ∃ s, Run.exec (Machine.step config) (.down (.fresh none)) (twoAccounts ++
        [.call io (.postEntry (transfer 10 none 5 2 1))]) = some (.up s) ∧
      (s.checkFinancialInvariants = .ok () ↔ s.balanceOfTypes (·.offSides) = 0) :=
  Run.exists_of_exec (by decide +kernel) rfl fun run => financial_invariants_iff _ _ _ run

/-- A transfer from a suspense account to an asset account: the check fails. -/
theorem financial_invariants_fail_suspense : ((Run.exec (Machine.step config) (.down (.fresh none))
        [.openStore, .call io (.createAccount (account 1 .asset)), .call io (.createAccount (account 2 .suspense)),
          .call io (.postEntry (transfer 10 none 5 2 1))]).bind Machine.store?).map
      (fun s => decide (s.checkFinancialInvariants = .ok ())) = some false := by
  decide +kernel

end VectorLedger
