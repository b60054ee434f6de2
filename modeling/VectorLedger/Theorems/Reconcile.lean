import VectorLedger.Theorems.Indexed

/-! Reconciliation. The cache and the recomputation use two sign rules, which differ on suspense accounts. -/

namespace VectorLedger

open Sample

def AccountType.recomputedAsDebit (t : AccountType) : Bool := t.normalBalanceSign = 1

theorem AccountType.recomputedAsDebit_eq (t : AccountType) :
    t.recomputedAsDebit = if t = .suspense then !t.isDebitNormal else t.isDebitNormal := by
  cases t <;> rfl

namespace LedgerStore

variable {s : LedgerStore} {a : AccountId} {acct : Account}

theorem signedDelta_eq (acct : Account) (line : JournalLine) :
    signedDelta acct line = line.delta acct.accountType.recomputedAsDebit := by
  cases htype : acct.accountType <;> cases hdir : line.drCr <;>
    simp [signedDelta, JournalLine.delta, AccountType.recomputedAsDebit, AccountType.normalBalanceSign, htype, hdir]

/-! ### The recomputed balances -/

theorem get_recomputeLine (found : s.accounts.lookup a = some acct) (balances : BalanceCache)
    (lines : List JournalLine) :
    (lines.foldl s.recomputeLine balances).get a =
      balances.get a + JournalEntry.lineSum acct.accountType.recomputedAsDebit a lines := by
  induction lines generalizing balances with
  | nil => simp
  | cons line lines ih =>
    rw [List.foldl_cons, ih, JournalEntry.lineSum_cons, ← add_assoc]
    congr 1
    unfold recomputeLine
    by_cases hline : line.accountId = a
    · subst hline
      simp only [found, Tally.get_add, signedDelta_eq, if_true]
    · cases hlook : s.accounts.lookup line.accountId <;> simp [Tally.get_add, hline]

theorem get_recomputeLine_unknown (unknown : s.accounts.lookup a = none) (balances : BalanceCache)
    (lines : List JournalLine) : (lines.foldl s.recomputeLine balances).get a = balances.get a := by
  refine List.foldl_keeps (fun b : BalanceCache => b.get a) s.recomputeLine (fun balances line => ?_) lines balances
  unfold recomputeLine
  cases hlook : s.accounts.lookup line.accountId with
  | none => rfl
  | some =>
    have hne : line.accountId ≠ a := by
      rintro rfl
      rw [unknown] at hlook
      cases hlook
    simp [Tally.get_add, hne]

theorem get_recomputed (found : s.accounts.lookup a = some acct) :
    s.recomputed.get a = signedSum acct.accountType.recomputedAsDebit a s.entryDb.entries := by
  rw [recomputed, get_foldl_affecting (f := fun balances lines => lines.foldl s.recomputeLine balances)
    fun e _ balances => get_recomputeLine found balances e.lines, Tally.get_empty, zero_add]

theorem get_recomputed_unknown (unknown : s.accounts.lookup a = none) : s.recomputed.get a = 0 := by
  have hkeeps : ∀ (balances : BalanceCache) (e : JournalEntry),
      (if e.status.affectsBalance then e.lines.foldl s.recomputeLine balances else balances).get a = balances.get a := by
    intro balances e
    split
    · exact get_recomputeLine_unknown unknown balances e.lines
    · rfl
  exact (List.foldl_keeps (fun b : BalanceCache => b.get a) _ hkeeps s.entryDb.entries ∅).trans Tally.get_empty

/-! ### Discrepancies -/

theorem reconcile_eq_empty :
    s.reconcile = ∅ ↔ ∀ a ∈ s.accounts.keys ∪ s.balanceCache.keys, s.balanceCache.get a = s.recomputed.get a := by
  rw [reconcile, Finset.image_eq_empty, Finset.filter_eq_empty_iff]
  simp only [not_not]

theorem Indexed.recomputed_eq (h : s.Indexed) (found : s.accounts.lookup a = some acct) : s.recomputed.get a =
      if acct.accountType = .suspense then -s.balanceCache.get a else s.balanceCache.get a := by
  rw [get_recomputed found, h.sums a acct found, AccountType.recomputedAsDebit_eq]
  split
  · exact signedSum_not
  · rfl

end LedgerStore

/-- In every state of every session with working inserts, reconciliation finds nothing exactly when every
    suspense account has balance zero. -/
theorem reconcile_empty_iff (cfg : Config) (signingKey : Option SigningKey) (s : LedgerStore)
    (run : Run.Reachable (Machine.step cfg) (SessionStep IndexedCall) (.down (.fresh signingKey)) (.up s)) :
    s.reconcile = ∅ ↔ ∀ a acct, s.accounts.lookup a = some acct → acct.accountType = .suspense → s.balance a = 0 := by
  have indexed := indexed_of_session run
  rw [LedgerStore.reconcile_eq_empty]
  constructor
  · intro h a acct found suspense
    have hmem : a ∈ s.accounts.keys ∪ s.balanceCache.keys := by
      refine Finset.mem_union_left _ ?_
      rw [Finmap.mem_keys, ← Finmap.lookup_isSome, found]
      rfl
    have hsame := h a hmem
    rw [indexed.recomputed_eq found, if_pos suspense] at hsame
    unfold LedgerStore.balance
    omega
  · intro h a _
    cases found : s.accounts.lookup a with
    | none => rw [indexed.sound.unknown a found, LedgerStore.get_recomputed_unknown found]
    | some acct =>
      rw [indexed.recomputed_eq found]
      split
      · next suspense =>
        have hzero : s.balanceCache.get a = 0 := h a acct found suspense
        rw [hzero]
        rfl
      · rfl

/-- A transfer between an income and an asset account. -/
theorem reconcile_empty_iff_transfer : ∃ s, Run.exec (Machine.step config) (.down (.fresh none)) (twoAccounts ++
        [.call io (.postEntry (transfer 10 none 5 2 1))]) = some (.up s) ∧
      (s.reconcile = ∅ ↔ ∀ a acct, s.accounts.lookup a = some acct → acct.accountType = .suspense → s.balance a = 0) :=
  Run.exists_of_exec (by decide +kernel) rfl fun run => reconcile_empty_iff _ _ _ run

/-- After a transfer of 5 from a suspense account the cache has 5 for it, and the recomputation -5. -/
theorem reconcile_reports_suspense : ((Run.exec (Machine.step config) (.down (.fresh none))
        [.openStore, .call io (.createAccount (account 1 .asset)), .call io (.createAccount (account 2 .suspense)),
          .call io (.postEntry (transfer 10 none 5 2 1))]).bind Machine.store?).map
      (fun s => s.reconcile.image fun d => (d.accountId, d.cachedBalance, d.recomputedBalance)) = some {(2, 5, -5)} := by
  decide +kernel

end VectorLedger
