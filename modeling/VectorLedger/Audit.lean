import VectorLedger.Posting

/-! The hash chain, reconciliation, the ledger equation and reads at a snapshot. -/

namespace VectorLedger.LedgerStore

/-! ### The hash chain -/

def chainTip (s : LedgerStore) : Hash := s.lastChainHash

def verifyChain (blake3 : List UInt8 → Hash) : Hash → List JournalEntry → Except LedgerError Unit
  | _, [] => .ok ()
  | prevHash, e :: es =>
    if !e.verifyHashes blake3 then
      .error (.serialization ("Hash chain broken at sequence " ++ toString e.sequence))
    else if e.prevHash ≠ prevHash then
      .error (.serialization ("Chain linkage broken at sequence " ++ toString e.sequence))
    else verifyChain blake3 e.chainHash es

def verifyChainIntegrity (cfg : Config) (s : LedgerStore) : Except LedgerError Unit :=
  verifyChain cfg.blake3 zeroHash s.entryDb.entries

/-! ### Reconciliation -/

/-- The change of a line to the balance of its account, by the sign of the account's type. -/
def signedDelta (acct : Account) (line : JournalLine) : Int :=
  match line.drCr with
  | .debit => line.amount.asI128 * acct.accountType.normalBalanceSign
  | .credit => -line.amount.asI128 * acct.accountType.normalBalanceSign

/-- Add a line to the recomputed balances. A line on an unknown account is passed over. -/
def recomputeLine (s : LedgerStore) (balances : BalanceCache) (line : JournalLine) : BalanceCache :=
  match s.accounts.lookup line.accountId with
  | some acct => balances.add line.accountId (signedDelta acct line)
  | none => balances

def recomputed (s : LedgerStore) : BalanceCache :=
  s.entryDb.entries.foldl
    (fun balances e => if e.status.affectsBalance then e.lines.foldl s.recomputeLine balances else balances) ∅

def discrepancyOf (s : LedgerStore) (a : AccountId) : ReconciliationDiscrepancy where
  accountId := a
  accountCode := ((s.accounts.lookup a).map (·.code)).getD (Uuid.toText a)
  cachedBalance := s.balanceCache.get a
  recomputedBalance := s.recomputed.get a
  delta := s.recomputed.get a - s.balanceCache.get a

def reconcile (s : LedgerStore) : Finset ReconciliationDiscrepancy :=
  ((s.accounts.keys ∪ s.balanceCache.keys).filter
    fun a => s.balanceCache.get a ≠ s.recomputed.get a).image s.discrepancyOf

def reconciliationRecord (cfg : Config) (io : Io) (s : LedgerStore) : ReconciliationRecord where
  id := io.newId
  runAt := io.now
  entriesScanned := s.entryDb.count
  accountsChecked := s.accounts.keys.card
  discrepancyCount := s.reconcile.card
  discrepancyJson := cfg.discrepancyJson s.reconcile
  ledgerSequenceAtRun := s.nextSequence - 1
  chainTipAtRun := hexEncode s.lastChainHash.toList

def reconcileAndRecord (cfg : Config) (io : Io) (s : LedgerStore) :
    Except LedgerError (Finset ReconciliationDiscrepancy × ReconciliationRecord) × LedgerStore :=
  let discrepancies := s.reconcile
  let record := s.reconciliationRecord cfg io
  match s.persistRow cfg io (.reconciliationRecord record) .insert none with
  | (.error e, s) => (.error e, s)
  | (.ok (), s) => (.ok (discrepancies, record), s)

/-! ### The ledger equation -/

def balanceOfTypes (s : LedgerStore) (p : AccountType → Bool) : Int :=
  ∑ a ∈ s.accounts.keys, match s.accounts.lookup a with
    | some acct => if p acct.accountType then s.balanceCache.get acct.id else 0
    | none => 0

/-- Assets and expenses against liabilities, equity and income. Contra and suspense accounts are left out. -/
def checkFinancialInvariants (s : LedgerStore) : Except String Unit :=
  let debitNormalSum := s.balanceOfTypes (·.isDebitNormal)
  let creditNormalSum := s.balanceOfTypes (·.onCreditSide)
  if debitNormalSum ≠ creditNormalSum then
    .error ("Financial invariant violation: Σ(Assets+Expenses)=" ++ toString debitNormalSum ++
      " ≠ Σ(Liabilities+Equity+Income)=" ++ toString creditNormalSum ++ " (delta=" ++
      toString (debitNormalSum - creditNormalSum) ++ ")")
  else .ok ()

/-! ### Snapshots -/

def currentSnapshot (s : LedgerStore) : Nat := s.nextSequence - 1

def balanceAtSnapshot (s : LedgerStore) (a : AccountId) (snapshotSeq : Nat) : Int :=
  match s.accounts.lookup a with
  | none => 0
  | some acct =>
    (s.entryDb.entriesForAccount a).foldl
      (fun balance e =>
        if e.sequence > snapshotSeq then balance
        else if !e.status.affectsBalance then balance
        else
          e.lines.foldl
            (fun balance line =>
              if line.accountId ≠ a then balance else balance + line.delta acct.accountType.isDebitNormal)
            balance)
      0

def entriesAtSnapshot (s : LedgerStore) (snapshotSeq : Nat) : List JournalEntry :=
  s.entryDb.scanRange 1 snapshotSeq

end VectorLedger.LedgerStore
