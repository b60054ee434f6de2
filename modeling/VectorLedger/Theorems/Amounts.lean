import VectorLedger.Sql
import VectorLedger.Theorems.Session

/-! The amounts of committed entries, by the way the entry came in: a post, an import or an INSERT. -/

namespace VectorLedger

open Sample LedgerStore

/-- The amount is above zero, and not above the bound that a post has for the currency. -/
def InBound (cfg : Config) (s : LedgerStore) (line : JournalLine) : Prop :=
  0 < line.amount.asI64.toInt ∧
    ∀ precision ∈ CurrencyRegistry.precision cfg.toUppercase s.currencyRegistry line.currencyCode,
      line.amount.asI64.toInt ≤ LedgerStore.maxMinor precision

/-- The ways in which amounts come in. -/
inductive Request where
  | post (e : JournalEntry)
  | importDirect (e : JournalEntry)
  | insert (env : Sql.Env) (ins : Sql.Insert)

def Request.run (cfg : Config) (io : Io) (s : LedgerStore) : Request → LedgerStore
  | .post e => (s.postEntry cfg io e).2
  | .importDirect e => (s.importEntryDirect cfg io e).2
  | .insert env ins => (Sql.runInsert cfg env io s ins).2

/-- What the caller has to see to: that amounts are positive, and for an import that they are within the bound. -/
def Request.AmountsGiven (cfg : Config) (s : LedgerStore) : Request → Prop
  | .post e => ∀ line ∈ e.lines, 0 < line.amount.asI64.toInt
  | .importDirect e => ∀ line ∈ e.lines, InBound cfg s line
  | .insert env ins => ∀ spec, Sql.planInsert env ins = .ok (.postEntry spec) → 0 < spec.amount.toInt

/-- Between the two stores the entry was committed. -/
def LedgerStore.Commits (cfg : Config) (s s' : LedgerStore) (e : JournalEntry) : Prop :=
  ∃ rows, Wrote cfg s.txManager rows s'.txManager ∧ ∃ p ∈ rows, p.row = .entry e

section Amounts
variable {cfg : Config} {io : Io} {s s' : LedgerStore} {e x : JournalEntry} {line : JournalLine}

/-! ### Posts and imports -/

theorem LedgerStore.checkPrecision_ok (h : s.checkPrecision cfg line = .ok ()) :
    ∀ precision ∈ CurrencyRegistry.precision cfg.toUppercase s.currencyRegistry line.currencyCode,
      line.amount.asI64.abs.toInt ≤ maxMinor precision := by
  intro precision hprecision
  by_contra hlarge
  rw [checkPrecision, hprecision] at h
  simp only [if_pos (Int.not_le.1 hlarge)] at h
  cases h

theorem LedgerStore.checkPrecision_of_checkLine {approvedBy : Option String}
    (h : s.checkLine cfg approvedBy line = .ok ()) : s.checkPrecision cfg line = .ok () := by
  unfold checkLine at h
  cases found : s.accounts.lookup line.accountId with
  | none => simp [found] at h
  | some =>
    rcases hcheck : s.checkPrecision cfg line with err | ⟨⟩
    · simp only [found, hcheck] at h
      split_ifs at h
    · rfl

theorem toInt_abs_of_pos {a : Int64} (h : 0 < a.toInt) : a.abs.toInt = a.toInt := by
  have hsign : a.toBitVec.msb = false := by
    rw [BitVec.msb_eq_toInt, decide_eq_false_iff_not]
    exact Int.not_lt.2 (Int.le_of_lt h)
  show a.toBitVec.abs.toInt = a.toBitVec.toInt
  rw [BitVec.abs_eq, hsign]
  rfl

theorem LedgerStore.inBound_iff_of_checkEntry (checked : s.checkEntry cfg e = .ok ()) :
    (∀ line ∈ e.lines, InBound cfg s line) ↔ ∀ line ∈ e.lines, 0 < line.amount.asI64.toInt := by
  refine forall₂_congr fun line hline => ⟨fun h => h.1, fun positive => ⟨positive, ?_⟩⟩
  intro precision hprecision
  have hcheck := checkPrecision_of_checkLine ((checkEntry_ok checked).1 line hline)
  have hbound := checkPrecision_ok hcheck precision hprecision
  rwa [toInt_abs_of_pos positive] at hbound

theorem LedgerStore.Commits.origin {op : Op} (h : s.Commits cfg s' x) (effect : Effect cfg io s op s') :
    EntryOrigin cfg io s op x := by
  obtain ⟨rows, wrote, p, hp, hrow⟩ := h
  obtain ⟨ps, wrote', hps⟩ := effect.origin
  obtain rfl := wrote.rows_unique wrote'
  have hx : x ∈ entriesOf rows := List.mem_filterMap.2 ⟨p, hp, by rw [hrow]⟩
  rcases hps with hnone | ⟨e, hone, origin⟩
  · simp [hnone] at hx
  · rw [hone] at hx
    rwa [List.mem_singleton.1 hx]

theorem LedgerStore.Commits.not_of_nothing (h : s.Commits cfg s' x) (wrote : Wrote cfg s.txManager [] s'.txManager) :
    False := by
  obtain ⟨rows, wrote', p, hp, -⟩ := h
  obtain rfl := wrote.rows_unique wrote'
  cases hp

theorem LedgerStore.commits_postEntry (h : s.Commits cfg (s.postEntry cfg io e).2 x) :
    x = s.sealEntry cfg io e ∧ s.checkEntry cfg e = .ok () := by
  cases h.origin (postEntry_called cfg io s e).effect with
  | posted _ _ checked => exact ⟨rfl, checked⟩

theorem LedgerStore.postEntry_commits (reached : (Op.postEntry e).Reaches cfg s)
    (fits : (Op.postEntry e).Fits cfg io s) (writes : io.Writes) :
    s.Commits cfg (s.postEntry cfg io e).2 (s.sealEntry cfg io e) := by
  obtain ⟨valid, fresh, checked⟩ := reached
  have hpage : LedgerStore.PageOk cfg io 0 (.entry (s.sealEntry cfg io e)) :=
    ⟨fits _ (List.mem_singleton_self _), writes.1⟩
  rcases persistRow_effect cfg io s.takeSequence (.entry (s.sealEntry cfg io e)) .insert
      (some (s.sealEntry cfg io e).prevHash) with
    ⟨tm, c₁, c₂, page, slot, hrun, wrote, -⟩ | ⟨err, tm, c₁, c₂, hrun, wrote, fault, -⟩
  · have hlog : (s.postEntry cfg io e).2.txManager = tm := by
      simp only [postEntry, valid, fresh, checked, hrun, updateBalances_eq]
      rfl
    rw [LedgerStore.Commits, hlog]
    exact ⟨_, wrote, _, List.mem_singleton_self _, rfl⟩
  · exact absurd writes.2.2 (fault hpage)

theorem LedgerStore.commits_importEntryDirect (h : s.Commits cfg (s.importEntryDirect cfg io e).2 x) :
    x = s.sealEntry cfg io e := by
  cases h.origin (importEntryDirect_called cfg io s e).effect with
  | imported => rfl

theorem LedgerStore.not_commits_createAccount {a : Account} (h : s.Commits cfg (s.createAccount cfg io a).2 x) :
    False := by
  cases h.origin (createAccount_called cfg io s a).effect

end Amounts

/-! ### INSERT -/

namespace Sql

variable {cfg : Config} {env : Env} {io : Io} {s : LedgerStore} {ins : Insert} {spec : EntrySpec} {e : JournalEntry}

theorem execCreateAccount_cases (cfg : Config) (env : Env) (io : Io) (s : LedgerStore) (spec : AccountSpec) :
    (execCreateAccount cfg env io s spec).2 = s ∨
      ∃ a, (execCreateAccount cfg env io s spec).2 = (s.createAccount cfg io a).2 := by
  unfold execCreateAccount
  rcases parseAccountType env spec.accountType with err | accountType
  · exact .inl rfl
  · refine .inr ⟨Account.new cfg.toUppercase io.newId io.now spec.code spec.name accountType spec.currency spec.domain, ?_⟩
    simp only
    rcases s.createAccount cfg io _ with ⟨err | id, t⟩ <;> rfl

theorem runInsert_cases (cfg : Config) (env : Env) (io : Io) (s : LedgerStore) (ins : Insert) :
    (runInsert cfg env io s ins).2 = s ∨
      (∃ spec e, planInsert env ins = .ok (.postEntry spec) ∧ buildEntry cfg env io s spec = .ok e ∧
        (runInsert cfg env io s ins).2 = (s.postEntry cfg io e).2) ∨
      ∃ a, (runInsert cfg env io s ins).2 = (s.createAccount cfg io a).2 := by
  unfold runInsert
  rcases planned : planInsert env ins with err | ⟨spec | spec⟩
  · exact .inl rfl
  · simp only [execute, execPostEntry]
    rcases built : buildEntry cfg env io s spec with err | e
    · exact .inl rfl
    · refine .inr (.inl ⟨spec, e, rfl, built, ?_⟩)
      simp only
      rcases s.postEntry cfg io e with ⟨err | seq, t⟩ <;> rfl
  · exact (execCreateAccount_cases cfg env io s spec).imp_right .inr

theorem buildEntry_amounts (h : buildEntry cfg env io s spec = .ok e) :
    e.lines ≠ [] ∧ ∀ line ∈ e.lines, line.amount.asI64 = spec.amount := by
  simp only [buildEntry, bind, Except.bind] at h
  split at h
  · cases h
  split at h
  · cases h
  split at h
  · cases h
  rename_i amount hamount
  have hspec : amount.asI64 = spec.amount := by
    simp only [amountOf, Amount.new] at hamount
    split_ifs at hamount
    cases hamount
    rfl
  cases h
  simp [JournalEntryBuilder.build, JournalEntryBuilder.debit, JournalEntryBuilder.credit, JournalEntryBuilder.line,
    JournalEntryBuilder.new, hspec]

end Sql

/-- For every store and request: the lines of the entry that it commits are above zero and within the bound exactly
    when the caller gave positive amounts and, to an import, amounts within the bound. -/
theorem committed_amounts_iff (cfg : Config) (io : Io) (s : LedgerStore) (request : Request) (e : JournalEntry)
    (committed : s.Commits cfg (request.run cfg io s) e) :
    (∀ line ∈ e.lines, InBound cfg s line) ↔ request.AmountsGiven cfg s := by
  cases request with
  | post =>
    obtain ⟨rfl, checked⟩ := commits_postEntry committed
    rw [sealEntry_lines]
    exact inBound_iff_of_checkEntry checked
  | importDirect =>
    obtain rfl := commits_importEntryDirect committed
    rw [sealEntry_lines]
    rfl
  | insert env ins =>
    rcases Sql.runInsert_cases cfg env io s ins with hsame | ⟨spec, x, planned, built, hpost⟩ | ⟨a, hcreate⟩
    · rw [Request.run, hsame] at committed
      exact (committed.not_of_nothing .nothing).elim
    · rw [Request.run, hpost] at committed
      obtain ⟨rfl, checked⟩ := commits_postEntry committed
      obtain ⟨nonempty, amounts⟩ := Sql.buildEntry_amounts built
      rw [sealEntry_lines, inBound_iff_of_checkEntry checked]
      constructor
      · intro positive spec' planned'
        obtain rfl := Sql.LogicalPlan.postEntry.inj (Except.ok.inj (planned.symm.trans planned'))
        obtain ⟨line, hline⟩ := List.exists_mem_of_ne_nil _ nonempty
        rw [← amounts line hline]
        exact positive line hline
      · intro given line hline
        rw [amounts line hline]
        exact given spec planned
    · rw [Request.run, hcreate] at committed
      exact (not_commits_createAccount committed).elim

theorem committed_amounts_iff_sample :
    ∃ s, Run.exec (Machine.step config) (.down (.fresh none)) twoAccounts = some (.up s) ∧
      ∀ line ∈ (s.sealEntry config io (transfer 10 none 5 2 1)).lines, InBound config s line := by
  have positive : ∀ line ∈ (transfer 10 none 5 2 1).lines, 0 < line.amount.asI64.toInt := by decide
  refine ⟨_, rfl, (committed_amounts_iff config io _ (.post (transfer 10 none 5 2 1)) _
    (postEntry_commits ?_ ?_ (by decide))).2 positive⟩ <;> decide +kernel

def committedAmounts (w : Segments WalRecord) : List Int64 :=
  (committedEntries w).flatMap fun e => e.lines.map (·.amount.asI64)

def Sample.sqlEnv : Sql.Env where
  toLowercase := id
  parseUuid text := [1, 2].find? fun id => Uuid.toText id = text
  accountOrder _ := [1, 2]

def Sample.insert (amount : String) : Sql.Insert where
  tableName := "ledger"
  columns := ["amount", "description", "debit_account", "credit_account", "currency"]
  source := some (.values [[.singleQuotedString amount, .singleQuotedString "sample",
    .singleQuotedString (Uuid.toText 2), .singleQuotedString (Uuid.toText 1), .singleQuotedString "USD"]])

/-- The least 64-bit amount, whose absolute value wraps, and zero are posted; twice the bound is imported; and an
    INSERT commits minus five. -/
theorem amounts_out_of_bound : maxMinor 2 = 10 ^ 18 ∧ ((Run.exec (Machine.step config) (.down (.fresh none))
        (twoAccounts ++ [.call io (.postEntry (transfer 10 none Int64.minValue 1 2)),
          .call io (.postEntry { transfer 11 none 1 2 1 with
            lines := [⟨0, 1, "USD", Amount.zero, .debit, none⟩, ⟨0, 2, "USD", Amount.zero, .credit, none⟩] }),
          .call io (.importEntryDirect (transfer 12 none (2 * 10 ^ 18) 2 1))])).map fun x =>
      committedAmounts x.disk.wal) =
      some [Int64.minValue, Int64.minValue, 0, 0, 2 * 10 ^ 18, 2 * 10 ^ 18] ∧
    (((Run.exec (Machine.step config) (.down (.fresh none)) twoAccounts).bind Machine.store?).map fun s =>
      committedAmounts (Sql.runInsert config sqlEnv io s (insert "-5")).2.disk.wal) =
      some [-5, -5] := by
  decide +kernel

end VectorLedger
