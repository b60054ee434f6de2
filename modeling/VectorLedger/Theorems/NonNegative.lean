import VectorLedger.Theorems.Session

/-! Accounts that must not go negative. A post looks at the balance of such an account; a reversal does not. -/

namespace VectorLedger

open Sample LedgerStore

/-! ### Checks of a post -/

namespace LedgerStore

variable {s : LedgerStore} {a : AccountId} {acct : Account}

theorem get_netDebitDelta (lines : List JournalLine) (a : AccountId) :
    (netDebitDelta lines).get a = JournalEntry.lineSum true a lines := by
  rw [netDebitDelta, Tally.get_addAll, Tally.get_empty, zero_add]
  induction lines with
  | nil => rfl
  | cons line lines ih => rw [List.map_cons, Tally.total_cons, ih, JournalEntry.lineSum_cons]

/-- The balance of the account must not go below zero. -/
def Protected (s : LedgerStore) (a : AccountId) : Prop :=
  ∃ acct ∈ s.accounts.lookup a, acct.requireNonNegativeBalance = true ∧ acct.accountType.isDebitNormal = true

theorem checkAccount_ok {lines : List JournalLine} (h : s.checkAccount lines a = .ok ()) (hp : s.Protected a) :
    0 ≤ JournalEntry.lineSum true a lines ∨ 0 ≤ s.balance a + JournalEntry.lineSum true a lines := by
  obtain ⟨acct, found, hflag, hnormal⟩ := hp
  rw [Option.mem_def] at found
  unfold checkAccount at h
  simp only [found] at h
  rcases hexposure : checkExposure acct a lines with err | ⟨⟩
  · simp [hexposure] at h
  · simp only [hexposure, checkNonNegative, hflag, hnormal, get_netDebitDelta, Bool.true_and, decide_eq_true_eq] at h
    split_ifs at h with hneg hshort
    · exact .inr (Int.not_lt.1 hshort)
    · exact .inl (Int.not_lt.1 hneg)

end LedgerStore

/-! ### Tracked runs -/

/-- An open store, and the accounts whose balance was zero when they were created. -/
structure Tracked where
  store : LedgerStore
  startedAtZero : Finset AccountId

namespace Tracked

def start (key : Option SigningKey) : Tracked := ⟨.initial (.fresh key), ∅⟩

def call (cfg : Config) (io : Io) (t : Tracked) (op : Op) : Tracked where
  store := (t.store.call cfg io op).2
  startedAtZero :=
    match op, (t.store.call cfg io op).1 with
    | .createAccount a, .ok () =>
      if t.store.balance a.id = 0 then insert a.id t.startedAtZero else t.startedAtZero.erase a.id
    | _, _ => t.startedAtZero

def step (cfg : Config) (t : Tracked) (c : Io × Op) : Option Tracked := some (t.call cfg c.1 c.2)

/-- The condition on a call: a reversal that passes its checks takes from no protected account more than its
    balance. -/
def Covered (t : Tracked) (c : Io × Op) : Prop :=
  match c.2 with
  | .createAccount _ | .closeAccount _ | .postEntry _ => True
  | .reverseEntry entryId _ _ =>
    match t.store.checkReversal entryId with
    | .ok original => ∀ l ∈ original.lines, l.accountId ∈ t.startedAtZero → t.store.Protected l.accountId →
        JournalEntry.lineSum true l.accountId original.lines ≤ t.store.balance l.accountId
    | .error _ => True
  | _ => False

/-- The protected accounts that began at zero are not below it. -/
def NonNegative (t : Tracked) : Prop :=
  ∀ a ∈ t.startedAtZero, t.store.Protected a → 0 ≤ t.store.balance a

variable {cfg : Config} {io : Io} {t : Tracked} {op : Op} {s' : LedgerStore}

/-! ### Calls -/

theorem createAccount_cases (cfg : Config) (io : Io) (s : LedgerStore) (a : Account) :
    (∃ s', s.createAccount cfg io a = (.ok a.id, s') ∧ s'.accounts = s.accounts.insert a.id a ∧
        s'.balanceCache = s.balanceCache) ∨
      ∃ err s', s.createAccount cfg io a = (.error err, s') ∧ s'.accounts = s.accounts ∧
        s'.balanceCache = s.balanceCache := by
  unfold createAccount
  rcases persistRow_effect cfg io s (.account a) .insert none with
    ⟨tm, c₁, c₂, page, slot, hrun, -⟩ | ⟨err, tm, c₁, c₂, hrun, -⟩
  · left
    rw [hrun]
    refine ⟨_, rfl, ?_, ?_⟩ <;> cases io.sqliteAccount <;> rfl
  · right
    rw [hrun]
    exact ⟨err, _, rfl, rfl, rfl⟩

theorem NonNegative.create (h : t.NonNegative) (a : Account) : (t.call cfg io (.createAccount a)).NonNegative := by
  intro b hb hp
  rcases createAccount_cases cfg io t.store a with ⟨s', hrun, haccts, hcache⟩ | ⟨err, s', hrun, haccts, hcache⟩
  · simp only [call, LedgerStore.call, hrun, Prod.map, Except.map, id] at hb hp ⊢
    unfold LedgerStore.Protected at hp
    unfold LedgerStore.balance
    rw [hcache]
    rw [haccts] at hp
    by_cases hba : b = a.id
    · -- The new account itself is tracked only when its balance was zero.
      subst hba
      split_ifs at hb with hzero
      · exact Int.le_of_eq hzero.symm
      · exact absurd rfl (Finset.ne_of_mem_erase hb)
    · rw [Finmap.lookup_insert_of_ne _ hba] at hp
      refine h b ?_ hp
      split_ifs at hb
      · exact (Finset.mem_insert.1 hb).resolve_left hba
      · exact Finset.mem_of_mem_erase hb
  · simp only [call, LedgerStore.call, hrun, Prod.map, id] at hb hp ⊢
    unfold LedgerStore.Protected at hp
    unfold LedgerStore.balance
    rw [haccts] at hp
    rw [hcache]
    exact h b hb hp

theorem NonNegative.keep (h : t.NonNegative) (hcache : s'.balanceCache = t.store.balanceCache)
    (hprot : ∀ a, s'.Protected a → t.store.Protected a) : NonNegative ⟨s', t.startedAtZero⟩ := by
  intro a ha hp
  have hle := h a ha (hprot a hp)
  unfold balance at *
  rw [hcache]
  exact hle

theorem protected_of_closed {s s' : LedgerStore} {id : AccountId} {acct : Account}
    (found : s.accounts.lookup id = some acct)
    (haccts : s'.accounts = s.accounts.insert id { acct with status := .closed }) {a : AccountId}
    (hp : s'.Protected a) : s.Protected a := by
  unfold LedgerStore.Protected at *
  rw [haccts] at hp
  by_cases ha : a = id
  · subst ha
    rw [Finmap.lookup_insert] at hp
    obtain ⟨acct', hacct', hflags⟩ := hp
    cases hacct'
    exact ⟨acct, found, hflags⟩
  · rwa [Finmap.lookup_insert_of_ne _ ha] at hp

theorem NonNegative.entry {e : JournalEntry} (h : t.NonNegative)
    (haccts : s'.accounts = t.store.accounts)
    (hcache : s'.balanceCache = t.store.balanceCache.addAll (entryDeltas t.store.accounts e))
    (covers : ∀ a ∈ t.startedAtZero, t.store.Protected a →
      0 ≤ JournalEntry.lineSum true a e.lines ∨ 0 ≤ t.store.balance a + JournalEntry.lineSum true a e.lines) :
    NonNegative ⟨s', t.startedAtZero⟩ := by
  intro a ha hp
  have hp' : t.store.Protected a := by
    unfold LedgerStore.Protected at *
    rwa [haccts] at hp
  have hle := h a ha hp'
  have hcover := covers a ha hp'
  obtain ⟨acct, found, -, hnormal⟩ := hp'
  unfold balance at *
  rw [hcache, Tally.get_addAll, total_entryDeltas found, hnormal, JournalEntry.balanceDelta]
  split
  · rcases hcover with hcover | hcover <;> omega
  · rwa [add_zero]

theorem NonNegative.effect (h : t.NonNegative) (covered : t.Covered (io, op))
    (ne : ∀ a, op ≠ .createAccount a) (effect : Effect cfg io t.store op s') : NonNegative ⟨s', t.startedAtZero⟩ := by
  cases effect with
  | rejected => exact h
  | failed =>
    refine h.keep (Op.begun_balanceCache _ _) fun a hp => ?_
    cases op with
    | closeAccount id =>
      simp only [Op.begun] at hp
      split at hp
      · next acct found => exact protected_of_closed found rfl hp
      · exact hp
    | setLegalHold => exact covered.elim
    | _ => exact hp
  | created => exact absurd rfl (ne _)
  | closed c₁ c₂ found => exact h.keep rfl fun a hp => protected_of_closed found rfl hp
  | @posted e _ c₁ c₂ _ _ valid fresh checked =>
    refine h.entry rfl rfl fun a ha hp => ?_
    rw [sealEntry_lines]
    by_cases hline : ∃ l ∈ e.lines, l.accountId = a
    · obtain ⟨l, hl, rfl⟩ := hline
      exact checkAccount_ok ((checkEntry_ok checked).2 l hl) hp
    · left
      rw [JournalEntry.lineSum_eq_zero fun l hl heq => hline ⟨l, hl, heq⟩]
  | @reversed _ _ _ original _ c₁ c₂ _ _ _ _ checked =>
    refine h.entry rfl rfl fun a ha hp => ?_
    simp only [Covered, checked] at covered
    rw [sealReversal_lines, lineSum_reversal]
    by_cases hline : ∃ l ∈ original.lines, l.accountId = a
    · obtain ⟨l, hl, rfl⟩ := hline
      have hle := covered l hl ha hp
      right
      omega
    · left
      rw [JournalEntry.lineSum_eq_zero fun l hl heq => hline ⟨l, hl, heq⟩]
      exact Int.le_refl _
  | held | imported | settled | reconciled => exact covered.elim

/-- A step leaves no protected account below zero. -/
theorem NonNegative.step {t' : Tracked} {c : Io × Op} (h : t.NonNegative) (covered : t.Covered c)
    (hstep : step cfg t c = some t') : t'.NonNegative := by
  obtain ⟨io, op⟩ := c
  cases hstep
  cases op with
  | createAccount a => exact h.create a
  | closeAccount | postEntry | reverseEntry =>
    show NonNegative ⟨(t.store.call cfg io _).2, t.startedAtZero⟩
    exact h.effect covered (by simp) (call_effect cfg io t.store _)
  | _ => exact covered.elim

/-- In every run of such calls, an asset or expense account that must not go negative and started at zero has
    not gone negative. -/
theorem protected_balance_nonneg (cfg : Config) (key : Option SigningKey) (t : Tracked)
    (run : Run.Reachable (step cfg) Covered (start key) t) (a : AccountId) (acct : Account)
    (found : t.store.accounts.lookup a = some acct) (required : acct.requireNonNegativeBalance = true)
    (type : acct.accountType = .asset ∨ acct.accountType = .expense) (started : a ∈ t.startedAtZero) :
    0 ≤ t.store.balance a := by
  have inv : t.NonNegative :=
    run.invariant (fun _ ha => nomatch ha) fun _ _ _ h covered hstep => h.step covered hstep
  refine inv a started ⟨acct, found, required, ?_⟩
  rcases type with htype | htype <;> rw [htype] <;> rfl

instance (s : LedgerStore) (a : AccountId) : Decidable (s.Protected a) := by
  unfold LedgerStore.Protected
  infer_instance

instance (t : Tracked) (c : Io × Op) : Decidable (t.Covered c) := by
  unfold Covered
  split
  all_goals first
    | infer_instance
    | (split <;> infer_instance)

end Tracked

/-- An asset account, an income account and an expense account, and an income of 5. -/
def Sample.income : List (Io × Op) :=
  [(io, .createAccount (account 1 .asset)), (io, .createAccount (account 2 .income)),
    (io, .createAccount (account 3 .expense)), (io, .postEntry (transfer 10 none 5 2 1))]

/-- The income is reversed before anything is spent. -/
theorem Tracked.protected_balance_nonneg_reversed : ∃ t acct, Run.exec (step config) (start none)
        (income ++ [(io, .reverseEntry 10 "undo" "test")]) = some t ∧
      t.store.accounts.lookup 1 = some acct ∧ 0 ≤ t.store.balance 1 := by
  have ht : Run.exec (step config) (start none) (income ++ [(io, .reverseEntry 10 "undo" "test")]) = some _ := rfl
  exact ⟨_, _, ht, rfl, protected_balance_nonneg _ _ _ (Run.reachable_of_exec (by decide +kernel) ht) 1 _
    rfl rfl (.inl rfl) (by decide +kernel)⟩

/-- The income is spent and then reversed: the asset account started at zero and has -5. -/
theorem Tracked.reversal_overdraws : (Run.exec (step config) (start none)
        (income ++ [(io, .postEntry (transfer 11 none 5 1 3)), (io, .reverseEntry 10 "undo" "test")])).map
      (fun t => (decide (1 ∈ t.startedAtZero), t.store.accounts.lookup 1, t.store.balance 1)) =
        some (true, some (account 1 .asset), -5) := by
  decide +kernel

end VectorLedger
