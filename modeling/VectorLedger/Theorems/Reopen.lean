import Mathlib.Data.List.TakeWhile
import VectorLedger.Theorems.Consistent

/-! Opening a consistent data directory: which entries the index holds after it, what the counters are, and over
    which entries the balances are summed. -/

namespace VectorLedger

open EntryDb List TxLog LedgerStore

variable {cfg : Config} {m : Bool} {d : Disk}

/-! ### The index -/

theorem Disk.Consistent.unindexed (h : d.Consistent cfg) : ∃ rest, committedEntries d.wal = d.entryDb.entries ++ rest ∧
      (entriesOf d.visible).filter (fun e => d.entryDb.maxSequence < e.sequence) = rest := by
  obtain ⟨rest, hrest⟩ := h.indexed
  obtain ⟨skipped, hskipped⟩ := h.durable.entries_suffix
  have hinc := h.increasing
  have hbelow : d.entryDb.entries.filter (fun e => d.entryDb.maxSequence < e.sequence) = [] := by
    rw [filter_eq_nil_iff]
    intro e he
    have := sequence_le_maxSequence he
    simpa using this
  have habove : ∀ e ∈ rest, d.entryDb.maxSequence < e.sequence := by
    intro e he
    rcases Nat.eq_zero_or_pos d.entryDb.maxSequence with hzero | hpos
    · rw [hzero]
      exact h.positive e (by rw [← hrest]; exact mem_append_right _ he)
    · obtain ⟨last, hlast, hmax, -⟩ := getLast_of_maxSequence_pos hpos
      rw [← hrest] at hinc
      rw [← hmax]
      exact (pairwise_append.1 hinc).2.2 last (mem_of_getLast? hlast) e he
  have hfilter : (committedEntries d.wal).filter (fun e => d.entryDb.maxSequence < e.sequence) = rest := by
    rw [← hrest, filter_append, hbelow, nil_append, filter_eq_self]
    intro e he
    exact decide_eq_true (habove e he)
  -- A skipped entry above the index would be pending, so it would be replayed too.
  have hnone : skipped.filter (fun e => d.entryDb.maxSequence < e.sequence) = [] := by
    rw [filter_eq_nil_iff]
    intro e he habv
    have hlt : d.entryDb.maxSequence < e.sequence := of_decide_eq_true habv
    rcases h.pending e (by rw [← hskipped]; exact mem_append_left _ he) with hdb | hvis
    · have := sequence_le_maxSequence hdb
      omega
    · rw [← hskipped] at hinc
      exact absurd ((pairwise_append.1 hinc).2.2 e he e hvis) (Nat.lt_irrefl _)
  refine ⟨rest, hrest.symm, ?_⟩
  rw [← hfilter, ← hskipped, filter_append, hnone, nil_append]

theorem foldl_indexAll_accounts (es : List JournalEntry) (db : EntryDb) :
    (es.foldl indexAll db).accounts = db.accounts := by
  refine foldl_keeps (·.accounts) indexAll (fun db e => ?_) es db
  have hrefs : (db.indexAll e).accounts = (db.insert e).accounts :=
    foldl_keeps (·.accounts) (fun (db : EntryDb) (line : JournalLine) =>
      db.insertAccountEntry line.accountId e.sequence) (fun _ _ => rfl) e.lines (db.insert e)
  refine hrefs.trans ?_
  unfold EntryDb.insert
  split <;> rfl

theorem Disk.Consistent.opened_complete (h : d.Consistent cfg) : (opened false d).Complete := by
  obtain ⟨rest, hrest, hfilter⟩ := h.unindexed
  unfold Complete
  rw [opened_wal, opened_entryDb, replayed_index h.durable.plain_visible, hfilter, hrest]
  refine entries_foldl_indexAll ?_ ?_ ?_
  · rw [← hrest]
    exact h.increasing
  · rw [← hrest]
    exact h.noClash
  · intro e he
    exact h.positive e (by rw [hrest]; exact mem_append_right _ he)

theorem opened_sqliteAccounts (h : d.Consistent cfg) : (opened m d).entryDb.accounts = d.entryDb.accounts := by
  rw [opened_entryDb]
  cases m with
  | true => rw [(replayed_import h.durable.plain_visible).1]
  | false =>
    rw [replayed_index h.durable.plain_visible]
    exact foldl_indexAll_accounts _ _

theorem Disk.Consistent.opened (h : d.Consistent cfg)
    (indexed : (opened m d).entryDb.entries <+: committedEntries d.wal)
    (kept : ∀ e ∈ d.entryDb.entries, e ∈ (opened m d).entryDb.entries)
    (pending : ∀ e ∈ committedEntries d.wal, e ∈ (opened m d).entryDb.entries ∨ e ∈ entriesOf (opened m d).disk.visible) :
    (opened m d).disk.Consistent cfg := by
  have hwal := opened_wal m d
  refine ⟨opened_durable h.durable, hwal ▸ h.increasing, hwal ▸ h.noClash, hwal ▸ h.positive, hwal ▸ h.linesKnown,
    hwal ▸ h.types, ?_, hwal ▸ indexed, hwal ▸ pending, ?_⟩
  · intro a ha
    have ha' : a ∈ (LedgerStore.opened m d).entryDb.accounts := ha
    rw [opened_sqliteAccounts h] at ha'
    rw [hwal]
    exact h.sqliteTypes a ha'
  · intro hnil
    have hzero : (LedgerStore.opened m d).entryDb.maxSequence = 0 := maxSequence_eq_zero.2 hnil
    have hcp : (LedgerStore.opened m d).walCheckpoint = d.walCheckpoint := by
      rw [opened_walCheckpoint, hzero]
      rfl
    refine hcp.trans (h.unmarked ?_)
    rw [eq_nil_iff_forall_not_mem]
    intro e he
    have hmem := kept e he
    have hnil' : (LedgerStore.opened m d).entryDb.entries = [] := hnil
    rw [hnil'] at hmem
    cases hmem

theorem Disk.Consistent.opened_normal (h : d.Consistent cfg) : (LedgerStore.opened false d).disk.Consistent cfg := by
  have hcomplete : (LedgerStore.opened false d).entryDb.entries = committedEntries d.wal := by
    rw [h.opened_complete, opened_wal]
  refine h.opened ?_ ?_ ?_
  · rw [hcomplete]
  · intro e he
    rw [hcomplete]
    exact h.indexed.mem he
  · intro e he
    left
    rwa [hcomplete]

/-- The entries that are not indexed are committed in the last segment, if anything is indexed. -/
def Disk.PendingInLast (d : Disk) : Prop :=
  d.entryDb.entries = [] ∨ ∀ e ∈ committedEntries d.wal,
    e ∈ d.entryDb.entries ∨ e ∈ entriesOf (TxLog.rows (d.wal.recordsFrom d.wal.lastIndex))

section
variable (h : d.Consistent cfg) {acct : Account}
include h

theorem Disk.Consistent.opened_import (last : d.PendingInLast) : (LedgerStore.opened true d).disk.Consistent cfg := by
  have hdb : (LedgerStore.opened true d).entryDb = d.entryDb := by
    rw [opened_entryDb, (replayed_import h.durable.plain_visible).1]
  have hstart := opened_startSegment (m := true) (d := d)
  rw [hdb] at hstart
  refine h.opened ?_ ?_ ?_
  · rw [hdb]
    exact h.indexed
  · rw [hdb]
    exact fun e he => he
  · intro e he
    rw [hdb]
    by_cases hpos : 0 < d.entryDb.maxSequence
    · rcases last with hnil | hlast
      · rw [maxSequence_eq_zero.2 hnil] at hpos
        exact absurd hpos (Nat.lt_irrefl 0)
      · have hvisible : (LedgerStore.opened true d).disk.visible = TxLog.rows (d.wal.recordsFrom d.wal.lastIndex) := by
          rw [(opened_durable h.durable).visible_eq, hstart, if_pos hpos, opened_wal]
        rw [hvisible]
        exact hlast e he
    · have hvisible : (LedgerStore.opened true d).disk.visible = d.visible := by
        rw [Disk.visible, Disk.visible, hstart, if_neg hpos, opened_wal]
      rw [hvisible]
      exact h.pending e he

/-! ### Counters and accounts -/

theorem Disk.Consistent.below_nextAfter (tip : committedEntries d.wal ≠ [] → entriesOf d.visible ≠ []) :
    ∀ e ∈ committedEntries d.wal, e.sequence < nextAfter 1 (entriesOf d.visible) := by
  intro e he
  obtain ⟨skipped, hskipped⟩ := h.durable.entries_suffix
  obtain ⟨init, last, hlast⟩ : ∃ init last, entriesOf d.visible = init ++ [last] :=
    ⟨_, _, (dropLast_append_getLast (tip (ne_nil_of_mem he))).symm⟩
  have hend : last.sequence < nextAfter 1 (entriesOf d.visible) := lt_nextAfter 1 (by simp [hlast])
  have hinc := h.increasing
  rw [← hskipped, hlast, ← append_assoc] at hinc he
  rcases mem_append.1 he with he | he
  · exact Nat.lt_trans ((pairwise_append.1 hinc).2.2 e he last (by simp)) hend
  · rw [mem_singleton.1 he]
    exact hend

theorem Disk.Consistent.entered_committed
    (entered : acct ∈ loadedAccounts m d ++ accountsOf d.visible) :
    ∃ b ∈ committedAccounts d.wal, b.id = acct.id ∧ b.accountType = acct.accountType := by
  rcases mem_append.1 entered with hloaded | hvisible
  · have hdb : acct ∈ d.entryDb.accounts := by
      unfold loadedAccounts at hloaded
      split at hloaded
      · exact hloaded
      · cases hloaded
    exact h.sqliteTypes acct hdb
  · obtain ⟨skipped, hskipped⟩ := h.durable.visible_suffix
    refine ⟨acct, ?_, rfl, rfl⟩
    rw [committedAccounts, ← hskipped, accountsOf_append]
    exact mem_append_right _ hvisible

theorem Disk.Consistent.opened_accounts_committed {a : AccountId}
    (found : (LedgerStore.opened m d).accounts.lookup a = some acct) :
    acct.id = a ∧ ∃ b ∈ committedAccounts d.wal, b.id = a ∧ b.accountType = acct.accountType := by
  rw [opened_accounts, replayed_accounts h.durable.plain_visible] at found
  obtain ⟨hmem, rfl⟩ := mem_of_lookup_enterAccounts found
  exact ⟨rfl, h.entered_committed hmem⟩

theorem Disk.Consistent.current_normal : (LedgerStore.opened false d).Current := by
  have hwal := opened_wal false d
  have haccounts : ∀ a acct, (LedgerStore.opened false d).accounts.lookup a = some acct →
      acct.id = a ∧ ∃ b ∈ committedAccounts d.wal, b.id = a ∧ b.accountType = acct.accountType :=
    fun a acct found => h.opened_accounts_committed found
  obtain ⟨rest, hrest, hfilter⟩ := h.unindexed
  cases hcur : (replayed false d).sqliteIsCurrent with
  | true =>
    obtain ⟨hnext, -, -⟩ := opened_of_current hcur
    rw [← opened_entryDb] at hnext
    refine ⟨by omega, ?_, by rw [hwal]; exact haccounts⟩
    intro e he
    rw [← h.opened_complete] at he
    have := sequence_le_maxSequence he
    omega
  | false =>
    obtain ⟨hnext, -, -⟩ := opened_of_not_current hcur
    rw [(replayed_counters h.durable.plain_visible).1] at hnext
    refine ⟨by rw [hnext]; exact le_nextAfter 1 _, ?_, by rw [hwal]; exact haccounts⟩
    rw [hwal, hnext]
    refine h.below_nextAfter fun hne hnil => hne ?_
    -- Nothing replayed and an index that is not current: the index is empty, and so is the log.
    rw [replayed_current h.durable.plain_visible, hnil, all_nil, Bool.and_true, decide_eq_false_iff_not,
      Nat.not_lt, Nat.le_zero, maxSequence_eq_zero] at hcur
    rw [hnil, filter_nil] at hfilter
    rw [hrest, hcur, ← hfilter]
    rfl

theorem Disk.Consistent.current_import (tip : d.TipVisible) : (LedgerStore.opened true d).Current := by
  have hwal := opened_wal true d
  obtain ⟨hnext, -, -⟩ := opened_of_not_current (replayed_import h.durable.plain_visible).2
  rw [(replayed_counters h.durable.plain_visible).1] at hnext
  refine ⟨by rw [hnext]; exact le_nextAfter 1 _, ?_, ?_⟩
  · rw [hwal, hnext]
    refine h.below_nextAfter fun hne hnil => ?_
    have hmem := tip _ (getLast?_eq_some_getLast hne)
    rw [hnil] at hmem
    cases hmem
  · rw [hwal]
    exact fun a acct found => h.opened_accounts_committed found

end

/-! ### Balances -/

def Disk.skippedRows (d : Disk) : List DataPayload :=
  (journal d.wal).take ((journal d.wal).length - d.visible.length)

theorem Disk.Durable.skippedRows_append (h : d.Durable cfg) : d.skippedRows ++ d.visible = journal d.wal := by
  obtain ⟨skipped, hskipped⟩ := h.visible_suffix
  rw [Disk.skippedRows, ← hskipped, length_append, Nat.add_sub_cancel, take_left]

theorem Disk.Durable.skippedRows_zero (h : d.Durable cfg) (hstart : d.startSegment = 0) : d.skippedRows = [] := by
  have happ := h.skippedRows_append
  have hall : d.visible = journal d.wal := by
    rw [h.visible_eq, hstart, Segments.recordsFrom_zero, journal]
  rw [hall] at happ
  exact append_left_eq_self.1 happ

/-- The accounts of the segments that an open skips are in SQLite. -/
def Disk.AccountsKnown (d : Disk) : Prop :=
  ∀ a ∈ accountsOf d.skippedRows, ∃ b ∈ d.entryDb.accounts, b.id = a.id

instance (d : Disk) : Decidable d.AccountsKnown := by
  unfold Disk.AccountsKnown
  infer_instance

theorem Disk.Durable.loaded (h : d.Durable cfg) (known : d.AccountsKnown) :
    ∀ a ∈ accountsOf d.skippedRows, ∃ b ∈ loadedAccounts false d, b.id = a.id := by
  intro a ha
  rcases Nat.eq_zero_or_pos d.startSegment with hzero | hpos
  · rw [h.skippedRows_zero hzero] at ha
    cases ha
  · have hloaded : loadedAccounts false d = d.entryDb.accounts := by simp [loadedAccounts, hpos]
    rw [hloaded]
    exact known a ha

theorem Disk.Consistent.linesKnown_visible (h : d.Consistent cfg) (known : d.AccountsKnown) :
    LinesKnown (loadedAccounts false d) d.visible := by
  have hlines := h.linesKnown
  rw [← h.durable.skippedRows_append] at hlines
  refine hlines.of_suffix.mono ?_
  rw [nil_append]
  exact h.durable.loaded known

theorem Disk.Consistent.opened_knows (h : d.Consistent cfg) (known : d.AccountsKnown)
    (hacct : acct ∈ committedAccounts d.wal) :
    ∃ acct', (LedgerStore.opened false d).accounts.lookup acct.id = some acct' ∧ acct'.accountType = acct.accountType := by
  cases found : (LedgerStore.opened false d).accounts.lookup acct.id with
  | some acct' =>
    obtain ⟨-, b, hb, hbid, hbtype⟩ := h.opened_accounts_committed found
    exact ⟨acct', rfl, hbtype.symm.trans (h.types b hb acct hacct hbid)⟩
  | none =>
    rw [opened_accounts, replayed_accounts h.durable.plain_visible] at found
    have habsent := lookup_enterAccounts_eq_none found
    rw [committedAccounts, ← h.durable.skippedRows_append, accountsOf_append, mem_append] at hacct
    rcases hacct with hskipped | hvisible
    · obtain ⟨b, hb, hbid⟩ := h.durable.loaded known acct hskipped
      exact absurd hbid (habsent b (mem_append_left _ hb))
    · exact absurd rfl (habsent acct (mem_append_right _ hvisible))

/-- The entries over which a normal open sums the balances: all indexed ones when the index is current to the
    end, and otherwise those that the replay counted on the way. -/
def Disk.recounted (d : Disk) : List JournalEntry :=
  if (replayed false d).sqliteIsCurrent then committedEntries d.wal
  else counted d.entryDb.maxSequence (0 < d.entryDb.maxSequence) (entriesOf d.visible)

section
variable (h : d.Consistent cfg) (known : d.AccountsKnown) {acct : Account} (hacct : acct ∈ committedAccounts d.wal)
include h known hacct

theorem Disk.Consistent.replayed_balance : (replayed false d).store.balanceCache.get acct.id =
      signedSum acct.accountType.isDebitNormal acct.id
        (counted d.entryDb.maxSequence (0 < d.entryDb.maxSequence) (entriesOf d.visible)) := by
  obtain ⟨holds, hstart⟩ := replayStart_eq false d
  have htypes : ∀ b ∈ loadedAccounts false d ++ accountsOf d.visible, b.id = acct.id →
      b.accountType.isDebitNormal = acct.accountType.isDebitNormal := by
    intro b hb hid
    obtain ⟨c, hc, hcid, hctype⟩ := h.entered_committed hb
    rw [← hctype, h.types c hc acct hacct (hcid.trans hid)]
  have hbalance := foldl_replayRow_balance (k := d.entryDb.maxSequence) (r := replayStart false d)
    h.durable.plain_visible (by rw [hstart]) (h.linesKnown_visible known) htypes
  have hzero : (replayStart false d).store.balanceCache.get acct.id = 0 := by
    rw [hstart]
    exact Tally.get_empty
  rw [hzero, zero_add] at hbalance
  exact hbalance

theorem Disk.Consistent.opened_balance :
    (LedgerStore.opened false d).balance acct.id = signedSum acct.accountType.isDebitNormal acct.id d.recounted := by
  have hreplayed := h.replayed_balance known hacct
  unfold LedgerStore.balance Disk.recounted
  cases hcur : (replayed false d).sqliteIsCurrent with
  | false =>
    obtain ⟨-, -, hcache⟩ := opened_of_not_current hcur
    rw [hcache, hreplayed]
    rfl
  | true =>
    obtain ⟨-, -, hcache⟩ := opened_of_current hcur
    obtain ⟨acct', found, htype⟩ := h.opened_knows known hacct
    rw [replayed_current h.durable.plain_visible, Bool.and_eq_true, all_eq_true] at hcur
    -- No replayed entry is above the index, so the replay has counted none and the rebuild counts all.
    have hnone : counted d.entryDb.maxSequence (0 < d.entryDb.maxSequence) (entriesOf d.visible) = [] := by
      rw [counted, if_pos hcur.1, dropWhile_eq_nil_iff]
      exact hcur.2
    have hlines : ∀ e ∈ (LedgerStore.opened false d).entryDb.entries, ∀ l ∈ e.lines,
        ∃ acct, (LedgerStore.opened false d).accounts.lookup l.accountId = some acct := by
      intro e he l hl
      rw [h.opened_complete, opened_wal] at he
      obtain ⟨b, hb, hid⟩ := h.linesKnown.mem he hl
      obtain ⟨b', hb', -⟩ := h.opened_knows known hb
      exact ⟨b', hid ▸ hb'⟩
    have hrebuilt := get_rebuildBalanceCache found hlines (replayed false d).store.balanceCache
    rw [hreplayed, hnone, signedSum_nil, zero_add, htype, h.opened_complete, opened_wal] at hrebuilt
    rw [hcache, ← opened_entryDb, ← opened_accounts, hrebuilt]
    rfl

end

theorem Disk.Consistent.opened_balance_unknown (h : d.Consistent cfg) (known : d.AccountsKnown) {a : AccountId}
    (absent : ∀ b ∈ committedAccounts d.wal, b.id ≠ a) : (LedgerStore.opened false d).balance a = 0 := by
  obtain ⟨holds, hstart⟩ := replayStart_eq false d
  have hentered : ∀ b ∈ loadedAccounts false d ++ accountsOf d.visible, b.id ≠ a := by
    intro b hb hid
    obtain ⟨c, hc, hcid, -⟩ := h.entered_committed hb
    exact absent c hc (hcid.trans hid)
  have hbalance : (replayed false d).store.balanceCache.get a =
      (replayStart false d).store.balanceCache.get a + signedSum true a
        (counted d.entryDb.maxSequence (replayStart false d).sqliteIsCurrent (entriesOf d.visible)) :=
    foldl_replayRow_balance h.durable.plain_visible (by rw [hstart]) (h.linesKnown_visible known)
      fun b hb hid => absurd hid (hentered b hb)
  have hzero : (replayStart false d).store.balanceCache.get a = 0 := by
    rw [hstart]
    exact Tally.get_empty
  -- No committed entry has a line on the account, so the sum is empty.
  rw [hzero, zero_add, signedSum_eq_zero] at hbalance
  · unfold LedgerStore.balance
    cases hcur : (replayed false d).sqliteIsCurrent with
    | false => rw [(opened_of_not_current hcur).2.2, hbalance]
    | true =>
      have hunknown : (replayed false d).store.accounts.lookup a = none := by
        cases found : (replayed false d).store.accounts.lookup a with
        | none => rfl
        | some =>
          rw [← opened_accounts] at found
          obtain ⟨-, b, hb, hid, -⟩ := h.opened_accounts_committed found
          exact absurd hid (absent b hb)
      rw [(opened_of_current hcur).2.2, get_rebuildBalanceCache_unknown hunknown, hbalance]
  · intro e he l hl heq
    have hvisible : e ∈ entriesOf d.visible := by
      unfold counted at he
      split at he
      · exact (dropWhile_suffix _).mem he
      · exact he
    obtain ⟨b, hb, hid⟩ := h.linesKnown.mem (h.durable.entries_suffix.mem hvisible) hl
    exact absent b hb (hid.trans heq)

/-! ### Which entries are counted -/

theorem Disk.Consistent.visible_all (h : d.Consistent cfg) (empty : d.entryDb.entries = []) :
    entriesOf d.visible = committedEntries d.wal := by
  have hstart : d.startSegment = 0 := by
    rw [Disk.startSegment, h.unmarked empty]
  rw [h.durable.visible_eq, hstart, Segments.recordsFrom_zero]
  rfl

theorem dropWhile_eq_filter {k : Nat} {es : List JournalEntry}
    (increasing : es.Pairwise fun a b => a.sequence < b.sequence) :
    (es.dropWhile fun e => e.sequence ≤ k) = es.filter fun e => k < e.sequence := by
  induction es with
  | nil => rfl
  | cons e es ih =>
    rw [pairwise_cons] at increasing
    by_cases hle : e.sequence ≤ k
    · rw [dropWhile_cons_of_pos (by simpa using hle), filter_cons_of_neg (by simpa using hle), ih increasing.2]
    · have hall : ∀ x ∈ e :: es, decide (k < x.sequence) = true := by
        intro x hx
        rw [decide_eq_true_eq]
        rcases mem_cons.1 hx with rfl | hx
        · exact Nat.lt_of_not_le hle
        · exact Nat.lt_trans (Nat.lt_of_not_le hle) (increasing.1 x hx)
      rw [dropWhile_cons_of_neg (by simpa using hle), filter_eq_self.2 hall]

/-- An open counts all committed entries, unless the index is behind and not empty: then it counts only those
    that are not indexed. -/
theorem Disk.Consistent.recounted_cases (h : d.Consistent cfg) : (d.recounted = committedEntries d.wal ∧
        (d.entryDb.entries = [] ∨ d.entryDb.entries = committedEntries d.wal)) ∨
      (d.entryDb.entries ≠ committedEntries d.wal ∧ committedEntries d.wal = d.entryDb.entries ++ d.recounted) := by
  obtain ⟨rest, hrest, hfilter⟩ := h.unindexed
  unfold Disk.recounted
  cases hcur : (replayed false d).sqliteIsCurrent with
  | true =>
    left
    refine ⟨rfl, .inr ?_⟩
    rw [replayed_current h.durable.plain_visible, Bool.and_eq_true, all_eq_true] at hcur
    have hnone : rest = [] := by
      rw [← hfilter, filter_eq_nil_iff]
      intro e he
      simpa using hcur.2 e he
    rw [hrest, hnone, append_nil]
  | false =>
    rw [if_neg Bool.false_ne_true]
    rcases Nat.eq_zero_or_pos d.entryDb.maxSequence with hzero | hpos
    · left
      have hempty := maxSequence_eq_zero.1 hzero
      refine ⟨?_, .inl hempty⟩
      rw [hzero]
      exact h.visible_all hempty
    · right
      obtain ⟨skipped, hskipped⟩ := h.durable.entries_suffix
      have hinc : (entriesOf d.visible).Pairwise fun a b => a.sequence < b.sequence := by
        have hall := h.increasing
        rw [← hskipped] at hall
        exact (pairwise_append.1 hall).2.1
      have hcounted : counted d.entryDb.maxSequence (0 < d.entryDb.maxSequence) (entriesOf d.visible) = rest := by
        rw [counted, if_pos (decide_eq_true hpos), dropWhile_eq_filter hinc, hfilter]
      refine ⟨?_, by rw [hcounted]; exact hrest⟩
      -- A replayed entry is above the index, so the index is behind.
      rw [replayed_current h.durable.plain_visible, decide_eq_true hpos, Bool.true_and, all_eq_false] at hcur
      obtain ⟨e, he, habove⟩ := hcur
      intro hsame
      have hmem : e ∈ d.entryDb.entries := hsame ▸ h.durable.entries_suffix.mem he
      have hle := sequence_le_maxSequence hmem
      simp [hle] at habove

/-! ### Runs -/

/-- The condition on a step, for the index to stay behind the log by entries that the next open replays. -/
def LedgerStep : Machine → Event → Prop
  | .up s, .call _ op | .up s, .crash _ op =>
    s.txManager.Appendable ∧ FreshId s op ∧ IndexReady s op ∧ KeyIndexed s op
  | .down d, .openForImport => d.TipVisible ∧ d.PendingInLast
  | _, _ => True

/-- The disk is consistent, and an open store is as it says. -/
structure Machine.Consistent (cfg : Config) (x : Machine) : Prop where
  disk : x.disk.Consistent cfg
  current : ∀ s, x = .up s → s.Current

/-- Such a step keeps the machine consistent. -/
theorem Machine.Consistent.step {x y : Machine} {ev : Event} (h : x.Consistent cfg) (ok : LedgerStep x ev)
    (hstep : Machine.step cfg x ev = some y) : y.Consistent cfg := by
  cases Machine.step_cases hstep with
  | refused => exact h
  | opened => exact ⟨h.disk.opened_normal, Machine.forall_up h.disk.current_normal⟩
  | importing => exact ⟨h.disk.opened_import ok.2, Machine.forall_up (h.disk.current_import ok.1)⟩
  | called effect =>
    obtain ⟨appendable, fresh, ready, keys⟩ := ok
    have current := h.current _ rfl
    exact ⟨h.disk.effect current effect appendable fresh ready keys,
      Machine.forall_up (current.effect effect appendable.noLeftover)⟩
  | closed => exact ⟨h.disk, fun _ hs => nomatch hs⟩
  | crashed effect =>
    obtain ⟨appendable, fresh, ready, keys⟩ := ok
    exact ⟨h.disk.effect (h.current _ rfl) effect appendable fresh ready keys, fun _ hs => nomatch hs⟩

theorem Machine.Consistent.fresh (cfg : Config) (key : Option SigningKey) : (Machine.down (.fresh key)).Consistent cfg :=
  ⟨.fresh cfg key, fun _ hs => nomatch hs⟩

end VectorLedger
