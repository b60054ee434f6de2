import VectorLedger.Theorems.Durable
import VectorLedger.Theorems.Sums

/-! The replay of a log, part by part: the accounts, the counters, the index and the balances after it, each
    from the rows that are replayed. -/

namespace VectorLedger

open List

def EntryDb.indexAll (db : EntryDb) (e : JournalEntry) : EntryDb :=
  e.lines.foldl (fun db line => db.insertAccountEntry line.accountId e.sequence) (db.insert e)

def enterAccounts (accounts : Accounts) (as : List Account) : Accounts :=
  Assign.assign accounts (as.map fun a => (a.id, a))

namespace LedgerStore

variable {m : Bool} {k : Nat} {r : Replay} {e : JournalEntry} {p : DataPayload} {ps : List DataPayload} {d : Disk}

/-! ### One row -/

theorem replayEntry_normal : replayEntry false k r e = ⟨{ r.store.advance e with
        balanceCache := if r.sqliteIsCurrent && e.sequence ≤ k then r.store.balanceCache
          else r.store.balanceCache.addAll (entryDeltas r.store.accounts e)
        entryDb := if e.sequence ≤ k then r.store.entryDb else r.store.entryDb.indexAll e },
      r.sqliteIsCurrent && e.sequence ≤ k⟩ := by
  unfold replayEntry
  simp only [updateBalances_eq]
  rcases r with ⟨s, current⟩
  by_cases hle : e.sequence ≤ k
  · cases current <;> simp [hle, advance, Nat.not_lt.2 hle]
  · cases current <;> simp [hle, advance, Nat.lt_of_not_le hle, replayIndex, EntryDb.indexAll]

theorem replayRow_cases (m : Bool) (k : Nat) (r : Replay) (plain : p.Plain) :
    (∃ e, entriesOf [p] = [e] ∧ accountsOf [p] = [] ∧ replayRow m k r p = replayEntry m k r e) ∨
      (∃ a, entriesOf [p] = [] ∧ accountsOf [p] = [a] ∧ replayRow m k r p = { r with store := r.store.applyAccount a }) ∨
      (entriesOf [p] = [] ∧ accountsOf [p] = [] ∧ ∃ reversals settlements history,
        replayRow m k r p = { r with store := { r.store with
          reversalEventIndex := reversals
          settlementEventIndex := settlements
          reconciliationHistory := history } }) := by
  rcases p with ⟨page, slot, mutation, row, hash, prev⟩
  cases mutation with
  | delete =>
    obtain ⟨a, ha⟩ := plain rfl
    simp only at ha
    subst ha
    exact .inr (.inl ⟨a, rfl, rfl, rfl⟩)
  | _ =>
    cases row with
    | account a => exact .inr (.inl ⟨a, rfl, rfl, rfl⟩)
    | entry e => exact .inl ⟨e, rfl, rfl, rfl⟩
    | _ => exact .inr (.inr ⟨rfl, rfl, _, _, _, rfl⟩)

/-! ### Accounts -/

theorem replayEntry_accounts : (replayEntry m k r e).store.accounts = r.store.accounts := by
  cases m with
  | true => rfl
  | false => rw [replayEntry_normal]; rfl

theorem foldl_replayRow_accounts (plain : ∀ p ∈ ps, p.Plain) :
    (ps.foldl (replayRow m k) r).store.accounts = enterAccounts r.store.accounts (accountsOf ps) := by
  induction ps generalizing r with
  | nil => rfl
  | cons p ps ih =>
    rw [forall_mem_cons] at plain
    rw [foldl_cons, ih plain.2, accountsOf_cons]
    rcases replayRow_cases m k r plain.1 with ⟨e, -, hacct, hrow⟩ | ⟨a, -, hacct, hrow⟩ | ⟨-, hacct, _, _, _, hrow⟩
    · rw [hrow, hacct, replayEntry_accounts]
      rfl
    · rw [hrow, hacct]
      rfl
    · rw [hrow, hacct]
      rfl

/-! ### Counters -/

def nextAfter (n : Nat) (es : List JournalEntry) : Nat :=
  es.foldl (fun n e => if e.sequence ≥ n then e.sequence + 1 else n) n

def tipAfter (h : Hash) (es : List JournalEntry) : Hash := es.foldl (fun _ e => e.chainHash) h

theorem nextAfter_append (n : Nat) (es es' : List JournalEntry) :
    nextAfter n (es ++ es') = nextAfter (nextAfter n es) es' := foldl_append

theorem tipAfter_append (h : Hash) (es es' : List JournalEntry) :
    tipAfter h (es ++ es') = tipAfter (tipAfter h es) es' := foldl_append

theorem nextAfter_le {n b : Nat} {es : List JournalEntry} (hn : n ≤ b) (hes : ∀ e ∈ es, e.sequence < b) :
    nextAfter n es ≤ b := by
  induction es generalizing n with
  | nil => exact hn
  | cons e es ih =>
    rw [forall_mem_cons] at hes
    have hstep : (if e.sequence ≥ n then e.sequence + 1 else n) ≤ b := by
      have := hes.1
      split <;> omega
    exact ih hstep hes.2

theorem le_nextAfter (n : Nat) (es : List JournalEntry) : n ≤ nextAfter n es := by
  induction es generalizing n with
  | nil => exact Nat.le_refl _
  | cons e es ih =>
    have hstep : n ≤ if e.sequence ≥ n then e.sequence + 1 else n := by split <;> omega
    exact Nat.le_trans hstep (ih _)

theorem lt_nextAfter (n : Nat) {e : JournalEntry} {es : List JournalEntry} (he : e ∈ es) : e.sequence < nextAfter n es := by
  induction es generalizing n with
  | nil => cases he
  | cons x es ih =>
    rcases mem_cons.1 he with rfl | he
    · have hstep : e.sequence < if e.sequence ≥ n then e.sequence + 1 else n := by split <;> omega
      exact Nat.lt_of_lt_of_le hstep (le_nextAfter _ es)
    · exact ih _ he

theorem replayEntry_counters : (replayEntry m k r e).store.nextSequence = nextAfter r.store.nextSequence [e] ∧
      (replayEntry m k r e).store.lastChainHash = e.chainHash := by
  cases m with
  | true => exact ⟨rfl, rfl⟩
  | false => rw [replayEntry_normal]; exact ⟨rfl, rfl⟩

theorem foldl_replayRow_counters (plain : ∀ p ∈ ps, p.Plain) :
    (ps.foldl (replayRow m k) r).store.nextSequence = nextAfter r.store.nextSequence (entriesOf ps) ∧
      (ps.foldl (replayRow m k) r).store.lastChainHash = tipAfter r.store.lastChainHash (entriesOf ps) := by
  induction ps generalizing r with
  | nil => exact ⟨rfl, rfl⟩
  | cons p ps ih =>
    rw [forall_mem_cons] at plain
    rw [foldl_cons, (ih plain.2).1, (ih plain.2).2, entriesOf_cons, nextAfter_append, tipAfter_append]
    rcases replayRow_cases m k r plain.1 with ⟨e, hent, -, hrow⟩ | ⟨a, hent, -, hrow⟩ | ⟨hent, -, _, _, _, hrow⟩
    · rw [hrow, hent, replayEntry_counters.1, replayEntry_counters.2]
      exact ⟨rfl, rfl⟩
    · rw [hrow, hent]
      exact ⟨rfl, rfl⟩
    · rw [hrow, hent]
      exact ⟨rfl, rfl⟩

/-! ### The index and the flag -/

theorem foldl_replayRow_import (plain : ∀ p ∈ ps, p.Plain) :
    (ps.foldl (replayRow true k) r).store.entryDb = r.store.entryDb ∧
      (ps.foldl (replayRow true k) r).sqliteIsCurrent = r.sqliteIsCurrent := by
  induction ps generalizing r with
  | nil => exact ⟨rfl, rfl⟩
  | cons p ps ih =>
    rw [forall_mem_cons] at plain
    rw [foldl_cons, (ih plain.2).1, (ih plain.2).2]
    rcases replayRow_cases true k r plain.1 with ⟨e, -, -, hrow⟩ | ⟨a, -, -, hrow⟩ | ⟨-, -, _, _, _, hrow⟩ <;>
      rw [hrow] <;> exact ⟨rfl, rfl⟩

theorem foldl_replayRow_index (plain : ∀ p ∈ ps, p.Plain) : (ps.foldl (replayRow false k) r).store.entryDb =
      ((entriesOf ps).filter fun e => k < e.sequence).foldl EntryDb.indexAll r.store.entryDb := by
  induction ps generalizing r with
  | nil => rfl
  | cons p ps ih =>
    rw [forall_mem_cons] at plain
    rw [foldl_cons, ih plain.2, entriesOf_cons, filter_append, foldl_append]
    congr 1
    rcases replayRow_cases false k r plain.1 with ⟨e, hent, -, hrow⟩ | ⟨a, hent, -, hrow⟩ | ⟨hent, -, _, _, _, hrow⟩
    · rw [hrow, hent, replayEntry_normal]
      by_cases hle : e.sequence ≤ k
      · simp [hle, Nat.not_lt.2 hle]
      · simp [hle, Nat.lt_of_not_le hle]
    · rw [hrow, hent]
      rfl
    · rw [hrow, hent]
      rfl

theorem foldl_replayRow_current (plain : ∀ p ∈ ps, p.Plain) : (ps.foldl (replayRow false k) r).sqliteIsCurrent =
      (r.sqliteIsCurrent && (entriesOf ps).all fun e => e.sequence ≤ k) := by
  induction ps generalizing r with
  | nil => simp
  | cons p ps ih =>
    rw [forall_mem_cons] at plain
    rw [foldl_cons, ih plain.2, entriesOf_cons, all_append, ← Bool.and_assoc]
    congr 1
    rcases replayRow_cases false k r plain.1 with ⟨e, hent, -, hrow⟩ | ⟨a, hent, -, hrow⟩ | ⟨hent, -, _, _, _, hrow⟩
    · rw [hrow, hent, replayEntry_normal]
      simp
    · rw [hrow, hent]
      simp
    · rw [hrow, hent]
      simp

/-! ### The whole replay -/

theorem loadAccounts_eq (s : LedgerStore) (n : Nat) : ∃ holds, s.loadAccounts n m = { s with
      accounts := enterAccounts s.accounts (if n > 0 && !m then s.entryDb.accounts else [])
      legalHoldAccounts := holds } := by
  have hfold : ∀ (as : List Account) (s : LedgerStore), ∃ holds, as.foldl applyAccount s =
      { s with accounts := enterAccounts s.accounts as, legalHoldAccounts := holds } := by
    intro as
    induction as with
    | nil => exact fun s => ⟨_, rfl⟩
    | cons a as ih =>
      intro s
      obtain ⟨holds, hrest⟩ := ih (s.applyAccount a)
      exact ⟨holds, hrest⟩
  unfold loadAccounts
  split
  · exact hfold _ s
  · exact ⟨_, rfl⟩

def loadedAccounts (m : Bool) (d : Disk) : List Account :=
  if d.startSegment > 0 && !m then d.entryDb.accounts else []

theorem replayStart_eq (m : Bool) (d : Disk) : ∃ holds, (replayStart m d).store = { initial d with
      accounts := enterAccounts ∅ (loadedAccounts m d)
      legalHoldAccounts := holds } := loadAccounts_eq (initial d) d.startSegment

section
variable (plain : ∀ p ∈ d.visible, p.Plain)
include plain

theorem replayed_accounts :
    (replayed m d).store.accounts = enterAccounts ∅ (loadedAccounts m d ++ accountsOf d.visible) := by
  obtain ⟨holds, hstart⟩ := replayStart_eq m d
  rw [replayed, foldl_replayRow_accounts plain, hstart, enterAccounts, enterAccounts, enterAccounts, map_append,
    Assign.assign_append]

theorem replayed_counters :
    (replayed m d).store.nextSequence = nextAfter 1 (entriesOf d.visible) ∧ (replayed m d).store.lastChainHash =
      tipAfter zeroHash (entriesOf d.visible) := by
  obtain ⟨holds, hstart⟩ := replayStart_eq m d
  have hcounters := foldl_replayRow_counters (m := m) (k := indexedUpTo m d) (r := replayStart m d) plain
  rw [hstart] at hcounters
  exact hcounters

theorem replayed_import : (replayed true d).store.entryDb = d.entryDb ∧ (replayed true d).sqliteIsCurrent = false := by
  obtain ⟨holds, hstart⟩ := replayStart_eq true d
  have hfold := foldl_replayRow_import (k := indexedUpTo true d) (r := replayStart true d) plain
  rw [hstart] at hfold
  exact hfold

theorem replayed_index : (replayed false d).store.entryDb =
      ((entriesOf d.visible).filter fun e => d.entryDb.maxSequence < e.sequence).foldl EntryDb.indexAll d.entryDb := by
  obtain ⟨holds, hstart⟩ := replayStart_eq false d
  rw [replayed, foldl_replayRow_index plain, hstart]
  rfl

theorem replayed_current : (replayed false d).sqliteIsCurrent = (decide (0 < d.entryDb.maxSequence) &&
        (entriesOf d.visible).all fun e => e.sequence ≤ d.entryDb.maxSequence) := by
  rw [replayed, foldl_replayRow_current plain]
  rfl

end

/-! ### The opened store -/

theorem opened_entryDb : (opened m d).entryDb = (replayed m d).store.entryDb := by
  unfold opened writeCheckpoint finishReplay
  split_ifs <;> rfl

theorem mem_indexAll {db : EntryDb} {e x : JournalEntry} (h : x ∈ db.entries) : x ∈ (db.indexAll e).entries := by
  have hrefs : (db.indexAll e).entries = (db.insert e).entries :=
    foldl_keeps (·.entries) (fun (db : EntryDb) (line : JournalLine) =>
      db.insertAccountEntry line.accountId e.sequence) (fun _ _ => rfl) e.lines (db.insert e)
  rw [hrefs]
  by_cases href : db.Refused e
  · rwa [EntryDb.insert_of_refused href]
  · rw [EntryDb.entries_insert href]
    exact EntryDb.mem_insertBySequence.2 (.inr h)

theorem mem_replayRow {x : JournalEntry} (h : x ∈ r.store.entryDb.entries) :
    x ∈ (replayRow false k r p).store.entryDb.entries := by
  rcases p with ⟨page, slot, mutation, row, hash, prev⟩
  cases row with
  | entry e =>
    have hentry : x ∈ (replayEntry false k r e).store.entryDb.entries := by
      rw [replayEntry_normal]
      simp only
      split
      · exact h
      · exact mem_indexAll h
    cases mutation with
    | delete => exact h
    | _ => exact hentry
  | _ => cases mutation <;> exact h

theorem mem_opened {x : JournalEntry} (h : x ∈ d.entryDb.entries) : x ∈ (opened false d).entryDb.entries := by
  rw [opened_entryDb]
  refine replayed_induction (P := fun r => x ∈ r.store.entryDb.entries) ?_ fun r p _ hr => mem_replayRow hr
  obtain ⟨holds, hload⟩ := loadAccounts_eq (m := false) (initial d) d.startSegment
  rw [replayStart, hload]
  exact h

theorem of_mem_replayRow (h : e ∈ (replayRow m k r p).store.entryDb.entries) :
    e ∈ r.store.entryDb.entries ∨ e ∈ entriesOf [p] := by
  rcases p with ⟨page, slot, mutation, row, hash, prev⟩
  cases row with
  | entry e' =>
    have hentry (h : e ∈ (replayEntry m k r e').store.entryDb.entries) : e ∈ r.store.entryDb.entries ∨ e ∈ [e'] := by
      cases m with
      | true => exact .inl h
      | false =>
        rw [replayEntry_normal] at h
        simp only at h
        split at h
        · exact .inl h
        · rw [EntryDb.indexAll, EntryDb.entries_foldl_refs] at h
          exact (EntryDb.mem_of_mem_insert h).symm.imp_right mem_singleton.2
    cases mutation with
    | delete => exact .inl h
    | _ => exact hentry h
  | _ => cases mutation <;> exact .inl h

theorem mem_opened_entries (m : Bool) (d : Disk) :
    ∀ e ∈ (opened m d).entryDb.entries, e ∈ d.entryDb.entries ∨ e ∈ entriesOf d.visible := by
  rw [opened_entryDb]
  refine replayed_induction
    (P := fun r => ∀ e ∈ r.store.entryDb.entries, e ∈ d.entryDb.entries ∨ e ∈ entriesOf d.visible) ?_ ?_
  · obtain ⟨holds, hstart⟩ := replayStart_eq m d
    rw [hstart]
    exact fun e he => .inl he
  · intro r p hp ih e he
    rcases of_mem_replayRow he with hold | hnew
    · exact ih e hold
    · obtain ⟨q, hq, hrow⟩ := mem_filterMap.1 hnew
      obtain rfl := mem_singleton.1 hq
      exact .inr (mem_filterMap.2 ⟨q, hp, hrow⟩)

theorem opened_accounts : (opened m d).accounts = (replayed m d).store.accounts := by
  unfold opened writeCheckpoint finishReplay
  split_ifs <;> rfl

theorem writeCheckpoint_counters (s : LedgerStore) :
    s.writeCheckpoint.nextSequence = s.nextSequence ∧ s.writeCheckpoint.lastChainHash = s.lastChainHash ∧
      s.writeCheckpoint.balanceCache = s.balanceCache := by
  unfold writeCheckpoint
  split <;> exact ⟨rfl, rfl, rfl⟩

theorem opened_of_not_current (h : (replayed m d).sqliteIsCurrent = false) :
    (opened m d).nextSequence = (replayed m d).store.nextSequence ∧
      (opened m d).lastChainHash = (replayed m d).store.lastChainHash ∧
      (opened m d).balanceCache = (replayed m d).store.balanceCache := by
  have hfinish : finishReplay (replayed m d) = (replayed m d).store := by simp [finishReplay, h]
  rw [opened, hfinish]
  exact writeCheckpoint_counters _

theorem opened_of_current (h : (replayed m d).sqliteIsCurrent = true) :
    (opened m d).nextSequence = (replayed m d).store.entryDb.maxSequence + 1 ∧ (opened m d).lastChainHash =
        (replayed m d).store.entryDb.chainTip.getD (replayed m d).store.lastChainHash ∧
      (opened m d).balanceCache = (replayed m d).store.entryDb.rebuildBalanceCache (replayed m d).store.accounts
        (replayed m d).store.balanceCache := by
  obtain ⟨hnext, htip, hcache⟩ := writeCheckpoint_counters (finishReplay (replayed m d))
  rw [opened, hnext, htip, hcache, finishReplay, if_pos h]
  exact ⟨rfl, rfl, rfl⟩

end LedgerStore

end VectorLedger
