import VectorLedger.Theorems.Replay
import VectorLedger.Theorems.Session

/-! Pages are written once within a session, but an open does not know what pages the log has used. -/

namespace VectorLedger

open List Sample TxLog

def committedPages (w : Segments WalRecord) : List (Table × Nat) :=
  (journal w).map fun p => (p.row.table, p.pageId)

def dataRows (w : Segments WalRecord) : List DataPayload :=
  w.records.filterMap fun
    | .data _ p => some p
    | _ => none

open LedgerStore in
/-- The calls of `writeToPage` that an operation makes: the table and the page of each. -/
def Op.pageCalls (cfg : Config) (io : Io) (s : LedgerStore) : Op → List (Table × Nat)
  | .createAccount _ => [(.accounts, s.nextAccountPage)]
  | .closeAccount id | .setLegalHold id _ =>
    if (s.accounts.lookup id).isSome then [(.accounts, s.nextAccountPage)] else []
  | .postEntry e => if (Op.postEntry e).Reaches cfg s then [(.entries, s.nextEntryPage)] else []
  | .importEntryDirect e => if (Op.importEntryDirect e).Reaches cfg s then [(.entries, s.nextEntryPage)] else []
  | .reverseEntry entryId description domain =>
    match s.checkReversal entryId with
    | .ok original =>
      -- The event has its page written only after the entry.
      (.entries, s.nextEntryPage) ::
        if (writeToPage cfg io 0 (.entry (s.sealReversal cfg io original entryId description domain))
          s.nextEntryPage).isOk then [(.reversalEvents, s.nextEntryPage + 1)] else []
    | .error _ => []
  | .applySettlementEvent entryId _ _ =>
    match s.entryDb.findById entryId with
    | some entry => if (s.checkHolds entry.lines).isOk then [(.settlementEvents, s.nextEntryPage)] else []
    | none => []
  | .reconcileAndRecord => [(.reconciliationEvents, s.nextEntryPage)]

def LedgerStore.cursorOf (s : LedgerStore) : Table → Nat
  | .accounts => s.nextAccountPage
  | _ => s.nextEntryPage

section Cursors
variable {cfg : Config} {io : Io} {s s' : LedgerStore} {op : Op} {d : Disk} {m : Bool}

theorem LedgerStore.cursorFor_eq (s : LedgerStore) (row : Row) : s.cursorFor row = s.cursorOf row.table := by
  cases row <;> rfl

theorem Op.cursorOf_le_of_mem_pageCalls {c : Table × Nat} (hc : c ∈ op.pageCalls cfg io s) : s.cursorOf c.1 ≤ c.2 := by
  cases op with
  | createAccount | reconcileAndRecord =>
    obtain rfl := mem_singleton.1 hc
    exact Nat.le_refl _
  | reverseEntry entryId =>
    rcases checked : s.checkReversal entryId with err | original
    · simp [Op.pageCalls, checked] at hc
    · simp only [Op.pageCalls, checked, mem_cons, mem_ite_nil_right, not_mem_nil, or_false] at hc
      rcases hc with rfl | ⟨-, rfl⟩
      · exact Nat.le_refl _
      · exact Nat.le_succ _
  | applySettlementEvent entryId =>
    cases found : s.entryDb.findById entryId with
    | none => simp [Op.pageCalls, found] at hc
    | some =>
      simp only [Op.pageCalls, found, mem_ite_nil_right, mem_singleton] at hc
      obtain ⟨-, rfl⟩ := hc
      exact Nat.le_refl _
  | _ =>
    simp only [Op.pageCalls, mem_ite_nil_right, mem_singleton] at hc
    obtain ⟨-, rfl⟩ := hc
    exact Nat.le_refl _

theorem mem_dataRows {w : Segments WalRecord} {p : DataPayload} : p ∈ dataRows w ↔ ∃ tx, Record.data tx p ∈ w.records := by
  rw [dataRows, mem_filterMap]
  constructor
  · rintro ⟨r, hr, hp⟩
    cases r with
    | data tx =>
      cases hp
      exact ⟨tx, hr⟩
    | _ => cases hp
  · rintro ⟨tx, hr⟩
    exact ⟨_, hr, rfl⟩

/-! ### Opens -/

def DataPayload.movesCursor (p : DataPayload) : Bool := p.mutation != .delete && p.row.table == .entries

def Disk.entriesReplayed (d : Disk) : Nat := d.visible.countP DataPayload.movesCursor

theorem LedgerStore.replayEntry_nextEntryPage (k : Nat) (r : Replay) (e : JournalEntry) :
    (replayEntry m k r e).store.nextEntryPage = r.store.nextEntryPage + 1 := by
  unfold replayEntry
  simp only [updateBalances_eq]
  split_ifs <;> rfl

theorem LedgerStore.replayRow_nextEntryPage (k : Nat) (r : Replay) (p : DataPayload) :
    (replayRow m k r p).store.nextEntryPage = r.store.nextEntryPage + if p.movesCursor then 1 else 0 := by
  unfold replayRow DataPayload.movesCursor
  cases hrow : p.row with
  | entry e => cases hmutation : p.mutation <;> first | exact replayEntry_nextEntryPage k r e | rfl
  | _ => cases hmutation : p.mutation <;> rfl

theorem LedgerStore.foldl_replayRow_nextEntryPage (k : Nat) (ps : List DataPayload) (r : Replay) :
    (ps.foldl (replayRow m k) r).store.nextEntryPage = r.store.nextEntryPage + ps.countP DataPayload.movesCursor := by
  induction ps generalizing r with
  | nil => rfl
  | cons p ps ih => rw [foldl_cons, ih, replayRow_nextEntryPage, countP_cons, Nat.add_assoc, Nat.add_comm _ (ite _ _ _)]

theorem LedgerStore.opened_nextEntryPage (m : Bool) (d : Disk) : (opened m d).nextEntryPage = d.entriesReplayed := by
  have hfinish : (opened m d).nextEntryPage = (replayed m d).store.nextEntryPage := by
    unfold opened writeCheckpoint finishReplay
    split_ifs <;> rfl
  obtain ⟨holds, hstart⟩ := replayStart_eq m d
  rw [hfinish, replayed, foldl_replayRow_nextEntryPage, hstart]
  exact Nat.zero_add _

/-! ### Calls -/

/-- A row that a call adds to the log is on one of the pages that it writes. -/
theorem LedgerStore.call_pageCalls {p : DataPayload} (hp : p ∈ dataRows (s.call cfg io op).2.txManager.wal) :
    p ∈ dataRows s.txManager.wal ∨ (p.row.table, p.pageId) ∈ op.pageCalls cfg io s := by
  by_cases idle : (s.call cfg io op).2.txManager = s.txManager
  · rw [idle] at hp
    exact .inl hp
  rcases s.call_persisted cfg io op with hsame | ⟨reached, persisted⟩
  · exact absurd (congrArg _ hsame) idle
  obtain ⟨tx, hdata⟩ := mem_dataRows.1 hp
  rcases ((persisted.log.resolve_left idle).2.data_mem hdata) with hold | hnew
  · exact .inl (mem_dataRows.2 ⟨tx, hold⟩)
  right
  cases op with
  | createAccount | reconcileAndRecord =>
    obtain rfl := mem_singleton.1 hnew
    exact mem_singleton_self _
  | closeAccount id | setLegalHold id =>
    simp only [Op.payloads, mem_map, Option.mem_toList] at hnew
    obtain ⟨acct, found, rfl⟩ := hnew
    simp [Op.pageCalls, Option.mem_def.1 found, payloadOf, Row.table]
  | postEntry | importEntryDirect =>
    obtain rfl := mem_singleton.1 hnew
    rw [Op.pageCalls, if_pos reached]
    exact mem_singleton_self _
  | reverseEntry entryId description domain =>
    obtain ⟨original, checked⟩ := Op.reaches_reverseEntry.1 reached
    -- Without a page for the entry the log is not reached.
    rcases written : writeToPage cfg io 0 (.entry (s.sealReversal cfg io original entryId description domain)) s.nextEntryPage
      with err | page
    · refine absurd ?_ idle
      simp [call, reverseEntry, checked, persistRowPair, takeSequence, written]
    · simp only [Op.payloads, checked, mem_cons, not_mem_nil, or_false] at hnew
      rcases hnew with rfl | rfl <;> simp [Op.pageCalls, checked, written, payloadOf, Row.table, Except.isOk, Except.toBool]
  | applySettlementEvent entryId newStatus notes =>
    obtain rfl := mem_singleton.1 hnew
    cases found : s.entryDb.findById entryId with
    | none => exact absurd (by simp [call, applySettlementEvent, found]) idle
    | some entry =>
      rcases free : s.checkHolds entry.lines with err | _
      · exact absurd (by simp [call, applySettlementEvent, found, free]) idle
      · simp [Op.pageCalls, found, free, payloadOf, Row.table, Except.isOk, Except.toBool]

theorem LedgerStore.call_dataRows (cfg : Config) (io : Io) (s : LedgerStore) (op : Op) {p : DataPayload}
    (hp : p ∈ dataRows (s.call cfg io op).2.txManager.wal) :
    p ∈ dataRows s.txManager.wal ∨ p.pageId < (s.call cfg io op).2.cursorOf p.row.table := by
  rcases s.call_persisted cfg io op with hsame | ⟨-, persisted⟩
  · rw [hsame] at hp
    exact .inl hp
  · rcases persisted.log with hlog | ⟨below, part⟩
    · rw [hlog] at hp
      exact .inl hp
    · obtain ⟨tx, hdata⟩ := mem_dataRows.1 hp
      rcases part.data_mem hdata with hold | hnew
      · exact .inl (mem_dataRows.2 ⟨tx, hold⟩)
      · right
        rw [← LedgerStore.cursorFor_eq]
        exact below p hnew

theorem LedgerStore.call_cursorOf (cfg : Config) (io : Io) (s : LedgerStore) (op : Op) (table : Table) :
    s.cursorOf table ≤ (s.call cfg io op).2.cursorOf table := by
  rcases s.call_persisted cfg io op with hsame | ⟨-, persisted⟩
  · rw [hsame]
  · cases table <;> first | exact persisted.accountPage | exact persisted.entryPage

end Cursors

/-! ### Runs -/

/-- The ledger, with what its log had when it was last opened: the rows, and the number of entries replayed. -/
structure Paged where
  machine : Machine
  found : List DataPayload
  replayed : Nat

namespace Paged

def start (key : Option SigningKey) : Paged := ⟨.down (.fresh key), [], 0⟩

def step (cfg : Config) (t : Paged) (ev : Event) : Option Paged :=
  (Machine.step cfg t.machine ev).map fun x =>
    match t.machine with
    | .down d => ⟨x, dataRows d.wal, d.entriesReplayed⟩
    | .up _ => { t with machine := x }

def cursorAtOpen (t : Paged) : Table → Nat
  | .accounts => 0
  | _ => t.replayed

/-- The rows of a table that the open found are on pages below the cursor it set. For the accounts this says that
    it found none. -/
def Clear (t : Paged) (table : Table) : Prop :=
  ∀ p ∈ t.found, p.row.table = table → p.pageId < t.cursorAtOpen table

/-- The condition on a step: a call writes to tables that were clear when the store was opened. -/
def PageStep (cfg : Config) (t : Paged) : Event → Prop
  | .call io op | .crash io op =>
    match t.machine with
    | .up s => ∀ c ∈ op.pageCalls cfg io s, t.Clear c.1
    | .down _ => True
  | _ => True

/-- Every row in the log was found by the open or is below its cursor, and no cursor has gone back. -/
structure Tracks (t : Paged) (s : LedgerStore) : Prop where
  rows : ∀ p ∈ dataRows s.txManager.wal, p ∈ t.found ∨ p.pageId < s.cursorOf p.row.table
  cursors : ∀ table, t.cursorAtOpen table ≤ s.cursorOf table

variable {cfg : Config} {t : Paged} {s : LedgerStore}

theorem tracks_opened (m : Bool) (d : Disk) (x : Machine) :
    Tracks ⟨x, dataRows d.wal, d.entriesReplayed⟩ (LedgerStore.opened m d) where
  rows p hp := by
    rw [LedgerStore.opened_txManager] at hp
    exact .inl hp
  cursors table := by
    cases table with
    | accounts => exact Nat.zero_le _
    | _ => exact Nat.le_of_eq (LedgerStore.opened_nextEntryPage m d).symm

theorem Tracks.call (h : t.Tracks s) (io : Io) (op : Op) (x : Machine) :
    Tracks { t with machine := x } (s.call cfg io op).2 where
  rows p hp := by
    rcases s.call_dataRows cfg io op hp with hold | hnew
    · exact (h.rows p hold).imp_right fun hlt => Nat.lt_of_lt_of_le hlt (s.call_cursorOf cfg io op _)
    · exact .inr hnew
  cursors table := Nat.le_trans (h.cursors table) (s.call_cursorOf cfg io op table)

theorem Tracks.fresh (h : t.Tracks s) {io : Io} {op : Op} (clear : ∀ c ∈ op.pageCalls cfg io s, t.Clear c.1) :
    ∀ c ∈ op.pageCalls cfg io s, c ∉ committedPages s.txManager.wal := by
  intro c hc hused
  obtain ⟨p, hp, rfl⟩ := mem_map.1 hused
  have hcursor := Op.cursorOf_le_of_mem_pageCalls hc
  obtain ⟨tx, hdata⟩ := data_of_mem_rows hp
  have hbelow : p.pageId < s.cursorOf p.row.table := by
    rcases h.rows p (mem_dataRows.2 ⟨tx, hdata⟩) with hfound | hlt
    · exact Nat.lt_of_lt_of_le (clear _ hc p hfound rfl) (h.cursors _)
    · exact hlt
  exact absurd hcursor (Nat.not_le.2 hbelow)

/-- In every run the cursors are above the rows of the session. -/
theorem tracks_of_run {key : Option SigningKey}
    (run : Run.Reachable (step cfg) (PageStep cfg) (start key) t) (up : t.machine = .up s) : t.Tracks s := by
  refine run.invariant (P := fun t => ∀ s, t.machine = .up s → t.Tracks s) (fun s hs => nomatch hs) ?_ s up
  rintro ⟨x, found, replayed⟩ ev t' h - hstep s hs
  obtain ⟨y, hy, rfl⟩ := Option.map_eq_some_iff.1 hstep
  cases x with
  | down d =>
    obtain rfl : y = .up s := hs
    cases Machine.step_cases hy with
    | opened => exact tracks_opened false d _
    | importing => exact tracks_opened true d _
  | up u =>
    obtain rfl : y = .up s := hs
    cases ev with
    | openStore | openForImport | close | crash => cases hy
    | call io op =>
      cases hy
      exact (h u rfl).call io op _

/-- In every run, with any number of restarts, whose calls write only to tables that were clear when the store was
    opened, no call writes to a page that holds a committed row. -/
theorem pages_written_once (cfg : Config) (key : Option SigningKey) (t : Paged) (s : LedgerStore) (ev : Event) (io : Io)
    (op : Op) (run : Run.Reachable (step cfg) (PageStep cfg) (start key) t) (up : t.machine = .up s)
    (running : ev.running = some (io, op)) (allowed : PageStep cfg t ev) :
    ∀ c ∈ op.pageCalls cfg io s, c ∉ committedPages s.txManager.wal := by
  refine (tracks_of_run run up).fresh ?_
  cases ev with
  | call | crash =>
    cases running
    simpa only [PageStep, up] using allowed
  | _ => cases running

instance (t : Paged) (table : Table) : Decidable (t.Clear table) := by
  unfold Clear
  infer_instance

instance (cfg : Config) (t : Paged) (ev : Event) : Decidable (PageStep cfg t ev) := by
  rcases t with ⟨_ | _, _, _⟩ <;> rcases ev with _ | _ <;> unfold PageStep <;> infer_instance

def Sample.restarted : List Event :=
  Sample.twoAccounts ++ [.call Sample.io (.postEntry (Sample.transfer 10 none 5 2 1)), .close, .openStore]

/-- A second transfer goes to the next page. -/
theorem pages_written_once_sample :
    ∃ t s, Run.exec (step Sample.config) (start none) Sample.restarted = some t ∧ t.machine = .up s ∧
      (Op.postEntry (Sample.transfer 11 none 3 2 1)).pageCalls Sample.config Sample.io s = [(.entries, 1)] ∧
      ∀ c ∈ (Op.postEntry (Sample.transfer 11 none 3 2 1)).pageCalls Sample.config Sample.io s,
        c ∉ committedPages s.txManager.wal := by
  have ht : Run.exec (step Sample.config) (start none) Sample.restarted = some _ := rfl
  exact ⟨_, _, ht, rfl, by decide +kernel, pages_written_once config none _ _ (.call io (.postEntry (transfer 11 none 3 2 1)))
    io _ (Run.reachable_of_exec (by decide +kernel) ht) rfl rfl (by decide +kernel)⟩

end Paged

/-- After a restart a new account is written over the page of the first one, and a settlement event over the page of
    the one before. -/
theorem page_rewritten_after_restart : (((Run.exec (Machine.step config) (.down (.fresh none))
        [.openStore, .call io (.createAccount (account 1 .asset)), .close, .openStore]).bind
      Machine.store?).map fun s =>
      ((Op.createAccount (account 2 .income)).pageCalls config io s,
        committedPages s.txManager.wal)) = some ([(.accounts, 0)], [(.accounts, 0)]) ∧
    (((Run.exec (Machine.step config) (.down (.fresh none)) (twoAccounts ++ [.call io (.postEntry (transfer 10 none 5 2 1)),
          .call io (.applySettlementEvent 10 .pending none), .close, .openStore])).bind Machine.store?).map fun s =>
      ((Op.applySettlementEvent 10 .settled none).pageCalls config io s, committedPages s.txManager.wal)) =
      some ([(.settlementEvents, 1)], [(.accounts, 0), (.accounts, 1), (.entries, 0), (.settlementEvents, 1)]) := by
  decide +kernel

end VectorLedger
