import VectorLedger.Theorems.Log

/-! What each operation does to the store, said once: a write with its checks before it and its updates after it. -/

namespace VectorLedger

/-- The log took the first records of a transaction with these rows, possibly all of them. -/
def LogPart (cfg : Config) (tm : TransactionManager) (rows : List DataPayload) (tm' : TransactionManager) : Prop :=
  ∃ description n w, tm.wal.Grows w ((tm.transactionRecords cfg description rows).take n) ∧
    tm' = { tm with wal := w, nextTxId := tm.nextTxId + 1 }

open TxLog in
theorem LogPart.data_mem {cfg : Config} {tm tm' : TransactionManager} {rows : List DataPayload}
    (h : LogPart cfg tm rows tm') {tx : Nat} {p : DataPayload} (hp : Record.data tx p ∈ tm'.wal.records) :
    Record.data tx p ∈ tm.wal.records ∨ p ∈ rows := by
  obtain ⟨description, n, w, grows, rfl⟩ := h
  have hmem : Record.data tx p ∈ w.records := hp
  rw [grows.records, List.mem_append] at hmem
  refine hmem.imp_right fun hnew => ?_
  have hrecord := List.mem_of_mem_take hnew
  simp only [TransactionManager.transactionRecords, transaction, List.mem_cons, List.mem_append, List.mem_map,
    reduceCtorEq, false_or, or_false, List.not_mem_nil] at hrecord
  obtain ⟨q, hq, -, rfl⟩ := hrecord
  exact hq

namespace LedgerStore

def withLog (s : LedgerStore) (tm : TransactionManager) (accountPage entryPage : Nat) : LedgerStore :=
  { s with txManager := tm, nextAccountPage := accountPage, nextEntryPage := entryPage }

variable {cfg : Config} {io : Io} {s : LedgerStore}

/-! ### Durable writes -/

/-- The row fits on a page, and the page is written. -/
def PageOk (cfg : Config) (io : Io) (n : Nat) (row : Row) : Prop :=
  4 + (cfg.encode row).length ≤ pageFreeBytes ∧ io.pageWrite n = true

theorem writeToPage_ok {n cursor : Nat} {row : Row} (h : PageOk cfg io n row) :
    writeToPage cfg io n row cursor = .ok (cursor, 0, cursor + 1) := by
  simp [writeToPage, Nat.not_lt.2 h.1, h.2]

theorem pageOk_of_writeToPage {n cursor : Nat} {row : Row} {res : Nat × Nat × Nat}
    (h : writeToPage cfg io n row cursor = .ok res) : PageOk cfg io n row := by
  unfold writeToPage at h
  by_cases hfull : pageFreeBytes < 4 + (cfg.encode row).length
  · rw [if_pos hfull] at h
    cases h
  · cases hio : io.pageWrite n with
    | false => simp [hfull, hio] at h
    | true => exact ⟨Nat.le_of_not_lt hfull, hio⟩

theorem appendRecords_effect (cfg : Config) (tearsAtOpen : Nat) (stop : Option WalStop) (w : Segments WalRecord)
    (rs : List WalRecord) :
    (∃ w', appendRecords cfg tearsAtOpen stop w rs = (.ok (), w') ∧ w.Grows w' rs ∧ w'.tears = w.tears ∧ stop = none) ∨
      ∃ e w' n, appendRecords cfg tearsAtOpen stop w rs = (.error e, w') ∧ n ≤ rs.length - 1 ∧ w.Grows w' (rs.take n) ∧
        (w.tears = [] → w'.TornAtEnd) := by
  cases stop with
  | none => exact .inl ⟨_, rfl, .appendAll _ w rs, Segments.appendAll_tears _, rfl⟩
  | some stop =>
    exact .inr ⟨_, _, min stop.appended (rs.length - 1), rfl, Nat.min_le_right _ _, (Segments.Grows.appendAll _ w _).stopAt _ _,
      fun untorn => Segments.tornAtEnd_stopAt ((Segments.appendAll_tears _).trans untorn) _ _⟩

theorem runTransaction_effect (cfg : Config) (io : Io) (s : LedgerStore) (description : Option String)
    (rows : List DataPayload) :
    (∃ tm, s.runTransaction cfg io description rows = (.ok (), { s with txManager := tm }) ∧
        Wrote cfg s.txManager rows tm ∧ io.walStop = none ∧ LogPart cfg s.txManager rows tm) ∨
      ∃ e tm, s.runTransaction cfg io description rows = (.error e, { s with txManager := tm }) ∧
        Wrote cfg s.txManager [] tm ∧ io.walStop ≠ none ∧ LogPart cfg s.txManager rows tm := by
  unfold runTransaction TransactionManager.runTransaction
  rcases appendRecords_effect cfg s.txManager.tearsAtOpen io.walStop s.txManager.wal
      (s.txManager.transactionRecords cfg description rows) with
    ⟨w, happ, grows, untorn, hnone⟩ | ⟨e, w, n, happ, hn, grows, torn⟩
  · refine .inl ⟨_, ?_, .committed description rows grows untorn, hnone, description, _, w, by rwa [List.take_length], rfl⟩
    rw [happ]
    rfl
  · have hlen : n ≤ rows.length + 1 := by
      simpa [TransactionManager.transactionRecords, TxLog.transaction] using hn
    refine .inr ⟨.transaction e, _, ?_, .stalled description rows n hlen grows torn, ?_, description, n, w, grows, rfl⟩
    · rw [happ]
      rfl
    · intro hnone
      rw [hnone] at happ
      simp [appendRecords] at happ

/-- What a call did to the log and the page cursors, when its rows were `rows`. -/
structure Persisted (cfg : Config) (s : LedgerStore) (rows : List DataPayload) (s' : LedgerStore) : Prop where
  accountPage : s.nextAccountPage ≤ s'.nextAccountPage
  entryPage : s.nextEntryPage ≤ s'.nextEntryPage
  /-- The log was not reached, or the pages of all rows have been passed. -/
  log : s'.txManager = s.txManager ∨
    ((∀ p ∈ rows, p.pageId < s'.cursorFor p.row) ∧ LogPart cfg s.txManager rows s'.txManager)

theorem Persisted.refl (cfg : Config) (s : LedgerStore) (rows : List DataPayload) : Persisted cfg s rows s :=
  ⟨Nat.le_refl _, Nat.le_refl _, .inl rfl⟩

theorem Persisted.congr {s₁ s₂ t₁ t₂ : LedgerStore} {rows : List DataPayload} (h : Persisted cfg s₁ rows t₁)
    (hs : s₂.txManager = s₁.txManager ∧ s₂.nextAccountPage = s₁.nextAccountPage ∧ s₂.nextEntryPage = s₁.nextEntryPage)
    (ht : t₂.txManager = t₁.txManager ∧ t₂.nextAccountPage = t₁.nextAccountPage ∧ t₂.nextEntryPage = t₁.nextEntryPage) :
    Persisted cfg s₂ rows t₂ := by
  obtain ⟨hs₁, hs₂, hs₃⟩ := hs
  obtain ⟨ht₁, ht₂, ht₃⟩ := ht
  refine ⟨hs₂ ▸ ht₂ ▸ h.accountPage, hs₃ ▸ ht₃ ▸ h.entryPage, ?_⟩
  rw [hs₁, ht₁]
  refine h.log.imp_right fun hlog => ⟨fun p hp => ?_, hlog.2⟩
  have hlt := hlog.1 p hp
  cases hrow : p.row <;> simp only [hrow, cursorFor, ht₂, ht₃] at hlt ⊢ <;> exact hlt

theorem persistRow_effect (cfg : Config) (io : Io) (s : LedgerStore) (row : Row) (mutation : MutationKind)
    (prev : Option Hash) :
    (∃ tm c₁ c₂ page slot, s.persistRow cfg io row mutation prev = (.ok (), s.withLog tm c₁ c₂) ∧
        Wrote cfg s.txManager [payloadOf cfg page slot mutation row prev] tm ∧ io.walStop = none ∧
        Persisted cfg s [payloadOf cfg (s.cursorFor row) 0 mutation row prev] (s.withLog tm c₁ c₂)) ∨
      ∃ e tm c₁ c₂, s.persistRow cfg io row mutation prev = (.error e, s.withLog tm c₁ c₂) ∧
        Wrote cfg s.txManager [] tm ∧ (PageOk cfg io 0 row → io.walStop ≠ none) ∧
        Persisted cfg s [payloadOf cfg (s.cursorFor row) 0 mutation row prev] (s.withLog tm c₁ c₂) := by
  unfold persistRow
  rcases hpage : writeToPage cfg io 0 row (s.cursorFor row) with e | ⟨page, slot, next⟩
  · refine .inr ⟨e, s.txManager, _, _, rfl, .nothing, ?_, .refl cfg s _⟩
    intro hok
    rw [writeToPage_ok hok] at hpage
    cases hpage
  · rw [writeToPage_ok (pageOk_of_writeToPage hpage)] at hpage
    cases hpage
    have hcur : ∃ c₁ c₂, s.setCursorFor (s.cursorFor row + 1) row = s.withLog s.txManager c₁ c₂ ∧
        ∀ tm, LogPart cfg s.txManager [payloadOf cfg (s.cursorFor row) 0 mutation row prev] tm →
          Persisted cfg s [payloadOf cfg (s.cursorFor row) 0 mutation row prev] (s.withLog tm c₁ c₂) := by
      have hlt (n : Nat) : n < n + 1 := Nat.lt_succ_self n
      cases row with
      | account =>
        exact ⟨_, _, rfl, fun _ part => ⟨Nat.le_succ _, Nat.le_refl _, .inr ⟨List.forall_mem_singleton.2 (hlt _), part⟩⟩⟩
      | entry | reversalEvent | settlementEvent | reconciliationRecord =>
        exact ⟨_, _, rfl, fun _ part => ⟨Nat.le_refl _, Nat.le_succ _, .inr ⟨List.forall_mem_singleton.2 (hlt _), part⟩⟩⟩
    obtain ⟨c₁, c₂, hcur, persisted⟩ := hcur
    simp only [hcur]
    rcases runTransaction_effect cfg io (s.withLog s.txManager c₁ c₂) none
        [payloadOf cfg (s.cursorFor row) 0 mutation row prev] with
      ⟨tm, hrun, hw, hnone, part⟩ | ⟨e, tm, hrun, hw, hstop, part⟩
    · exact .inl ⟨tm, c₁, c₂, _, _, hrun, hw, hnone, persisted tm part⟩
    · exact .inr ⟨e, tm, c₁, c₂, hrun, hw, fun _ => hstop, persisted tm part⟩

/-- The rows of a pair, on the next two pages of entries. -/
def pairOf (cfg : Config) (s : LedgerStore) (rowA : Row) (prevA : Option Hash) (rowB : Row) : List DataPayload :=
  [payloadOf cfg s.nextEntryPage 0 .insert rowA prevA, payloadOf cfg (s.nextEntryPage + 1) 0 .insert rowB none]

theorem Persisted.pair {rowA rowB : Row} {prevA : Option Hash} {tm : TransactionManager}
    (entryPages : ∀ t : LedgerStore, t.cursorFor rowA = t.nextEntryPage ∧ t.cursorFor rowB = t.nextEntryPage)
    (part : LogPart cfg s.txManager (pairOf cfg s rowA prevA rowB) tm) :
    Persisted cfg s (pairOf cfg s rowA prevA rowB) (s.withLog tm s.nextAccountPage (s.nextEntryPage + 1 + 1)) := by
  refine ⟨Nat.le_refl _, Nat.le_add_right _ 2, .inr ⟨List.forall_mem_cons.2 ⟨?_, List.forall_mem_singleton.2 ?_⟩, part⟩⟩
  · rw [show ∀ t : LedgerStore, t.cursorFor (payloadOf cfg s.nextEntryPage 0 .insert rowA prevA).row = t.nextEntryPage from
      fun t => (entryPages t).1]
    exact Nat.lt_add_of_pos_right (by decide : 0 < 2)
  · rw [show ∀ t : LedgerStore, t.cursorFor (payloadOf cfg (s.nextEntryPage + 1) 0 .insert rowB none).row = t.nextEntryPage from
      fun t => (entryPages t).2]
    exact Nat.lt_succ_self _

theorem persistRowPair_effect (cfg : Config) (io : Io) (s : LedgerStore) (rowA : Row) (prevA : Option Hash)
    (rowB : Row) (entryPages : ∀ t : LedgerStore, t.cursorFor rowA = t.nextEntryPage ∧ t.cursorFor rowB = t.nextEntryPage) :
    (∃ tm c₁ c₂ pageA slotA pageB slotB, s.persistRowPair cfg io rowA prevA rowB = (.ok (), s.withLog tm c₁ c₂) ∧
        Wrote cfg s.txManager [payloadOf cfg pageA slotA .insert rowA prevA,
          payloadOf cfg pageB slotB .insert rowB none] tm ∧ io.walStop = none ∧
        Persisted cfg s (pairOf cfg s rowA prevA rowB) (s.withLog tm c₁ c₂)) ∨
      ∃ e tm c₁ c₂, s.persistRowPair cfg io rowA prevA rowB = (.error e, s.withLog tm c₁ c₂) ∧
        Wrote cfg s.txManager [] tm ∧ (PageOk cfg io 0 rowA → PageOk cfg io 1 rowB → io.walStop ≠ none) ∧
        Persisted cfg s (pairOf cfg s rowA prevA rowB) (s.withLog tm c₁ c₂) := by
  unfold persistRowPair
  rcases hA : writeToPage cfg io 0 rowA s.nextEntryPage with e | ⟨pageA, slotA, nextA⟩
  · refine .inr ⟨e, s.txManager, _, _, rfl, .nothing, ?_, .refl cfg s _⟩
    intro hok
    rw [writeToPage_ok hok] at hA
    cases hA
  · rw [writeToPage_ok (pageOk_of_writeToPage hA)] at hA
    cases hA
    simp only
    rcases hB : writeToPage cfg io 1 rowB (s.nextEntryPage + 1) with e | ⟨pageB, slotB, nextB⟩
    · refine .inr ⟨e, s.txManager, _, _, rfl, .nothing, ?_, Nat.le_refl _, Nat.le_succ _, .inl rfl⟩
      intro _ hok
      rw [writeToPage_ok hok] at hB
      cases hB
    · rw [writeToPage_ok (pageOk_of_writeToPage hB)] at hB
      cases hB
      rcases runTransaction_effect cfg io (s.withLog s.txManager s.nextAccountPage (s.nextEntryPage + 1 + 1))
          (some "reversal") (pairOf cfg s rowA prevA rowB) with
        ⟨tm, hrun, hw, hnone, part⟩ | ⟨e, tm, hrun, hw, hstop, part⟩
      · exact .inl ⟨tm, _, _, _, _, _, _, hrun, hw, hnone, .pair entryPages part⟩
      · exact .inr ⟨e, tm, _, _, hrun, hw, fun _ _ => hstop, .pair entryPages part⟩

/-! ### Sealed entries -/

section Sealed
variable (cfg : Config) (io : Io) (s : LedgerStore) (e : JournalEntry)

@[simp] theorem sealEntry_sequence : (s.sealEntry cfg io e).sequence = s.nextSequence := by simp [sealEntry]
@[simp] theorem sealEntry_lines : (s.sealEntry cfg io e).lines = e.lines := by simp [sealEntry]
@[simp] theorem sealEntry_idempotencyKey : (s.sealEntry cfg io e).idempotencyKey = e.idempotencyKey := by
  simp [sealEntry]
@[simp] theorem sealEntry_id : (s.sealEntry cfg io e).id = e.id := by simp [sealEntry]
@[simp] theorem sealEntry_reversesEntryId : (s.sealEntry cfg io e).reversesEntryId = e.reversesEntryId := by
  simp [sealEntry]
@[simp] theorem sealEntry_approvedBy : (s.sealEntry cfg io e).approvedBy = e.approvedBy := by simp [sealEntry]

variable (entryId : Uuid) (description domain : String)

attribute [local simp] sealReversal JournalEntry.finalizeHashes JournalEntry.precomputeContentHash reversalEntry

@[simp] theorem sealReversal_sequence : (s.sealReversal cfg io e entryId description domain).sequence = s.nextSequence := by simp
@[simp] theorem sealReversal_idempotencyKey :
    (s.sealReversal cfg io e entryId description domain).idempotencyKey = none := by simp
@[simp] theorem sealReversal_id : (s.sealReversal cfg io e entryId description domain).id = io.newId := by simp
@[simp] theorem sealReversal_status : (s.sealReversal cfg io e entryId description domain).status = .reversal := by simp
@[simp] theorem sealReversal_reversesEntryId :
    (s.sealReversal cfg io e entryId description domain).reversesEntryId = some entryId := by simp
theorem sealReversal_lines : (s.sealReversal cfg io e entryId description domain).lines =
      e.lines.zipIdx.map fun l => reversalLine io l.1 l.2 := by simp

end Sealed

/-! ### Balance updates -/

/-- What an entry adds to the cache: its lines on known accounts, when its status counts. -/
def entryDeltas (accounts : Accounts) (e : JournalEntry) : List (AccountId × Int) :=
  if e.status.affectsBalance then
    e.lines.filterMap fun l =>
      (accounts.lookup l.accountId).map fun acct => (l.accountId, l.delta acct.accountType.isDebitNormal)
  else []

theorem foldl_updateBalanceCache (s : LedgerStore) (lines : List JournalLine) : lines.foldl updateBalanceCache s = { s with
      balanceCache := s.balanceCache.addAll (lines.filterMap fun l =>
        (s.accounts.lookup l.accountId).map fun acct =>
          (l.accountId, l.delta acct.accountType.isDebitNormal)) } := by
  induction lines generalizing s with
  | nil => rfl
  | cons line lines ih =>
    rw [List.foldl_cons, ih]
    cases hacct : s.accounts.lookup line.accountId <;> simp [updateBalanceCache, hacct]

theorem updateBalances_eq (s : LedgerStore) (e : JournalEntry) :
    s.updateBalances e = { s with balanceCache := s.balanceCache.addAll (entryDeltas s.accounts e) } := by
  unfold updateBalances entryDeltas
  split
  · exact foldl_updateBalanceCache s e.lines
  · rfl

end LedgerStore

/-! ### Operations -/

namespace Op

open LedgerStore

def rows (cfg : Config) (io : Io) (s : LedgerStore) : Op → List Row
  | .createAccount a => [.account a]
  | .closeAccount id => (s.accounts.lookup id).toList.map fun acct => .account { acct with status := .closed }
  | .postEntry e | .importEntryDirect e => [.entry (s.sealEntry cfg io e)]
  | .reverseEntry entryId description domain =>
    match s.checkReversal entryId with
    | .ok original =>
      let reversal := s.sealReversal cfg io original entryId description domain
      [.entry reversal, .reversalEvent ⟨entryId, reversal.id, reversal.postedAt⟩]
    | .error _ => []
  | .setLegalHold id hold => (s.accounts.lookup id).toList.map fun acct => .account { acct with legalHold := hold }
  | .applySettlementEvent entryId newStatus notes => [.settlementEvent ⟨entryId, newStatus, io.now, notes⟩]
  | .reconcileAndRecord => [.reconciliationRecord (s.reconciliationRecord cfg io)]

/-- The rows of an operation as it hands them to the log, each with the page it was written to. -/
def payloads (cfg : Config) (io : Io) (s : LedgerStore) : Op → List DataPayload
  | .createAccount a => [payloadOf cfg s.nextAccountPage 0 .insert (.account a) none]
  | .closeAccount id => (s.accounts.lookup id).toList.map fun acct =>
    payloadOf cfg s.nextAccountPage 0 .delete (.account { acct with status := .closed }) none
  | .postEntry e | .importEntryDirect e =>
    [payloadOf cfg s.nextEntryPage 0 .insert (.entry (s.sealEntry cfg io e)) (some (s.sealEntry cfg io e).prevHash)]
  | .reverseEntry entryId description domain =>
    match s.checkReversal entryId with
    | .ok original =>
      let reversal := s.sealReversal cfg io original entryId description domain
      [payloadOf cfg s.nextEntryPage 0 .insert (.entry reversal) (some reversal.prevHash),
        payloadOf cfg (s.nextEntryPage + 1) 0 .insert
          (.reversalEvent ⟨entryId, reversal.id, reversal.postedAt⟩) none]
    | .error _ => []
  | .setLegalHold id hold => (s.accounts.lookup id).toList.map fun acct =>
    payloadOf cfg s.nextAccountPage 0 .delete (.account { acct with legalHold := hold }) none
  | .applySettlementEvent entryId newStatus notes =>
    [payloadOf cfg s.nextEntryPage 0 .insert (.settlementEvent ⟨entryId, newStatus, io.now, notes⟩) none]
  | .reconcileAndRecord =>
    [payloadOf cfg s.nextEntryPage 0 .insert (.reconciliationRecord (s.reconciliationRecord cfg io)) none]

/-- The rows of the operation fit on a page each. -/
def Fits (cfg : Config) (io : Io) (s : LedgerStore) (op : Op) : Prop :=
  ∀ row ∈ op.rows cfg io s, 4 + (cfg.encode row).length ≤ pageFreeBytes

/-- The operation passes the checks before its write. -/
def Reaches (cfg : Config) (s : LedgerStore) : Op → Prop
  | .postEntry e => e.validate = .ok () ∧ s.duplicateOf e = none ∧ s.checkEntry cfg e = .ok ()
  | .importEntryDirect e =>
    e.validate = .ok () ∧ s.duplicateOf e = none ∧ checkAll s.checkImportLine e.lines = .ok ()
  | .reverseEntry entryId _ _ => (s.checkReversal entryId).isOk
  | _ => True

instance (cfg : Config) (io : Io) (s : LedgerStore) (op : Op) : Decidable (op.Fits cfg io s) := by
  unfold Fits
  infer_instance

instance (cfg : Config) (s : LedgerStore) (op : Op) : Decidable (op.Reaches cfg s) := by
  rcases op with _ | _ <;> unfold Reaches <;> infer_instance

theorem reaches_reverseEntry {cfg : Config} {s : LedgerStore} {entryId : Uuid} {description domain : String} :
    (Op.reverseEntry entryId description domain).Reaches cfg s ↔ ∃ original, s.checkReversal entryId = .ok original := by
  cases checked : s.checkReversal entryId with
  | error | ok => simp [Reaches, checked, Except.toBool]

/-- The store when an operation comes to its write: an entry has its sequence, and the account that is
    closed or held has changed in memory. -/
def begun (s : LedgerStore) : Op → LedgerStore
  | .closeAccount id =>
    match s.accounts.lookup id with
    | some acct => { s with accounts := s.accounts.insert id { acct with status := .closed } }
    | none => s
  | .setLegalHold id hold =>
    match s.accounts.lookup id with
    | some acct => { s with accounts := s.accounts.insert id { acct with legalHold := hold } }
    | none => s
  | .postEntry _ | .reverseEntry _ _ _ | .importEntryDirect _ => s.takeSequence
  | .createAccount _ | .applySettlementEvent _ _ _ | .reconcileAndRecord => s

section Begun
variable (s : LedgerStore) (op : Op)

@[simp] theorem begun_txManager : (op.begun s).txManager = s.txManager := by
  unfold begun; split <;> (try split) <;> rfl
theorem begun_cursors : s.txManager = (op.begun s).txManager ∧ s.nextAccountPage = (op.begun s).nextAccountPage ∧
    s.nextEntryPage = (op.begun s).nextEntryPage := by
  unfold begun; split <;> (try split) <;> exact ⟨rfl, rfl, rfl⟩
@[simp] theorem begun_cursorFor (row : Row) : (op.begun s).cursorFor row = s.cursorFor row := by
  unfold begun; split <;> (try split) <;> rfl
@[simp] theorem begun_entryDb : (op.begun s).entryDb = s.entryDb := by
  unfold begun; split <;> (try split) <;> rfl
@[simp] theorem begun_balanceCache : (op.begun s).balanceCache = s.balanceCache := by
  unfold begun; split <;> (try split) <;> rfl
@[simp] theorem begun_lastChainHash : (op.begun s).lastChainHash = s.lastChainHash := by
  unfold begun; split <;> (try split) <;> rfl
@[simp] theorem begun_walCheckpoint : (op.begun s).walCheckpoint = s.walCheckpoint := by
  unfold begun; split <;> (try split) <;> rfl

theorem begun_cases : op.begun s = s ∨ op.begun s = s.takeSequence ∨
      ∃ id old new, s.accounts.lookup id = some old ∧ new.id = old.id ∧ new.accountType = old.accountType ∧
        op.begun s = { s with accounts := s.accounts.insert id new } := by
  cases op with
  | closeAccount id =>
    cases found : s.accounts.lookup id with
    | none => exact .inl (by simp only [begun, found])
    | some acct =>
      refine .inr (.inr ⟨id, acct, { acct with status := .closed }, found, rfl, rfl, ?_⟩)
      simp only [begun, found]
  | setLegalHold id hold =>
    cases found : s.accounts.lookup id with
    | none => exact .inl (by simp only [begun, found])
    | some acct =>
      refine .inr (.inr ⟨id, acct, { acct with legalHold := hold }, found, rfl, rfl, ?_⟩)
      simp only [begun, found]
  | postEntry | reverseEntry | importEntryDirect => exact .inr (.inl rfl)
  | createAccount | applySettlementEvent | reconcileAndRecord => exact .inl rfl

end Begun

end Op

/-- The pages and the log take what is written. No operation writes more than two pages. -/
def Io.Writes (io : Io) : Prop := io.pageWrite 0 = true ∧ io.pageWrite 1 = true ∧ io.walStop = none

instance (io : Io) : Decidable io.Writes := by unfold Io.Writes; infer_instance

variable (cfg : Config) (io : Io) (s : LedgerStore) in
/-- What a call can do to the store. -/
inductive Effect : Op → LedgerStore → Prop where
  /-- The call was refused, or answered from what is there. -/
  | rejected (op : Op) : Effect op s
  /-- The write failed: a row does not fit, or the pages or the log gave an error. -/
  | failed (op : Op) {tm : TransactionManager} (c₁ c₂ : Nat) (reached : op.Reaches cfg s)
      (wrote : Wrote cfg s.txManager [] tm)
      (fault : op.Fits cfg io s → ¬ io.Writes) :
      Effect op ((op.begun s).withLog tm c₁ c₂)
  | created {a : Account} {tm : TransactionManager} (c₁ c₂ : Nat) {page slot : Nat}
      (wrote : Wrote cfg s.txManager [LedgerStore.payloadOf cfg page slot .insert (.account a) none] tm) :
      Effect (.createAccount a)
        ({ s.withLog tm c₁ c₂ with
          entryDb := if io.sqliteAccount then s.entryDb.upsertAccount a else s.entryDb }.applyAccount a)
  | closed {id : AccountId} {acct : Account} {tm : TransactionManager} (c₁ c₂ : Nat) {page slot : Nat}
      (found : s.accounts.lookup id = some acct)
      (wrote : Wrote cfg s.txManager
        [LedgerStore.payloadOf cfg page slot .delete (.account { acct with status := .closed }) none] tm) :
      Effect (.closeAccount id)
        { s.withLog tm c₁ c₂ with
          accounts := s.accounts.insert id { acct with status := .closed }
          entryDb := if io.sqliteAccount then s.entryDb.upsertAccount { acct with status := .closed }
            else s.entryDb }
  | held {id : AccountId} {hold : Bool} {acct : Account} {tm : TransactionManager} (c₁ c₂ : Nat) {page slot : Nat}
      (found : s.accounts.lookup id = some acct)
      (wrote : Wrote cfg s.txManager
        [LedgerStore.payloadOf cfg page slot .delete (.account { acct with legalHold := hold }) none] tm) :
      Effect (.setLegalHold id hold)
        { s.withLog tm c₁ c₂ with
          accounts := s.accounts.insert id { acct with legalHold := hold }
          legalHoldAccounts := if hold then insert id s.legalHoldAccounts else s.legalHoldAccounts.erase id }
  | posted {e : JournalEntry} {tm : TransactionManager} (c₁ c₂ : Nat) {page slot : Nat}
      (valid : e.validate = .ok ()) (fresh : s.duplicateOf e = none) (checked : s.checkEntry cfg e = .ok ())
      (wrote : Wrote cfg s.txManager
        [LedgerStore.payloadOf cfg page slot .insert (.entry (s.sealEntry cfg io e)) (some s.lastChainHash)] tm)
      (logged : io.walStop = none) :
      Effect (.postEntry e)
        { s.takeSequence.withLog tm c₁ c₂ with
          lastCommittedEntryBytes := some (cfg.encode (.entry (s.sealEntry cfg io e)))
          lastChainHash := (s.sealEntry cfg io e).chainHash
          balanceCache := s.balanceCache.addAll (LedgerStore.entryDeltas s.accounts (s.sealEntry cfg io e))
          entryDb := LedgerStore.indexEntry io s.entryDb (s.sealEntry cfg io e) }
  | reversed {entryId : Uuid} {description domain : String} {original : JournalEntry}
      {tm : TransactionManager} (c₁ c₂ : Nat) {pageA slotA pageB slotB : Nat}
      (checked : s.checkReversal entryId = .ok original)
      (wrote : Wrote cfg s.txManager [LedgerStore.payloadOf cfg pageA slotA .insert
            (.entry (s.sealReversal cfg io original entryId description domain)) (some s.lastChainHash),
          LedgerStore.payloadOf cfg pageB slotB .insert (.reversalEvent ⟨entryId,
            (s.sealReversal cfg io original entryId description domain).id,
            (s.sealReversal cfg io original entryId description domain).postedAt⟩) none] tm)
      (logged : io.walStop = none) :
      Effect (.reverseEntry entryId description domain)
        { s.takeSequence.withLog tm c₁ c₂ with
          lastChainHash := (s.sealReversal cfg io original entryId description domain).chainHash
          reversalEventIndex := s.reversalEventIndex.insert entryId
            (s.sealReversal cfg io original entryId description domain).id
          balanceCache := s.balanceCache.addAll (LedgerStore.entryDeltas s.accounts
            (s.sealReversal cfg io original entryId description domain))
          entryDb := LedgerStore.indexEntry io s.entryDb
            (s.sealReversal cfg io original entryId description domain) }
  | imported {e : JournalEntry} {tm : TransactionManager} (c₁ c₂ : Nat) {page slot : Nat}
      (valid : e.validate = .ok ()) (fresh : s.duplicateOf e = none)
      (checked : LedgerStore.checkAll s.checkImportLine e.lines = .ok ())
      (wrote : Wrote cfg s.txManager
        [LedgerStore.payloadOf cfg page slot .insert (.entry (s.sealEntry cfg io e)) (some s.lastChainHash)] tm) :
      Effect (.importEntryDirect e)
        { s.takeSequence.withLog tm c₁ c₂ with lastChainHash := (s.sealEntry cfg io e).chainHash }
  | settled {entryId : Uuid} {newStatus : EntryStatus} {notes : Option String} {tm : TransactionManager}
      (c₁ c₂ : Nat) {page slot : Nat}
      (wrote : Wrote cfg s.txManager [LedgerStore.payloadOf cfg page slot .insert
        (.settlementEvent ⟨entryId, newStatus, io.now, notes⟩) none] tm) :
      Effect (.applySettlementEvent entryId newStatus notes)
        { s.withLog tm c₁ c₂ with settlementEventIndex := s.settlementEventIndex.insert entryId newStatus }
  | reconciled {tm : TransactionManager} (c₁ c₂ : Nat) {page slot : Nat}
      (wrote : Wrote cfg s.txManager [LedgerStore.payloadOf cfg page slot .insert
        (.reconciliationRecord (s.reconciliationRecord cfg io)) none] tm) :
      Effect .reconcileAndRecord (s.withLog tm c₁ c₂)

/-- How a call ends: before its write, with an error or an answer, with the error of its write, or after it. -/
inductive Called (cfg : Config) (io : Io) (s : LedgerStore) (op : Op) {α : Type} :
    Except LedgerError α × LedgerStore → Prop where
  | refused (err : LedgerError) (unreached : ¬op.Reaches cfg s ∨ op.begun s = s) : Called cfg io s op (.error err, s)
  | answered (a : α) : Called cfg io s op (.ok a, s)
  | failed (err : LedgerError) {tm : TransactionManager} (c₁ c₂ : Nat) (reached : op.Reaches cfg s)
      (wrote : Wrote cfg s.txManager [] tm) (fault : op.Fits cfg io s → ¬io.Writes)
      (persisted : s.Persisted cfg (op.payloads cfg io s) ((op.begun s).withLog tm c₁ c₂)) :
      Called cfg io s op (.error err, (op.begun s).withLog tm c₁ c₂)
  | done (a : α) {t : LedgerStore} (effect : Effect cfg io s op t) (reached : op.Reaches cfg s)
      (persisted : s.Persisted cfg (op.payloads cfg io s) t) : Called cfg io s op (.ok a, t)

namespace Called

variable {cfg : Config} {io : Io} {s : LedgerStore} {α β : Type} {op : Op} {r : Except LedgerError α × LedgerStore}

theorem effect (h : Called cfg io s op r) : Effect cfg io s op r.2 := by
  cases h with
  | refused | answered => exact .rejected op
  | failed err c₁ c₂ reached wrote fault => exact .failed op c₁ c₂ reached wrote fault
  | done a effect => exact effect

theorem map (h : Called cfg io s op r) (f : α → β) : Called cfg io s op (r.1.map f, r.2) := by
  cases h with
  | refused err unreached => exact .refused err unreached
  | answered a => exact .answered (f a)
  | failed err c₁ c₂ reached wrote fault persisted => exact .failed err c₁ c₂ reached wrote fault persisted
  | done a effect reached persisted => exact .done (f a) effect reached persisted

/-- An operation that comes to its write of one row, and goes on when the row is written. -/
theorem of_row (row : Row) {mutation : MutationKind} {prev : Option Hash} (reached : op.Reaches cfg s)
    (written : row ∈ op.rows cfg io s)
    (payloads : op.payloads cfg io s = [LedgerStore.payloadOf cfg (s.cursorFor row) 0 mutation row prev])
    (failed : ∀ e t, (op.begun s).persistRow cfg io row mutation prev = (.error e, t) → r = (.error e, t))
    (done : ∀ tm c₁ c₂ page slot,
      (op.begun s).persistRow cfg io row mutation prev = (.ok (), (op.begun s).withLog tm c₁ c₂) →
      Wrote cfg s.txManager [LedgerStore.payloadOf cfg page slot mutation row prev] tm → io.walStop = none →
      ∃ a t, Effect cfg io s op t ∧ r = (.ok a, t) ∧ t.txManager = tm ∧ t.nextAccountPage = c₁ ∧ t.nextEntryPage = c₂) :
    Called cfg io s op r := by
  rcases LedgerStore.persistRow_effect cfg io (op.begun s) row mutation prev with
    ⟨tm, c₁, c₂, page, slot, hrun, wrote, logged, persisted⟩ | ⟨e, tm, c₁, c₂, hrun, wrote, fault, persisted⟩ <;>
    rw [op.begun_txManager] at wrote <;> rw [op.begun_cursorFor, ← payloads] at persisted
  · obtain ⟨a, t, effect, rfl, same⟩ := done tm c₁ c₂ page slot hrun wrote logged
    exact .done a effect reached (persisted.congr (op.begun_cursors s) same)
  · rw [failed _ _ hrun]
    exact .failed e c₁ c₂ reached wrote (fun fits writes => fault ⟨fits _ written, writes.1⟩ writes.2.2)
      (persisted.congr (op.begun_cursors s) ⟨rfl, rfl, rfl⟩)

end Called

namespace LedgerStore

variable (cfg : Config) (io : Io) (s : LedgerStore)

theorem createAccount_called (a : Account) : Called cfg io s (.createAccount a) (s.createAccount cfg io a) := by
  unfold createAccount
  refine .of_row (.account a) trivial (by simp [Op.rows]) rfl (fun e t h => ?_) fun tm c₁ c₂ page slot h wrote _ =>
    ⟨a.id, _, .created c₁ c₂ wrote, ?_, rfl, rfl, rfl⟩ <;>
    simp only [show s.persistRow cfg io (.account a) .insert none = _ from h]
  cases io.sqliteAccount <;> rfl

theorem closeAccount_called (id : AccountId) : Called cfg io s (.closeAccount id) (s.closeAccount cfg io id) := by
  unfold closeAccount
  cases found : s.accounts.lookup id with
  | none => exact .refused _ (.inr (by simp only [Op.begun, found]))
  | some acct =>
    refine .of_row _ trivial (by simp [Op.rows, found]) (by simp only [Op.payloads, found]; rfl) (fun e t h => ?_)
        fun tm c₁ c₂ page slot h wrote _ => ⟨(), _, .closed c₁ c₂ found wrote, ?_, rfl, rfl, rfl⟩ <;>
      simp only [Op.begun, found] at h <;> simp only [h]
    cases io.sqliteAccount <;> rfl

theorem setLegalHold_called (id : AccountId) (hold : Bool) :
    Called cfg io s (.setLegalHold id hold) (s.setLegalHold cfg io id hold) := by
  unfold setLegalHold
  cases found : s.accounts.lookup id with
  | none => exact .refused _ (.inr (by simp only [Op.begun, found]))
  | some acct =>
    refine .of_row _ trivial (by simp [Op.rows, found]) (by simp only [Op.payloads, found]; rfl) (fun e t h => ?_)
        fun tm c₁ c₂ page slot h wrote _ => ⟨(), _, .held c₁ c₂ found wrote, ?_, rfl, rfl, rfl⟩ <;>
      simp only [Op.begun, found] at h <;> simp only [h]
    rfl

theorem postEntry_called (e : JournalEntry) : Called cfg io s (.postEntry e) (s.postEntry cfg io e) := by
  unfold postEntry
  rcases valid : e.validate with err | ⟨⟩
  · exact .refused err (.inl fun reached => nomatch valid.symm.trans reached.1)
  cases fresh : s.duplicateOf e with
  | some sequence => exact .answered sequence
  | none =>
    rcases checked : s.checkEntry cfg e with err | ⟨⟩
    · exact .refused err (.inl fun reached => nomatch checked.symm.trans reached.2.2)
    refine .of_row (.entry (s.sealEntry cfg io e)) ⟨valid, fresh, checked⟩ (by simp [Op.rows]) rfl (fun err t h => ?_)
        fun tm c₁ c₂ page slot h wrote logged =>
          ⟨(s.sealEntry cfg io e).sequence, _, .posted c₁ c₂ valid fresh checked wrote logged, ?_, rfl, rfl, rfl⟩ <;>
      simp only [show s.takeSequence.persistRow cfg io (.entry (s.sealEntry cfg io e)) .insert
        (some (s.sealEntry cfg io e).prevHash) = _ from h]
    rw [updateBalances_eq]
    rfl

theorem reverseEntry_called (entryId : Uuid) (description domain : String) :
    Called cfg io s (.reverseEntry entryId description domain) (s.reverseEntry cfg io entryId description domain) := by
  unfold reverseEntry
  rcases checked : s.checkReversal entryId with err | original
  · refine .refused err (.inl fun reached => ?_)
    obtain ⟨original, hok⟩ := Op.reaches_reverseEntry.1 reached
    cases checked.symm.trans hok
  have hprev : (s.sealReversal cfg io original entryId description domain).prevHash = s.lastChainHash := rfl
  have reached : (Op.reverseEntry entryId description domain).Reaches cfg s :=
    Op.reaches_reverseEntry.2 ⟨original, checked⟩
  rcases persistRowPair_effect cfg io s.takeSequence
      (.entry (s.sealReversal cfg io original entryId description domain)) (some s.lastChainHash)
      (.reversalEvent ⟨entryId, (s.sealReversal cfg io original entryId description domain).id,
        (s.sealReversal cfg io original entryId description domain).postedAt⟩) fun _ => ⟨rfl, rfl⟩ with
    ⟨tm, c₁, c₂, pageA, slotA, pageB, slotB, hrun, wrote, logged, persisted⟩ |
      ⟨err, tm, c₁, c₂, hrun, wrote, fault, persisted⟩
  · have done : Effect cfg io s (.reverseEntry entryId description domain) _ :=
      .reversed c₁ c₂ checked wrote logged
    simp only [hprev, hrun, updateBalances_eq]
    exact .done _ done reached (by simp only [Op.payloads, checked]; exact persisted.congr ⟨rfl, rfl, rfl⟩ ⟨rfl, rfl, rfl⟩)
  · simp only [hprev, hrun]
    refine .failed err c₁ c₂ reached wrote (fun fits writes => ?_)
      (by simp only [Op.payloads, checked]; exact persisted.congr ⟨rfl, rfl, rfl⟩ ⟨rfl, rfl, rfl⟩)
    exact fault ⟨fits _ (by simp [Op.rows, checked]), writes.1⟩ ⟨fits _ (by simp [Op.rows, checked]), writes.2.1⟩
      writes.2.2

theorem importEntryDirect_called (e : JournalEntry) :
    Called cfg io s (.importEntryDirect e) (s.importEntryDirect cfg io e) := by
  unfold importEntryDirect
  rcases valid : e.validate with err | ⟨⟩
  · exact .refused err (.inl fun reached => nomatch valid.symm.trans reached.1)
  cases fresh : s.duplicateOf e with
  | some => exact .answered 0
  | none =>
    rcases checked : checkAll s.checkImportLine e.lines with err | ⟨⟩
    · exact .refused err (.inl fun reached => nomatch checked.symm.trans reached.2.2)
    refine .of_row (.entry (s.sealEntry cfg io e)) ⟨valid, fresh, checked⟩ (by simp [Op.rows]) rfl (fun err t h => ?_)
        fun tm c₁ c₂ page slot h wrote _ =>
          ⟨(s.sealEntry cfg io e).sequence, _, .imported c₁ c₂ valid fresh checked wrote, ?_, rfl, rfl, rfl⟩ <;>
      simp only [show s.takeSequence.persistRow cfg io (.entry (s.sealEntry cfg io e)) .insert
        (some (s.sealEntry cfg io e).prevHash) = _ from h]
    rfl

theorem applySettlementEvent_called (entryId : Uuid) (newStatus : EntryStatus) (notes : Option String) :
    Called cfg io s (.applySettlementEvent entryId newStatus notes)
      (s.applySettlementEvent cfg io entryId newStatus notes) := by
  unfold applySettlementEvent
  cases s.entryDb.findById entryId with
  | none => exact .refused _ (.inr rfl)
  | some entry =>
    simp only
    rcases s.checkHolds entry.lines with err | ⟨⟩
    · exact .refused err (.inr rfl)
    refine .of_row (.settlementEvent ⟨entryId, newStatus, io.now, notes⟩) trivial (by simp [Op.rows]) rfl
        (fun err t h => ?_) fun tm c₁ c₂ page slot h wrote _ => ⟨(), _, .settled c₁ c₂ wrote, ?_, rfl, rfl, rfl⟩ <;>
      simp only [show s.persistRow cfg io (.settlementEvent ⟨entryId, newStatus, io.now, notes⟩) .insert none = _ from h]
    rfl

theorem reconcileAndRecord_called : Called cfg io s .reconcileAndRecord (s.reconcileAndRecord cfg io) := by
  unfold reconcileAndRecord
  refine .of_row (.reconciliationRecord (s.reconciliationRecord cfg io)) trivial (by simp [Op.rows]) rfl
      (fun err t h => ?_) fun tm c₁ c₂ page slot h wrote _ =>
        ⟨(s.reconcile, s.reconciliationRecord cfg io), _, .reconciled c₁ c₂ wrote, ?_, rfl, rfl, rfl⟩ <;>
    simp only [show s.persistRow cfg io (.reconciliationRecord (s.reconciliationRecord cfg io)) .insert none = _ from h]
  rfl

theorem call_called (op : Op) : Called cfg io s op (s.call cfg io op) := by
  cases op with
  | createAccount a => exact (createAccount_called cfg io s a).map _
  | closeAccount id => exact closeAccount_called cfg io s id
  | postEntry e => exact (postEntry_called cfg io s e).map _
  | reverseEntry entryId description domain => exact (reverseEntry_called cfg io s entryId description domain).map _
  | importEntryDirect e => exact (importEntryDirect_called cfg io s e).map _
  | setLegalHold id hold => exact setLegalHold_called cfg io s id hold
  | applySettlementEvent entryId newStatus notes => exact applySettlementEvent_called cfg io s entryId newStatus notes
  | reconcileAndRecord => exact (reconcileAndRecord_called cfg io s).map _

theorem call_effect (op : Op) : Effect cfg io s op (s.call cfg io op).2 := (call_called cfg io s op).effect

theorem call_persisted (op : Op) : (s.call cfg io op).2 = s ∨
      (op.Reaches cfg s ∧ Persisted cfg s (op.payloads cfg io s) (s.call cfg io op).2) := by
  have called := call_called cfg io s op
  generalize s.call cfg io op = r at called ⊢
  cases called with
  | refused | answered => exact .inl rfl
  | failed _ _ _ reached _ _ persisted | done _ _ reached persisted => exact .inr ⟨reached, persisted⟩

end LedgerStore

end VectorLedger
