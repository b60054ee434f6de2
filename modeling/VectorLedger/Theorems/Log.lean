import VectorLedger.Machine

/-! What a durable write does to the log: nothing is committed, or exactly the rows of the write. -/

namespace VectorLedger

open List TxLog

def journal (w : Segments WalRecord) : List DataPayload := TxLog.rows w.records

def entriesOf (ps : List DataPayload) : List JournalEntry :=
  ps.filterMap fun p =>
    match p.row with
    | .entry e => some e
    | _ => none

theorem committedEntries_eq (w : Segments WalRecord) : committedEntries w = entriesOf (journal w) := rfl

@[simp] theorem entriesOf_nil : entriesOf [] = [] := rfl

@[simp] theorem entriesOf_append (ps qs : List DataPayload) :
    entriesOf (ps ++ qs) = entriesOf ps ++ entriesOf qs := filterMap_append

theorem entriesOf_cons (p : DataPayload) (ps : List DataPayload) :
    entriesOf (p :: ps) = entriesOf [p] ++ entriesOf ps := entriesOf_append [p] ps

def accountsOf (ps : List DataPayload) : List Account :=
  ps.filterMap fun p =>
    match p.row with
    | .account a => some a
    | _ => none

@[simp] theorem accountsOf_nil : accountsOf [] = [] := rfl

@[simp] theorem accountsOf_append (ps qs : List DataPayload) :
    accountsOf (ps ++ qs) = accountsOf ps ++ accountsOf qs := filterMap_append

theorem accountsOf_cons (p : DataPayload) (ps : List DataPayload) :
    accountsOf (p :: ps) = accountsOf [p] ++ accountsOf ps := accountsOf_append [p] ps

/-! ### One transaction -/

/-- A write that begins at `tm` and ends at `tm'`, having committed `rows`. -/
inductive Wrote (cfg : Config) (tm : TransactionManager) : List DataPayload → TransactionManager → Prop where
  | nothing : Wrote cfg tm [] tm
  /-- The log stopped before the commit record, or inside of it. -/
  | stalled {w : Segments WalRecord} (description : Option String) (rows : List DataPayload) (n : Nat)
      (short : n ≤ rows.length + 1)
      (grows : tm.wal.Grows w ((tm.transactionRecords cfg description rows).take n))
      (torn : tm.wal.tears = [] → w.TornAtEnd) :
      Wrote cfg tm [] { tm with wal := w, nextTxId := tm.nextTxId + 1 }
  | committed {w : Segments WalRecord} (description : Option String) (rows : List DataPayload)
      (grows : tm.wal.Grows w (tm.transactionRecords cfg description rows)) (untorn : w.tears = tm.wal.tears) :
      Wrote cfg tm rows { tm with wal := w, nextTxId := tm.nextTxId + 1 }

/-- No rows are left in the log under the id of the next transaction. -/
def TransactionManager.NoLeftover (tm : TransactionManager) : Prop :=
  leftover tm.wal.records tm.nextTxId = []

/-- What is appended now can be read again: no rows are left over under the id of the next transaction, and no torn
    record stands before it. -/
structure TransactionManager.Appendable (tm : TransactionManager) : Prop where
  noLeftover : tm.NoLeftover
  untorn : tm.wal.tears = []

instance (tm : TransactionManager) : Decidable tm.NoLeftover := by
  unfold TransactionManager.NoLeftover
  infer_instance

instance (tm : TransactionManager) : Decidable tm.Appendable :=
  decidable_of_iff (tm.NoLeftover ∧ tm.wal.tears = []) ⟨fun h => ⟨h.1, h.2⟩, fun h => ⟨h.1, h.2⟩⟩

/-- No rows are left in the log under an id that is still to come. -/
def TransactionManager.Ahead (tm : TransactionManager) : Prop :=
  ∀ tx, tm.nextTxId ≤ tx → leftover tm.wal.records tx = []

theorem TransactionManager.Ahead.noLeftover {tm : TransactionManager} (h : tm.Ahead) : tm.NoLeftover :=
  h tm.nextTxId (Nat.le_refl _)

namespace Wrote

variable {cfg : Config} {tm tm' : TransactionManager} {rows : List DataPayload}

section
variable (h : Wrote cfg tm rows tm')
include h

/-- The records that a write adds are of its transaction. A reader commits nothing at them, or the rows it has pending
    under the id of the transaction, and after them those of the write. -/
theorem grows : ∃ rs, tm.wal.Grows tm'.wal rs ∧ (∀ r ∈ rs, r.OfTx tm.nextTxId) ∧
    (rows = [] ∧ (∀ p, committedFrom p rs = []) ∨ ∀ p, committedFrom p rs =
      [⟨tm.nextTxId, rowsOf p tm.nextTxId ++ rows, TransactionManager.commitPayload cfg tm.signingKey rows⟩]) := by
  cases h with
  | nothing => exact ⟨[], .refl _, by simp, .inl ⟨rfl, fun _ => rfl⟩⟩
  | stalled description rows n short grows torn =>
    exact ⟨_, grows, fun r hr => transaction_ofTx r (mem_of_mem_take hr),
      .inl ⟨rfl, fun _ => committedFrom_take_transaction short⟩⟩
  | committed description rows grows untorn => exact ⟨_, grows, transaction_ofTx, .inr fun _ => committedFrom_transaction⟩

theorem tornAtEnd (untorn : tm.wal.tears = []) : tm'.wal.TornAtEnd := by
  cases h with
  | nothing => exact .inl untorn
  | stalled description rows n short grows torn => exact torn untorn
  | committed description rows grows kept => exact .inl (kept.trans untorn)

theorem lastIndex_le : tm.wal.lastIndex ≤ tm'.wal.lastIndex := by
  obtain ⟨rs, grows, -⟩ := h.grows
  exact grows.lastIndex_le

theorem committed_eq (clean : tm.NoLeftover) : TxLog.committed tm'.wal.records = TxLog.committed tm.wal.records ∨
      TxLog.committed tm'.wal.records = TxLog.committed tm.wal.records ++
        [⟨tm.nextTxId, rows, TransactionManager.commitPayload cfg tm.signingKey rows⟩] := by
  have hclean : rowsOf (pendingFrom ∅ tm.wal.records) tm.nextTxId = [] := clean
  obtain ⟨rs, grows, -, ⟨-, hnone⟩ | hone⟩ := h.grows
  · left
    rw [grows.records, committed_append, hnone, append_nil]
  · right
    rw [grows.records, committed_append, hone, hclean, nil_append]

/-- Rows left over under the id of the transaction are committed with it, before its own. -/
theorem journal_grows : ∃ late, journal tm'.wal = journal tm.wal ++ (late ++ rows) ∧ (tm.NoLeftover → late = []) := by
  obtain ⟨rs, grows, -, ⟨rfl, hnone⟩ | hone⟩ := h.grows
  · refine ⟨[], ?_, fun _ => rfl⟩
    rw [journal, grows.records, rows_append, hnone]
    rfl
  · refine ⟨rowsOf (pendingFrom ∅ tm.wal.records) tm.nextTxId, ?_, id⟩
    rw [journal, grows.records, rows_append, hone]
    simp [journal]

theorem journal_eq (clean : tm.NoLeftover) : journal tm'.wal = journal tm.wal ++ rows := by
  obtain ⟨late, happ, hlate⟩ := h.journal_grows
  rw [happ, hlate clean, nil_append]

theorem added : ∃ rs, tm'.wal.records = tm.wal.records ++ rs ∧ TxLog.rows rs = rows := by
  obtain ⟨rs, grows, -, ⟨rfl, hnone⟩ | hone⟩ := h.grows
  · refine ⟨rs, grows.records, ?_⟩
    rw [TxLog.rows, TxLog.committed, hnone]
    rfl
  · refine ⟨rs, grows.records, ?_⟩
    rw [TxLog.rows, TxLog.committed, hone]
    simp [rowsOf]

end

theorem rows_unique {rows' : List DataPayload} (h : Wrote cfg tm rows tm') (h' : Wrote cfg tm rows' tm') :
    rows = rows' := by
  obtain ⟨rs, hrecords, rfl⟩ := h.added
  obtain ⟨rs', hrecords', rfl⟩ := h'.added
  rw [append_cancel_left (hrecords.symm.trans hrecords')]

theorem rowsFrom_eq (h : Wrote cfg tm rows tm') (clean : tm.NoLeftover) (hw : Sliced tm.wal) {k : Nat}
    (hk : k ≤ tm.wal.lastIndex) :
    TxLog.rows (tm'.wal.recordsFrom k) = TxLog.rows (tm.wal.recordsFrom k) ++ rows := by
  have hclean : leftover (tm.wal.recordsFrom k) tm.nextTxId = [] := by
    have hsuffix := hw.leftover_suffix k hk tm.nextTxId
    rw [show leftover tm.wal.records tm.nextTxId = [] from clean] at hsuffix
    exact suffix_nil.1 hsuffix
  obtain ⟨rs, grows, -, ⟨rfl, hnone⟩ | hone⟩ := h.grows
  · rw [grows.recordsFrom k hk, rows_append, hnone]
    rfl
  · rw [leftover] at hclean
    rw [grows.recordsFrom k hk, rows_append, hone, hclean]
    simp

theorem sliced (h : Wrote cfg tm rows tm') (clean : tm.NoLeftover) (hw : Sliced tm.wal) : Sliced tm'.wal := by
  obtain ⟨rs, grows, own, -⟩ := h.grows
  exact hw.grow grows own (.inl clean)

theorem ahead (h : Wrote cfg tm rows tm') (ahead : tm.Ahead) : tm'.Ahead := by
  have grown : ∀ {w : Segments WalRecord} {rs : List WalRecord}, tm.wal.Grows w rs → (∀ r ∈ rs, r.OfTx tm.nextTxId) →
      { tm with wal := w, nextTxId := tm.nextTxId + 1 : TransactionManager }.Ahead := by
    intro w rs grows own tx htx
    have hlt : tm.nextTxId < tx := htx
    rw [leftover, grows.records, pendingFrom_append, rowsOf_pendingFrom_of_ne own (Nat.ne_of_gt hlt)]
    exact ahead tx (Nat.le_of_lt hlt)
  cases h with
  | nothing => exact ahead
  | stalled description rows n short grows torn =>
    exact grown grows fun r hr => transaction_ofTx r (mem_of_mem_take hr)
  | committed description rows grows untorn => exact grown grows transaction_ofTx

end Wrote

end VectorLedger
