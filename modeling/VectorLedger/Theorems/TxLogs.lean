import VectorLedger.Theorems.Placed
import VectorLedger.Theorems.Streaming
import VectorLedger.Tx.Manager

/-! The log that transaction managers write: what a reader from any segment on gets from it, record by record. -/

namespace VectorLedger.Tx

open Function List Wal
open TxLog (rowsOf committedFrom pendingFrom)

/-! ### What was committed -/

def Mutation.payload (env : Env) (m : Mutation) : Wal.DataPayload := (m.pending env).payload

def hashOf (env : Env) (ms : List Mutation) : Hash := txHash env.verifier (ms.map fun m => env.verifier.blake3 m.rowData)

/-- A transaction whose commit record was written. -/
structure CommitEntry where
  txId : UInt64
  /-- The mutations that were added to the transaction. -/
  mutations : List Mutation
  /-- The segments that its data records went to. -/
  dataSegments : List Nat
  commitSegment : Nat
  /-- The data records that were in the log under its id before, with their segments. -/
  stranded : List (Nat × Wal.DataPayload)
  signingKey : Option SigningKey
  /-- The length of all files after its commit record. -/
  endPos : Nat
  deriving DecidableEq

namespace CommitEntry

def rows (env : Env) (k : CommitEntry) : List (Nat × Wal.DataPayload) :=
  k.dataSegments.zip (k.mutations.map (Mutation.payload env))

def commitPayload (env : Env) (k : CommitEntry) : Wal.CommitPayload :=
  Tx.commitPayload env k.signingKey (hashOf env k.mutations) (.ofNat k.mutations.length)

/-- There is one data record for each mutation, and no record is in a segment before that of an earlier one. -/
structure InOrder (k : CommitEntry) : Prop where
  length : k.dataSegments.length = k.mutations.length
  ordered : (k.stranded.map (·.1) ++ k.dataSegments).Pairwise (· ≤ ·)

theorem rows_fst (env : Env) {k : CommitEntry} (h : k.dataSegments.length = k.mutations.length) :
    (k.rows env).map (·.1) = k.dataSegments := map_fst_zip (by simp [h])

theorem rows_snd (env : Env) {k : CommitEntry} (h : k.dataSegments.length = k.mutations.length) :
    (k.rows env).map (·.2) = k.mutations.map (Mutation.payload env) := map_snd_zip (by simp [h])

end CommitEntry

def rowsFrom (rows : List (Nat × Wal.DataPayload)) (start : Nat) : List Wal.DataPayload :=
  (rows.filter fun x => start ≤ x.1).map (·.2)

@[simp] theorem rowsFrom_nil (start : Nat) : rowsFrom [] start = [] := rfl

theorem rowsFrom_append (rows rows' : List (Nat × Wal.DataPayload)) (start : Nat) :
    rowsFrom (rows ++ rows') start = rowsFrom rows start ++ rowsFrom rows' start := by
  simp [rowsFrom]

theorem rowsFrom_zero (rows : List (Nat × Wal.DataPayload)) : rowsFrom rows 0 = rows.map (·.2) := by
  simp [rowsFrom]

/-! ### The log of transactions -/

def rawFrom (log : List (Nat × Record)) (start : Nat) : List (TxLog.Record Unit Record Record) :=
  (recordsFrom log start).map (txRecord some)

theorem rawFrom_concat (log : List (Nat × Record)) (j : Nat) (r : Record) (start : Nat) :
    rawFrom (log ++ [(j, r)]) start = rawFrom log start ++ if start ≤ j then [txRecord some r] else [] := by
  rw [rawFrom, recordsFrom_append, map_append]
  by_cases h : start ≤ j
  · simp [rawFrom, recordsFrom, h]
  · simp [rawFrom, recordsFrom, h]

/-- The data records decode to these payloads. -/
def Decoded (rs : List Record) (ps : List Wal.DataPayload) : Prop := rs.map decodeDataPayload = ps.map some

theorem Decoded.append {rs rs' : List Record} {ps ps' : List Wal.DataPayload} (h : Decoded rs ps) (h' : Decoded rs' ps') :
    Decoded (rs ++ rs') (ps ++ ps') := by
  rw [Decoded, map_append, map_append, h, h']

theorem Decoded.filterMap {rs : List Record} {ps : List Wal.DataPayload} (h : Decoded rs ps) :
    rs.filterMap decodeDataPayload = ps := by
  have hid : rs.filterMap decodeDataPayload = (rs.map decodeDataPayload).filterMap id := by
    rw [filterMap_map]
    rfl
  rw [hid, h, filterMap_map]
  exact filterMap_some

/-- A reader from a segment on gets this transaction for the entry. -/
structure Reports (env : Env) (start : Nat) (k : CommitEntry) (t : TxLog.Committed Record Record) : Prop where
  txId : t.info.header.txId = k.txId
  payload : t.info.payload = (k.commitPayload env).toBytes
  rows : Decoded t.rows (rowsFrom (k.stranded ++ k.rows env) start)

def commitEnds (log : List (Nat × Record)) : List Nat :=
  Frames.ends (fun r => (txRecord some r).isCommit) 0 (log.map plainFrame)

theorem commitEnds_concat (log : List (Nat × Record)) (j : Nat) (r : Record) :
    commitEnds (log ++ [(j, r)]) = commitEnds log ++
      if (txRecord some r).isCommit then [(Frames.bytes ((log ++ [(j, r)]).map plainFrame)).length] else [] := by
  rw [commitEnds, map_append, Frames.ends_append, Nat.zero_add, Frames.bytes_append, length_append]
  simp [commitEnds, Frames.ends, plainFrame]

/-- What a log means: a reader from any segment on gets those with a commit record there, and has the
    stranded rows of the others pending. -/
structure Means (env : Env) (log : List (Nat × Record)) (stranded : UInt64 → List (Nat × Wal.DataPayload))
    (entries : List CommitEntry) : Prop where
  known : ∀ x ∈ log, x.2.Known
  committed : ∀ start, List.Forall₂ (Reports env start) (entries.filter fun k => start ≤ k.commitSegment)
    (TxLog.committed (rawFrom log start))
  pending : ∀ start (txId : UInt64),
    Decoded (rowsOf (pendingFrom ∅ (rawFrom log start)) txId.toNat) (rowsFrom (stranded txId) start)
  within : ∀ txId, ∀ x ∈ stranded txId, ∃ y ∈ log, y.1 = x.1
  ordered : ∀ txId, ((stranded txId).map (·.1)).Pairwise (· ≤ ·)
  inOrder : ∀ k ∈ entries, k.InOrder
  ends : commitEnds log = entries.map (·.endPos)

namespace Means
variable {env : Env} {log : List (Nat × Record)} {stranded : UInt64 → List (Nat × Wal.DataPayload)}
  {entries : List CommitEntry} {j : Nat} {r : Record}

theorem empty (env : Env) : Means env [] (fun _ => []) [] where
  known := nofun
  committed _ := .nil
  pending _ _ := by simp [rawFrom, recordsFrom, pendingFrom, Decoded]
  within := nofun
  ordered _ := List.Pairwise.nil
  inOrder := nofun
  ends := rfl

section
variable (h : Means env log stranded entries)
include h

theorem ends_concat (other : (txRecord some r).isCommit = false) :
    commitEnds (log ++ [(j, r)]) = entries.map (·.endPos) := by
  rw [commitEnds_concat, other, h.ends]
  simp

theorem known_concat (known : r.Known) : ∀ x ∈ log ++ [(j, r)], x.2.Known :=
  forall_mem_append.2 ⟨h.known, forall_mem_singleton.2 known⟩

theorem committed_concat (none : ∀ q, (TxLog.read q (txRecord some r)).2 = none) (start : Nat) :
    List.Forall₂ (Reports env start) (entries.filter fun k => start ≤ k.commitSegment)
      (TxLog.committed (rawFrom (log ++ [(j, r)]) start)) := by
  rw [rawFrom_concat, TxLog.committed_append]
  split
  · simpa [committedFrom, none] using h.committed start
  · simpa [committedFrom] using h.committed start

theorem within_concat {txId : UInt64} {x : Nat × Wal.DataPayload} (hx : x ∈ stranded txId) :
    ∃ y ∈ log ++ [(j, r)], y.1 = x.1 := by
  obtain ⟨y, hy, heq⟩ := h.within txId x hx
  exact ⟨y, mem_append_left _ hy, heq⟩

theorem within_update {txId : UInt64} {rows : List (Nat × Wal.DataPayload)}
    (hrows : ∀ x ∈ rows, ∃ y ∈ log ++ [(j, r)], y.1 = x.1) :
    ∀ id, ∀ x ∈ update stranded txId rows id, ∃ y ∈ log ++ [(j, r)], y.1 = x.1 :=
  (forall_update_iff stranded fun _ rows => ∀ x ∈ rows, ∃ y ∈ log ++ [(j, r)], y.1 = x.1).2
    ⟨hrows, fun _ _ _ => h.within_concat⟩

theorem ordered_update {txId : UInt64} {rows : List (Nat × Wal.DataPayload)}
    (hrows : (rows.map (·.1)).Pairwise (· ≤ ·)) :
    ∀ id, ((update stranded txId rows id).map (·.1)).Pairwise (· ≤ ·) :=
  (forall_update_iff stranded fun _ rows => (rows.map (·.1)).Pairwise (· ≤ ·)).2 ⟨hrows, fun id _ => h.ordered id⟩

end

theorem toNat_ne {a b : UInt64} (h : a ≠ b) : a.toNat ≠ b.toNat := fun heq => h (UInt64.toNat_inj.1 heq)

section
variable (h : Means env log stranded entries)
include h

theorem begin (known : r.Known) (tx : Nat)
    (hr : txRecord some r = .begin tx ()) : Means env (log ++ [(j, r)]) stranded entries where
  known := h.known_concat known
  committed := h.committed_concat fun q => by rw [hr]; rfl
  pending start txId := by
    rw [rawFrom_concat, TxLog.pendingFrom_append]
    split
    · rw [hr]
      simp only [pendingFrom, foldl_cons, foldl_nil, TxLog.read, TxLog.rowsOf_insert]
      split
      · next heq =>
        rw [← heq]
        exact h.pending start txId
      · exact h.pending start txId
    · exact h.pending start txId
  within _ _ := h.within_concat
  ordered := h.ordered
  inOrder := h.inOrder
  ends := h.ends_concat (by rw [hr]; rfl)

theorem data (known : r.Known) (txId : UInt64) (last : ∀ y ∈ log, y.1 ≤ j)
    {p : Wal.DataPayload} (hr : txRecord some r = .data txId.toNat r) (hp : decodeDataPayload r = some p) :
    Means env (log ++ [(j, r)]) (update stranded txId (stranded txId ++ [(j, p)])) entries where
  known := h.known_concat known
  committed := h.committed_concat fun q => by rw [hr]; rfl
  pending start id := by
    rw [rawFrom_concat, TxLog.pendingFrom_append]
    have hold := h.pending start id
    by_cases hid : id = txId
    · subst hid
      rw [update_self, rowsFrom_append]
      split
      · next hle =>
        rw [hr]
        simp only [pendingFrom, foldl_cons, foldl_nil, TxLog.read, TxLog.rowsOf_insert]
        rw [if_pos trivial]
        exact hold.append (by simp [Decoded, rowsFrom, hle, hp])
      · next hle =>
        rw [show rowsFrom [(j, p)] start = [] by simp [rowsFrom, hle], append_nil]
        exact hold
    · rw [update_of_ne hid]
      split
      · rw [hr]
        simp only [pendingFrom, foldl_cons, foldl_nil, TxLog.read, TxLog.rowsOf_insert]
        rw [if_neg (toNat_ne hid)]
        exact hold
      · exact hold
  within := h.within_update <| forall_mem_append.2 ⟨fun _ => h.within_concat,
    forall_mem_singleton.2 ⟨(j, r), mem_append_right _ (by simp), rfl⟩⟩
  ordered := by
    refine h.ordered_update ?_
    rw [map_append, pairwise_append]
    refine ⟨h.ordered txId, pairwise_singleton _ _, ?_⟩
    intro i hi i' hi'
    obtain ⟨x, hx, rfl⟩ := mem_map.1 hi
    obtain rfl : i' = j := by simpa using hi'
    obtain ⟨y, hy, heq⟩ := h.within txId x hx
    exact heq ▸ last y hy
  inOrder := h.inOrder
  ends := h.ends_concat (by rw [hr]; rfl)

theorem pending_ended (txId : UInt64) (last : ∀ y ∈ log, y.1 ≤ j)
    (hr : (∃ info, txRecord some r = .commit txId.toNat info) ∨ txRecord some r = .rollback txId.toNat)
    (start : Nat) (id : UInt64) :
    Decoded (rowsOf (pendingFrom ∅ (rawFrom (log ++ [(j, r)]) start)) id.toNat)
      (rowsFrom (update stranded txId [] id) start) := by
  rw [rawFrom_concat, TxLog.pendingFrom_append]
  have hold := h.pending start id
  by_cases hle : start ≤ j
  · rw [if_pos hle]
    have hread : pendingFrom (pendingFrom ∅ (rawFrom log start)) [txRecord some r] =
        (pendingFrom ∅ (rawFrom log start)).erase txId.toNat := by
      rcases hr with ⟨info, hr⟩ | hr
      · rw [hr]; rfl
      · rw [hr]; rfl
    rw [hread, TxLog.rowsOf_erase]
    by_cases hid : id = txId
    · rw [hid, update_self, if_pos rfl]
      rfl
    · rw [update_of_ne hid, if_neg (toNat_ne hid)]
      exact hold
  · -- The reader starts behind everything, so it has nothing pending.
    rw [if_neg hle]
    by_cases hid : id = txId
    · have hnone : rowsFrom (stranded id) start = [] := by
        rw [rowsFrom, map_eq_nil_iff, filter_eq_nil_iff]
        intro x hx
        obtain ⟨y, hy, heq⟩ := h.within id x hx
        have hbound := last y hy
        simp only [decide_eq_true_eq]
        omega
      rw [hnone] at hold
      rw [hid, update_self, ← hid]
      exact hold
    · rw [update_of_ne hid]
      exact hold

theorem rollback (known : r.Known) (txId : UInt64) (last : ∀ y ∈ log, y.1 ≤ j)
    (hr : txRecord some r = .rollback txId.toNat) :
    Means env (log ++ [(j, r)]) (update stranded txId []) entries where
  known := h.known_concat known
  committed := h.committed_concat fun q => by rw [hr]; rfl
  pending := h.pending_ended txId last (.inr hr)
  within := h.within_update (forall_mem_nil _)
  ordered := h.ordered_update List.Pairwise.nil
  inOrder := h.inOrder
  ends := h.ends_concat (by rw [hr]; rfl)

theorem commit (known : r.Known) (k : CommitEntry) (last : ∀ y ∈ log, y.1 ≤ j)
    (hr : txRecord some r = .commit k.txId.toNat r) (hid : r.header.txId = k.txId)
    (hpayload : r.payload = (k.commitPayload env).toBytes) (hrows : stranded k.txId = k.stranded ++ k.rows env)
    (hlength : k.dataSegments.length = k.mutations.length) (hsegment : k.commitSegment = j)
    (hend : k.endPos = (Frames.bytes ((log ++ [(j, r)]).map plainFrame)).length) :
    Means env (log ++ [(j, r)]) (update stranded k.txId []) (entries ++ [k]) where
  known := h.known_concat known
  committed start := by
    rw [rawFrom_concat, TxLog.committed_append, filter_append]
    refine rel_append (h.committed start) ?_
    by_cases hle : start ≤ j
    · rw [if_pos hle, hr, filter_cons_of_pos (by simpa [hsegment] using hle)]
      refine .cons ⟨hid, hpayload, ?_⟩ .nil
      rw [← hrows]
      exact h.pending start k.txId
    · rw [if_neg hle, filter_cons_of_neg (by simpa [hsegment] using hle)]
      exact .nil
  pending := h.pending_ended k.txId last (.inl ⟨r, hr⟩)
  within := h.within_update (forall_mem_nil _)
  ordered := h.ordered_update List.Pairwise.nil
  inOrder := by
    refine forall_mem_append.2 ⟨h.inOrder, forall_mem_singleton.2 ⟨hlength, ?_⟩⟩
    have hordered := h.ordered k.txId
    rwa [hrows, map_append, CommitEntry.rows_fst env hlength] at hordered
  ends := by
    rw [commitEnds_concat, h.ends, hr, ← hend, map_append]
    rfl

end

end Means

/-! ### The records of appends -/

section Appends
variable {c : Crypto} {w : WalWriter} {a : Append} {as bs : List Append}

theorem known_recordFor (c : Crypto) (w : WalWriter) (a : Append) : (w.recordFor c a).Known :=
  ⟨a.recordType, tryFrom_toByte a.recordType⟩

theorem placedBy_append (c : Crypto) (w : WalWriter) (as bs : List Append) :
    w.placedBy c (as ++ bs) = w.placedBy c as ++ (w.appendAll c as).2.placedBy c bs := by
  induction as generalizing w with
  | nil => rfl
  | cons a as ih =>
    rw [cons_append, WalWriter.placedBy, WalWriter.placedBy, ih]
    rfl

theorem appendAll_append (c : Crypto) (w : WalWriter) (as bs : List Append) :
    (w.appendAll c (as ++ bs)).2 = ((w.appendAll c as).2.appendAll c bs).2 := by
  induction as generalizing w with
  | nil => rfl
  | cons a as ih => exact ih _

theorem length_placedBy (c : Crypto) (w : WalWriter) (as : List Append) : (w.placedBy c as).length = as.length := by
  induction as generalizing w with
  | nil => rfl
  | cons a as ih => exact congrArg (· + 1) (ih _)

theorem stamped_append (txId : UInt64) (stamps : Nat → Stamp) (ws ws' : List (RecordType × Bytes)) :
    stamped txId stamps (ws ++ ws') = stamped txId stamps ws ++ stamped txId (fun i => stamps (i + ws.length)) ws' := by
  induction ws generalizing stamps with
  | nil => rfl
  | cons w ws ih => exact congrArg (cons _) (ih _)

theorem length_stamped (txId : UInt64) (stamps : Nat → Stamp) (ws : List (RecordType × Bytes)) :
    (stamped txId stamps ws).length = ws.length := by
  induction ws generalizing stamps with
  | nil => rfl
  | cons w ws ih => exact congrArg (· + 1) (ih _)

theorem take_stamped (txId : UInt64) (stamps : Nat → Stamp) (ws : List (RecordType × Bytes)) (n : Nat) :
    (stamped txId stamps ws).take n = stamped txId stamps (ws.take n) := by
  have hsplit := stamped_append txId stamps (ws.take n) (ws.drop n)
  rw [take_append_drop] at hsplit
  rw [hsplit, take_append, take_of_length_le]
  · rcases Nat.lt_or_ge n ws.length with hlt | hge
    · rw [length_stamped, length_take, Nat.min_eq_left hlt.le, Nat.sub_self, take_zero, append_nil]
    · rw [drop_eq_nil_of_le hge]
      simp [stamped]
  · rw [length_stamped, length_take]
    exact Nat.min_le_left _ _

theorem exists_stamped (txId : UInt64) (stamps : Nat → Stamp) {ws : List (RecordType × Bytes)} {x : RecordType × Bytes}
    (h : x ∈ ws) : ∃ a ∈ stamped txId stamps ws, (a.recordType, a.payload) = x := by
  induction ws generalizing stamps with
  | nil => cases h
  | cons w ws ih =>
    rcases mem_cons.1 h with rfl | hrest
    · exact ⟨_, mem_cons_self, rfl⟩
    · obtain ⟨a, ha, hx⟩ := ih (fun i => stamps (i + 1)) hrest
      exact ⟨a, mem_cons_of_mem _ ha, hx⟩

end Appends

end VectorLedger.Tx
