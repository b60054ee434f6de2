import VectorLedger.Theorems.Counter
import VectorLedger.Theorems.Streaming

/-! The two recoveries side by side. They commit the same transactions, but the one that collects sorts them, and counts
    others as discarded. -/

namespace VectorLedger.Wal

open Wal.Sample List Frames
open TxLog (rowsOf committedFrom pendingFrom)

/-! ### What the loops give -/

theorem collectItems_run (v : Verifier) (verify : Bool) (items : List (Except WalError Record)) (s : Collected) :
    collectItems v verify s items = ((recordReader v verify).run s.pending s.lastSequence s.committed items).2.map fun x =>
        Collected.result ⟨x.1, ((recordReader v verify).run s.pending s.lastSequence s.committed items).1, x.2.1⟩ x.2.2 := by
  induction items generalizing s with
  | nil => rfl
  | cons item items ih =>
    cases item with
    | error e =>
      rw [collectItems, Reader.run]
      split <;> rfl
    | ok r =>
      rw [collectItems, Reader.run, collectRecord_eq]
      cases (recordReader v verify).step s.pending r with
      | error => rfl
      | ok x => exact ih ⟨x.1, s.committed ++ x.2.toList, maxSequence s.lastSequence r⟩

/-! ### Transactions left open -/

/-- The begin and data records of a transaction since it last ended, one record further. -/
def openStep (tx : Nat) (left : List Record) (r : Record) : List Record :=
  if r.header.txId.toNat = tx then
    match RecordType.tryFrom r.header.recordType with
    | .ok .begin | .ok .data => left ++ [r]
    | .ok .commit | .ok .rollback => []
    | _ => left
  else left

/-- The begin and data records of a transaction since its last commit or rollback. -/
def openRecords (rs : List Record) (tx : Nat) : List Record := rs.foldl (openStep tx) []

/-- A reader that takes rows by `row` makes an entry for the transaction of this record. -/
def Opens {α : Type} (row : Record → Option α) (r : Record) : Prop :=
  RecordType.tryFrom r.header.recordType = .ok .begin ∨ (row r).isSome

theorem mem_read {α : Type} {row : Record → Option α} {p : TxLog.Pending α} {left : List Record} {tx : Nat}
    (h : tx ∈ p ↔ ∃ r ∈ left, Opens row r) (r : Record) :
    tx ∈ (TxLog.read p (txRecord row r)).1 ↔ ∃ r' ∈ openStep tx left r, Opens row r' := by
  cases hty : RecordType.tryFrom r.header.recordType with
  | error => simp [txRecord, hty, TxLog.read, openStep, h]
  | ok ty =>
    by_cases htx : r.header.txId.toNat = tx
    · cases ty with
      | begin => simp [txRecord, hty, TxLog.read, openStep, htx, or_and_right, exists_or, Opens]
      | data =>
        cases hrow : row r with
        | none => simp [txRecord, hty, hrow, TxLog.read, openStep, htx, or_and_right, exists_or, Opens, h]
        | some => simp [txRecord, hty, hrow, TxLog.read, openStep, htx, or_and_right, exists_or, Opens]
      | commit | rollback => simp [txRecord, hty, TxLog.read, openStep, htx]
      | _ => simp [txRecord, hty, TxLog.read, openStep, h]
    · have hne : tx ≠ r.header.txId.toNat := fun heq => htx heq.symm
      cases ty with
      | data => cases hrow : row r <;> simp [txRecord, hty, hrow, TxLog.read, openStep, htx, hne, h]
      | _ => simp [txRecord, hty, TxLog.read, openStep, htx, hne, h]

theorem mem_pendingFrom {α : Type} (row : Record → Option α) (rs : List Record) (tx : Nat) :
    tx ∈ pendingFrom ∅ (rs.map (txRecord row)) ↔ ∃ r ∈ openRecords rs tx, Opens row r := by
  induction rs using reverseRecOn with
  | nil => simp [pendingFrom, openRecords, Finmap.notMem_empty]
  | append_singleton rs r ih =>
    rw [map_append, TxLog.pendingFrom_append, openRecords, foldl_append]
    exact mem_read ih r

/-- Of every transaction that is left open there is a begin record or a data record that can be decoded. -/
def NoneUnseen (rs : List Record) : Prop :=
  ∀ tx, openRecords rs tx ≠ [] → ∃ r ∈ openRecords rs tx, Opens decodeDataPayload r

theorem discarded_eq_iff (rs : List Record) :
    (pendingFrom ∅ (rs.map (txRecord some))).keys.card = (pendingFrom ∅ (rs.map (txRecord decodeDataPayload))).keys.card ↔
      NoneUnseen rs := by
  have hall : ∀ tx, tx ∈ (pendingFrom ∅ (rs.map (txRecord some))).keys ↔ openRecords rs tx ≠ [] := by
    intro tx
    rw [Finmap.mem_keys, mem_pendingFrom]
    simp [Opens, eq_nil_iff_forall_not_mem]
  have hseen : ∀ tx, tx ∈ (pendingFrom ∅ (rs.map (txRecord decodeDataPayload))).keys ↔
      ∃ r ∈ openRecords rs tx, Opens decodeDataPayload r := by
    intro tx
    rw [Finmap.mem_keys, mem_pendingFrom]
  have hsub : (pendingFrom ∅ (rs.map (txRecord decodeDataPayload))).keys ⊆ (pendingFrom ∅ (rs.map (txRecord some))).keys := by
    intro tx htx
    obtain ⟨r, hr, -⟩ := (hseen tx).1 htx
    exact (hall tx).2 (ne_nil_of_mem hr)
  constructor
  · intro hcard tx hopen
    have heq := Finset.eq_of_subset_of_card_le hsub hcard.le
    exact (hseen tx).1 (heq ▸ (hall tx).2 hopen)
  · intro hunseen
    congr 1
    exact (hsub.antisymm fun tx htx => (hseen tx).2 (hunseen tx ((hall tx).1 htx))).symm

/-! ### Order of the commits -/

def Record.isCommit (r : Record) : Bool := RecordType.tryFrom r.header.recordType matches .ok .commit

/-- The commit records are in the order of their sequence numbers. -/
def CommitsInOrder (rs : List Record) : Prop :=
  (rs.filter Record.isCommit).Pairwise fun a b => a.header.sequence ≤ b.header.sequence

theorem commits_of_committedFrom (q : TxLog.Pending Record) (rs : List Record) :
    (committedFrom q (rs.map (txRecord some))).map (·.info) = rs.filter Record.isCommit := by
  induction rs generalizing q with
  | nil => rfl
  | cons r rs ih =>
    rw [map_cons, committedFrom, map_append, ih, filter_cons]
    cases hty : RecordType.tryFrom r.header.recordType with
    | error => simp [txRecord, hty, TxLog.read, Record.isCommit]
    | ok ty => cases ty <;> simp [txRecord, hty, TxLog.read, Record.isCommit]

theorem sorted_iff (ts : List CommittedTransaction) :
    (ts.insertionSort sequenceLE).map CommittedTransaction.summary = ts.map CommittedTransaction.summary ↔
      (ts.map (·.commitRecord)).Pairwise fun a b => a.header.sequence ≤ b.header.sequence := by
  have hrel : ∀ us : List CommittedTransaction, us.Pairwise sequenceLE ↔
      (us.map (·.commitRecord)).Pairwise fun a b => a.header.sequence ≤ b.header.sequence := by
    intro us
    rw [pairwise_map]
    rfl
  have : Std.Total sequenceLE := ⟨fun a b => UInt64.le_total _ _⟩
  have : IsTrans CommittedTransaction sequenceLE := ⟨fun a b c => UInt64.le_trans⟩
  constructor
  · intro h
    have hcommits := congrArg (map fun x : UInt64 × Record × List DataPayload => x.2.1) h
    rw [map_map, map_map] at hcommits
    have hsorted := (hrel _).1 (pairwise_insertionSort sequenceLE ts)
    exact hcommits ▸ hsorted
  · intro h
    rw [((hrel ts).2 h).insertionSort_eq]

/-! ### Agreement -/

/-- The recoveries fail alike, or give the same transactions in the same order with the same payloads, and the same
    discarded count, last sequence number and torn-write flag. -/
def Agree : Except RecoveryError RecoveryResult → List CommittedTransaction × Except RecoveryError RecoveryResult → Prop
  | .ok collected, (calls, .ok streamed) =>
    collected.committed.map CommittedTransaction.summary = calls.map CommittedTransaction.summary ∧
      collected.discardedTxCount = streamed.discardedTxCount ∧ collected.lastSequence = streamed.lastSequence ∧
      collected.tornWriteDetected = streamed.tornWriteDetected
  | .error e, (_, .error e') => e = e'
  | _, _ => False

theorem agree_result {s : Collected} {p : Pending} {calls : List CommittedTransaction} {torn : Bool}
    (hcalls : calls.map CommittedTransaction.summary = s.committed.map CommittedTransaction.summary)
    (hsequence : p.lastSequence = s.lastSequence) :
    Agree (.ok (s.result torn)) (calls, .ok (p.result torn)) ↔
      ((s.committed.map (·.commitRecord)).Pairwise fun a b => a.header.sequence ≤ b.header.sequence) ∧
        s.pending.keys.card = p.payloads.keys.card + p.raw.keys.card := by
  rw [← sorted_iff]
  simp [Agree, Collected.result, Pending.result, hcalls, hsequence]

/-- Neither recovery fails on what is read: all records are of known types, the files end or are torn, and where signatures
    are verified every commit passes. -/
structure Accepted (v : Verifier) (verify : Bool) (items : List (Except WalError Record)) : Prop where
  known : failure items = none
  signed : verify = true → ∀ t ∈ committedFrom ∅ ((good items).map (txRecord some)), verifyCommitFull v t.info t.rows = .ok ()

theorem accepted_iff {v : Verifier} {verify : Bool} {items : List (Except WalError Record)} :
    Accepted v verify items ↔ ∃ res, ((recordReader v verify).run ∅ 0 [] items).2 = .ok res := by
  constructor
  · intro h
    have hrun := (recordReader v verify).run_result items ∅ (fun t ht => by
      cases verify with
      | false => rfl
      | true => exact h.signed rfl t ht) 0 []
    rwa [h.known] at hrun
  · rintro ⟨res, hres⟩
    obtain ⟨ts, -, hchecked, -, hok⟩ := (recordReader v verify).run_spec items ∅ 0 []
    obtain ⟨rfl, -⟩ := hok res hres
    refine ⟨?_, ?_⟩
    · have hrun := (recordReader v verify).run_result items ∅ hchecked 0 []
      cases hfailure : failure items with
      | none => rfl
      | some e =>
        rw [hfailure] at hrun
        cases hrun.symm.trans hres
    · rintro rfl t ht
      exact hchecked t ht

/-- On any files, the two recoveries agree exactly if, where what is read is accepted, the commits are in the order of their
    sequence numbers and, when no signatures are verified, no transaction is left of which the streaming one has seen
    nothing. -/
theorem recoveries_agree_iff (c : Crypto) (v : Verifier) (d : Dir) (masterKey : Option WalKey) (verifySignatures : Bool) :
    Agree (recoverWithOptions c v d masterKey verifySignatures) (streamed c v d masterKey verifySignatures none 0) ↔
      (Accepted v verifySignatures (readDir c masterKey d) → CommitsInOrder (good (readDir c masterKey d)) ∧
        (verifySignatures = false → NoneUnseen (good (readDir c masterKey d)))) := by
  unfold recoverWithOptions streamed recoverStreaming
  rw [fromSegment_zero]
  generalize readDir c masterKey d = items
  rw [collectItems_run, show Collected.start = ⟨∅, [], 0⟩ from rfl]
  obtain ⟨ts, -, -, hcalls, hok⟩ := (recordReader v verifySignatures).run_spec items ∅ 0 []
  have hcommits : ((committedFrom ∅ ((good items).map (txRecord some))).map ofRecords).map (·.commitRecord) =
      (good items).filter Record.isCommit := by
    rw [map_map]
    exact commits_of_committedFrom ∅ (good items)
  have haccepted : Accepted v verifySignatures items ↔ _ := accepted_iff
  cases verifySignatures with
  | false =>
    have hcollect := (recordReader v false).run_result items ∅ (fun _ _ => rfl) 0 []
    have hstream := (payloadReader none).run_result items ∅ (fun _ _ => rfl) 0 []
    obtain ⟨us, -, -, hreported, hread⟩ := (payloadReader none).run_spec items ∅ 0 []
    rw [streamItems_unverified]
    cases hfailure : failure items with
    | some e =>
      rw [hfailure] at hcollect hstream
      rw [hcollect, hstream]
      exact iff_of_true rfl fun h => by cases hfailure.symm.trans h.known
    | none =>
      rw [hfailure] at hcollect hstream
      rw [imp_iff_right (haccepted.2 hcollect)]
      obtain ⟨x, hx⟩ := hcollect
      obtain ⟨y, hy⟩ := hstream
      obtain ⟨rfl, rfl⟩ := hok x hx
      obtain ⟨rfl, rfl⟩ := hread y hy
      have hdiscarded := discarded_eq_iff (good items)
      rw [hx, hy, hcalls, hreported]
      refine (agree_result (summary_ofPayloads (good items)) rfl).trans ?_
      simpa [CommitsInOrder, ← hcommits, Reader.log, recordReader, payloadReader, keptPayload_none]
        using fun _ => hdiscarded
  | true =>
    rw [streamItems_verified]
    rcases hrun : (recordReader v true).run ∅ 0 [] items with ⟨calls, e | x⟩
    · refine iff_of_true rfl fun h => ?_
      obtain ⟨res, hres⟩ := haccepted.1 h
      rw [hrun] at hres
      cases hres
    · rw [imp_iff_right (haccepted.2 ⟨x, by rw [hrun]⟩)]
      rw [hrun] at hcalls hok
      obtain ⟨rfl, rfl⟩ := hok x rfl
      obtain rfl : calls = _ := hcalls
      refine (agree_result rfl rfl).trans ?_
      simp [CommitsInOrder, ← hcommits, Reader.log, recordReader]

/-! ### Samples -/

namespace Sample

def verifier : Verifier where
  blake3 _ := zeroHash
  verify _ _ _ := .error (.mismatch "signature error")
  decodeError _ := "unexpected end"

/-- A transaction fills the first segment, the process dies when the next one is made, and another transaction follows. -/
def restarted : List SessionEvent :=
  [.openWriter 114 none, .append (append 1 .begin), .append (append 0 .checkpoint), .append (append 1 .commit),
    .crash (append 2 .begin) 0, .openWriter 114 none, .append (append 2 .begin), .append (append 2 .commit), .close]

def undecodable : List SessionEvent := [.openWriter 114 none, .append (append 1 .data), .close]

end Sample

instance (a : Except RecoveryError RecoveryResult) (b : List CommittedTransaction × Except RecoveryError RecoveryResult) :
    Decidable (Agree a b) := by
  rcases a with _ | _ <;> rcases b with ⟨_, _ | _⟩ <;> unfold Agree <;> infer_instance

/-- After the sequence numbers have started again, the collecting recovery reports the second transaction before the first
    one; and it counts a transaction as discarded that the streaming one does not know of. -/
theorem recoveries_differ : (∃ j, Run.exec (Journal.step crypto) Journal.start restarted = some j ∧
      (recover crypto verifier j.log.dir).map (·.committed.map (·.txId)) = .ok [2, 1] ∧
      (streamed crypto verifier j.log.dir none false none 0).1.map (·.txId) = [1, 2] ∧
      ¬Agree (recover crypto verifier j.log.dir)
        (streamed crypto verifier j.log.dir none false none 0)) ∧
    (∃ j, Run.exec (Journal.step crypto) Journal.start undecodable = some j ∧
      (recover crypto verifier j.log.dir).map (·.discardedTxCount) = .ok 1 ∧
      (streamed crypto verifier j.log.dir none false none 0).2.map (·.discardedTxCount) = .ok 0) := by
  decide +kernel

end VectorLedger.Wal
