import VectorLedger.Wal.Recovery

/-! The loops of recovery read a log of transactions. Each is a reader as in `TxLog`. -/

namespace VectorLedger

open List Frames

namespace Wal

open TxLog (rowsOf committedFrom pendingFrom)

/-! ### Records of transactions -/

def txRecord {α : Type} (row : Record → Option α) (r : Record) : TxLog.Record Unit α Record :=
  match RecordType.tryFrom r.header.recordType with
  | .ok .begin => .begin r.header.txId.toNat ()
  | .ok .data =>
    match row r with
    | some a => .data r.header.txId.toNat a
    | none => .mark
  | .ok .commit => .commit r.header.txId.toNat r
  | .ok .rollback => .rollback r.header.txId.toNat
  | _ => .mark

/-- The record has a type. -/
def Record.Known (r : Record) : Prop := ∃ t, RecordType.tryFrom r.header.recordType = .ok t

def ofPayloads (t : TxLog.Committed DataPayload Record) : CommittedTransaction :=
  ⟨t.info.header.txId, t.info, t.rows, []⟩

def ofRecords (t : TxLog.Committed Record Record) : CommittedTransaction :=
  ⟨t.info.header.txId, t.info, t.rows.filterMap decodeDataPayload, t.rows⟩

theorem txRecord_filterRow {α γ : Type} (row : Record → Option α) (f : α → Option γ) (r : Record) :
    (txRecord row r).filterRow f = txRecord (fun r => (row r).bind f) r := by
  cases hty : RecordType.tryFrom r.header.recordType with
  | error => simp only [txRecord, hty, TxLog.Record.filterRow]
  | ok ty =>
    cases ty with
    | data =>
      cases hrow : row r with
      | none => simp only [txRecord, hty, hrow, TxLog.Record.filterRow, Option.bind_none]
      | some a =>
        cases hf : f a with
        | none | some => simp only [txRecord, hty, hrow, TxLog.Record.filterRow, Option.bind_some, hf]
    | _ => simp only [txRecord, hty, TxLog.Record.filterRow]

theorem tryFrom_toByte (t : RecordType) : RecordType.tryFrom t.toByte = .ok t := by
  cases t <;> rfl

/-! ### The loops as readers -/

/-- A loop of recovery: the row it keeps of a data record, the check it makes at a commit and the transaction it reports. -/
structure Reader (α : Type) where
  row : Record → Option α
  check : TxLog.Committed α Record → Except RecoveryError Unit
  report : TxLog.Committed α Record → CommittedTransaction

def payloadReader (skip : Option UInt32) : Reader DataPayload := ⟨keptPayload skip, fun _ => .ok (), ofPayloads⟩

def recordReader (v : Verifier) (verify : Bool) : Reader Record :=
  ⟨some, fun t => if verify then verifyCommitFull v t.info t.rows else .ok (), ofRecords⟩

namespace Reader
variable {α : Type} (rd : Reader α)

def step (q : TxLog.Pending α) (r : Record) : Except RecoveryError (TxLog.Pending α × Option CommittedTransaction) :=
  match RecordType.tryFrom r.header.recordType, TxLog.read q (txRecord rd.row r) with
  | .error e, _ => .error e
  | .ok _, (q, none) => .ok (q, none)
  | .ok _, (q, some t) => (rd.check t).map fun _ => (q, some (rd.report t))

/-- The transactions that are reported, and what is left pending with the last sequence number and the torn-write flag. -/
def run (q : TxLog.Pending α) (n : UInt64) (calls : List CommittedTransaction) :
    List (Except WalError Record) → List CommittedTransaction × Except RecoveryError (TxLog.Pending α × UInt64 × Bool)
  | [] => (calls, .ok (q, n, false))
  | .error e :: _ => (calls, if e.isTorn then .ok (q, n, true) else .error (.reader e))
  | .ok r :: items =>
    match rd.step q r with
    | .error e => (calls, .error e)
    | .ok (q, t) => run q (maxSequence n r) (calls ++ t.toList) items

def log (items : List (Except WalError Record)) : List (TxLog.Record Unit α Record) := (good items).map (txRecord rd.row)

end Reader

def stopsTorn : List (Except WalError Record) → Bool
  | [] => false
  | .ok _ :: items => stopsTorn items
  | .error e :: _ => e.isTorn

/-- The error that ends every reader: a record of an unknown type, or an error of the file that is no torn write. -/
def failure : List (Except WalError Record) → Option RecoveryError
  | [] => none
  | .error e :: _ => if e.isTorn then none else some (.reader e)
  | .ok r :: items =>
    match RecordType.tryFrom r.header.recordType with
    | .error e => some e
    | .ok _ => failure items

namespace Reader
variable {α : Type} (rd : Reader α)

theorem run_spec (items : List (Except WalError Record)) (q : TxLog.Pending α) (n : UInt64)
    (calls : List CommittedTransaction) :
    ∃ ts, ts <+: committedFrom q (rd.log items) ∧ (∀ t ∈ ts, rd.check t = .ok ()) ∧
      (rd.run q n calls items).1 = calls ++ ts.map rd.report ∧
      ∀ res, (rd.run q n calls items).2 = .ok res → ts = committedFrom q (rd.log items) ∧
        res = (pendingFrom q (rd.log items), (good items).foldl maxSequence n, stopsTorn items) := by
  induction items generalizing q n calls with
  | nil => exact ⟨[], nil_prefix, nofun, by simp [run], by simp [run, log, good, committedFrom, pendingFrom, stopsTorn]⟩
  | cons item items ih =>
    cases item with
    | error e =>
      refine ⟨[], nil_prefix, nofun, by simp [run], fun res hres => ?_⟩
      rw [run] at hres
      cases htorn : e.isTorn with
      | false => simp [htorn] at hres
      | true =>
        simp only [htorn, if_true, Except.ok.injEq] at hres
        simp [log, good, committedFrom, pendingFrom, stopsTorn, htorn, ← hres]
    | ok r =>
      cases hty : RecordType.tryFrom r.header.recordType with
      | error => exact ⟨[], nil_prefix, nofun, by simp [run, step, hty], by simp [run, step, hty]⟩
      | ok =>
        rcases hread : TxLog.read q (txRecord rd.row r) with ⟨q', _ | t⟩ <;>
          simp only [run, step, hty, hread, log, good, map_cons, committedFrom, pendingFrom, foldl_cons, stopsTorn,
            Option.toList_none, nil_append, append_nil]
        · exact ih q' (maxSequence n r) calls
        · cases hcheck : rd.check t with
          | error => exact ⟨[], nil_prefix, nofun, by simp [Except.map], by simp [Except.map]⟩
          | ok =>
            obtain ⟨ts, hts, hchecked, hcalls, hres⟩ := ih q' (maxSequence n r) (calls ++ [rd.report t])
            refine ⟨t :: ts, (prefix_cons_inj t).2 hts, forall_mem_cons.2 ⟨hcheck, hchecked⟩, ?_, fun res h => ?_⟩
            · rw [map_cons, append_cons]
              exact hcalls
            · obtain ⟨rfl, rfl⟩ := hres res h
              exact ⟨rfl, rfl⟩

theorem run_result (items : List (Except WalError Record)) (q : TxLog.Pending α)
    (checked : ∀ t ∈ committedFrom q (rd.log items), rd.check t = .ok ()) (n : UInt64) (calls : List CommittedTransaction) :
    match failure items with
    | some e => (rd.run q n calls items).2 = .error e
    | none => ∃ res, (rd.run q n calls items).2 = .ok res := by
  induction items generalizing q n calls with
  | nil => exact ⟨_, rfl⟩
  | cons item items ih =>
    cases item with
    | error e => cases htorn : e.isTorn <;> simp [failure, run, htorn]
    | ok r =>
      rw [log, good, map_cons, committedFrom, forall_mem_append] at checked
      cases hty : RecordType.tryFrom r.header.recordType with
      | error => simp [failure, run, step, hty]
      | ok =>
        simp only [failure, run, step, hty]
        rcases hread : TxLog.read q (txRecord rd.row r) with ⟨q', _ | t⟩
        · rw [hread] at checked
          exact ih _ checked.2 _ _
        · rw [hread] at checked
          simp only [checked.1 t (by simp)]
          exact ih _ checked.2 _ _

end Reader

section Steps
variable {v : Verifier} {skip : Option UInt32}

theorem streamRecord_unverified (q : TxLog.Pending DataPayload) (n : UInt64) (r : Record) :
    streamRecord v false skip ⟨q, ∅, n⟩ r =
      ((payloadReader skip).step q r).map fun x => (⟨x.1, ∅, maxSequence n r⟩, x.2) := by
  cases hty : RecordType.tryFrom r.header.recordType with
  | error => simp only [streamRecord, Reader.step, hty]; rfl
  | ok ty =>
    cases ty with
    | data =>
      cases hrow : keptPayload skip r with
      | none | some => simp only [streamRecord, Reader.step, payloadReader, txRecord, hty, hrow]; rfl
    | _ => simp only [streamRecord, Reader.step, txRecord, hty]; rfl

theorem streamRecord_verified (q : TxLog.Pending Record) (n : UInt64) (r : Record) : streamRecord v true skip ⟨∅, q, n⟩ r =
      ((recordReader v true).step q r).map fun x => (⟨∅, x.1, maxSequence n r⟩, x.2) := by
  cases hty : RecordType.tryFrom r.header.recordType with
  | error => simp only [streamRecord, Reader.step, hty]; rfl
  | ok ty =>
    cases ty with
    | commit =>
      simp only [streamRecord, Reader.step, recordReader, txRecord, hty, TxLog.read, bind, Except.bind, if_true]
      cases verifyCommitFull v r (rowsOf q r.header.txId.toNat) <;> rfl
    | _ => simp only [streamRecord, Reader.step, recordReader, txRecord, hty]; rfl

theorem collectRecord_eq (verify : Bool) (s : Collected) (r : Record) :
    collectRecord v verify s r = ((recordReader v verify).step s.pending r).map fun x =>
      ⟨x.1, s.committed ++ x.2.toList, maxSequence s.lastSequence r⟩ := by
  cases hty : RecordType.tryFrom r.header.recordType with
  | error => simp only [collectRecord, Reader.step, hty]; rfl
  | ok ty =>
    cases ty with
    | commit =>
      simp only [collectRecord, Reader.step, recordReader, txRecord, hty, TxLog.read, bind, Except.bind]
      cases verify with
      | false => rfl
      | true =>
        simp only [if_true]
        cases verifyCommitFull v r (rowsOf s.pending r.header.txId.toNat) <;> rfl
    | _ =>
      simp only [collectRecord, Reader.step, recordReader, txRecord, hty]
      exact congrArg (fun cs => Except.ok (Collected.mk _ cs _)) (append_nil _).symm

end Steps

/-! ### Whole logs -/

theorem keptPayload_none : keptPayload none = decodeDataPayload := rfl

theorem fromSegment_zero (d : Dir) : d.fromSegment 0 = d := by
  simp [Dir.fromSegment]

def CommittedTransaction.summary (t : CommittedTransaction) : UInt64 × Record × List DataPayload :=
  (t.txId, t.commitRecord, t.dataPayloads)

theorem summary_ofPayloads (rs : List Record) :
    ((committedFrom ∅ (rs.map (txRecord decodeDataPayload))).map ofPayloads).map CommittedTransaction.summary =
      ((committedFrom ∅ (rs.map (txRecord some))).map ofRecords).map CommittedTransaction.summary := by
  have hrows : committedFrom ∅ ((rs.map (txRecord some)).map (TxLog.Record.filterRow decodeDataPayload)) =
      (committedFrom ∅ (rs.map (txRecord some))).map fun t => ⟨t.tx, t.rows.filterMap decodeDataPayload, t.info⟩ :=
    TxLog.committedFrom_filterRow fun tx => by simp
  rw [map_map, show TxLog.Record.filterRow decodeDataPayload ∘ txRecord some = txRecord decodeDataPayload from
    funext (txRecord_filterRow some decodeDataPayload)] at hrows
  simp only [hrows, map_map]
  rfl

section Runs
variable {ε α : Type} (v : Verifier) (fromWal : RecoveryError → ε) (skip : Option UInt32) {tail : List (Except WalError Record)} {rs : List Record}

theorem streamItems_run {rd : Reader α} {verify : Bool} (pack : TxLog.Pending α → UInt64 → Pending)
    (step : ∀ q n r, streamRecord v verify skip (pack q n) r = (rd.step q r).map fun x => (pack x.1 (maxSequence n r), x.2))
    (items : List (Except WalError Record)) (q : TxLog.Pending α) (n : UInt64) (calls : List CommittedTransaction) :
    streamItems v fromWal verify skip noteCall (pack q n) calls items = ((rd.run q n calls items).1,
        ((rd.run q n calls items).2.mapError fromWal).map fun x => (pack x.1 x.2.1).result x.2.2) := by
  induction items generalizing q n calls with
  | nil => rfl
  | cons item items ih =>
    cases item with
    | error e =>
      rw [streamItems, Reader.run]
      split <;> rfl
    | ok r =>
      rw [streamItems, Reader.run, step]
      rcases rd.step q r with e | ⟨q', _ | t⟩
      · rfl
      · simp only [Option.toList_none, append_nil]
        exact ih q' (maxSequence n r) calls
      · exact ih q' (maxSequence n r) (calls ++ [t])

theorem streamItems_verified (items : List (Except WalError Record)) :
    streamItems v fromWal true skip noteCall .start [] items = (((recordReader v true).run ∅ 0 [] items).1,
        (((recordReader v true).run ∅ 0 [] items).2.mapError fromWal).map fun x => Pending.result ⟨∅, x.1, x.2.1⟩ x.2.2) :=
  streamItems_run v fromWal skip (fun q n => ⟨∅, q, n⟩) streamRecord_verified items ∅ 0 []

theorem streamItems_unverified (items : List (Except WalError Record)) :
    streamItems v fromWal false skip noteCall .start [] items = (((payloadReader skip).run ∅ 0 [] items).1,
        (((payloadReader skip).run ∅ 0 [] items).2.mapError fromWal).map fun x => Pending.result ⟨x.1, ∅, x.2.1⟩ x.2.2) :=
  streamItems_run v fromWal skip (fun q n => ⟨q, ∅, n⟩) streamRecord_unverified items ∅ 0 []

/-- The reader has come to the end, or to an error that is taken for a torn write. -/
def EndsTorn (tail : List (Except WalError Record)) : Prop :=
  tail = [] ∨ ∃ e rest, tail = .error e :: rest ∧ e.isTorn = true

theorem failure_eq_none (known : ∀ r ∈ rs, r.Known)
    (ends : EndsTorn tail) : failure (rs.map Except.ok ++ tail) = none := by
  induction rs with
  | nil =>
    rcases ends with rfl | ⟨e, rest, rfl, htorn⟩
    · rfl
    · simp [failure, htorn]
  | cons r rs ih =>
    obtain ⟨⟨ty, hty⟩, hrest⟩ := forall_mem_cons.1 known
    simp only [map_cons, cons_append, failure, hty]
    exact ih hrest

theorem Reader.run_all (rd : Reader α) (known : ∀ r ∈ rs, r.Known)
    (checked : ∀ t ∈ TxLog.committed (rs.map (txRecord rd.row)), rd.check t = .ok ())
    (ends : EndsTorn tail) :
    ∃ res, rd.run ∅ 0 [] (rs.map Except.ok ++ tail) =
      ((TxLog.committed (rs.map (txRecord rd.row))).map rd.report, .ok res) := by
  have hlog : rd.log (rs.map Except.ok ++ tail) = rs.map (txRecord rd.row) := by
    rw [Reader.log, good_append_ok]
    rcases ends with rfl | ⟨e, rest, rfl, -⟩ <;> simp [good]
  obtain ⟨ts, -, -, hcalls, hok⟩ := rd.run_spec (rs.map Except.ok ++ tail) ∅ 0 []
  have hres := rd.run_result (rs.map Except.ok ++ tail) ∅ (by rwa [hlog]) 0 []
  rw [failure_eq_none known ends] at hres
  obtain ⟨res, hres⟩ := hres
  obtain ⟨rfl, -⟩ := hok res hres
  exact ⟨res, Prod.ext (by rw [hcalls, hlog]; rfl) hres⟩

theorem streamItems_all (verify : Bool) (known : ∀ r ∈ rs, r.Known)
    (checked : verify = true → ∀ t ∈ TxLog.committed (rs.map (txRecord some)), verifyCommitFull v t.info t.rows = .ok ())
    (ends : EndsTorn tail) :
    (streamItems v fromWal verify none noteCall .start [] (rs.map Except.ok ++ tail)).1.map CommittedTransaction.summary =
        ((TxLog.committed (rs.map (txRecord some))).map ofRecords).map CommittedTransaction.summary ∧
      ∃ res, (streamItems v fromWal verify none noteCall .start [] (rs.map Except.ok ++ tail)).2 = .ok res := by
  cases verify with
  | false =>
    obtain ⟨res, hrun⟩ := (payloadReader none).run_all known (fun _ _ => rfl) ends
    rw [streamItems_unverified, hrun]
    exact ⟨summary_ofPayloads rs, _, rfl⟩
  | true =>
    obtain ⟨res, hrun⟩ := (recordReader v true).run_all known (checked rfl) ends
    rw [streamItems_verified, hrun]
    exact ⟨rfl, _, rfl⟩

end Runs

end Wal

end VectorLedger
