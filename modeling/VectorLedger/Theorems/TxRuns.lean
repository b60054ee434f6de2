import VectorLedger.Theorems.TxLogs

/-! Runs of transaction managers on one log. A crash in a commit strands its first rows there, under an id that a later
    session gives out again. -/

namespace VectorLedger.Tx

open Function Tx.TransactionManager List Wal

/-! ### A run and what it has committed -/

/-- A database, and what was done to it. -/
structure Tracked where
  db : Db
  /-- The mutations that were added to each transaction since it was begun. -/
  added : UInt64 → List Mutation
  /-- The data records that crashes have left in the log, with their segments, by transaction id. -/
  stranded : UInt64 → List (Nat × Wal.DataPayload)
  /-- The transactions whose commit record was written, in the order of these records. -/
  entries : List CommitEntry

namespace Tracked

def start : Tracked := ⟨.closed [], fun _ => [], fun _ => [], []⟩

def entryOf (env : Env) (t : Tracked) (tm : TransactionManager) (txId : UInt64) (as : List Append) : CommitEntry where
  txId := txId
  mutations := t.added txId
  dataSegments := ((tm.wal.placedBy env.crypto as).map (·.1)).dropLast
  commitSegment := ((tm.wal.placedBy env.crypto as).map (·.1)).getLast?.getD 0
  stranded := t.stranded txId
  signingKey := tm.signingKey
  endPos := filesLength (tm.wal.appendAll env.crypto as).2.dir

/-- The first records of a call are written. The data records of a commit are stranded until its commit record
    is written. -/
def note (env : Env) (t : Tracked) (tm : TransactionManager) (call : Call) (stamps : Nat → Stamp) (appended : Nat) :
    Tracked :=
  let as := tm.appends env call stamps
  match call with
  | .commit txId =>
    if as.isEmpty then t
    else if as.length ≤ appended then
      { t with
        stranded := Function.update t.stranded txId []
        entries := t.entries ++ [t.entryOf env tm txId as] }
    else
      { t with
        stranded := Function.update t.stranded txId
          (t.stranded txId ++ ((tm.wal.placedBy env.crypto (as.take appended)).map (·.1)).zip
            ((t.added txId).map (Mutation.payload env))) }
  | .rollback txId =>
    if (as.take appended).isEmpty then t else { t with stranded := Function.update t.stranded txId [] }
  | _ => t

def addedAfter (env : Env) (t : Tracked) (tm : TransactionManager) (call : Call) (stamps : Nat → Stamp) :
    UInt64 → List Mutation :=
  match call with
  | .begin _ => Function.update t.added tm.nextTxId []
  | .addMutation txId m =>
    if (tm.run env call stamps).1 matches .ok () then Function.update t.added txId (t.added txId ++ [m]) else t.added
  | _ => t.added

def step (env : Env) (t : Tracked) (ev : Event) : Option Tracked :=
  (t.db.step env ev).map fun db =>
    match t.db, ev with
    | .opened tm, .call call stamps =>
      { t.note env tm call stamps (tm.appends env call stamps).length with
        db := db
        added := t.addedAfter env tm call stamps }
    | .opened tm, .crash call stamps appended _ =>
      { t.note env tm call stamps appended with db := db, added := fun _ => [] }
    | _, _ => { t with db := db, added := fun _ => [] }

/-- The payloads that a call writes are not too long for the reader. -/
def Fits (env : Env) (t : Tracked) (ev : Event) : Prop :=
  match t.db, ev with
  | .opened tm, .call call stamps => ∀ a ∈ tm.appends env call stamps, a.payload.length ≤ maxRecordPayload
  | .opened tm, .crash call stamps appended _ =>
    ∀ a ∈ (tm.appends env call stamps).take appended, a.payload.length ≤ maxRecordPayload
  | _, _ => True

end Tracked

/-! ### Data records -/

section Data
variable {env : Env} {masterKey : Option WalKey} {stranded : UInt64 → List (Nat × Wal.DataPayload)}
  {entries : List CommitEntry}

def dataWrite (env : Env) (m : Mutation) : RecordType × Bytes := (.data, (m.payload env).toBytes)

theorem length_rowData_le (p : Wal.DataPayload) : p.rowData.length ≤ p.toBytes.length := by
  simp only [DataPayload.toBytes, encodeSeq, length_append]
  omega

theorem decode_dataPayload {p : Wal.DataPayload} {r : Record} (h : r.payload = p.toBytes)
    (small : p.toBytes.length ≤ maxRecordPayload) : decodeDataPayload r = some p := by
  rw [decodeDataPayload, h]
  refine (p.decodes ?_).decode
  have hle := length_rowData_le p
  unfold maxRecordPayload at small
  omega

theorem le_append (lawful : env.crypto.Lawful) {w : WalWriter} {a : Append} {ss : List Segment}
    (files : Files env.crypto masterKey (.writing w) ss) (small : a.payload.length ≤ maxRecordPayload) :
    ∀ y ∈ placed ss, y.1 ≤ (w.append env.crypto a).2.activeIndex := by
  intro y hy
  obtain ⟨-, -, -, hle⟩ := files.append lawful small
  exact (files.le_active hy).trans hle

theorem Means.dataAll (lawful : env.crypto.Lawful) {w : WalWriter} {ss : List Segment}
    (files : Files env.crypto masterKey (.writing w) ss) (h : Means env (placed ss) stranded entries) (txId : UInt64)
    (stamps : Nat → Stamp) (ms : List Mutation)
    (small : ∀ m ∈ ms, (m.payload env).toBytes.length ≤ maxRecordPayload) :
    Means env (placed ss ++ w.placedBy env.crypto (stamped txId stamps (ms.map (dataWrite env))))
      (update stranded txId (stranded txId ++
        ((w.placedBy env.crypto (stamped txId stamps (ms.map (dataWrite env)))).map (·.1)).zip
          (ms.map (Mutation.payload env)))) entries := by
  induction ms generalizing ss stranded w stamps with
  | nil =>
    have hself : update stranded txId (stranded txId ++ []) = stranded := by simp
    simpa [stamped, WalWriter.placedBy] using h
  | cons m ms ih =>
    rw [forall_mem_cons] at small
    rw [map_cons, stamped]
    generalize ha : (stamps 0).append txId (dataWrite env m) = a
    have hsmall : a.payload.length ≤ maxRecordPayload := by
      subst ha
      exact small.1
    have htx : txRecord some (w.recordFor env.crypto a) = .data txId.toNat (w.recordFor env.crypto a) := by
      subst ha
      simp only [txRecord]
      rfl
    have hp : decodeDataPayload (w.recordFor env.crypto a) = some (m.payload env) := by
      subst ha
      exact decode_dataPayload rfl small.1
    obtain ⟨ss₁, files₁, hplaced₁, -⟩ := files.append lawful hsmall
    have hone := h.data (known_recordFor env.crypto w a) txId
      (le_append lawful files hsmall) htx hp
    rw [← hplaced₁] at hone
    have hrest := ih files₁ hone (fun i => stamps (i + 1)) small.2
    rw [update_self, update_idem, hplaced₁, append_assoc, append_assoc] at hrest
    exact hrest

end Data

/-! ### What the records of a call mean -/

/-- The transaction has buffered these mutations. -/
structure Buffers (env : Env) (tx : Transaction) (ms : List Mutation) : Prop where
  mutations : tx.mutations = ms.map (Mutation.pending env)
  hasher : tx.hasher = ms.flatMap fun m => (env.verifier.blake3 m.rowData).toList
  active : tx.state = .active

/-- Every active transaction has buffered what was added to it. -/
def AllBuffer (env : Env) (active : Finmap fun _ : UInt64 => Transaction) (added : UInt64 → List Mutation) : Prop :=
  ∀ txId tx, active.lookup txId = some tx → Buffers env tx (added txId)

namespace AllBuffer
variable {env : Env} {active : Finmap fun _ : UInt64 => Transaction} {added : UInt64 → List Mutation} {tx : Transaction}

theorem insert (h : AllBuffer env active added) (txId : UInt64) {ms : List Mutation}
    (buffers : Buffers env tx ms) : AllBuffer env (active.insert txId tx) (update added txId ms) := by
  intro id x hx
  by_cases hid : id = txId
  · subst hid
    rw [Finmap.lookup_insert] at hx
    cases hx
    rwa [update_self]
  · rw [Finmap.lookup_insert_of_ne _ hid] at hx
    rw [update_of_ne hid]
    exact h id x hx

theorem erase (h : AllBuffer env active added) (txId : UInt64) : AllBuffer env (active.erase txId) added := by
  intro id x hx
  by_cases hid : id = txId
  · rw [hid, Finmap.lookup_erase] at hx
    cases hx
  · rw [Finmap.lookup_erase_ne hid] at hx
    exact h id x hx

end AllBuffer

section Calls
variable {env : Env} {masterKey : Option WalKey} {t : Tracked} {tm : TransactionManager} {ss : List Segment}
  {stamps : Nat → Stamp} {n : Nat}

section
variable {tx : Transaction} {ms : List Mutation} (h : Buffers env tx ms) {txId : UInt64}
include h

theorem commitWrites_eq (key : Option SigningKey) : commitWrites env key tx =
      ms.map (dataWrite env) ++ [(.commit, (commitPayload env key (hashOf env ms) (.ofNat ms.length)).toBytes)] := by
  rw [commitWrites, Transaction.txHash, Transaction.mutationCount, h.mutations, h.hasher, length_map, hashOf, Wal.txHash,
    flatMap_map, map_map]
  rfl

end

theorem appends_commit (active : tm.active.lookup txId = some tx)
    (fresh : tm.repeatsKey tx = false) :
    tm.appends env (.commit txId) stamps = stamped txId stamps (commitWrites env tm.signingKey tx) := by
  simp [appends, writes, active, fresh]

theorem appends_commit_nil
    (unwritten : ∀ tx, tm.active.lookup txId = some tx → tm.repeatsKey tx = true) :
    tm.appends env (.commit txId) stamps = [] := by
  cases hlookup : tm.active.lookup txId with
  | none => simp [appends, writes, hlookup, stamped]
  | some tx => simp [appends, writes, hlookup, unwritten tx hlookup, stamped]

theorem zip_take_length {α β : Type} (as : List α) (bs : List β) : as.zip (bs.take as.length) = as.zip bs := by
  induction as generalizing bs with
  | nil => simp
  | cons a as ih => cases bs <;> simp [ih]

theorem small_of_stamped {ws : List (RecordType × Bytes)} {ms : List Mutation}
    (sub : ms.map (dataWrite env) ⊆ ws)
    (small : ∀ a ∈ stamped txId stamps ws, a.payload.length ≤ maxRecordPayload) :
    ∀ m ∈ ms, (m.payload env).toBytes.length ≤ maxRecordPayload := by
  intro m hm
  obtain ⟨a, ha, hpayload⟩ := exists_stamped txId stamps (sub (mem_map_of_mem hm))
  have hle := small a ha
  rwa [show a.payload = (m.payload env).toBytes from congrArg Prod.snd hpayload] at hle

section
variable (lawful : env.crypto.Lawful) (files : Files env.crypto masterKey (.writing tm.wal) ss)
  (means : Means env (placed ss) t.stranded t.entries)
include lawful files means

theorem means_part
    (buffers : Buffers env tx (t.added txId)) (hn : n ≤ (t.added txId).length)
    (small : ∀ a ∈ stamped txId stamps ((commitWrites env tm.signingKey tx).take n), a.payload.length ≤ maxRecordPayload) :
    Means env (placed ss ++ tm.wal.placedBy env.crypto (stamped txId stamps ((commitWrites env tm.signingKey tx).take n)))
      (update t.stranded txId (t.stranded txId ++
        ((tm.wal.placedBy env.crypto (stamped txId stamps ((commitWrites env tm.signingKey tx).take n))).map (·.1)).zip
          ((t.added txId).map (Mutation.payload env)))) t.entries := by
  have hwrites : (commitWrites env tm.signingKey tx).take n = ((t.added txId).take n).map (dataWrite env) := by
    rw [commitWrites_eq buffers, take_append_of_le_length (by simpa using hn), map_take]
  rw [hwrites] at small ⊢
  have hall := means.dataAll lawful files txId stamps _ (small_of_stamped (List.Subset.refl _) small)
  have hlen : ((tm.wal.placedBy env.crypto (stamped txId stamps
      (((t.added txId).take n).map (dataWrite env)))).map (·.1)).length = n := by
    simp [length_placedBy, length_stamped, hn]
  rw [← zip_take_length, hlen, ← map_take]
  exact hall

theorem means_commit
    (buffers : Buffers env tx (t.added txId))
    (small : ∀ a ∈ stamped txId stamps (commitWrites env tm.signingKey tx), a.payload.length ≤ maxRecordPayload) :
    Means env (placed ss ++ tm.wal.placedBy env.crypto (stamped txId stamps (commitWrites env tm.signingKey tx)))
      (update t.stranded txId [])
      (t.entries ++ [t.entryOf env tm txId (stamped txId stamps (commitWrites env tm.signingKey tx))]) := by
  have hsplit := stamped_append txId stamps ((t.added txId).map (dataWrite env))
    [(.commit, (commitPayload env tm.signingKey (hashOf env (t.added txId)) (.ofNat (t.added txId).length)).toBytes)]
  rw [← commitWrites_eq buffers tm.signingKey] at hsplit
  have hsmall := small_of_stamped (by rw [commitWrites_eq buffers]; exact subset_append_left _ _) small
  have hdata := means.dataAll lawful files txId stamps _ hsmall
  rw [hsplit] at small ⊢
  generalize hds : stamped txId stamps ((t.added txId).map (dataWrite env)) = ds at hdata small
  have hlen : (tm.wal.placedBy env.crypto ds).length = (t.added txId).length := by
    rw [length_placedBy, ← hds, length_stamped, length_map]
  rw [stamped] at small ⊢
  generalize ha : Stamp.append _ txId _ = a at small
  obtain ⟨ss₁, files₁, hplaced₁⟩ := files.appendAll lawful fun a ha => small a (mem_append_left [_] ha)
  obtain ⟨ss₂, files₂, hplaced₂, -⟩ := files₁.append lawful (small a (by simp))
  rw [← hplaced₁] at hdata
  have hend : filesLength (tm.wal.appendAll env.crypto (ds ++ [a])).2.dir =
      (Frames.bytes ((placed ss₁ ++ [(((tm.wal.appendAll env.crypto ds).2.append env.crypto a).2.activeIndex,
        (tm.wal.appendAll env.crypto ds).2.recordFor env.crypto a)]).map plainFrame)).length := by
    rw [appendAll_append, ← hplaced₂]
    exact files₂.length
  rw [placedBy_append, ← append_assoc, ← hplaced₁]
  have hcommit := hdata.commit (known_recordFor env.crypto (tm.wal.appendAll env.crypto ds).2 a)
    (t.entryOf env tm txId (ds ++ [a])) (le_append lawful files₁ (small a (by simp))) ?_ ?_ ?_ ?_ ?_ ?_ hend
  · rw [Tracked.entryOf, update_idem] at hcommit
    exact hcommit
  · subst ha
    simp only [txRecord]
    rfl
  · subst ha
    rfl
  · subst ha
    rfl
  · rw [Tracked.entryOf]
    simp [CommitEntry.rows, placedBy_append, WalWriter.placedBy]
  · simp [Tracked.entryOf, placedBy_append, WalWriter.placedBy, hlen]
  · simp [Tracked.entryOf, placedBy_append, WalWriter.placedBy]

theorem means_note (buffers : AllBuffer env tm.active t.added) (call : Call)
    (small : ∀ a ∈ (tm.appends env call stamps).take n, a.payload.length ≤ maxRecordPayload) :
    Means env (placed ss ++ tm.wal.placedBy env.crypto ((tm.appends env call stamps).take n))
      (t.note env tm call stamps n).stranded (t.note env tm call stamps n).entries := by
  cases call with
  | begin =>
    cases n with
    | zero => simpa [WalWriter.placedBy, Tracked.note] using means
    | succ =>
      simp only [appends, writes, stamped, take_succ_cons, take_nil]
      refine means.begin (known_recordFor env.crypto tm.wal _) tm.nextTxId.toNat ?_
      simp only [txRecord]
      rfl
  | addMutation | setIdempotencyKey => simpa [appends, writes, stamped, WalWriter.placedBy, Tracked.note] using means
  | commit txId =>
    by_cases hwritten : ∃ tx, tm.active.lookup txId = some tx ∧ tm.repeatsKey tx = false
    · obtain ⟨tx, hactive, hfresh⟩ := hwritten
      have htx := buffers txId tx hactive
      have hlen : (commitWrites env tm.signingKey tx).length = (t.added txId).length + 1 := by
        rw [commitWrites_eq htx]
        simp
      have hsome : (stamped txId stamps (commitWrites env tm.signingKey tx)).isEmpty = false := by
        rw [isEmpty_eq_false_iff, ← length_pos_iff, length_stamped]
        omega
      simp only [Tracked.note, appends_commit hactive hfresh, hsome, length_stamped] at small ⊢
      by_cases hall : (commitWrites env tm.signingKey tx).length ≤ n
      · rw [take_of_length_le (by rwa [length_stamped])] at small ⊢
        simp only [hall]
        exact means_commit lawful files means htx small
      · simp only [hall]
        rw [take_stamped] at small ⊢
        exact means_part lawful files means htx (by omega) small
    · have hnil : tm.appends env (.commit txId) stamps = [] := appends_commit_nil fun tx hactive => by
        by_contra hfresh
        exact hwritten ⟨tx, hactive, by simpa using hfresh⟩
      simpa [Tracked.note, hnil, WalWriter.placedBy] using means
  | rollback txId =>
    cases hlookup : tm.active.lookup txId with
    | none => simpa [appends, writes, hlookup, stamped, WalWriter.placedBy, Tracked.note] using means
    | some tx =>
      have hmark : tx.markRolledBack = .ok { tx with state := .rolledBack, mutations := [] } := by
        simp only [Transaction.markRolledBack, Transaction.ensureActive, (buffers txId tx hlookup).active]
        rfl
      have happends : tm.appends env (.rollback txId) stamps = stamped txId stamps [(.rollback, [])] := by
        simp [appends, writes, hlookup, hmark]
      cases n with
      | zero => simpa [WalWriter.placedBy, Tracked.note] using means
      | succ =>
        simp only [Tracked.note, happends, stamped, take_succ_cons, take_nil] at small ⊢
        refine means.rollback (known_recordFor env.crypto tm.wal _) txId ?_ ?_
        · exact le_append lawful files (small _ (by simp))
        · simp only [txRecord]
          rfl

end

end Calls

/-! ### Runs -/

def Db.log : Db → Log
  | .closed d => .closed d
  | .opened tm => .writing tm.wal

theorem Db.log_dir (db : Db) : db.log.dir = db.dir := by
  cases db <;> rfl

namespace Tracked

/-- The files hold a log with the meaning that the run has given it, and the open transactions have buffered what was
    added to them. -/
structure Holds (env : Env) (masterKey : Option WalKey) (t : Tracked) : Prop where
  log : ∃ ss, Files env.crypto masterKey t.db.log ss ∧ Means env (placed ss) t.stranded t.entries
  manager : ∀ tm, t.db = .opened tm → AllBuffer env tm.active t.added

variable {env : Env} {masterKey : Option WalKey} {t : Tracked} {tm : TransactionManager} {call : Call}
  {stamps : Nat → Stamp}

theorem run_wal (env : Env) (tm : TransactionManager) (call : Call) (stamps : Nat → Stamp) :
    (tm.run env call stamps).2.wal = (tm.wal.appendAll env.crypto (tm.appends env call stamps)).2 := by
  cases call with
  | begin => rfl
  | addMutation txId m =>
    cases hlookup : tm.active.lookup txId with
    | none => simp only [run, addMutation, hlookup]; rfl
    | some tx =>
      cases hadd : tx.addMutation (m.pending env) <;>
        simp only [run, addMutation, hlookup, hadd] <;> rfl
  | setIdempotencyKey txId key =>
    simp only [run, setIdempotencyKey]
    split
    · rfl
    · cases hlookup : tm.active.lookup txId with
      | none => rfl
      | some tx =>
        cases hset : tx.setIdempotencyKey key <;> simp only [hset] <;> rfl
  | commit txId =>
    cases hlookup : tm.active.lookup txId with
    | none =>
      rw [appends_commit_nil (by simp [hlookup])]
      simp only [run, commit, hlookup]
      rfl
    | some tx =>
      cases hkey : tm.repeatsKey tx with
      | true =>
        rw [appends_commit_nil (by simp [hlookup, hkey])]
        simp only [run, commit, hlookup, hkey]
        rfl
      | false =>
        simp only [run, commit, hlookup, hkey]
        cases tx.markCommitted <;> rfl
  | rollback txId =>
    cases hlookup : tm.active.lookup txId with
    | none =>
      simp only [run, rollback, appends, writes, hlookup]
      rfl
    | some tx =>
      cases hmark : tx.markRolledBack with
      | error =>
        simp only [run, rollback, appends, writes, hlookup, hmark]
        rfl
      | ok => simp only [run, rollback, hlookup, hmark]; rfl

theorem add_buffers {ms : List Mutation} (h : Buffers env tx ms) (m : Mutation) :
    ∃ tx', tx.addMutation (m.pending env) = .ok tx' ∧ Buffers env tx' (ms ++ [m]) := by
  refine ⟨{ tx with hasher := tx.hasher ++ (m.pending env).rowHash.toList, mutations := tx.mutations ++ [m.pending env] },
    ?_, ?_, ?_, h.active⟩
  · simp only [Transaction.addMutation, Transaction.ensureActive, h.active]
    rfl
  · simp [h.mutations]
  · simp [h.hasher, Mutation.pending]

theorem run_buffers (h : AllBuffer env tm.active t.added) (call : Call) (stamps : Nat → Stamp) :
    AllBuffer env (tm.run env call stamps).2.active (t.addedAfter env tm call stamps) := by
  cases call with
  | begin => exact h.insert tm.nextTxId ⟨rfl, rfl, rfl⟩
  | addMutation txId m =>
    cases hlookup : tm.active.lookup txId with
    | none =>
      simp only [addedAfter, run, addMutation, hlookup]
      exact h
    | some tx =>
      obtain ⟨tx', hadd, hbuffers⟩ := add_buffers (h txId tx hlookup) m
      simp only [addedAfter, run, addMutation, hlookup, hadd]
      exact h.insert txId hbuffers
  | setIdempotencyKey txId key =>
    simp only [run, setIdempotencyKey]
    split
    · exact h
    · cases hlookup : tm.active.lookup txId with
      | none => exact h
      | some tx =>
        have hset : tx.setIdempotencyKey key = .ok { tx with idempotencyKey := some key } := by
          simp only [Transaction.setIdempotencyKey, Transaction.ensureActive, (h txId tx hlookup).active]
          rfl
        have hold := h txId tx hlookup
        have hkeyed : Buffers env { tx with idempotencyKey := some key } (t.added txId) :=
          ⟨hold.mutations, hold.hasher, hold.active⟩
        have hins := h.insert txId hkeyed
        rw [update_eq_self] at hins
        simp only [hset]
        exact hins
  | commit txId =>
    simp only [addedAfter, run, commit]
    cases hlookup : tm.active.lookup txId with
    | none => exact h
    | some tx =>
      cases hkey : tm.repeatsKey tx with
      | true => simpa only [hkey, if_true] using h.erase txId
      | false =>
        simp only [hkey]
        cases tx.markCommitted <;> exact h.erase txId
  | rollback txId =>
    simp only [addedAfter, run, rollback]
    cases hlookup : tm.active.lookup txId with
    | none => exact h
    | some tx =>
      cases hmark : tx.markRolledBack with
      | error => simpa only [hmark] using h
      | ok =>
        simp only [hmark]
        exact h.erase txId

theorem openWithSigning_ok {d : Dir} {key : Option SigningKey}
    (h : openWithSigning env d key = .ok tm) :
    tm.wal = .openWithOptions env.crypto d defaultSegmentSize none ∧ tm.active = ∅ ∧ tm.signingKey = key := by
  unfold openWithSigning at h
  simp only at h
  split at h
  · cases h
  · cases h
    exact ⟨rfl, rfl, rfl⟩

theorem Holds.start (env : Env) (masterKey : Option WalKey) : Holds env masterKey start where
  log := ⟨[], Files.nil, Means.empty env⟩
  manager := nofun

/-- An event keeps the log as the transactions say. -/
theorem Holds.step (lawful : env.crypto.Lawful) (h : Holds env masterKey t) {ev : Event} {t' : Tracked}
    (hstep : t.step env ev = some t') (fits : t.Fits env ev) : Holds env masterKey t' := by
  obtain ⟨ss, files, means⟩ := h.log
  rcases t with ⟨db, added, stranded, entries⟩
  obtain ⟨db', hdb, rfl⟩ := Option.map_eq_some_iff.1 hstep
  cases db with
  | closed d =>
    cases ev with
    | openManager key =>
      have hfiles := files.opened defaultSegmentSize
      rw [← Files.placed_opened] at means
      cases hopen : openWithSigning env d key with
      | error =>
        simp only [Db.step, hopen] at hdb
        cases hdb
        exact ⟨⟨_, hfiles.closed, means⟩, nofun⟩
      | ok =>
        simp only [Db.step, hopen] at hdb
        cases hdb
        obtain ⟨hwal, hactive, -⟩ := openWithSigning_ok hopen
        refine ⟨⟨_, ?_, means⟩, ?_⟩
        · rw [← hwal] at hfiles
          exact hfiles
        · intro tm' htm
          obtain rfl := Db.opened.inj htm
          intro txId tx hlookup
          rw [hactive] at hlookup
          cases hlookup
    | _ => cases hdb
  | opened tm =>
    have hbuffers := h.manager tm rfl
    cases ev with
    | openManager => cases hdb
    | call call stamps =>
      cases hdb
      have hsmall : ∀ a ∈ tm.appends env call stamps, a.payload.length ≤ maxRecordPayload := fits
      obtain ⟨ss', files', hplaced⟩ := files.appendAll lawful hsmall
      have hmeans := means_note lawful files means hbuffers call
        (by rwa [take_length])
      rw [take_length, ← hplaced] at hmeans
      refine ⟨⟨ss', ?_, hmeans⟩, ?_⟩
      · show Files _ _ (.writing (tm.run env call stamps).2.wal) ss'
        rwa [run_wal]
      · intro tm' htm
        obtain rfl := Db.opened.inj htm
        exact run_buffers hbuffers call stamps
    | close =>
      cases hdb
      exact ⟨⟨ss, files.closed, means⟩, nofun⟩
    | crash call stamps appended rolled =>
      cases hdb
      have hsmall : ∀ a ∈ (tm.appends env call stamps).take appended, a.payload.length ≤ maxRecordPayload := fits
      obtain ⟨ss', files', hplaced⟩ := files.appendAll lawful hsmall
      have hmeans := means_note lawful files means hbuffers call hsmall
      rw [← hplaced] at hmeans
      suffices hfiles : ∃ ss'', Files env.crypto masterKey (.closed (tm.crash env call stamps appended rolled)) ss'' ∧
          placed ss'' = placed ss' by
        obtain ⟨ss'', files'', hsame⟩ := hfiles
        rw [← hsame] at hmeans
        exact ⟨⟨ss'', files'', hmeans⟩, nofun⟩
      unfold crash
      simp only
      split
      · split
        · exact files'.prepared _
        · exact ⟨ss', files'.closed, rfl⟩
      · exact ⟨ss', files'.closed, rfl⟩

/-- In every run the log is as the transactions say. -/
theorem Holds.run (lawful : env.crypto.Lawful) (masterKey : Option WalKey)
    (run : Run.Reachable (Tracked.step env) (Tracked.Fits env) .start t) : Holds env masterKey t :=
  run.invariant (.start env masterKey) fun _ _ _ h hfits hstep => Holds.step lawful h hstep hfits

end Tracked

end VectorLedger.Tx
