import VectorLedger.Theorems.TxRuns

/-! Recovery after runs of transaction managers: which data records it reports with a transaction. -/

namespace VectorLedger.Tx

open Tx.Tracked CommitEntry List Wal

/-! ### Checks of a commit -/

section Checks
variable {env : Env} {k : CommitEntry} {start : Nat} {t : TxLog.Committed Record Record}

theorem decode_commitPayload {r : Record} (h : r.payload = (k.commitPayload env).toBytes) :
    decodeCommitPayload r = some (k.commitPayload env) := by
  rw [decodeCommitPayload, h]
  refine (CommitPayload.decodes _ ?_ ?_).decode
  · cases hkey : k.signingKey <;> simp [CommitEntry.commitPayload, commitPayload, hkey]
  · cases hkey : k.signingKey <;> simp [CommitEntry.commitPayload, commitPayload, hkey]

theorem recordCount_commitPayload (env : Env) (k : CommitEntry) :
    (k.commitPayload env).recordCount = .ofNat k.mutations.length := by
  cases hkey : k.signingKey <;> simp [CommitEntry.commitPayload, commitPayload, hkey]

theorem txHash_commitPayload (env : Env) (k : CommitEntry) : (k.commitPayload env).txHash = hashOf env k.mutations := by
  cases hkey : k.signingKey <;> simp [CommitEntry.commitPayload, commitPayload, hkey]

theorem Decoded.length {rs : List Record} {ps : List Wal.DataPayload} (h : Decoded rs ps) : rs.length = ps.length := by
  simpa using congrArg List.length h

theorem Decoded.rowHashes (v : Verifier) {rs : List Record} {ps : List Wal.DataPayload} (h : Decoded rs ps) :
    rowHashes v rs = .ok (ps.map (·.rowHash)) := by
  induction rs generalizing ps with
  | nil =>
    obtain rfl : ps = [] := length_eq_zero_iff.1 h.length.symm
    rfl
  | cons r rs ih =>
    cases ps with
    | nil => cases h
    | cons =>
      obtain ⟨hp, hps⟩ := cons.inj h
      rw [Wal.rowHashes, hp]
      simp only [ih hps]
      rfl

theorem signature_checked (signatures : env.SignaturesVerify) {r : Record}
    (h : r.payload = (k.commitPayload env).toBytes) : Wal.verifyCommitSignature env.verifier r = .ok () := by
  rw [Wal.verifyCommitSignature, decode_commitPayload h]
  cases hkey : k.signingKey with
  | none => simp [CommitEntry.commitPayload, commitPayload, hkey]
  | some key =>
    simp only [CommitEntry.commitPayload, commitPayload, hkey]
    split
    · rfl
    · rw [if_neg (by simp), signatures key]

theorem Reports.checked (signatures : env.SignaturesVerify) (h : Reports env start k t)
    (rows : rowsFrom (k.stranded ++ k.rows env) start = k.mutations.map (Mutation.payload env)) :
    Wal.verifyCommitFull env.verifier t.info t.rows = .ok () := by
  have hdecoded := h.rows
  rw [rows] at hdecoded
  have hlength : t.rows.length = k.mutations.length := by simpa using hdecoded.length
  have hhashes : txHash env.verifier ((k.mutations.map (Mutation.payload env)).map (·.rowHash)) =
      hashOf env k.mutations := by
    rw [map_map]
    rfl
  rw [Wal.verifyCommitFull, decode_commitPayload h.payload]
  simp only [recordCount_commitPayload, txHash_commitPayload, hlength, hdecoded.rowHashes env.verifier, hhashes]
  rw [if_neg (by simp), if_neg (by simp)]
  exact signature_checked signatures h.payload

end Checks

/-! ### What is reported -/

def told (t : Wal.CommittedTransaction) : UInt64 × List Wal.DataPayload := (t.txId, t.dataPayloads)

def CommitEntry.told (env : Env) (k : CommitEntry) : UInt64 × List Wal.DataPayload :=
  (k.txId, k.mutations.map (Mutation.payload env))

def CommitEntry.toldFrom (env : Env) (start : Nat) (k : CommitEntry) : UInt64 × List Wal.DataPayload :=
  (k.txId, rowsFrom (k.stranded ++ k.rows env) start)

theorem told_of_summary {as bs : List Wal.CommittedTransaction}
    (h : as.map CommittedTransaction.summary = bs.map CommittedTransaction.summary) : as.map told = bs.map told := by
  have htold := congrArg (map fun x : UInt64 × Record × List Wal.DataPayload => (x.1, x.2.2)) h
  rwa [map_map, map_map] at htold

theorem Reports.told {env : Env} {k : CommitEntry} {start : Nat} {t : TxLog.Committed Record Record}
    (h : Reports env start k t) : Tx.told (ofRecords t) = k.toldFrom env start :=
  Prod.ext h.txId h.rows.filterMap

theorem told_of_reports {env : Env} {start : Nat} {ks : List CommitEntry} {ts : List (TxLog.Committed Record Record)}
    (h : List.Forall₂ (Reports env start) ks ts) :
    (ts.map ofRecords).map told = ks.map (toldFrom env start) := by
  induction h with
  | nil => rfl
  | cons hreport _ ih => exact congrArg₂ cons hreport.told ih

theorem exists_of_forall₂ {α β : Type} {R : α → β → Prop} {as : List α} {bs : List β} (h : List.Forall₂ R as bs) {b : β}
    (hb : b ∈ bs) : ∃ a ∈ as, R a b := by
  induction h with
  | nil => cases hb
  | cons hab _ ih =>
    rcases mem_cons.1 hb with rfl | hmem
    · exact ⟨_, mem_cons_self, hab⟩
    · obtain ⟨a, ha, hR⟩ := ih hmem
      exact ⟨a, mem_cons_of_mem _ ha, hR⟩

section Reading
variable {env : Env} {masterKey : Option WalKey} {ss : List Segment} {log : Log} {start : Nat}
  {stranded : UInt64 → List (Nat × Wal.DataPayload)} {entries : List CommitEntry}

theorem known_recordsFrom (means : Means env (placed ss) stranded entries) (start : Nat) :
    ∀ r ∈ recordsFrom (placed ss) start, r.Known := by
  intro r hr
  obtain ⟨x, hx, rfl⟩ := mem_map.1 hr
  exact means.known x (mem_of_mem_filter hx)

section
variable (files : Files env.crypto masterKey log ss)
include files

theorem readDir_log (start : Nat) :
    readDir env.crypto masterKey (log.dir.fromSegment start) = (recordsFrom (placed ss) start).map Except.ok := by
  rw [files.dir, readDir_fromSegment files.holds.readable]

theorem streamed_all (means : Means env (placed ss) stranded entries)
    (verify : Bool) (start : Nat) (checked : verify = true → env.SignaturesVerify ∧ ∀ k ∈ entries, start ≤ k.commitSegment →
      rowsFrom (k.stranded ++ k.rows env) start = k.mutations.map (Mutation.payload env)) :
    (streamed env.crypto env.verifier log.dir masterKey verify none start).1.map told =
        (entries.filter fun k => start ≤ k.commitSegment).map (toldFrom env start) ∧
      ∃ res, (streamed env.crypto env.verifier log.dir masterKey verify none start).2 = .ok res := by
  have hchecked : verify = true → ∀ t ∈ TxLog.committed ((recordsFrom (placed ss) start).map (txRecord some)),
      Wal.verifyCommitFull env.verifier t.info t.rows = .ok () := by
    intro hverify t ht
    obtain ⟨signatures, hrows⟩ := checked hverify
    obtain ⟨k, hk, hreports⟩ := exists_of_forall₂ (means.committed start) ht
    obtain ⟨hmem, hsegment⟩ := mem_filter.1 hk
    exact hreports.checked signatures (hrows k hmem (of_decide_eq_true hsegment))
  have hall := streamItems_all env.verifier id verify (known_recordsFrom means start) hchecked (.inl rfl)
  rw [append_nil, ← readDir_log files] at hall
  exact ⟨(told_of_summary hall.1).trans (told_of_reports (means.committed start)), hall.2⟩

theorem streamed_first (means : Means env (placed ss) stranded entries)
    (verify : Bool) (start : Nat) :
    (streamed env.crypto env.verifier log.dir masterKey verify none start).1.map told <+:
      (entries.filter fun k => start ≤ k.commitSegment).map (toldFrom env start) := by
  cases verify with
  | false =>
    rw [(streamed_all files means false start nofun).1]
  | true =>
    obtain ⟨ts, hts, -, hcalls, -⟩ := (recordReader env.verifier true).run_spec
      (readDir env.crypto masterKey (log.dir.fromSegment start)) ∅ 0 []
    rw [readDir_log files, Reader.log, Frames.good_ok] at hts
    rw [← told_of_reports (means.committed start), streamed, Wal.recoverStreaming, streamItems_verified, hcalls]
    exact (hts.map ofRecords).map told

end

end Reading

/-! ### From the first segment -/

section Whole
variable {k : CommitEntry}

theorem toldFrom_zero (env : Env) (inOrder : k.InOrder) :
    k.toldFrom env 0 = (k.txId, k.stranded.map (·.2) ++ k.mutations.map (Mutation.payload env)) := by
  rw [toldFrom, rowsFrom_zero, map_append, rows_snd env inOrder.length]

theorem toldFrom_zero_iff (env : Env) (inOrder : k.InOrder) : k.toldFrom env 0 = k.told env ↔ k.stranded = [] := by
  rw [toldFrom_zero env inOrder, CommitEntry.told]
  simp

end Whole

/-- In every run of sessions, in which the reader takes the payloads that are written: recovery reports exactly the
    transactions whose commit record was written, with exactly the mutations that were added to them, if and only if none of
    them has an id under which a crash has left data records. -/
theorem recovery_exact_iff (env : Env) (lawful : env.crypto.Lawful) (t : Tracked)
    (run : Run.Reachable (step env) (Tracked.Fits env) .start t) (masterKey : Option WalKey) (verify : Bool)
    (signatures : verify = true → env.SignaturesVerify) :
    ((streamed env.crypto env.verifier t.db.dir masterKey verify none 0).1.map told = t.entries.map (CommitEntry.told env) ∧
        ∃ res, (streamed env.crypto env.verifier t.db.dir masterKey verify none 0).2 = .ok res) ↔
      ∀ k ∈ t.entries, k.stranded = [] := by
  obtain ⟨ss, files, means⟩ := (Tracked.Holds.run lawful masterKey run).log
  have hentries : (t.entries.filter fun k => 0 ≤ k.commitSegment) = t.entries := by simp
  rw [← Db.log_dir]
  constructor
  · rintro ⟨hcalls, -⟩
    have hfirst := streamed_first files means verify 0
    rw [hcalls, hentries] at hfirst
    have hsame := hfirst.eq_of_length (by simp)
    intro k hk
    exact (toldFrom_zero_iff env (means.inOrder k hk)).1 (map_inj_left.1 hsame k hk).symm
  · intro hnone
    have hall := streamed_all files means verify 0 fun hverify => ⟨signatures hverify, fun k hk _ =>
      congrArg Prod.snd ((toldFrom_zero_iff env (means.inOrder k hk)).2 (hnone k hk))⟩
    rw [hentries] at hall
    refine ⟨hall.1.trans ?_, hall.2⟩
    exact map_inj_left.2 fun k hk => (toldFrom_zero_iff env (means.inOrder k hk)).2 (hnone k hk)

namespace Sample

/-- A checksum and a hash that are always zero, and one signature that always verifies. -/
def env : Env where
  crypto := { Wal.Sample.crypto with crc32 := fun _ => 0 }
  verifier := ⟨fun _ => zeroHash, fun _ _ _ => .ok (), fun _ => "unexpected end"⟩
  sign _ _ := Vector.replicate 64 1
  publicKey _ := Vector.replicate 32 1

theorem lawful : env.crypto.Lawful := ⟨Wal.Sample.crypto_lawful.1, Wal.Sample.crypto_lawful.2⟩

theorem signatures : env.SignaturesVerify := fun _ _ => rfl

def stamps (_ : Nat) : Stamp := ⟨1700000000000000000, Vector.replicate 12 0, Vector.replicate 12 1⟩

def mutation (row : Bytes) : Mutation := ⟨1, 0, 0, .insert, row, none⟩

def call (c : Call) : Event := .call c stamps

/-- Two transactions at once, each with a row. The one that began second commits first. -/
def interleaved : List Event :=
  [.openManager (some []), call (.begin none), call (.begin none), call (.addMutation 1 (mutation [1])),
    call (.addMutation 2 (mutation [2])), call (.commit 2), call (.commit 1)]

/-- The process dies in a commit, between its data record and its commit record, and the next session commits another
    transaction. -/
def reused : List Event :=
  [.openManager none, call (.begin none), call (.addMutation 1 (mutation [1])), .crash (.commit 1) stamps 1 false,
    .openManager none, call (.begin none), call (.addMutation 1 (mutation [2])), call (.commit 1)]

end Sample

open Tx.Sample Wal.Sample

instance (env : Env) (t : Tracked) (ev : Event) : Decidable (t.Fits env ev) := by
  rcases t with ⟨_ | tm, added, stranded, entries⟩ <;> cases ev <;> unfold Tracked.Fits <;> infer_instance

theorem recovery_exact_interleaved :
    ∃ t, Run.exec (step env) .start interleaved = some t ∧ t.entries.map (·.txId) = [2, 1] ∧
      (streamed env.crypto env.verifier t.db.dir none true none 0).1.map told = t.entries.map (CommitEntry.told env) ∧
      ∃ res, (streamed env.crypto env.verifier t.db.dir none true none 0).2 = .ok res :=
  Run.exists_of_exec (by decide +kernel) rfl fun run =>
    ⟨by decide +kernel, (recovery_exact_iff env lawful _ run none true fun _ => signatures).2 (by decide +kernel)⟩

/-- The second session takes the id again that the first one had begun and not committed, and recovery hands over the row of
    the first one with the row of the second one. -/
theorem recovery_mixes_transactions : ∃ t, Run.Reachable (step env) (Tracked.Fits env) .start t ∧
      t.entries.map (CommitEntry.told env) = [(1, [(mutation [2]).payload env])] ∧
      (streamed env.crypto env.verifier t.db.dir none false none 0).1.map told =
        [(1, [(mutation [1]).payload env, (mutation [2]).payload env])] := by
  exact Run.exists_reachable reused (by decide +kernel) (by decide +kernel)

/-! ### From a later segment -/

section Later
variable {env : Env} {k : CommitEntry} {start : Nat}

theorem rowsFrom_of_le {rows : List (Nat × Wal.DataPayload)} (h : ∀ x ∈ rows, start ≤ x.1) :
    rowsFrom rows start = rows.map (·.2) := by
  rw [rowsFrom, filter_eq_self.2 fun x hx => decide_eq_true (h x hx)]

theorem rowsFrom_of_lt {rows : List (Nat × Wal.DataPayload)} (h : ∀ x ∈ rows, x.1 < start) : rowsFrom rows start = [] := by
  rw [rowsFrom, filter_eq_nil_iff.2 fun x hx => by simpa using h x hx, map_nil]

/-- A reader gets all mutations of a transaction exactly if its data records are in the segments that are read. Where one of
    them is not, nothing that was stranded before it is read either. -/
theorem mutations_sublist_iff (inOrder : k.InOrder) :
    (k.mutations.map (Mutation.payload env)).Sublist (rowsFrom (k.stranded ++ k.rows env) start) ↔
      ∀ j ∈ k.dataSegments, start ≤ j := by
  have hsegments : ∀ x ∈ k.rows env, x.1 ∈ k.dataSegments := fun x hx => by
    rw [← rows_fst env inOrder.length]
    exact mem_map_of_mem hx
  rw [rowsFrom_append]
  constructor
  · intro hsub j hj
    by_contra hlt
    have hstranded : rowsFrom k.stranded start = [] := by
      refine rowsFrom_of_lt fun x hx => ?_
      have hle := (pairwise_append.1 inOrder.ordered).2.2 x.1 (mem_map_of_mem hx) j hj
      omega
    have hshort : (rowsFrom (k.rows env) start).length < (k.rows env).length := by
      obtain ⟨x, hx, rfl⟩ : ∃ x ∈ k.rows env, x.1 = j := by
        rwa [← rows_fst env inOrder.length, mem_map] at hj
      rw [rowsFrom, length_map]
      exact length_filter_lt_length_iff_exists.2 ⟨x, hx, by simpa using hlt⟩
    have hlen := hsub.length_le
    have hrows := congrArg length (rows_snd env inOrder.length)
    rw [hstranded, nil_append] at hlen
    rw [length_map] at hrows
    omega
  · intro hall
    rw [rowsFrom_of_le fun x hx => hall x.1 (hsegments x hx), rows_snd env inOrder.length]
    exact sublist_append_right _ _

end Later

section
variable {α β γ : Type} {f : α → γ} {g : β → γ} {R : α → β → Prop} {as : List α} {bs : List β} (h : bs.map g = as.map f)
include h

theorem forall₂_of_map_eq (imp : ∀ a ∈ as, ∀ b, g b = f a → R a b) : List.Forall₂ R as bs := by
  induction as generalizing bs with
  | nil =>
    obtain rfl := map_eq_nil_iff.1 h
    exact .nil
  | cons a as ih =>
    obtain ⟨b, bs', rfl, hb, hbs⟩ := map_eq_cons_iff.1 h
    rw [forall_mem_cons] at imp
    exact .cons (imp.1 b hb) (ih hbs imp.2)

theorem forall₂_of_mem (hall : List.Forall₂ R as bs) {a : α} (ha : a ∈ as) : ∃ b, R a b ∧ g b = f a := by
  induction hall with
  | nil => cases ha
  | cons hab _ ih =>
    obtain ⟨heq, hrest⟩ := cons.inj h
    rcases mem_cons.1 ha with rfl | hmem
    · exact ⟨_, hab, heq⟩
    · exact ih hrest hmem

end

/-- The transaction is reported with all of its mutations. -/
def ReportsAll (env : Env) (k : CommitEntry) (t : Wal.CommittedTransaction) : Prop :=
  t.txId = k.txId ∧ (k.mutations.map (Mutation.payload env)).Sublist t.dataPayloads

/-- In every run of sessions, in which the reader takes the payloads that are written: recovery from a segment on reports
    every transaction whose commit record is there with all of its mutations, if and only if all of their data records are
    there too. Where signatures are verified, this is for runs in which no crash has left records under their ids. -/
theorem recovery_from_segment_iff (env : Env) (lawful : env.crypto.Lawful) (t : Tracked)
    (run : Run.Reachable (step env) (Tracked.Fits env) .start t) (masterKey : Option WalKey) (verify : Bool)
    (checked : verify = true → env.SignaturesVerify ∧ ∀ k ∈ t.entries, k.stranded = []) (start : Nat) :
    List.Forall₂ (ReportsAll env) (t.entries.filter fun k => start ≤ k.commitSegment)
        (streamed env.crypto env.verifier t.db.dir masterKey verify none start).1 ↔
      ∀ k ∈ t.entries, start ≤ k.commitSegment → ∀ j ∈ k.dataSegments, start ≤ j := by
  obtain ⟨ss, files, means⟩ := (Tracked.Holds.run lawful masterKey run).log
  rw [← Db.log_dir]
  constructor
  · intro hall k hk hsegment
    have hsame := (streamed_first files means verify start).eq_of_length (by simp [hall.length_eq])
    obtain ⟨c, ⟨-, hsub⟩, htold⟩ := forall₂_of_mem hsame hall (mem_filter.2 ⟨hk, decide_eq_true hsegment⟩)
    rw [show c.dataPayloads = _ from congrArg Prod.snd htold] at hsub
    exact (mutations_sublist_iff (means.inOrder k hk)).1 hsub
  · intro hdata
    have hall := streamed_all files means verify start fun hverify => ⟨(checked hverify).1, fun k hk hsegment => by
      have hrows := rows_fst env (means.inOrder k hk).length
      rw [(checked hverify).2 k hk, nil_append, rowsFrom_of_le, rows_snd env (means.inOrder k hk).length]
      intro x hx
      exact hdata k hk hsegment x.1 (hrows ▸ mem_map_of_mem hx)⟩
    refine forall₂_of_map_eq hall.1 fun k hk c htold => ⟨congrArg Prod.fst htold, ?_⟩
    rw [show c.dataPayloads = _ from congrArg Prod.snd htold]
    obtain ⟨hmem, hsegment⟩ := mem_filter.1 hk
    exact (mutations_sublist_iff (means.inOrder k hmem)).2 (hdata k hmem (of_decide_eq_true hsegment))

/-! ### A transaction over two segments -/

section Places
variable {c : Crypto} {w : WalWriter} {a : Append}

theorem length_recordFor (c : Crypto) (w : WalWriter) (a : Append) :
    (w.recordFor c a).toBytes.length = 38 + a.payload.length := by
  rw [Record.length_toBytes]
  show 34 + a.payload.length + 4 = _
  omega

theorem append_inPlace (plain : w.encryptionKey = none)
    (space : w.active.length + (38 + a.payload.length) ≤ w.segmentMaxSize) :
    (w.append c a).2 = { w with sequence := w.sequence + 1, active := w.active ++ (w.recordFor c a).toBytes } := by
  simp [WalWriter.append, WalWriter.frameFor, plain, WalWriter.hasSpace, length_recordFor, space]

theorem append_rolled (plain : w.encryptionKey = none)
    (full : w.segmentMaxSize < w.active.length + (38 + a.payload.length)) :
    (w.append c a).2 = { w.rollSegment with sequence := w.sequence + 1, active := (w.recordFor c a).toBytes } := by
  simp [WalWriter.append, WalWriter.frameFor, plain, WalWriter.hasSpace, length_recordFor, Nat.not_le.2 full,
    WalWriter.rollSegment, WalWriter.dir]

end Places

namespace Sample

def dataAppend (row : Bytes) : Append := (stamps 0).append 1 (dataWrite env (mutation row))

def commitAppend (row : Bytes) : Append :=
  (stamps 1).append 1 (.commit, (commitPayload env none (hashOf env [mutation row]) 1).toBytes)

theorem length_dataAppend (row : Bytes) : (dataAppend row).payload.length = 59 + row.length := by
  simp [dataAppend, Stamp.append, dataWrite, mutation, Mutation.payload, Mutation.pending, PendingMutation.payload,
    DataPayload.toBytes, encodeSeq, encodeOption]
  omega

theorem length_commitAppend (row : Bytes) : (commitAppend row).payload.length = 52 := by
  simp [commitAppend, Stamp.append, commitPayload, CommitPayload.toBytes, encodeSeq]

/-- The manager of a session that has begun transaction 1 and buffered a row. -/
structure Begun (tm : TransactionManager) (row : Bytes) : Prop where
  appends : tm.appends env (.commit 1) stamps = [dataAppend row, commitAppend row]
  plain : tm.wal.encryptionKey = none
  length : tm.wal.active.length = 39
  activeIndex : tm.wal.activeIndex = 0
  nextIndex : tm.wal.nextSegmentIndex = 1
  size : tm.wal.segmentMaxSize = defaultSegmentSize

theorem exists_begun (row : Bytes) : ∃ t tm, Run.Reachable (step env) (Tracked.Fits env) .start t ∧ t.db = .opened tm ∧
    t.added 1 = [mutation row] ∧ t.stranded 1 = [] ∧ t.entries = [] ∧ Begun tm row :=
  have hexec : Run.exec (step env) .start [.openManager none, call (.begin none)] = some _ := rfl
  ⟨_, _, (Run.reachable_of_exec (by decide +kernel) hexec).step (e := call (.addMutation 1 (mutation row))) nofun rfl, rfl, rfl, rfl, rfl,
    rfl, rfl, rfl, rfl, rfl, rfl⟩

section Straddling
variable {tm : TransactionManager} {row : Bytes}

/-- The segments that the records of the commit are in. -/
def placesOf (tm : TransactionManager) (row : Bytes) : List Nat :=
  (tm.wal.placedBy env.crypto [dataAppend row, commitAppend row]).map (·.1)

theorem places_of {w : WalWriter} (hfirst : (tm.wal.append env.crypto (dataAppend row)).2 = w) (plain : w.encryptionKey = none)
    (full : w.segmentMaxSize < w.active.length + 90) : placesOf tm row = [w.activeIndex, w.nextSegmentIndex] := by
  have hsecond := append_rolled (c := env.crypto) (a := commitAppend row) plain (by rwa [length_commitAppend])
  simp only [placesOf, WalWriter.placedBy]
  rw [hfirst, hsecond]
  rfl

theorem places_straddling (h : Begun tm row) (hrow : row.length = 67108700) : placesOf tm row = [0, 1] := by
  rw [places_of (append_inPlace h.plain ?_) h.plain ?_, h.activeIndex, h.nextIndex]
  · rw [h.length, h.size, length_dataAppend, hrow]
    decide
  · simp only [length_append, length_recordFor, h.length, h.size, length_dataAppend, hrow]
    decide

theorem places_rolled (h : Begun tm row) (hrow : row.length = 67108740) : placesOf tm row = [1, 2] := by
  rw [places_of (append_rolled h.plain ?_) h.plain ?_]
  · simp only [WalWriter.rollSegment, h.nextIndex]
  · rw [h.length, h.size, length_dataAppend, hrow]
    decide
  · simp only [WalWriter.rollSegment, length_recordFor, h.size, length_dataAppend, hrow]
    decide

theorem exists_placed (row : Bytes) (fits : 59 + row.length ≤ maxRecordPayload) {i j : Nat}
    (places : ∀ {tm}, Begun tm row → placesOf tm row = [i, j]) :
    ∃ t k, Run.Reachable (step env) (Tracked.Fits env) .start t ∧ t.entries = [k] ∧ k.txId = 1 ∧
      k.mutations = [mutation row] ∧ k.stranded = [] ∧ k.dataSegments = [i] ∧ k.commitSegment = j := by
  obtain ⟨⟨db, added, stranded, entries⟩, tm, hreach, hdb, hadded, hstranded, hentries, begun⟩ := exists_begun row
  obtain rfl : db = .opened tm := hdb
  obtain rfl : entries = [] := hentries
  have hstep : step env ⟨.opened tm, added, stranded, []⟩ (call (.commit 1)) = some
      ⟨.opened (tm.run env (.commit 1) stamps).2, added, Function.update stranded 1 [],
        [(⟨.opened tm, added, stranded, []⟩ : Tracked).entryOf env tm 1 [dataAppend row, commitAppend row]]⟩ := by
    simp only [step, call, note, begun.appends]
    rfl
  have hplaces := places begun
  refine ⟨_, _, hreach.step ?_ hstep, rfl, rfl, hadded, hstranded, ?_, ?_⟩
  · show ∀ a ∈ tm.appends env (.commit 1) stamps, a.payload.length ≤ maxRecordPayload
    simp only [begun.appends, mem_cons, not_mem_nil, or_false, forall_eq_or_imp, forall_eq, length_dataAppend,
      length_commitAppend]
    exact ⟨fits, by decide⟩
  · show (placesOf tm row).dropLast = [i]
    rw [hplaces]
    rfl
  · show (placesOf tm row).getLast?.getD 0 = j
    rw [hplaces]
    rfl

end Straddling

def longRow (length : Nat) : Bytes := List.replicate length 0

end Sample

/-- The data record is in segment 1 and the commit record in segment 2. Recovery from segment 1 on reports the transaction
    with its row. -/
theorem recovery_from_segment_rolled :
    ∃ t k, Run.Reachable (step env) (Tracked.Fits env) .start t ∧ t.entries = [k] ∧ k.mutations = [mutation (longRow 67108740)] ∧
      k.dataSegments = [1] ∧ k.commitSegment = 2 ∧
      List.Forall₂ (ReportsAll env) (t.entries.filter fun k => 1 ≤ k.commitSegment)
        (streamed env.crypto env.verifier t.db.dir none true none 1).1 := by
  obtain ⟨t, k, hreach, hentries, -, hmutations, hstranded, hdata, hcommit⟩ :=
    exists_placed (longRow 67108740) (by rw [longRow, length_replicate]; decide) fun h => places_rolled h length_replicate
  refine ⟨t, k, hreach, hentries, hmutations, hdata, hcommit, (recovery_from_segment_iff env lawful t hreach none true
    (fun _ => ⟨signatures, ?_⟩) 1).2 ?_⟩
  · simpa [hentries] using hstranded
  · simp [hentries, hdata]

/-- The commit record is in segment 1, and recovery from there reports the transaction without its row. -/
theorem recovery_loses_mutation :
    ∃ t k, Run.Reachable (step env) (Tracked.Fits env) .start t ∧ t.entries = [k] ∧ k.txId = 1 ∧
      k.mutations = [mutation (longRow 67108700)] ∧ k.commitSegment = 1 ∧
      (streamed env.crypto env.verifier t.db.dir none false none 1).1.map told = [(1, [])] := by
  obtain ⟨t, k, hreach, hentries, hid, hmutations, hstranded, hdata, hcommit⟩ :=
    exists_placed (longRow 67108700) (by rw [longRow, length_replicate]; decide) fun h => places_straddling h length_replicate
  obtain ⟨ss, files, means⟩ := (Tracked.Holds.run lawful none hreach).log
  refine ⟨t, k, hreach, hentries, hid, hmutations, hcommit, ?_⟩
  have hall := (streamed_all files means false 1 nofun).1
  rw [Db.log_dir, hentries] at hall
  rw [hall]
  simp [hcommit, toldFrom, hid, hstranded, rows, hdata, hmutations, rowsFrom]

end VectorLedger.Tx
