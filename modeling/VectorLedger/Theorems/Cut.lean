import VectorLedger.Theorems.Atomic

/-! Recovery of the log of one session when its files are cut anywhere. -/

namespace VectorLedger

namespace Wal

open List Frames

/-- The files when all bytes from one on are lost: those before it are whole, and those after it are gone. -/
def Dir.cut : Nat → Dir → Dir
  | _, [] => []
  | n, f :: d => if f.bytes.length ≤ n then f :: Dir.cut (n - f.bytes.length) d else [⟨f.index, f.bytes.take n⟩]

section Cutting
variable {c : Crypto} {masterKey : Option WalKey}

/-- The bytes are those of a record that was written without a key and is not too large. -/
def PlainFrame (c : Crypto) (f : Record × Bytes) : Prop :=
  f.1.Written c ∧ f.1.payload.length ≤ maxRecordPayload ∧ f.2 = f.1.toBytes

theorem read_torn {fs : List (Record × Bytes)} (plain : ∀ f ∈ fs, PlainFrame c f) (masterKey : Option WalKey)
    (segmentIndex offset n : Nat) :
    EndsTorn (readFrom (nextRecord c masterKey segmentIndex) offset (torn n fs)) := by
  rcases torn_cases n fs with hnil | ⟨f, hf, ⟨u, hsplit⟩, hlt⟩
  · rw [hnil, readFrom_nil]
    exact .inl rfl
  · obtain ⟨written, small, hbytes⟩ := plain f hf
    rw [hbytes] at hsplit hlt
    have hu : u ≠ [] := by
      rintro rfl
      rw [append_nil] at hsplit
      rw [hsplit] at hlt
      exact Nat.lt_irrefl _ hlt
    rcases Nat.lt_or_ge (torn n fs).length 4 with hshort | hlong
    · rw [readFrom_ended (nextRecord_short hshort)]
      exact .inl rfl
    · obtain ⟨e, hfailed, htorn⟩ : ∃ e, nextRecord c masterKey segmentIndex offset (torn n fs) = .failed e ∧ e.isTorn = true :=
        written.torn_write small hsplit hu hlong offset
      rw [readFrom_failed hfailed]
      exact .inr ⟨e, [], rfl, htorn⟩

theorem readDir_cut {ss : List Segment} (readable : ∀ s ∈ ss, s.Readable c masterKey)
    (plain : ∀ f ∈ ss.flatMap (·.frames), PlainFrame c f) (n : Nat) :
    ∃ tail, EndsTorn tail ∧ readDir c masterKey (Dir.cut n (ss.map Segment.file)) =
      ((fitting n (ss.flatMap (·.frames))).map (·.1)).map Except.ok ++ tail := by
  induction ss generalizing n with
  | nil => exact ⟨[], .inl rfl, rfl⟩
  | cons s ss ih =>
    rw [forall_mem_cons] at readable
    rw [flatMap_cons, forall_mem_append] at plain
    rw [map_cons, Dir.cut, flatMap_cons]
    by_cases hwhole : s.file.bytes.length ≤ n
    · obtain ⟨tail, hends, hread⟩ := ih readable.2 plain.2 (n - s.file.bytes.length)
      refine ⟨tail, hends, ?_⟩
      rw [if_pos hwhole, readDir_cons, hread, fitting_append_of_le hwhole, map_append, map_append, append_assoc]
      exact congrArg (· ++ _) readable.1.read
    · rw [if_neg hwhole, fitting_append_of_lt (Nat.not_le.1 hwhole)]
      refine ⟨_, read_torn plain.1 masterKey s.index (bytes (fitting n s.frames)).length n, ?_⟩
      have hfitting : ∀ f ∈ fitting n s.frames, FrameOf c masterKey s.index f := fun f hf =>
        readable.1 f (mem_of_mem_fitting hf)
      have hread := readSegment_append hfitting (torn n s.frames)
      rw [← take_bytes] at hread
      rw [readDir_cons, show readDir c masterKey [] = [] from rfl, append_nil]
      exact hread

end Cutting

end Wal

namespace Tx

open List Wal Frames

section Prefix
variable {env : Env} {masterKey : Option WalKey} {log : Log} {ss : List Segment}
  {stranded : UInt64 → List (Nat × Wal.DataPayload)} {entries : List CommitEntry}

theorem files_plain (files : Files env.crypto masterKey log ss) : ∀ f ∈ ss.flatMap (·.frames), PlainFrame env.crypto f := by
  rw [files.frames]
  intro f hf
  obtain ⟨x, hx, rfl⟩ := mem_map.1 hf
  exact ⟨(files.written x hx).1, (files.written x hx).2, rfl⟩

theorem entries_before (means : Means env (placed ss) stranded entries) (n : Nat) :
    (entries.filter fun k => k.endPos ≤ n) = entries.take
      (((fitting n ((placed ss).map plainFrame)).map (·.1)).countP fun r => (txRecord some r).isCommit) := by
  obtain ⟨later, hlater⟩ := fitting_first n ((placed ss).map plainFrame)
  have hends := means.ends
  have hfilter := filter_ends (fun r => (txRecord some r).isCommit) n 0 ((placed ss).map plainFrame)
  rw [Nat.zero_add, ← commitEnds, hends, filter_map] at hfilter
  rw [commitEnds, ← hlater, ends_append] at hends
  obtain ⟨early, late, rfl, hearly, -⟩ := map_eq_append_iff.1 hends.symm
  have hcount := length_ends (fun r => (txRecord some r).isCommit) 0 (fitting n ((placed ss).map plainFrame))
  rw [← hearly] at hfilter hcount
  have hall : ∀ k ∈ early, decide (k.endPos ≤ n) = true := by
    intro k hk
    have hmem : k.endPos ∈ ((early ++ late).filter fun k => k.endPos ≤ n).map (·.endPos) := by
      rw [show ((early ++ late).filter fun k => k.endPos ≤ n).map (·.endPos) = _ from hfilter]
      exact mem_map_of_mem hk
    obtain ⟨k', hk', heq⟩ := mem_map.1 hmem
    rw [← heq]
    exact (mem_filter.1 hk').2
  have hlength := congrArg length hfilter
  rw [length_map, length_map, Function.comp_def, filter_append, filter_eq_self.2 hall, length_append] at hlength
  have hnone : (late.filter fun k => k.endPos ≤ n) = [] := length_eq_zero_iff.1 (by omega)
  rw [length_map] at hcount
  rw [countP_map, Function.comp_def, ← hcount, take_left, filter_append, filter_eq_self.2 hall, hnone, append_nil]

theorem streamed_cut (files : Files env.crypto masterKey log ss) (means : Means env (placed ss) stranded entries)
    (fresh : ∀ k ∈ entries, k.stranded = []) (verify : Bool) (signatures : verify = true → env.SignaturesVerify) (n : Nat) :
    (streamed env.crypto env.verifier (log.dir.cut n) masterKey verify none 0).1.map told =
        (entries.filter fun k => k.endPos ≤ n).map (CommitEntry.told env) ∧
      ∃ res, (streamed env.crypto env.verifier (log.dir.cut n) masterKey verify none 0).2 = .ok res := by
  obtain ⟨tail, hends, hread⟩ := readDir_cut files.holds.readable (files_plain files) n
  rw [← files.dir, files.frames] at hread
  obtain ⟨later, hlater⟩ := fitting_first n ((placed ss).map plainFrame)
  have hbefore := entries_before means n
  generalize fitting n ((placed ss).map plainFrame) = early at hread hlater hbefore
  have hrecords : (placed ss).map (·.2) = early.map (·.1) ++ later.map (·.1) := by
    rw [← map_append, hlater, map_map]
    rfl
  -- the transactions of the first records are the first of those of all records
  have hcommitted := means.committed 0
  rw [rawFrom, recordsFrom_zero, hrecords, map_append, TxLog.committed_append] at hcommitted
  have hfirst := forall₂_take (TxLog.committed ((early.map (·.1)).map (txRecord some))).length hcommitted
  rw [take_left, TxLog.committed, TxLog.length_committedFrom, countP_map,
    show (TxLog.Record.isCommit ∘ txRecord some) = fun r => (txRecord some r).isCommit from rfl,
    show (entries.filter fun k => 0 ≤ k.commitSegment) = entries by simp, ← hbefore] at hfirst
  have hknown : ∀ r ∈ early.map (·.1), r.Known := by
    intro r hr
    have hmem : r ∈ (placed ss).map (·.2) := hrecords ▸ mem_append_left _ hr
    obtain ⟨x, hx, rfl⟩ := mem_map.1 hmem
    exact means.known x hx
  have htold : ∀ k ∈ entries, k.toldFrom env 0 = k.told env := fun k hk =>
    (toldFrom_zero_iff env (means.inOrder k hk)).2 (fresh k hk)
  have hchecked : verify = true → ∀ t ∈ TxLog.committed ((early.map (·.1)).map (txRecord some)),
      Wal.verifyCommitFull env.verifier t.info t.rows = .ok () := by
    intro hverify t ht
    obtain ⟨k, hk, hreports⟩ := exists_of_forall₂ hfirst ht
    exact hreports.checked (signatures hverify) (congrArg Prod.snd (htold k (mem_of_mem_filter hk)))
  have hall := streamItems_all env.verifier id verify hknown hchecked hends
  rw [← hread] at hall
  rw [streamed, Wal.recoverStreaming, fromSegment_zero]
  refine ⟨(told_of_summary hall.1).trans ((told_of_reports hfirst).trans ?_), hall.2⟩
  exact map_inj_left.2 fun k hk => htold k (mem_of_mem_filter hk)

end Prefix

/-! ### One session -/

/-- A step of one session that is not closed and does not crash, with payloads that the reader takes. -/
def Tracked.InSession (env : Env) (t : Tracked) (ev : Event) : Prop :=
  t.Fits env ev ∧
    match ev with
    | .openManager _ | .call _ _ => True
    | .close | .crash _ _ _ _ => False

/-- No crash has left records under an id that is used again. -/
structure Tracked.Fresh (t : Tracked) : Prop where
  stranded : ∀ txId, t.stranded txId = []
  entries : ∀ k ∈ t.entries, k.stranded = []

theorem Tracked.Fresh.note (env : Env) {t : Tracked} (h : t.Fresh) (tm : TransactionManager) (call : Call)
    (stamps : Nat → Stamp) : (t.note env tm call stamps (tm.appends env call stamps).length).Fresh := by
  have hended : ∀ txId id, Function.update t.stranded txId [] id = [] := by
    intro txId id
    by_cases hid : id = txId
    · rw [hid, Function.update_self]
    · rw [Function.update_of_ne hid, h.stranded]
  cases call with
  | commit txId =>
    simp only [Tracked.note]
    split
    · exact h
    · rw [if_pos (Nat.le_refl _)]
      refine ⟨hended txId, forall_mem_append.2 ⟨h.entries, forall_mem_singleton.2 ?_⟩⟩
      exact h.stranded txId
  | rollback txId =>
    simp only [Tracked.note]
    split
    · exact h
    · exact ⟨hended txId, h.entries⟩
  | _ => exact h

theorem Tracked.Fresh.run {env : Env} {t : Tracked}
    (run : Run.Reachable (Tracked.step env) (Tracked.InSession env) .start t) : t.Fresh := by
  refine run.invariant ⟨fun _ => rfl, nofun⟩ ?_
  rintro ⟨db, added, stranded, entries⟩ ev t' h ⟨-, hsession⟩ hstep
  obtain ⟨db', hdb, rfl⟩ := Option.map_eq_some_iff.1 hstep
  cases ev with
  | openManager =>
    cases db with
    | closed => exact ⟨h.stranded, h.entries⟩
    | opened => cases hdb
  | call call stamps =>
    cases db with
    | closed => cases hdb
    | opened tm =>
      have hnote := h.note env tm call stamps
      exact ⟨hnote.stranded, hnote.entries⟩
  | close | crash => exact hsession.elim

/-- In every run of one session, with any calls and segments, and wherever the files are cut: recovery reports exactly the
    transactions whose commit record is whole, once each and in the order of these records, with exactly the mutations that
    were added to them. -/
theorem recovery_of_cut (env : Env) (lawful : env.crypto.Lawful) (t : Tracked)
    (run : Run.Reachable (Tracked.step env) (Tracked.InSession env) .start t) (masterKey : Option WalKey) (verify : Bool)
    (signatures : verify = true → env.SignaturesVerify) (n : Nat) :
    (streamed env.crypto env.verifier (t.db.dir.cut n) masterKey verify none 0).1.map told =
        (t.entries.filter fun k => k.endPos ≤ n).map (CommitEntry.told env) ∧
      ∃ res, (streamed env.crypto env.verifier (t.db.dir.cut n) masterKey verify none 0).2 = .ok res := by
  have hfits : Run.Reachable (Tracked.step env) (Tracked.Fits env) .start t := run.mono fun _ _ h => h.1
  obtain ⟨ss, files, means⟩ := (Tracked.Holds.run lawful masterKey hfits).log
  rw [← Db.log_dir]
  exact streamed_cut files means (Tracked.Fresh.run run).entries verify signatures n

instance (env : Env) (t : Tracked) (ev : Event) : Decidable (t.InSession env ev) :=
  match ev with
  | .openManager _ | .call _ _ => inferInstanceAs (Decidable (_ ∧ True))
  | .close | .crash _ _ _ _ => inferInstanceAs (Decidable (_ ∧ False))

/-- The cut is in the commit record of the second of two transactions. -/
theorem recovery_of_cut_interleaved : ∃ t, Run.exec (Tracked.step Sample.env) .start Sample.interleaved = some t ∧
      t.entries.map (fun k => (k.txId, k.endPos)) = [(2, 362), (1, 646)] ∧
      (streamed Sample.env.crypto Sample.env.verifier (t.db.dir.cut 500) none true none 0).1.map told =
        (t.entries.filter fun k => k.endPos ≤ 500).map (CommitEntry.told Sample.env) ∧
      ∃ res, (streamed Sample.env.crypto Sample.env.verifier (t.db.dir.cut 500) none true none 0).2 = .ok res :=
  Run.exists_of_exec (by decide +kernel) rfl fun run => ⟨by decide +kernel,
    recovery_of_cut Sample.env Sample.lawful _ run none true (fun _ => Sample.signatures) 500⟩

end Tx

end VectorLedger
