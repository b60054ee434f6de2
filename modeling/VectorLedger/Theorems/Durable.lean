import VectorLedger.Theorems.Entries

/-! What every data directory keeps: its log can be read from any segment, and every committed transaction passes its
    check. -/

namespace VectorLedger

open TxLog

/-- Only accounts are written as deletions. -/
def DataPayload.Plain (p : DataPayload) : Prop := p.mutation = .delete → ∃ a, p.row = .account a

/-- The log can be read again: it is torn at most at its end, and its commits verify. -/
structure Disk.Durable (cfg : Config) (d : Disk) : Prop where
  torn : d.wal.TornAtEnd
  sliced : Sliced d.wal
  start : d.startSegment ≤ d.wal.lastIndex
  plain : ∀ p ∈ journal d.wal, p.Plain
  verified : cfg.SignaturesVerify → ∀ t ∈ TxLog.committed d.wal.records, verifyCommitFull cfg t = .ok ()

/-- Every transaction that the replayed segments commit is committed with all its rows: none of them began in
    a segment that is skipped. -/
def Disk.Whole (d : Disk) : Prop :=
  ∀ t ∈ TxLog.committed (readLog d.wal d.startSegment).1, t ∈ TxLog.committed d.wal.records

/-- A ledger without a signing key does not look at the commits, so it may cut a transaction. -/
def Disk.WholeIfSigned (d : Disk) : Prop := d.signingKey.isSome → d.Whole

instance (d : Disk) : Decidable d.WholeIfSigned := by
  unfold Disk.WholeIfSigned Disk.Whole
  infer_instance

variable {cfg : Config} {d : Disk}

namespace Disk.Durable

theorem fresh (cfg : Config) (key : Option SigningKey) : (Disk.fresh key).Durable cfg where
  torn := .inl rfl
  sliced := Sliced.empty
  start := Nat.le_refl _
  plain _ hp := nomatch hp
  verified _ _ ht := nomatch ht

theorem visible_eq (h : d.Durable cfg) : d.visible = TxLog.rows (d.wal.recordsFrom d.startSegment) := by
  rw [Disk.visible, readLog_eq h.torn]

theorem visible_suffix (h : d.Durable cfg) : d.visible <:+ journal d.wal := by
  rw [h.visible_eq]
  exact h.sliced.rows_suffix _ h.start

theorem plain_visible (h : d.Durable cfg) : ∀ p ∈ d.visible, p.Plain :=
  fun p hp => h.plain p (h.visible_suffix.mem hp)

theorem entries_suffix (h : d.Durable cfg) : entriesOf d.visible <:+ committedEntries d.wal := by
  obtain ⟨skipped, hskipped⟩ := h.visible_suffix
  refine ⟨entriesOf skipped, ?_⟩
  rw [committedEntries_eq, ← hskipped, entriesOf_append]

theorem openWith (h : d.Durable cfg) (sound : cfg.SignaturesVerify) (whole : d.WholeIfSigned) (m : Bool) :
    LedgerStore.openWith cfg m d = .ok (LedgerStore.opened m d) :=
  LedgerStore.openWith_eq h.torn fun hkey t ht => h.verified sound t (whole hkey t ht)

end Disk.Durable

/-! ### The check of a commit -/

theorem verifyCommitSignature_commitPayload (sound : cfg.SignaturesVerify) (key : Option SigningKey)
    (rows : List DataPayload) :
    verifyCommitSignature cfg (TransactionManager.commitPayload cfg key rows) = .ok () := by
  unfold verifyCommitSignature
  split
  · rfl
  split
  · rfl
  cases key with
  | none => next hkey _ => exact absurd (.inl rfl) hkey
  | some sk => simp only [TransactionManager.commitPayload, sound sk]

theorem verifyCommitFull_commitPayload (sound : cfg.SignaturesVerify) (key : Option SigningKey) (tx : Nat)
    (rows : List DataPayload) :
    verifyCommitFull cfg ⟨tx, rows, TransactionManager.commitPayload cfg key rows⟩ = .ok () := by
  have hcount : (TransactionManager.commitPayload cfg key rows).recordCount = rows.length % 2 ^ 32 := by
    cases key <;> rfl
  have hhash : (TransactionManager.commitPayload cfg key rows).txHash = txHashOf cfg rows := by
    cases key <;> rfl
  unfold verifyCommitFull
  rw [if_neg (not_not.2 hcount), if_neg (not_not.2 hhash.symm)]
  exact verifyCommitSignature_commitPayload sound key rows

/-! ### Steps -/

theorem Effect.plain {io : Io} {s s' : LedgerStore} {op : Op} (h : Effect cfg io s op s') :
    ∃ ps, Wrote cfg s.txManager ps s'.txManager ∧ s'.walCheckpoint = s.walCheckpoint ∧ ∀ p ∈ ps, p.Plain := by
  have insert : ∀ {page slot : Nat} {row : Row} {prev : Option Hash},
      (LedgerStore.payloadOf cfg page slot .insert row prev).Plain := fun hdelete => nomatch hdelete
  have account : ∀ {page slot : Nat} {a : Account} {prev : Option Hash},
      (LedgerStore.payloadOf cfg page slot .delete (.account a) prev).Plain := fun _ => ⟨_, rfl⟩
  cases h with
  | rejected => exact ⟨_, .nothing, rfl, by simp⟩
  | failed op c₁ c₂ reached wrote => exact ⟨_, wrote, op.begun_walCheckpoint s, by simp⟩
  | created c₁ c₂ wrote | posted c₁ c₂ valid fresh checked wrote | imported c₁ c₂ valid fresh checked wrote
  | settled c₁ c₂ wrote | reconciled c₁ c₂ wrote => exact ⟨_, wrote, rfl, by simpa using insert⟩
  | closed c₁ c₂ found wrote | held c₁ c₂ found wrote => exact ⟨_, wrote, rfl, by simpa using account⟩
  | reversed c₁ c₂ checked wrote => exact ⟨_, wrote, rfl, by simpa using ⟨insert, insert⟩⟩

theorem Disk.Durable.effect {io : Io} {s s' : LedgerStore} {op : Op} (h : s.disk.Durable cfg)
    (effect : Effect cfg io s op s') (ready : s.txManager.Appendable) : s'.disk.Durable cfg := by
  have clean := ready.noLeftover
  obtain ⟨ps, wrote, hcp, hplain⟩ := effect.plain
  have hstart : s'.disk.startSegment = s.disk.startSegment := by
    simp only [Disk.startSegment, LedgerStore.disk, hcp]
  refine ⟨wrote.tornAtEnd ready.untorn, wrote.sliced clean h.sliced, ?_, ?_, ?_⟩
  · rw [hstart]
    exact Nat.le_trans h.start wrote.lastIndex_le
  · intro p hp
    rw [LedgerStore.disk, wrote.journal_eq clean, List.mem_append] at hp
    rcases hp with hp | hp
    · exact h.plain p hp
    · exact hplain p hp
  · intro sound t ht
    rcases wrote.committed_eq clean with hsame | hnew
    · exact h.verified sound t (hsame ▸ ht)
    · have ht' : t ∈ TxLog.committed s'.txManager.wal.records := ht
      rw [hnew, List.mem_append, List.mem_singleton] at ht'
      rcases ht' with ht' | rfl
      · exact h.verified sound t ht'
      · exact verifyCommitFull_commitPayload sound _ _ _

namespace LedgerStore

variable {m : Bool} {s : LedgerStore}

theorem replayRow_walCheckpoint (k : Nat) (r : Replay) (p : DataPayload) :
    (replayRow m k r p).store.walCheckpoint = r.store.walCheckpoint := by
  unfold replayRow replayEntry
  simp only [updateBalances_eq]
  split <;> split <;> (try split_ifs) <;> rfl

theorem replayed_walCheckpoint : (finishReplay (replayed m d)).walCheckpoint = d.walCheckpoint := by
  have hfinish : ∀ r : Replay, (finishReplay r).walCheckpoint = r.store.walCheckpoint := by
    intro r
    unfold finishReplay
    split <;> rfl
  have hload : ((initial d).loadAccounts d.startSegment m).walCheckpoint = d.walCheckpoint := by
    unfold loadAccounts
    split
    · exact List.foldl_keeps (·.walCheckpoint) applyAccount (fun _ _ => rfl) _ (initial d)
    · rfl
  rw [hfinish, replayed,
    List.foldl_keeps (fun r : Replay => r.store.walCheckpoint) _ (replayRow_walCheckpoint _), replayStart, hload]

theorem opened_walCheckpoint : (opened m d).walCheckpoint =
    if 0 < (opened m d).entryDb.maxSequence then some ⟨(opened m d).entryDb.maxSequence, d.wal.lastIndex⟩
    else d.walCheckpoint := by
  have hwal : (finishReplay (replayed m d)).txManager.wal = d.wal := by
    have htm := opened_txManager (m := m) (d := d)
    rw [opened, writeCheckpoint_txManager] at htm
    rw [htm]
    rfl
  have hdb : (opened m d).entryDb = (finishReplay (replayed m d)).entryDb := by
    unfold opened writeCheckpoint
    split <;> rfl
  unfold opened writeCheckpoint
  by_cases hpos : (finishReplay (replayed m d)).entryDb.maxSequence > 0
  · rw [if_pos hpos, if_pos hpos, hwal]
  · rw [if_neg hpos, if_neg hpos, replayed_walCheckpoint]

theorem opened_startSegment : (opened m d).disk.startSegment =
    if 0 < (opened m d).entryDb.maxSequence then d.wal.lastIndex else d.startSegment := by
  simp only [Disk.startSegment, LedgerStore.disk, opened_walCheckpoint]
  by_cases hpos : 0 < (opened m d).entryDb.maxSequence
  · simp only [if_pos hpos]
  · simp only [if_neg hpos]

theorem opened_durable (h : d.Durable cfg) : (opened m d).disk.Durable cfg := by
  have hwal := opened_wal m d
  refine ⟨hwal ▸ h.torn, hwal ▸ h.sliced, ?_, hwal ▸ h.plain, hwal ▸ h.verified⟩
  rw [hwal, opened_startSegment]
  split
  · exact Nat.le_refl _
  · exact h.start

end LedgerStore

/-- A step of the machine keeps the log readable. -/
theorem Disk.Durable.step {x y : Machine} {ev : Event} (h : x.disk.Durable cfg)
    (hstep : Machine.step cfg x ev = some y) (ready : AppendStep x ev) : y.disk.Durable cfg := by
  cases Machine.step_cases hstep with
  | refused => exact h
  | opened | importing => exact LedgerStore.opened_durable h
  | called effect | crashed effect => exact h.effect effect ready
  | closed => exact h

end VectorLedger
