import VectorLedger.Lib.Assign
import VectorLedger.Theorems.Effects

/-! Opening a store, in terms of the rows that the replayed segments commit. -/

namespace VectorLedger

open TxLog

/-! ### Reading the log -/

theorem mem_of_mem_readSegments {tears : List Tear} {r : WalRecord} {segments : List (List WalRecord)} {i : Nat}
    (h : r ∈ (readSegments tears i segments).1) : r ∈ segments.flatten := by
  induction segments generalizing i with
  | nil => cases h
  | cons segment rest ih =>
    rw [List.flatten_cons, List.mem_append]
    unfold readSegments at h
    split at h
    · rcases List.mem_append.1 h with h | h
      · exact .inl h
      · exact .inr (ih h)
    · split at h
      · rcases List.mem_append.1 h with h | h
        · exact .inl (List.mem_of_mem_take h)
        · exact .inr (ih h)
      · split at h <;> exact .inl (List.mem_of_mem_take h)

theorem mem_of_mem_readLog {w : Segments WalRecord} {r : WalRecord} {k : Nat} (h : r ∈ (readLog w k).1) : r ∈ w.records :=
  Segments.mem_of_mem_recordsFrom (mem_of_mem_readSegments h)

theorem readSegments_of_end (sealedSegments : List (List WalRecord)) (active : List WalRecord) (tears : List Tear) (i : Nat)
    (torn : tears = [] ∨ ∃ n, tears = [⟨i + sealedSegments.length, active.length, n⟩]) :
    readSegments tears i (sealedSegments ++ [active]) = ((sealedSegments ++ [active]).flatten, none) := by
  induction sealedSegments generalizing i with
  | nil =>
    rcases torn with rfl | ⟨n, rfl⟩
    · simp [readSegments]
    · simp [readSegments]
  | cons segment rest ih =>
    have here : tears.filter (·.segment = i) = [] := by
      rcases torn with rfl | ⟨n, rfl⟩
      · rfl
      · simp
    have hrest := ih (i + 1) (torn.imp_right fun ⟨n, hn⟩ => ⟨n, by rw [hn, List.length_cons]; congr 2; omega⟩)
    rw [List.cons_append, readSegments, here]
    simp only [hrest, Prod.map, id, List.flatten_cons]

/-- A torn record at the end of the log hides nothing. -/
theorem readLog_eq {w : Segments WalRecord} (h : w.TornAtEnd) (k : Nat) : readLog w k = (w.recordsFrom k, none) := by
  unfold readLog Segments.recordsFrom
  rcases Nat.lt_or_ge w.sealedSegments.length k with hk | hk
  · rw [List.drop_of_length_le (by rw [Segments.length_all]; exact hk)]
    rfl
  · rw [Segments.all, List.drop_append_of_le_length hk]
    refine readSegments_of_end _ _ _ _ (h.imp_right ?_)
    rintro ⟨n, hn⟩
    refine ⟨n, ?_⟩
    rw [hn, List.length_drop, Nat.add_sub_cancel' hk]
    rfl

theorem recoverStreaming_ok {σ : Type} {cfg : Config} {w : Segments WalRecord} {verify : Bool} {k : Nat}
    {onCommit : σ → CommittedTransaction → σ} {init res : σ}
    (h : recoverStreaming cfg w verify k onCommit init = .ok res) :
    res = (committed (readLog w k).1).foldl onCommit init := by
  unfold recoverStreaming at h
  generalize hrecover : recover (fun t => if verify then verifyCommitFull cfg t else .ok ()) onCommit ∅ init
    (readLog w k).1 = outcome at h
  cases outcome with
  | error => cases h
  | ok r =>
    simp only [bind, Except.bind] at h
    split at h
    · cases h
    · cases h
      exact recover_ok hrecover

def Disk.visible (d : Disk) : List DataPayload := TxLog.rows (readLog d.wal d.startSegment).1

/-- With a signing key, every transaction of the replayed segments passes the check of its commit. -/
def Disk.Verifies (cfg : Config) (d : Disk) : Prop :=
  d.signingKey.isSome → ∀ t ∈ TxLog.committed (readLog d.wal d.startSegment).1, verifyCommitFull cfg t = .ok ()

namespace LedgerStore

variable {cfg : Config} {m : Bool} {d : Disk} {s : LedgerStore}

def indexedUpTo (m : Bool) (d : Disk) : Nat := if m then 0 else d.entryDb.maxSequence

def replayStart (m : Bool) (d : Disk) : Replay :=
  ⟨(initial d).loadAccounts d.startSegment m, !m && indexedUpTo m d > 0⟩

def replayed (m : Bool) (d : Disk) : Replay :=
  d.visible.foldl (replayRow m (indexedUpTo m d)) (replayStart m d)

/-- The store that an open gives when no transaction is found to be tampered with. -/
def opened (m : Bool) (d : Disk) : LedgerStore := (finishReplay (replayed m d)).writeCheckpoint

theorem foldl_replayTransaction (k : Nat) (r : Replay) (ts : List CommittedTransaction) :
    ts.foldl (replayTransaction m k) r = (ts.flatMap (·.rows)).foldl (replayRow m k) r :=
  List.foldl_flatMap.symm

theorem openWith_ok (h : openWith cfg m d = .ok s) : s = opened m d := by
  unfold openWith at h
  split at h
  · cases h
  unfold replayFromWal at h
  simp only at h
  split at h
  · cases h
  · next r hr =>
    have hfold := recoverStreaming_ok hr
    rw [foldl_replayTransaction] at hfold
    subst hfold
    exact (Except.ok.inj h).symm

theorem openWith_eq (torn : d.wal.TornAtEnd) (h : d.Verifies cfg) : openWith cfg m d = .ok (opened m d) := by
  have hcheck : ∀ t ∈ committedFrom ∅ (readLog d.wal d.startSegment).1,
      (if d.signingKey.isSome then verifyCommitFull cfg t else .ok ()) = .ok () := by
    intro t ht
    split
    · next hkey => exact h hkey t ht
    · rfl
  have hread : ∀ k, (readLog d.wal k).2 = none := fun k => by rw [readLog_eq torn]
  unfold openWith replayFromWal recoverStreaming TransactionManager.openWithSigning
  simp only [hread, recover_eq hcheck, foldl_replayTransaction, bind, Except.bind]
  rfl

theorem replayed_induction {P : Replay → Prop} (hstart : P (replayStart m d))
    (hrow : ∀ r, ∀ p ∈ d.visible, P r → P (replayRow m (indexedUpTo m d) r p)) : P (replayed m d) :=
  List.foldlRecOn d.visible _ hstart fun r hr p hp => hrow r p hp hr

/-! ### What an open leaves alone -/

theorem replayRow_txManager (k : Nat) (r : Replay) (p : DataPayload) :
    (replayRow m k r p).store.txManager = r.store.txManager := by
  unfold replayRow replayEntry
  simp only [updateBalances_eq]
  split <;> split <;> (try split_ifs) <;> rfl

theorem loadAccounts_txManager (n : Nat) : (s.loadAccounts n m).txManager = s.txManager := by
  unfold loadAccounts
  split
  · exact List.foldl_keeps (·.txManager) applyAccount (fun _ _ => rfl) _ s
  · rfl

theorem finishReplay_txManager (r : Replay) : (finishReplay r).txManager = r.store.txManager := by
  unfold finishReplay
  split <;> rfl

theorem writeCheckpoint_txManager : s.writeCheckpoint.txManager = s.txManager := by
  unfold writeCheckpoint
  split <;> rfl

theorem opened_txManager : (opened m d).txManager = .opened d.wal d.signingKey := by
  rw [opened, writeCheckpoint_txManager, finishReplay_txManager, replayed,
    List.foldl_keeps (fun r : Replay => r.store.txManager) _ (replayRow_txManager _), replayStart,
    loadAccounts_txManager]
  rfl

end LedgerStore

end VectorLedger
