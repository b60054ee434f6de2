import VectorLedger.Theorems.Events
import VectorLedger.Theorems.Sequence

/-! Reversals and the reversal index: how many committed entries reverse one entry, and when the index says
    that it is reversed. -/

namespace VectorLedger

open Sample

def reversalCount (entryId : Uuid) (es : List JournalEntry) : Nat :=
  es.countP fun e => e.reversesEntryId = some entryId

theorem reversalCount_concat (entryId : Uuid) (es : List JournalEntry) (e : JournalEntry) :
    reversalCount entryId (es ++ [e]) = reversalCount entryId es + if e.reversesEntryId = some entryId then 1 else 0 := by
  simp [reversalCount, List.countP_append, List.countP_singleton]

/-- An entry that is posted or imported reverses nothing. -/
def PlainCall (cfg : Config) (s : LedgerStore) (op : Op) : Prop :=
  match op with
  | .postEntry e | .importEntryDirect e => op.Reaches cfg s → e.reversesEntryId = none
  | _ => True

instance (cfg : Config) (s : LedgerStore) (op : Op) : Decidable (PlainCall cfg s op) := by
  rcases op with _ | _ <;> unfold PlainCall <;> infer_instance

/-- The index records exactly the committed reversals, and no entry has two. -/
structure LedgerStore.ReversedOnce (s : LedgerStore) : Prop where
  ahead : s.txManager.Ahead
  counts : ∀ entryId, reversalCount entryId (committedEntries s.disk.wal) = if s.isReversed entryId then 1 else 0

section ReversedOnce
variable {cfg : Config} {io : Io} {s s' : LedgerStore} {op : Op} {e : JournalEntry}

theorem LedgerStore.ReversedOnce.plain {es : List JournalEntry} (h : s.ReversedOnce) (log : LogsEntries cfg s s' es)
    (plain : ∀ e ∈ es, e.reversesEntryId = none) (reversals : s'.reversalEventIndex = s.reversalEventIndex) :
    s'.ReversedOnce := by
  refine ⟨log.ahead h.ahead, fun entryId => ?_⟩
  have hnone : reversalCount entryId es = 0 := by
    rw [reversalCount, List.countP_eq_zero]
    intro e he
    simp [plain e he]
  have hcounts := h.counts entryId
  rw [log.entries_eq h.ahead.noLeftover, reversalCount, List.countP_append]
  rw [reversalCount] at hnone hcounts
  rw [hcounts, hnone, LedgerStore.isReversed, LedgerStore.isReversed, reversals, Nat.add_zero]

theorem LedgerStore.ReversedOnce.reversal {entryId : Uuid} (h : s.ReversedOnce) (log : LogsEntries cfg s s' [e])
    (hreverses : e.reversesEntryId = some entryId) (hfirst : s.reversalEventIndex.lookup entryId = none)
    (reversals : s'.reversalEventIndex = s.reversalEventIndex.insert entryId e.id) : s'.ReversedOnce := by
  refine ⟨log.ahead h.ahead, fun id => ?_⟩
  rw [log.entries_eq h.ahead.noLeftover, reversalCount_concat, h.counts id, hreverses, LedgerStore.isReversed,
    LedgerStore.isReversed, reversals]
  by_cases hid : id = entryId
  · subst hid
    simp [hfirst, Finmap.lookup_insert]
  · simp [Finmap.lookup_insert_of_ne _ hid, Ne.symm hid]

theorem LedgerStore.ReversedOnce.events (h : s.ReversedOnce) (effect : EventEffect cfg io s op s')
    (allowed : PlainCall cfg s op) : s'.ReversedOnce := by
  cases effect with
  | kept log entries tip next reversals => exact h.plain log (by simp) reversals
  | committed e origin normal log entryDb tip next reversals =>
    cases origin with
    | posted valid fresh checked =>
      exact h.plain log (by simpa using allowed ⟨valid, fresh, checked⟩) reversals
    | reversed checked =>
      obtain ⟨-, -, -, hfirst⟩ := LedgerStore.checkReversal_ok checked
      exact h.reversal log (by simp) hfirst reversals
    | imported => exact normal.elim
  | imported e hop reached log entryDb reversals =>
    subst hop
    exact h.plain log (by simpa using allowed reached) reversals
  | marked entryId status notes hop log entryDb tip next reversals =>
    exact h.plain log (by simp) reversals

end ReversedOnce

/-- In every session whose posts reverse nothing, at most one committed entry reverses an entry, and the index
    says that the entry is reversed exactly when there is one. -/
theorem reversed_at_most_once (cfg : Config) (key : Option SigningKey) (s : LedgerStore) (entryId : Uuid)
    (run : Run.Reachable (Machine.step cfg) (SessionStep fun _ s op => PlainCall cfg s op) (.down (.fresh key)) (.up s)) :
    reversalCount entryId (committedEntries s.disk.wal) ≤ 1 ∧
      (s.isReversed entryId = true ↔ ∃ e ∈ committedEntries s.disk.wal, e.reversesEntryId = some entryId) := by
  have initial : (LedgerStore.initial (.fresh key)).ReversedOnce := ⟨LedgerStore.ahead_initial key, fun _ => rfl⟩
  have once : s.ReversedOnce :=
    session_invariant run initial fun _ _ _ _ h allowed effect => h.events effect.events allowed
  have hcounts := once.counts entryId
  have hexists : (∃ e ∈ committedEntries s.disk.wal, e.reversesEntryId = some entryId) ↔
      0 < reversalCount entryId (committedEntries s.disk.wal) := by
    simp [reversalCount, List.countP_pos_iff]
  rw [hexists, hcounts]
  cases s.isReversed entryId <;> simp

theorem reversed_at_most_once_sample : ∃ s, Run.exec (Machine.step config) (.down (.fresh none))
        (twoAccounts ++ [.call io (.postEntry (transfer 10 none 5 2 1)),
          .call io (.reverseEntry 10 "undo" "test"), .call io (.reverseEntry 10 "undo" "test")]) =
        some (.up s) ∧ s.isReversed 10 = true ∧ reversalCount 10 (committedEntries s.disk.wal) ≤ 1 :=
  Run.exists_of_exec (by decide +kernel) rfl fun run => ⟨by decide +kernel, (reversed_at_most_once config none _ 10 run).1⟩

/-- A posted entry that says it reverses another is committed, and then the other is reversed as well: two
    committed entries reverse it. After the post alone the index does not say that it is reversed. -/
theorem reversed_twice_by_post : ((Run.exec (Machine.step config) (.down (.fresh none))
        (twoAccounts ++ [.call io (.postEntry (transfer 10 none 5 2 1)), .call io (.postEntry { transfer 11 none 5 1 2 with
            status := .reversal, reversesEntryId := some 10 })])).bind Machine.store?).map (fun s =>
      let s' := (s.call config io (.reverseEntry 10 "undo" "test")).2
      (s.isReversed 10, reversalCount 10 (committedEntries s.disk.wal),
        reversalCount 10 (committedEntries s'.disk.wal))) = some (false, 1, 2) := by
  decide +kernel

end VectorLedger
