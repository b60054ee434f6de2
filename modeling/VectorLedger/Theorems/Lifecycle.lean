import VectorLedger.Theorems.Events
import VectorLedger.Theorems.Sequence

/-! The life of an entry's status, and which calls keep it on the transitions it is meant to take. -/

namespace VectorLedger

open Sample Machine LedgerStore

/-! ### Transitions -/

def EntryStatus.mayBecome : EntryStatus → EntryStatus → Bool
  | .posted, .pending | .posted, .settled | .posted, .failed | .posted, .reversed => true
  | .pending, .settled | .pending, .failed => true
  | _, _ => false

def EntryStatus.isMark : EntryStatus → Bool
  | .pending | .settled | .failed => true
  | _ => false

/-- The status stays, or changes as it may. -/
def EntryStatus.Follows (old new : EntryStatus) : Prop := new = old ∨ old.mayBecome new = true

instance (old new : EntryStatus) : Decidable (old.Follows new) := by
  unfold EntryStatus.Follows
  infer_instance

theorem EntryStatus.Follows.trans {a b c : EntryStatus} (h : a.Follows b) (h' : b.Follows c) : a.Follows c := by
  revert a b c
  unfold EntryStatus.Follows
  intro a b c
  cases a <;> cases b <;> cases c <;> simp [mayBecome]

/-! ### The effective status -/

namespace EntryDb

variable {db : EntryDb} {e : JournalEntry} {entryId : Uuid}

theorem foldl_status (rows : List JournalEntry) (found : Option JournalEntry) :
    rows.foldl (fun status e => if e.id = entryId then e.status else status) ((found.map (·.status)).getD .posted) =
      ((rows.foldl (fun found e => if e.id = entryId then some e else found) found).map (·.status)).getD .posted := by
  induction rows generalizing found with
  | nil => rfl
  | cons row rows ih =>
    rw [List.foldl_cons, List.foldl_cons]
    by_cases hid : row.id = entryId
    · rw [if_pos hid, if_pos hid]
      exact ih (some row)
    · rw [if_neg hid, if_neg hid]
      exact ih found

theorem foldl_insertBySequence (hne : e.id ≠ entryId) (rows : List JournalEntry) (found : Option JournalEntry) :
    (insertBySequence e rows).foldl (fun found e => if e.id = entryId then some e else found) found =
      rows.foldl (fun found e => if e.id = entryId then some e else found) found := by
  induction rows generalizing found with
  | nil => simp [insertBySequence, hne]
  | cons row rows ih =>
    unfold insertBySequence
    split
    · rw [List.foldl_cons, if_neg hne]
    · rw [List.foldl_cons, List.foldl_cons, ih]

theorem findById_indexEntry (hne : e.id ≠ entryId) (io : Io) :
    (indexEntry io db e).findById entryId = db.findById entryId := by
  have hinsert : (db.insert e).findById entryId = db.findById entryId := by
    by_cases href : db.Refused e
    · rw [insert_of_refused href]
    · rw [findById, findById, entries_insert href, foldl_insertBySequence hne]
  unfold indexEntry
  split
  · rfl
  · split
    · exact hinsert
    · rw [findById, entries_insertRefs]
      exact hinsert

end EntryDb

namespace LedgerStore

variable {s s' : LedgerStore} {entryId : Uuid}

def storedStatus (s : LedgerStore) (entryId : Uuid) : EntryStatus :=
  ((s.entryDb.findById entryId).map (·.status)).getD .posted

theorem effectiveStatus_eq (s : LedgerStore) (entryId : Uuid) : s.effectiveStatus entryId =
      (s.settlementEventIndex.lookup entryId).getD
        (if s.isReversed entryId then .reversed else s.storedStatus entryId) := by
  unfold effectiveStatus
  rw [show EntryStatus.posted = ((none : Option JournalEntry).map (·.status)).getD .posted from rfl, EntryDb.foldl_status]
  cases s.settlementEventIndex.lookup entryId <;> rfl

theorem isReversed_congr (reversals : s'.reversalEventIndex = s.reversalEventIndex) (entryId : Uuid) :
    s'.isReversed entryId = s.isReversed entryId := by
  rw [isReversed, isReversed, reversals]

theorem effectiveStatus_congr (settlements : s'.settlementEventIndex.lookup entryId = s.settlementEventIndex.lookup entryId)
    (reversals : s'.isReversed entryId = s.isReversed entryId)
    (stored : s'.entryDb.findById entryId = s.entryDb.findById entryId) :
    s'.effectiveStatus entryId = s.effectiveStatus entryId := by
  rw [effectiveStatus_eq, effectiveStatus_eq, settlements, reversals, storedStatus, storedStatus, stored]

/-- The store has an entry with this id. -/
def Stored (s : LedgerStore) (entryId : Uuid) : Prop := ∃ e ∈ s.entryDb.entries, e.id = entryId

theorem Stored.congr (stored : s.Stored entryId) (entries : s'.entryDb.entries = s.entryDb.entries) :
    s'.Stored entryId := by
  rw [Stored, entries]
  exact stored

end LedgerStore

instance (s : LedgerStore) (entryId : Uuid) : Decidable (s.Stored entryId) := by
  unfold LedgerStore.Stored
  infer_instance

/-! ### Calls that respect the transitions -/

/-- Entries come under new ids, an entry is reversed while it is posted, and a mark follows the status that the
    entry has. -/
def StatusCall (cfg : Config) (io : Io) (s : LedgerStore) (op : Op) : Prop :=
  match op with
  | .postEntry e => op.Reaches cfg s → ∀ x ∈ s.entryDb.entries, x.id ≠ e.id
  | .reverseEntry entryId _ _ =>
    op.Reaches cfg s → s.effectiveStatus entryId = .posted ∧ ∀ x ∈ s.entryDb.entries, x.id ≠ io.newId
  | .applySettlementEvent entryId status _ => status.isMark = true ∧ (s.effectiveStatus entryId).Follows status
  | _ => True

instance (cfg : Config) (io : Io) (s : LedgerStore) (op : Op) : Decidable (StatusCall cfg io s op) := by
  rcases op with _ | _ <;> unfold StatusCall <;> infer_instance

/-- Only marks are in the settlement index, and no reversed entry has one. -/
structure LedgerStore.Marked (s : LedgerStore) : Prop where
  marks : ∀ entryId status, s.settlementEventIndex.lookup entryId = some status → status.isMark = true
  apart : ∀ entryId, s.isReversed entryId = true → s.settlementEventIndex.lookup entryId = none

section Calls
variable {cfg : Config} {io : Io} {s s' : LedgerStore} {op : Op} {e : JournalEntry} {entryId : Uuid}

theorem LedgerStore.Marked.effectiveStatus_reversed (h : s.Marked) (reversed : s.isReversed entryId = true) :
    s.effectiveStatus entryId = .reversed := by
  rw [effectiveStatus_eq, h.apart entryId reversed, reversed]
  rfl

theorem LedgerStore.Marked.unmarked (h : s.Marked) (posted : s.effectiveStatus entryId = .posted) :
    s.settlementEventIndex.lookup entryId = none := by
  cases hmark : s.settlementEventIndex.lookup entryId with
  | none => rfl
  | some status =>
    rw [effectiveStatus_eq, hmark, Option.getD_some] at posted
    have := h.marks entryId status hmark
    rw [posted] at this
    cases this

theorem LedgerStore.Marked.congr (h : s.Marked) (reversals : s'.reversalEventIndex = s.reversalEventIndex)
    (settlements : s'.settlementEventIndex = s.settlementEventIndex) : s'.Marked := by
  refine ⟨settlements ▸ h.marks, fun id hid => ?_⟩
  rw [isReversed_congr reversals] at hid
  rw [settlements]
  exact h.apart id hid

theorem LedgerStore.Stored.indexEntry (stored : s.Stored entryId) (entryDb : s'.entryDb = indexEntry io s.entryDb e) :
    s'.Stored entryId := by
  obtain ⟨x, hx, hid⟩ := stored
  exact ⟨x, entryDb ▸ mem_indexEntry_of_mem hx, hid⟩

theorem EntryOrigin.id_ne (origin : EntryOrigin cfg io s op e) (allowed : StatusCall cfg io s op)
    (normal : op.Normal) (stored : s.Stored entryId) : e.id ≠ entryId := by
  obtain ⟨x, hx, rfl⟩ := stored
  cases origin with
  | posted valid fresh checked =>
    rw [sealEntry_id]
    exact (allowed ⟨valid, fresh, checked⟩ x hx).symm
  | reversed checked =>
    rw [sealReversal_id]
    exact ((allowed (Op.reaches_reverseEntry.2 ⟨_, checked⟩)).2 x hx).symm
  | imported => exact normal.elim

theorem LedgerStore.Marked.reversed (h : s.Marked) (posted : s.effectiveStatus entryId = .posted)
    (reversals : s'.reversalEventIndex = s.reversalEventIndex.insert entryId e.id)
    (settlements : s'.settlementEventIndex = s.settlementEventIndex) :
    s'.Marked ∧ s'.effectiveStatus entryId = .reversed := by
  have hunmarked := h.unmarked posted
  have marked : s'.Marked := by
    refine ⟨settlements ▸ h.marks, fun id hid => ?_⟩
    rw [settlements]
    by_cases heq : id = entryId
    · rw [heq, hunmarked]
    · rw [isReversed, reversals, Finmap.lookup_insert_of_ne _ heq] at hid
      exact h.apart id hid
  refine ⟨marked, marked.effectiveStatus_reversed ?_⟩
  rw [isReversed, reversals, Finmap.lookup_insert]
  rfl

theorem LedgerStore.Marked.mark {status : EntryStatus} (h : s.Marked) (mark : status.isMark = true)
    (follows : (s.effectiveStatus entryId).Follows status)
    (reversals : s'.reversalEventIndex = s.reversalEventIndex)
    (settlements : s'.settlementEventIndex = s.settlementEventIndex.insert entryId status) :
    s'.Marked ∧ s'.effectiveStatus entryId = status := by
  refine ⟨⟨?_, ?_⟩, ?_⟩
  · intro id st hst
    rw [settlements] at hst
    by_cases heq : id = entryId
    · rw [heq, Finmap.lookup_insert] at hst
      rw [← Option.some.inj hst]
      exact mark
    · rw [Finmap.lookup_insert_of_ne _ heq] at hst
      exact h.marks id st hst
  · intro id hid
    rw [isReversed_congr reversals] at hid
    by_cases heq : id = entryId
    · -- No mark follows the status of a reversed entry.
      subst heq
      rw [h.effectiveStatus_reversed hid] at follows
      rcases follows with rfl | hnever
      · cases mark
      · cases hnever
    · rw [settlements, Finmap.lookup_insert_of_ne _ heq]
      exact h.apart id hid
  · rw [effectiveStatus_eq, settlements, Finmap.lookup_insert]
    rfl

theorem LedgerStore.Marked.events (h : s.Marked) (effect : EventEffect cfg io s op s')
    (allowed : StatusCall cfg io s op) :
    s'.Marked ∧ ∀ id, s.Stored id → s'.Stored id ∧ (s.effectiveStatus id).Follows (s'.effectiveStatus id) := by
  have kept : ∀ {id : Uuid}, s'.effectiveStatus id = s.effectiveStatus id →
      (s.effectiveStatus id).Follows (s'.effectiveStatus id) := .inl
  cases effect with
  | kept log entries tip next reversals settlements =>
    refine ⟨h.congr reversals settlements, fun id stored => ⟨stored.congr entries, kept ?_⟩⟩
    refine effectiveStatus_congr (by rw [settlements]) (isReversed_congr reversals id) ?_
    rw [EntryDb.findById, EntryDb.findById, entries]
  | committed e origin normal log entryDb tip next reversals settlements =>
    have hfind : ∀ id, s.Stored id → s'.entryDb.findById id = s.entryDb.findById id := by
      intro id stored
      rw [entryDb]
      exact EntryDb.findById_indexEntry (origin.id_ne allowed normal stored) io
    cases origin with
    | posted =>
      refine ⟨h.congr reversals settlements, fun id stored => ⟨stored.indexEntry entryDb, kept ?_⟩⟩
      exact effectiveStatus_congr (by rw [settlements]) (isReversed_congr reversals id)
        (hfind id stored)
    | @reversed entryId description domain original checked =>
      obtain ⟨posted, -⟩ := allowed (Op.reaches_reverseEntry.2 ⟨original, checked⟩)
      obtain ⟨marked, hreversed⟩ := h.reversed posted reversals settlements
      refine ⟨marked, fun id stored => ⟨stored.indexEntry entryDb, ?_⟩⟩
      by_cases heq : id = entryId
      · rw [heq, posted, hreversed]
        exact .inr rfl
      · refine kept (effectiveStatus_congr (by rw [settlements]) ?_ (hfind id stored))
        rw [isReversed, isReversed, reversals, Op.recordReversal, Finmap.lookup_insert_of_ne _ heq]
    | imported => exact normal.elim
  | imported e hop reached log entryDb reversals settlements =>
    refine ⟨h.congr reversals settlements, fun id stored => ⟨stored.congr (by rw [entryDb]), kept ?_⟩⟩
    exact effectiveStatus_congr (by rw [settlements]) (isReversed_congr reversals id)
      (by rw [entryDb])
  | marked entryId status notes hop log entryDb tip next reversals settlements =>
    subst hop
    obtain ⟨marked, hstatus⟩ := h.mark allowed.1 allowed.2 reversals settlements
    refine ⟨marked, fun id stored => ⟨stored.congr (by rw [entryDb]), ?_⟩⟩
    by_cases heq : id = entryId
    · rw [heq, hstatus]
      exact allowed.2
    · refine kept (effectiveStatus_congr ?_ (isReversed_congr reversals id) (by rw [entryDb]))
      rw [settlements, Finmap.lookup_insert_of_ne _ heq]

end Calls

/-! ### Sessions -/

/-- In every session of such calls, and from any of its states to any later one, the status of a stored entry is
    kept or moves along a transition: a reversed entry stays reversed, and a settled or failed entry is not
    reversed. -/
theorem status_follows_transitions (cfg : Config) (key : Option SigningKey) (s s' : LedgerStore) (entryId : Uuid)
    (run : Run.Reachable (step cfg) (SessionStep (StatusCall cfg)) (.down (.fresh key)) (.up s))
    (later : Run.Reachable (step cfg) (SessionStep (StatusCall cfg)) (.up s) (.up s'))
    (stored : s.Stored entryId) :
    (s.effectiveStatus entryId).Follows (s'.effectiveStatus entryId) ∧
      (s.isReversed entryId = true → s.effectiveStatus entryId = .reversed ∧ s'.effectiveStatus entryId = .reversed) ∧
      (s.effectiveStatus entryId = .settled ∨ s.effectiveStatus entryId = .failed → s'.isReversed entryId = false) := by
  have marked : s.Marked :=
    session_invariant run ⟨nofun, nofun⟩ fun _ _ _ _ h allowed effect => (h.events effect.events allowed).1
  obtain ⟨marked', -, follows⟩ : s'.Marked ∧ s'.Stored entryId ∧
      (s.effectiveStatus entryId).Follows (s'.effectiveStatus entryId) := by
    refine session_invariant later (P := fun t => t.Marked ∧ t.Stored entryId ∧
      (s.effectiveStatus entryId).Follows (t.effectiveStatus entryId)) ⟨marked, stored, .inl rfl⟩ ?_
    rintro io t op t' ⟨ht, hstored, hfollows⟩ allowed effect
    obtain ⟨ht', hstep⟩ := ht.events effect.events allowed
    obtain ⟨hstored', hnext⟩ := hstep entryId hstored
    exact ⟨ht', hstored', hfollows.trans hnext⟩
  refine ⟨follows, ?_, ?_⟩
  · intro reversed
    have hstatus := marked.effectiveStatus_reversed reversed
    rw [hstatus] at follows
    exact ⟨hstatus, follows.resolve_right (by cases s'.effectiveStatus entryId <;> simp [EntryStatus.mayBecome])⟩
  · intro final
    by_contra reversed
    rw [marked'.effectiveStatus_reversed (Bool.not_eq_false _ ▸ reversed)] at follows
    rcases final with hfinal | hfinal <;> (rw [hfinal] at follows; revert follows; decide)

def Sample.pendingRun : List Event :=
  twoAccounts ++ [.call io (.postEntry (transfer 10 none 5 2 1)), .call io (.postEntry (transfer 11 none 7 2 1)),
    .call io (.applySettlementEvent 10 .pending none)]

def Sample.settledAndReversed : List Event :=
  [.call io (.applySettlementEvent 10 .settled none), .call io (.reverseEntry 11 "undo" "test")]

theorem status_follows_transitions_sample : ∃ s s', Run.exec (step config) (.down (.fresh none)) pendingRun = some (.up s) ∧
      Run.exec (step config) (.up s) settledAndReversed = some (.up s') ∧
      s.Stored 10 ∧ (s.effectiveStatus 10).Follows (s'.effectiveStatus 10) := by
  have hs : Run.exec (step config) (.down (.fresh none)) pendingRun = some (.up _) := rfl
  exact ⟨_, _, hs, rfl, by decide +kernel, (status_follows_transitions config none _ _ 10
    (Run.reachable_of_exec (by decide +kernel) hs)
    (Run.reachable_of_exec (by decide +kernel) (rfl : Run.exec _ _ settledAndReversed = _)) (by decide +kernel)).1⟩

/-- An entry that is reversed can be settled afterwards, and one that is settled can be reversed afterwards: both
    are then reversed, with the status of the settlement. -/
theorem settled_and_reversed : ((Run.exec (step config) (.down (.fresh none))
        (twoAccounts ++ [.call io (.postEntry (transfer 10 none 5 2 1)), .call io (.postEntry (transfer 11 none 7 2 1)),
          .call io (.reverseEntry 10 "undo" "test"),
          .call io (.applySettlementEvent 11 .settled none)])).bind store?).map (fun s =>
      let s' := (s.call config io (.applySettlementEvent 10 .settled none)).2
      let s'' := (s'.call config io (.reverseEntry 11 "undo" "test")).2
      ([s.effectiveStatus 10, s''.effectiveStatus 10, s.effectiveStatus 11, s''.effectiveStatus 11],
        s''.isReversed 10, s''.isReversed 11)) =
      some ([.reversed, .settled, .settled, .settled], true, true) := by
  decide +kernel

end VectorLedger
