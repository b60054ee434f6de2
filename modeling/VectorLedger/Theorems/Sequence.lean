import VectorLedger.Theorems.Replay

/-! Sequences and the hash chain over the life of a ledger. Every open takes the counter and the tip again from the
    index or the log. -/

namespace VectorLedger

open Sample EntryDb Machine LedgerStore List

/-! ### Numbered entries -/

/-- The entries are numbered 1, 2, 3 and so on. -/
def Numbered (es : List JournalEntry) : Prop := es.map (·.sequence) = List.range' 1 es.length

namespace Numbered

variable {es vs : List JournalEntry} {e e' : JournalEntry}

theorem append (h : Numbered es) (he : e.sequence = es.length + 1) : Numbered (es ++ [e]) := by
  unfold Numbered at *
  rw [map_append, h, length_append, length_singleton, range'_1_concat, map_singleton, he, Nat.add_comm 1]

theorem bounds (h : Numbered es) (he : e ∈ es) : 0 < e.sequence ∧ e.sequence ≤ es.length := by
  have hmem : e.sequence ∈ es.map (·.sequence) := mem_map_of_mem he
  rw [h, mem_range'_1] at hmem
  omega

theorem eq_of_sequence_eq (h : Numbered es) (he : e ∈ es) (he' : e' ∈ es) (heq : e.sequence = e'.sequence) : e = e' := by
  have hnodup : (es.map (·.sequence)).Nodup := by
    rw [h]
    exact nodup_range'
  exact inj_on_of_nodup_map hnodup he he' heq

theorem last (h : Numbered (es ++ [e])) : e.sequence = es.length + 1 := by
  unfold Numbered at h
  rw [map_append, length_append, length_singleton, range'_1_concat] at h
  have hlast := (append_inj' h rfl).2
  simp only [map_singleton, cons.injEq, and_true] at hlast
  omega

theorem counters_of_suffix (h : Numbered es) (hv : vs <:+ es) (hne : vs ≠ []) : nextAfter 1 vs = es.length + 1 ∧
      tipAfter zeroHash vs = tipAfter zeroHash es := by
  obtain ⟨init, e, rfl⟩ : ∃ init e, vs = init ++ [e] :=
    ⟨_, _, (dropLast_append_getLast hne).symm⟩
  obtain ⟨pre, rfl⟩ := hv
  rw [← append_assoc] at h ⊢
  have hlast := h.last
  have hinit : ∀ x ∈ init, x.sequence < e.sequence := by
    intro x hx
    have hmem : x ∈ pre ++ init ++ [e] := by simp [hx]
    have hle := (h.bounds hmem).2
    rw [length_append, length_singleton, ← hlast] at hle
    rcases Nat.lt_or_eq_of_le hle with hlt | heq
    · exact hlt
    · -- Two entries with one sequence are one entry, which the list then holds twice.
      have hnodup : ((pre ++ init ++ [e]).map (·.sequence)).Nodup := by
        rw [h]
        exact nodup_range'
      rw [map_append, nodup_append] at hnodup
      exact absurd heq (hnodup.2.2 x.sequence (mem_map_of_mem (by simp [hx])) e.sequence (by simp))
  have hle : nextAfter 1 init ≤ e.sequence := nextAfter_le (by omega) hinit
  constructor
  · rw [nextAfter_append, length_append, length_singleton, ← hlast]
    exact if_pos hle
  · rw [tipAfter_append, tipAfter_append]
    rfl

end Numbered

/-- The entry has the sequence after the largest one among `es` and the chain hash of that entry as its
    previous hash; the first entry has sequence 1 and the zero hash. -/
def Follows (es : List JournalEntry) (e : JournalEntry) : Prop :=
  (es = [] ∧ e.sequence = 1 ∧ e.prevHash = zeroHash) ∨
    ∃ tip ∈ es, (∀ c ∈ es, c.sequence ≤ tip.sequence) ∧ e.sequence = tip.sequence + 1 ∧ e.prevHash = tip.chainHash

theorem Numbered.follows {es : List JournalEntry} {e : JournalEntry} (h : Numbered es)
    (hseq : e.sequence = es.length + 1) (hprev : e.prevHash = tipAfter zeroHash es) :
    Follows es e := by
  rcases eq_nil_or_concat es with rfl | ⟨init, tip, rfl⟩
  · exact .inl ⟨rfl, hseq, hprev⟩
  · rw [concat_eq_append] at *
    refine .inr ⟨tip, by simp, ?_, ?_, ?_⟩
    · intro c hc
      have hle := (h.bounds hc).2
      rwa [length_append, length_singleton, ← h.last] at hle
    · rw [hseq, length_append, length_singleton, h.last]
    · rw [hprev, tipAfter_append]
      rfl

/-! ### Calls -/

/-- An entry that takes a sequence is written. -/
def EntryWritten (cfg : Config) (io : Io) (s : LedgerStore) (op : Op) : Prop :=
  match op with
  | .postEntry _ | .reverseEntry _ _ _ | .importEntryDirect _ =>
    op.Reaches cfg s → op.Fits cfg io s ∧ io.Writes
  | _ => True

/-- The index lists committed entries only. -/
def Disk.IndexCommitted (d : Disk) : Prop := ∀ e ∈ d.entryDb.entries, e ∈ committedEntries d.wal

section Calls
variable {cfg : Config} {io : Io} {s s' : LedgerStore} {op : Op}

theorem Effect.counters (h : Effect cfg io s op s') (clean : s.txManager.NoLeftover)
    (written : EntryWritten cfg io s op) :
    (committedEntries s'.disk.wal = committedEntries s.disk.wal ∧ s'.nextSequence = s.nextSequence ∧
        s'.lastChainHash = s.lastChainHash) ∨
      ∃ e, EntryOrigin cfg io s op e ∧ committedEntries s'.disk.wal = committedEntries s.disk.wal ++ [e] ∧
        s'.nextSequence = s.nextSequence + 1 ∧ s'.lastChainHash = e.chainHash := by
  cases h with
  | rejected => exact .inl ⟨rfl, rfl, rfl⟩
  | failed op c₁ c₂ reached wrote fault =>
    left
    refine ⟨(wrote.entries_eq clean).trans (append_nil _), ?_, op.begun_lastChainHash s⟩
    cases op with
    | closeAccount | setLegalHold => simp only [Op.begun]; split <;> rfl
    | postEntry | reverseEntry | importEntryDirect => exact absurd (written reached).2 (fault (written reached).1)
    | _ => rfl
  | created c₁ c₂ wrote | closed c₁ c₂ found wrote | held c₁ c₂ found wrote | settled c₁ c₂ wrote
  | reconciled c₁ c₂ wrote => exact .inl ⟨(wrote.entries_eq clean).trans (append_nil _), rfl, rfl⟩
  | posted c₁ c₂ valid fresh checked wrote =>
    exact .inr ⟨_, .posted valid fresh checked, wrote.entries_eq clean, rfl, rfl⟩
  | reversed c₁ c₂ checked wrote => exact .inr ⟨_, .reversed checked, wrote.entries_eq clean, rfl, rfl⟩
  | imported c₁ c₂ valid fresh checked wrote =>
    exact .inr ⟨_, .imported valid fresh checked, wrote.entries_eq clean, rfl, rfl⟩

theorem Disk.IndexCommitted.effect (hs : s.disk.IndexCommitted) (h : Effect cfg io s op s') : s'.disk.IndexCommitted := by
  have kept : ∀ {db : EntryDb} {ps : List DataPayload} {tm : TransactionManager},
      db.entries = s.entryDb.entries → Wrote cfg s.txManager ps tm → ∀ e ∈ db.entries, e ∈ committedEntries tm.wal := by
    intro db ps tm hdb wrote e he
    rw [hdb] at he
    exact wrote.entries_grow.1.subset (hs e he)
  have indexed : ∀ {e : JournalEntry} {ps : List DataPayload} {tm : TransactionManager},
      entriesOf ps = [e] → Wrote cfg s.txManager ps tm →
        ∀ x ∈ (indexEntry io s.entryDb e).entries, x ∈ committedEntries tm.wal := by
    intro e ps tm hps wrote x hx
    rcases mem_of_mem_indexEntry hx with rfl | hx
    · exact wrote.entries_grow.2 x (by simp [hps])
    · exact wrote.entries_grow.1.subset (hs x hx)
  cases h with
  | rejected => exact hs
  | failed op c₁ c₂ reached wrote => exact kept (congrArg entries (Op.begun_entryDb s op)) wrote
  | created c₁ c₂ wrote | closed c₁ c₂ found wrote => exact kept entries_upsertAccount wrote
  | held c₁ c₂ found wrote | imported c₁ c₂ valid fresh checked wrote | settled c₁ c₂ wrote
  | reconciled c₁ c₂ wrote => exact kept rfl wrote
  | posted c₁ c₂ valid fresh checked wrote | reversed c₁ c₂ checked wrote => exact indexed rfl wrote

end Calls

/-! ### Opens -/

/-- The last committed entry is in the segments that an open reads. -/
def Disk.TipVisible (d : Disk) : Prop :=
  ∀ e ∈ (committedEntries d.wal).getLast?, e ∈ entriesOf d.visible

/-- The last committed entry is in the segments that an open reads, or in SQLite. -/
def Disk.TipKnown (d : Disk) : Prop :=
  ∀ e ∈ (committedEntries d.wal).getLast?, e ∈ entriesOf d.visible ∨ e ∈ d.entryDb.entries

/-- The next sequence and the chain hash are those after the committed entries. -/
def LedgerStore.Counted (s : LedgerStore) : Prop :=
  s.nextSequence = (committedEntries s.disk.wal).length + 1 ∧
    s.lastChainHash = LedgerStore.tipAfter zeroHash (committedEntries s.disk.wal)

namespace LedgerStore

variable {cfg : Config} {m : Bool} {d : Disk}

section
variable (durable : d.Durable cfg) (numbered : Numbered (committedEntries d.wal))
include durable numbered

theorem replayed_counted (tip : committedEntries d.wal ≠ [] → entriesOf d.visible ≠ []) :
    (replayed m d).store.nextSequence = (committedEntries d.wal).length + 1 ∧ (replayed m d).store.lastChainHash =
      tipAfter zeroHash (committedEntries d.wal) := by
  obtain ⟨hnext, htip⟩ := replayed_counters (m := m) durable.plain_visible
  rw [hnext, htip]
  by_cases hnone : committedEntries d.wal = []
  · have hvis : entriesOf d.visible = [] := by
      have hsuffix := durable.entries_suffix
      rw [hnone] at hsuffix
      exact suffix_nil.1 hsuffix
    rw [hnone, hvis]
    exact ⟨rfl, rfl⟩
  · exact numbered.counters_of_suffix durable.entries_suffix (tip hnone)

theorem opened_import_counted (tip : d.TipVisible) : (opened true d).Counted := by
  obtain ⟨hnext, htip, -⟩ := opened_of_not_current (replayed_import durable.plain_visible).2
  unfold Counted
  rw [hnext, htip, opened_wal]
  refine replayed_counted durable numbered fun hne hnil => ?_
  have hmem := tip _ (getLast?_eq_some_getLast hne)
  rw [hnil] at hmem
  cases hmem

theorem index_tip (indexed : d.IndexCommitted) (tip : d.TipKnown)
    (current : (replayed false d).sqliteIsCurrent = true) :
    ∃ init last, committedEntries d.wal = init ++ [last] ∧ d.entryDb.maxSequence = last.sequence ∧ d.entryDb.chainTip =
      some last.chainHash := by
  rw [replayed_current durable.plain_visible, Bool.and_eq_true, decide_eq_true_eq, all_eq_true] at current
  obtain ⟨hpos, hbelow⟩ := current
  obtain ⟨row, hrow, hmax, hchain⟩ := getLast_of_maxSequence_pos hpos
  have hrowmem := indexed row (mem_of_getLast? hrow)
  obtain ⟨init, last, hlast⟩ : ∃ init last, committedEntries d.wal = init ++ [last] :=
    ⟨_, _, (dropLast_append_getLast (ne_nil_of_mem hrowmem)).symm⟩
  have hle : last.sequence ≤ d.entryDb.maxSequence := by
    rcases tip last (by simp [hlast]) with hvis | hdb
    · simpa using hbelow last hvis
    · exact sequence_le_maxSequence hdb
  have hge : row.sequence ≤ last.sequence := by
    have hbound := (numbered.bounds hrowmem).2
    rw [hlast] at numbered hbound
    rwa [length_append, length_singleton, ← numbered.last] at hbound
  have heq : row = last := numbered.eq_of_sequence_eq hrowmem (by simp [hlast]) (by omega)
  subst heq
  exact ⟨init, row, hlast, hmax.symm, hchain⟩

theorem opened_normal_counted (indexed : d.IndexCommitted) (tip : d.TipKnown) : (opened false d).Counted := by
  unfold Counted
  rw [opened_wal]
  cases hcur : (replayed false d).sqliteIsCurrent with
  | true =>
    obtain ⟨hnext, htip, -⟩ := opened_of_current hcur
    obtain ⟨init, last, hlast, hmax, hchain⟩ := index_tip durable numbered indexed tip hcur
    -- No replayed entry is above the index, so nothing is added to it.
    have hdb : (replayed false d).store.entryDb = d.entryDb := by
      rw [replayed_current durable.plain_visible, Bool.and_eq_true, all_eq_true] at hcur
      have hnone : (entriesOf d.visible).filter (fun e => d.entryDb.maxSequence < e.sequence) = [] := by
        rw [filter_eq_nil_iff]
        intro e he
        have := hcur.2 e he
        simpa using this
      rw [replayed_index durable.plain_visible, hnone]
      rfl
    rw [hnext, htip, hdb, hmax, hchain, hlast]
    rw [hlast] at numbered
    refine ⟨?_, ?_⟩
    · rw [numbered.last, length_append, length_singleton]
    · rw [tipAfter_append]
      rfl
  | false =>
    obtain ⟨hnext, htip, -⟩ := opened_of_not_current hcur
    rw [hnext, htip]
    refine replayed_counted durable numbered fun hne hnil => ?_
    rw [replayed_current durable.plain_visible, hnil, all_nil, Bool.and_true, decide_eq_false_iff_not,
      Nat.not_lt, Nat.le_zero, maxSequence_eq_zero] at hcur
    have hmem := tip _ (getLast?_eq_some_getLast hne)
    rw [hnil, hcur] at hmem
    rcases hmem with hmem | hmem <;> cases hmem

end

theorem opened_indexCommitted (torn : d.wal.TornAtEnd) (indexed : d.IndexCommitted) : (opened m d).disk.IndexCommitted := by
  intro e he
  rw [opened_wal]
  rcases mem_opened_entries m d e he with hold | hseen
  · exact indexed e hold
  · rw [Disk.visible, readLog_eq torn] at hseen
    exact ((TxLog.rows_recordsFrom_sublist d.wal d.startSegment).filterMap _).subset hseen

end LedgerStore

/-! ### Runs -/

/-- The condition on a step: an entry that takes a sequence is written, under a transaction id with no rows left
    over and not behind a torn record, and an open sees the last committed entry. -/
def SequenceStep (cfg : Config) : Machine → Event → Prop
  | .up s, .call io op => s.txManager.Appendable ∧ EntryWritten cfg io s op
  | .up s, .crash _ _ => s.txManager.Appendable
  | .down d, .openStore => d.TipKnown
  | .down d, .openForImport => d.TipVisible
  | _, _ => True

theorem SequenceStep.ready {cfg : Config} {x : Machine} {ev : Event} (h : SequenceStep cfg x ev) : AppendStep x ev := by
  cases x <;> cases ev <;> first | exact h.1 | exact h | trivial

/-- The committed entries are numbered, and an open store counts on from them. -/
structure Machine.Sequenced (cfg : Config) (x : Machine) : Prop where
  durable : x.disk.Durable cfg
  indexed : x.disk.IndexCommitted
  numbered : Numbered (committedEntries x.disk.wal)
  counted : ∀ s, x = .up s → s.Counted

section Runs
variable {cfg : Config} {io : Io} {s s' : LedgerStore} {op : Op} {x y : Machine} {ev : Event}

theorem Numbered.effect (h : Numbered (committedEntries s.disk.wal)) (counted : s.Counted)
    (effect : Effect cfg io s op s') (clean : s.txManager.NoLeftover) :
    Numbered (committedEntries s'.disk.wal) := by
  rcases effect.entries clean with hsame | ⟨e, origin, happ⟩
  · rwa [hsame]
  · rw [happ]
    exact h.append (origin.counters.1.trans counted.1)

/-- A call that is written counts on. -/
theorem LedgerStore.Counted.effect (h : s.Counted) (effect : Effect cfg io s op s')
    (clean : s.txManager.NoLeftover) (written : EntryWritten cfg io s op) : s'.Counted := by
  rcases effect.counters clean written with ⟨hsame, hnext, htip⟩ | ⟨e, -, happ, hnext, htip⟩
  · unfold LedgerStore.Counted
    rw [hsame, hnext, htip]
    exact h
  · unfold LedgerStore.Counted
    rw [happ, hnext, htip, length_append, length_singleton, h.1, tipAfter_append]
    exact ⟨rfl, rfl⟩

/-- Such a step keeps the entries numbered and counted. -/
theorem Machine.Sequenced.step (h : x.Sequenced cfg) (ok : SequenceStep cfg x ev)
    (hstep : step cfg x ev = some y) : y.Sequenced cfg := by
  have durable := h.durable.step hstep ok.ready
  cases step_cases hstep with
  | refused => exact h
  | opened d =>
    exact ⟨durable, opened_indexCommitted h.durable.torn h.indexed, (opened_wal false d).symm ▸ h.numbered,
      forall_up (opened_normal_counted h.durable h.numbered h.indexed ok)⟩
  | importing d =>
    exact ⟨durable, opened_indexCommitted h.durable.torn h.indexed, (opened_wal true d).symm ▸ h.numbered,
      forall_up (opened_import_counted h.durable h.numbered ok)⟩
  | called effect =>
    have counted := h.counted _ rfl
    exact ⟨durable, h.indexed.effect effect, h.numbered.effect counted effect ok.1.noLeftover,
      forall_up (counted.effect effect ok.1.noLeftover ok.2)⟩
  | closed => exact ⟨h.durable, h.indexed, h.numbered, fun _ hs => nomatch hs⟩
  | crashed effect =>
    exact ⟨durable, h.indexed.effect effect, h.numbered.effect (h.counted _ rfl) effect ok.noLeftover,
      fun _ hs => nomatch hs⟩

/-- In every run of such steps, a step commits nothing or one entry that follows the committed ones. -/
theorem committed_entry_follows (cfg : Config) (signingKey : Option SigningKey) (x y : Machine) (ev : Event)
    (run : Run.Reachable (step cfg) (SequenceStep cfg) (.down (.fresh signingKey)) x)
    (ok : SequenceStep cfg x ev) (h : step cfg x ev = some y) :
    committedEntries y.disk.wal = committedEntries x.disk.wal ∨
      ∃ e, committedEntries y.disk.wal = committedEntries x.disk.wal ++ [e] ∧ Follows (committedEntries x.disk.wal) e := by
  have inv : x.Sequenced cfg :=
    run.invariant (P := Machine.Sequenced cfg)
      ⟨.fresh cfg signingKey, (fun _ he => nomatch he), rfl, (fun _ hs => nomatch hs)⟩
      fun _ _ _ hx ok h => hx.step ok h
  rcases step_entries h ok.ready.clean with hsame | ⟨s, io, op, e, rfl, -, origin, happ⟩
  · exact .inl hsame
  · obtain ⟨hseq, hprev⟩ := origin.counters
    obtain ⟨hnext, htip⟩ := inv.counted s rfl
    exact .inr ⟨e, happ, inv.numbered.follows (hseq.trans hnext) (hprev.trans htip)⟩

end Runs

instance (cfg : Config) (io : Io) (s : LedgerStore) (op : Op) : Decidable (EntryWritten cfg io s op) := by
  rcases op with _ | _ <;> unfold EntryWritten Op.Fits <;> infer_instance

instance (cfg : Config) (x : Machine) (ev : Event) : Decidable (SequenceStep cfg x ev) := by
  rcases x with _ | _ <;> rcases ev with _ | _ <;> unfold SequenceStep Disk.TipKnown Disk.TipVisible <;> infer_instance

def Sample.postedThenImport : List Event :=
  twoAccounts ++ [.call io (.postEntry (transfer 10 none 5 2 1)), .close, .openForImport]

/-- The imported entry follows the posted one. -/
theorem committed_entry_follows_import : ∃ x y, Run.exec (step config) (.down (.fresh none)) postedThenImport = some x ∧
      step config x (.call io (.importEntryDirect (transfer 11 none 7 2 1))) = some y ∧
      (committedEntries y.disk.wal = committedEntries x.disk.wal ∨
        ∃ e, committedEntries y.disk.wal = committedEntries x.disk.wal ++ [e] ∧
          Follows (committedEntries x.disk.wal) e) := by
  have hx : Run.exec (step config) (.down (.fresh none)) postedThenImport = some _ := rfl
  exact ⟨_, _, hx, rfl, committed_entry_follows _ _ _ _ (.call io (.importEntryDirect (transfer 11 none 7 2 1)))
    (Run.reachable_of_exec (by decide +kernel) hx) (by decide +kernel) rfl⟩

/-- An entry of 200 lines, whose row of 8396 bytes does not fit on a page. -/
def Sample.wideEntry : JournalEntry :=
  entry 10 none (List.replicate 100 (1, 1, .debit) ++ List.replicate 100 (2, 1, .credit))

/-- The post of an entry that does not fit fails after it took a sequence: nothing is committed yet, and the
    next entry gets sequence 2. -/
theorem sequence_gap_after_failed_post : ((Run.exec (step sized) (.down (.fresh none))
        (twoAccounts ++ [.call io (.postEntry wideEntry)])).bind fun x =>
      (step sized x (.call io (.postEntry (transfer 11 none 5 2 1)))).map fun y =>
        (committedEntries x.disk.wal, (committedEntries y.disk.wal).map (·.sequence))) = some ([], [2]) := by
  decide +kernel

end VectorLedger
