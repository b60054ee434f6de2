import VectorLedger.Lib.Assign
import VectorLedger.Theorems.Effects

/-! Facts about the SQLite index: lookups, the rows an insert adds, and its largest sequence. -/

namespace VectorLedger

open List

namespace EntryDb

variable {db : EntryDb} {e e' : JournalEntry} {entryId : Uuid}

/-! ### Lookups -/

theorem eq_of_sequence_eq (h : e ∈ db.entries) (h' : e' ∈ db.entries) (heq : e.sequence = e'.sequence) : e = e' := by
  have hnodup : (db.entries.map (·.sequence)).Nodup :=
    pairwise_map.2 (db.sorted.imp fun hlt => Nat.ne_of_lt hlt)
  exact inj_on_of_nodup_map hnodup h h' heq

theorem getBySequence_eq (h : e ∈ db.entries) : db.getBySequence e.sequence = some e := by
  unfold getBySequence
  cases hfind : db.entries.find? (fun x => x.sequence = e.sequence) with
  | none =>
    have := find?_eq_none.1 hfind e h
    simp at this
  | some x =>
    have hx : x.sequence = e.sequence := by simpa using find?_some hfind
    rw [eq_of_sequence_eq (mem_of_find?_eq_some hfind) h hx]

theorem idempotencyKeyExists_of_mem {key : String} (h : e ∈ db.entries) (hkey : e.idempotencyKey = some key) :
    db.idempotencyKeyExists key :=
  any_eq_true.2 ⟨e, h, by simp [hkey]⟩

theorem not_idempotencyKeyExists {s : LedgerStore} {key : String} (fresh : s.duplicateOf e = none)
    (hkey : e.idempotencyKey = some key) : ¬ s.entryDb.idempotencyKeyExists key := by
  intro hexists
  simp [LedgerStore.duplicateOf, hkey, hexists] at fresh

theorem foldl_findById {rows : List JournalEntry} {found : Option JournalEntry}
    (h : rows.foldl (fun found e => if e.id = entryId then some e else found) found = some e) :
    found = some e ∨ e ∈ rows ∧ e.id = entryId := by
  induction rows generalizing found with
  | nil => exact .inl h
  | cons row rows ih =>
    rw [foldl_cons] at h
    rcases ih h with hrow | ⟨hmem, hid⟩
    · by_cases hid : row.id = entryId
      · rw [if_pos hid] at hrow
        cases hrow
        exact .inr ⟨mem_cons_self, hid⟩
      · rw [if_neg hid] at hrow
        exact .inl hrow
    · exact .inr ⟨mem_cons_of_mem _ hmem, hid⟩

theorem findById_some (h : db.findById entryId = some e) : e ∈ db.entries ∧ e.id = entryId := by
  rcases foldl_findById h with hnone | hfound
  · cases hnone
  · exact hfound

/-! ### Inserts -/

theorem insert_of_refused (h : db.Refused e) : db.insert e = db := dif_pos h

theorem entries_insert (h : ¬ db.Refused e) : (db.insert e).entries = insertBySequence e db.entries := by
  rw [insert, dif_neg h]

theorem mem_of_mem_insert {x : JournalEntry} (h : x ∈ (db.insert e).entries) : x = e ∨ x ∈ db.entries := by
  by_cases href : db.Refused e
  · rw [insert_of_refused href] at h
    exact .inr h
  · rw [entries_insert href] at h
    exact mem_insertBySequence.1 h

theorem entries_foldl_refs (lines : List JournalLine) (n : Nat) :
    (lines.foldl (fun db line => db.insertAccountEntry line.accountId n) db).entries = db.entries :=
  foldl_keeps (·.entries) (fun (db : EntryDb) (line : JournalLine) => db.insertAccountEntry line.accountId n)
    (fun _ _ => rfl) lines db

/-! ### Accounts, written only when the write succeeds -/

variable {ok : Prop} [Decidable ok] {a b : Account}

theorem entries_upsertAccount : (if ok then db.upsertAccount a else db).entries = db.entries := by
  split <;> rfl

theorem mem_of_mem_upsertAccount (h : b ∈ (if ok then db.upsertAccount a else db).accounts) :
    b ∈ db.accounts ∨ b ∈ [a] := by
  split at h
  · exact (mem_append.1 h).imp_left mem_of_mem_filter
  · exact .inl h

/-! ### The largest sequence -/

theorem getLast_of_maxSequence_pos (h : 0 < db.maxSequence) :
    ∃ last, db.entries.getLast? = some last ∧ last.sequence = db.maxSequence ∧ db.chainTip = some last.chainHash := by
  unfold maxSequence at h
  cases hlast : db.entries.getLast? with
  | none => simp [hlast] at h
  | some last => exact ⟨last, rfl, by simp [maxSequence, hlast], by simp [chainTip, hlast]⟩

theorem sequence_le_maxSequence (h : e ∈ db.entries) : e.sequence ≤ db.maxSequence := by
  obtain ⟨init, last, hlast⟩ : ∃ init last, db.entries = init ++ [last] :=
    ⟨_, _, (dropLast_append_getLast (ne_nil_of_mem h)).symm⟩
  have hmax : db.maxSequence = last.sequence := by simp [maxSequence, hlast]
  have hsorted := db.sorted
  rw [hlast, pairwise_append] at hsorted
  rw [hlast, mem_append, mem_singleton] at h
  rcases h with h | rfl
  · rw [hmax]
    exact Nat.le_of_lt (hsorted.2.2 e h last (mem_singleton.2 rfl))
  · exact Nat.le_of_eq hmax.symm

theorem maxSequence_eq_zero : db.maxSequence = 0 ↔ db.entries = [] := by
  constructor
  · intro h
    cases hlast : db.entries.getLast? with
    | none => exact getLast?_eq_none_iff.1 hlast
    | some last =>
      have hmem := mem_of_getLast? hlast
      have hpos := db.positive last hmem
      have hle := sequence_le_maxSequence hmem
      omega
  · intro h
    simp [maxSequence, h]

end EntryDb

namespace LedgerStore

variable {s : LedgerStore}

theorem entries_insertRefs (io : Io) (db : EntryDb) (e : JournalEntry) : (insertRefs io db e).entries = db.entries := by
  refine foldl_keeps (·.entries) (fun (db : EntryDb) (line : JournalLine × Nat) =>
    if io.sqliteRef line.2 then db.insertAccountEntry line.1.accountId e.sequence else db) ?_ _ db
  intro db line
  split <;> rfl

theorem accounts_indexEntry (io : Io) (db : EntryDb) (e : JournalEntry) : (indexEntry io db e).accounts = db.accounts := by
  have hinsert : (db.insert e).accounts = db.accounts := by
    unfold EntryDb.insert
    split <;> rfl
  have hrefs : (insertRefs io (db.insert e) e).accounts = (db.insert e).accounts := by
    refine foldl_keeps (·.accounts) (fun (db : EntryDb) (line : JournalLine × Nat) =>
      if io.sqliteRef line.2 then db.insertAccountEntry line.1.accountId e.sequence else db) ?_ _ _
    intro db line
    split <;> rfl
  unfold indexEntry
  split_ifs
  · rfl
  · exact hinsert
  · exact hrefs.trans hinsert

theorem mem_of_mem_indexEntry {io : Io} {db : EntryDb} {e x : JournalEntry}
    (h : x ∈ (indexEntry io db e).entries) : x = e ∨ x ∈ db.entries := by
  unfold indexEntry at h
  split_ifs at h
  · exact .inr h
  · exact EntryDb.mem_of_mem_insert h
  · rw [entries_insertRefs] at h
    exact EntryDb.mem_of_mem_insert h

theorem mem_indexEntry_of_mem {io : Io} {db : EntryDb} {e x : JournalEntry} (h : x ∈ db.entries) :
    x ∈ (indexEntry io db e).entries := by
  have hinsert : x ∈ (db.insert e).entries := by
    by_cases href : db.Refused e
    · rw [EntryDb.insert_of_refused href]
      exact h
    · rw [EntryDb.entries_insert href]
      exact EntryDb.mem_insertBySequence.2 (.inr h)
  unfold indexEntry
  split_ifs
  · exact h
  · exact hinsert
  · rw [entries_insertRefs]
    exact hinsert

/-! ### Checks -/

theorem checkAll_ok {α : Type} {check : α → Except LedgerError Unit} {as : List α} :
    checkAll check as = .ok () ↔ ∀ a ∈ as, check a = .ok () := by
  induction as with
  | nil => simp [checkAll]
  | cons a as ih =>
    unfold checkAll
    rcases hcheck : check a with err | ⟨⟩
    · simp [hcheck]
    · simp [hcheck, ih]

theorem checkHolds_ok {lines : List JournalLine} :
    s.checkHolds lines = .ok () ↔ ∀ line ∈ lines, line.accountId ∉ s.legalHoldAccounts := by
  unfold checkHolds
  split
  · next line hfind =>
    refine iff_of_false (by simp) fun hall => ?_
    exact hall line (mem_of_find?_eq_some hfind) (by simpa using find?_some hfind)
  · next hfind =>
    refine iff_of_true rfl fun line hline => ?_
    simpa using find?_eq_none.1 hfind line hline

theorem checkReversal_ok {original : JournalEntry}
    (h : s.checkReversal entryId = .ok original) :
    s.entryDb.findById entryId = some original ∧ original.status = .posted ∧
      (∀ line ∈ original.lines, line.accountId ∉ s.legalHoldAccounts) ∧
      s.reversalEventIndex.lookup entryId = none := by
  unfold checkReversal at h
  cases hfind : s.entryDb.findById entryId with
  | none => simp [hfind] at h
  | some found =>
    simp only [hfind, Option.bind_some, EntryDb.getBySequence_eq (EntryDb.findById_some hfind).1] at h
    split at h
    · cases h
    · next hstatus =>
      rcases hholds : s.checkHolds found.lines with err | ⟨⟩
      · simp [hholds] at h
      · simp only [hholds] at h
        split at h
        · cases h
        · next hnone =>
          cases h
          exact ⟨rfl, not_not.1 hstatus, checkHolds_ok.1 hholds, hnone⟩

theorem checkLine_ok {cfg : Config} {approvedBy : Option String} {line : JournalLine}
    (h : s.checkLine cfg approvedBy line = .ok ()) :
    ∃ acct, s.accounts.lookup line.accountId = some acct ∧ acct.status = .active ∧ acct.legalHold = false ∧
      (acct.requireFourEyes = true → approvedBy ≠ none) := by
  unfold checkLine at h
  cases hacct : s.accounts.lookup line.accountId with
  | none => simp [hacct] at h
  | some acct =>
    simp only [hacct] at h
    split at h
    · cases h
    split at h
    · cases h
    split at h
    · cases h
    next hactive hhold _ =>
    refine ⟨acct, rfl, by simpa [Account.isActive] using hactive, by simpa using hhold, ?_⟩
    intro hfour hnone
    rcases hprec : s.checkPrecision cfg line with err | ⟨⟩ <;> simp [hprec, hfour, hnone] at h

theorem checkImportLine_ok {line : JournalLine} (h : s.checkImportLine line = .ok ()) :
    ∃ acct, s.accounts.lookup line.accountId = some acct ∧ acct.status = .active := by
  unfold checkImportLine at h
  cases hacct : s.accounts.lookup line.accountId with
  | none => simp [hacct] at h
  | some acct =>
    simp only [hacct] at h
    split at h
    · cases h
    next hactive => exact ⟨acct, rfl, by simpa [Account.isActive] using hactive⟩

theorem checkEntry_ok {cfg : Config} {e : JournalEntry} (h : s.checkEntry cfg e = .ok ()) :
    (∀ line ∈ e.lines, s.checkLine cfg e.approvedBy line = .ok ()) ∧
      ∀ line ∈ e.lines, s.checkAccount e.lines line.accountId = .ok () := by
  unfold checkEntry at h
  rcases hlines : checkAll (s.checkLine cfg e.approvedBy) e.lines with err | ⟨⟩
  · simp [hlines] at h
  · simp only [hlines, checkAll_ok, mem_dedup, mem_map, forall_exists_index, and_imp, forall_apply_eq_imp_iff₂] at h
    exact ⟨checkAll_ok.1 hlines, h⟩

end LedgerStore

end VectorLedger
