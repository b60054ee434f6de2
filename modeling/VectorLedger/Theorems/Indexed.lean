import VectorLedger.Theorems.Session

/-! Sessions in which SQLite takes every insert: the index holds every committed entry, and each cached balance is a sum
    of entries. -/

namespace VectorLedger

open List LedgerStore

/-! ### Inserts at the end -/

namespace EntryDb

theorem insertBySequence_last {e : JournalEntry} {rows : List JournalEntry}
    (h : ∀ row ∈ rows, row.sequence < e.sequence) : insertBySequence e rows = rows ++ [e] := by
  induction rows with
  | nil => rfl
  | cons row rows ih =>
    rw [forall_mem_cons] at h
    rw [insertBySequence, if_neg (Nat.lt_asymm h.1), ih h.2, cons_append]

end EntryDb

namespace LedgerStore

theorem refs_foldl (io : Io) (n : Nat) (lines : List JournalLine) (k : Nat) (db : EntryDb)
    (ok : ∀ i < k + lines.length, io.sqliteRef i) :
    let after := (lines.zipIdx k).foldl
      (fun db line => if io.sqliteRef line.2 then db.insertAccountEntry line.1.accountId n else db) db
    db.accountEntries ⊆ after.accountEntries ∧ ∀ l ∈ lines, (l.accountId, n) ∈ after.accountEntries := by
  induction lines generalizing k db with
  | nil => exact ⟨Finset.Subset.refl _, by simp⟩
  | cons line lines ih =>
    have hhead : io.sqliteRef k = true := ok k (by simp)
    obtain ⟨hsub, hlines⟩ := ih (k + 1) (db.insertAccountEntry line.accountId n)
      (fun i hi => ok i (by rw [length_cons]; omega))
    simp only [zipIdx_cons, foldl_cons, hhead]
    have hinsert : db.accountEntries ⊆ (db.insertAccountEntry line.accountId n).accountEntries :=
      Finset.subset_insert _ _
    refine ⟨hinsert.trans hsub, ?_⟩
    intro l hl
    rcases mem_cons.1 hl with rfl | hl
    · exact hsub (Finset.mem_insert_self _ _)
    · exact hlines l hl

theorem entries_indexEntry {io : Io} {db : EntryDb} {e : JournalEntry} (row : io.sqliteRow = true)
    (accepted : ¬ db.Refused e) (above : ∀ x ∈ db.entries, x.sequence < e.sequence) :
    (indexEntry io db e).entries = db.entries ++ [e] := by
  have hinsert : (db.insert e).entries = db.entries ++ [e] := by
    rw [EntryDb.entries_insert accepted, EntryDb.insertBySequence_last above]
  unfold indexEntry
  rw [row]
  simp only [Bool.not_true, Bool.false_eq_true, if_false]
  split
  · exact hinsert
  · rw [entries_insertRefs, hinsert]

theorem indexEntry_ok {io : Io} {db : EntryDb} {e : JournalEntry} (row : io.sqliteRow = true)
    (fts : io.sqliteFts = true) (refs : ∀ n < e.lines.length, io.sqliteRef n) (accepted : ¬ db.Refused e)
    (above : ∀ x ∈ db.entries, x.sequence < e.sequence) :
    (indexEntry io db e).entries = db.entries ++ [e] ∧ db.accountEntries ⊆ (indexEntry io db e).accountEntries ∧
      ∀ l ∈ e.lines, (l.accountId, e.sequence) ∈ (indexEntry io db e).accountEntries := by
  have heq : indexEntry io db e = insertRefs io (db.insert e) e := by simp [indexEntry, row, fts]
  have hrefs : (db.insert e).accountEntries = db.accountEntries := by rw [EntryDb.insert, dif_neg accepted]
  obtain ⟨hsub, hlines⟩ := refs_foldl io e.sequence e.lines 0 (db.insert e) (by simpa using refs)
  rw [heq, entries_insertRefs, EntryDb.entries_insert accepted, EntryDb.insertBySequence_last above]
  exact ⟨rfl, hrefs ▸ hsub, hlines⟩

/-! ### The invariant -/

/-- The index has every entry with its accounts, and the balances are its sums. -/
structure Indexed (s : LedgerStore) : Prop where
  sound : s.Sound
  positive : 0 < s.nextSequence
  below : ∀ e ∈ s.entryDb.entries, e.sequence < s.nextSequence
  sums : ∀ a acct, s.accounts.lookup a = some acct →
    s.balanceCache.get a = signedSum acct.accountType.isDebitNormal a s.entryDb.entries
  refs : ∀ e ∈ s.entryDb.entries, ∀ l ∈ e.lines, (l.accountId, e.sequence) ∈ s.entryDb.accountEntries

end LedgerStore

section Indexed
variable {cfg : Config} {io : Io} {s s' : LedgerStore} {op : Op} {e : JournalEntry}

theorem LedgerStore.key_not_indexed {key : String} (fresh : s.duplicateOf e = none)
    (hkey : e.idempotencyKey = some key) : ∀ row ∈ s.entryDb.entries, row.idempotencyKey ≠ some key := by
  intro row hrow heq
  exact EntryDb.not_idempotencyKeyExists fresh hkey (EntryDb.idempotencyKeyExists_of_mem hrow heq)

theorem EntryOrigin.not_refused (origin : EntryOrigin cfg io s op e) (positive : 0 < s.nextSequence)
    (below : ∀ e ∈ s.entryDb.entries, e.sequence < s.nextSequence) : ¬ s.entryDb.Refused e := by
  have hkey : ∀ key, e.idempotencyKey = some key → ∀ row ∈ s.entryDb.entries, row.idempotencyKey ≠ some key := by
    intro key hkey
    cases origin with
    | posted valid fresh | imported valid fresh =>
      exact key_not_indexed fresh (by simpa using hkey)
    | reversed => simp at hkey
  rintro (hzero | ⟨row, hrow, hseq | ⟨hne, heq⟩⟩)
  · rw [origin.counters.1] at hzero
    omega
  · have := below row hrow
    rw [origin.counters.1] at hseq
    omega
  · obtain ⟨key, hsome⟩ := Option.ne_none_iff_exists'.1 hne
    exact hkey key hsome row hrow (heq ▸ hsome)

theorem EntryOrigin.sqliteOk (origin : EntryOrigin cfg io s op e) (allowed : SessionOp s op)
    (sqlite : SqliteOk io s op) :
    io.sqliteRow = true ∧ io.sqliteFts = true ∧ ∀ n < e.lines.length, io.sqliteRef n = true := by
  cases origin with
  | posted =>
    rw [sealEntry_lines]
    exact sqlite
  | reversed checked =>
    obtain ⟨found, -⟩ := checkReversal_ok checked
    rw [sealReversal_lines, length_map, length_zipIdx]
    exact ⟨sqlite.1, sqlite.2.1, sqlite.2.2 _ found⟩
  | imported => exact allowed.elim

theorem LedgerStore.Indexed.indexEntry (h : s.Indexed) (origin : EntryOrigin cfg io s op e)
    (allowed : SessionOp s op) (sqlite : SqliteOk io s op) :
    (indexEntry io s.entryDb e).entries = s.entryDb.entries ++ [e] ∧
      s.entryDb.accountEntries ⊆ (indexEntry io s.entryDb e).accountEntries ∧
      ∀ l ∈ e.lines, (l.accountId, e.sequence) ∈ (indexEntry io s.entryDb e).accountEntries := by
  obtain ⟨row, fts, refs⟩ := origin.sqliteOk allowed sqlite
  have above : ∀ x ∈ s.entryDb.entries, x.sequence < e.sequence := by
    rw [origin.counters.1]
    exact h.below
  exact indexEntry_ok row fts refs (origin.not_refused h.positive h.below) above

theorem LedgerStore.Indexed.session (h : s.Indexed) (effect : SessionEffect cfg io s op s')
    (allowed : SessionOp s op) (sqlite : SqliteOk io s op) : s'.Indexed := by
  have sound := h.sound.session effect
  cases effect with
  | kept accounts cache entryDb next =>
    refine ⟨sound, Nat.lt_of_lt_of_le h.positive next, ?_, accounts ▸ cache ▸ entryDb ▸ h.sums, entryDb ▸ h.refs⟩
    intro e he
    rw [entryDb] at he
    exact Nat.lt_of_lt_of_le (h.below e he) next
  | created a unknown accounts cache entries refs next =>
    refine ⟨sound, next ▸ h.positive, next ▸ entries ▸ h.below, ?_, ?_⟩
    · intro b acct hb
      rw [cache, entries]
      by_cases hba : b = a.id
      · -- No indexed entry has a line on the new account.
        subst hba
        rw [h.sound.unknown _ unknown, signedSum_eq_zero]
        intro e he l hl heq
        obtain ⟨acct', found⟩ := h.sound.known e he l hl
        rw [heq, unknown] at found
        cases found
      · rw [accounts, Finmap.lookup_insert_of_ne _ hba] at hb
        exact h.sums b acct hb
    · rw [entries, refs]
      exact h.refs
  | committed e origin accounts cache entryDb =>
    obtain ⟨hentries, hold, hnew⟩ := h.indexEntry origin allowed sqlite
    rw [← entryDb] at hentries hold hnew
    refine ⟨sound, by omega, ?_, ?_, ?_⟩
    · intro x hx
      rw [hentries, mem_append, mem_singleton] at hx
      rcases hx with hx | rfl
      · have := h.below x hx
        omega
      · have := origin.counters.1
        omega
    · intro a acct ha
      rw [accounts] at ha
      rw [cache, Tally.get_addAll, h.sums a acct ha, total_entryDeltas ha, hentries, signedSum_append,
        signedSum_cons, signedSum_nil, add_zero]
    · intro x hx l hl
      rw [hentries, mem_append, mem_singleton] at hx
      rcases hx with hx | rfl
      · exact hold (h.refs x hx l hl)
      · exact hnew l hl

theorem LedgerStore.Indexed.initial (key : Option SigningKey) : (initial (.fresh key)).Indexed where
  sound := .initial _ rfl
  positive := Nat.zero_lt_one
  below _ he := nomatch he
  sums a acct ha := by simp [LedgerStore.initial] at ha
  refs _ he := nomatch he

end Indexed

/-- A call of a session that SQLite takes. -/
def IndexedCall (io : Io) (s : LedgerStore) (op : Op) : Prop := SessionOp s op ∧ SqliteOk io s op

instance (io : Io) (s : LedgerStore) (op : Op) : Decidable (IndexedCall io s op) := by
  unfold IndexedCall
  infer_instance

theorem indexed_of_session {cfg : Config} {key : Option SigningKey} {s : LedgerStore}
    (run : Run.Reachable (Machine.step cfg) (SessionStep IndexedCall) (.down (.fresh key)) (.up s)) :
    s.Indexed :=
  session_invariant run (.initial key) fun _ _ _ _ h allowed effect =>
    h.session (effect.session allowed.1) allowed.1 allowed.2

end VectorLedger
