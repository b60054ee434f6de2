import VectorLedger.Lib.Except
import VectorLedger.Theorems.AccountScans

/-! Joins. A join that has a row panics; what is left to tell ledgers apart is whether it has one. -/

namespace VectorLedger

open List

/-- No date has the text of a number or of an id. -/
structure ReadEnv.LawfulDates (env : Sql.ReadEnv) : Prop where
  ne_number : ∀ t (n : Nat), env.showDate t ≠ toString n
  ne_id : ∀ t u, env.showDate t ≠ Uuid.toText u

namespace Sql.Read

variable {cfg : Config} {env : ReadEnv} {g g' : Ledger} {r left right : QueryResult} {f f' : Option EntryFilter} {d : String}
  {table table' : ScanTable} {joinType : JoinType} {listener : Listener} {max : UInt64} {row : Row} {key : String}

/-! ### Rows of a join -/

/-- A row of the right table has this key. -/
def HasKey (right : QueryResult) (key : String) : Prop :=
  ∃ row ∈ right.rows, (row.values[rightKeyCol right.columns]?).map Value.display = some key

/-- The join has a row. -/
def Joined (joinType : JoinType) (left right : QueryResult) : Prop :=
  ∃ row ∈ left.rows, joinType = .leftOuter ∨ HasKey right (joinKey row)

theorem rightRow_isSome : (rightRow right key).isSome ↔ HasKey right key := by
  simp only [rightRow, find?_isSome, mem_reverse, Option.any_eq_true, decide_eq_true_eq, HasKey, Option.map_eq_some_iff]

theorem length_values (h : row ∈ (execScan env g table f).rows) : row.values.length = (tableColumns table).length := by
  cases table with
  | ledger =>
    obtain ⟨e, -, rfl⟩ := mem_map.1 h
    rfl
  | ledgerLines =>
    rw [execScan, execScanLedgerLines_rows] at h
    obtain ⟨x, -, rfl⟩ := mem_map.1 h
    rfl
  | accounts =>
    obtain ⟨a, -, rfl⟩ := mem_map.1 h
    rfl

theorem length_joinColumns (table table' : ScanTable) : (joinColumns (tableColumns table) (tableColumns table')).length ≠
      (tableColumns table).length + (tableColumns table').length := by
  cases table <;> cases table' <;> decide

theorem joinRow_panics (hrow : row ∈ (execScan env g table f).rows)
    (h : joinType = .leftOuter ∨ HasKey (execScan env g table' f') (joinKey row)) :
    joinRow joinType (execScan env g table f) (execScan env g table' f') row = .error .panicked := by
  have hnew {values : List Value} (hlen : values.length = (tableColumns table').length) :
      Row.new (joinColumns (tableColumns table) (tableColumns table')) (row.values ++ values) = .error .panicked := by
    refine if_neg ?_
    rw [length_append, length_values hrow, hlen]
    exact length_joinColumns table table'
  unfold joinRow
  simp only [execScan_columns]
  split
  · next rr hrr =>
    rw [hnew (length_values (mem_reverse.1 (mem_of_find?_eq_some hrr)))]
    rfl
  · rw [hnew (length_map _)]
    rfl
  · next hnone =>
    rw [← rightRow_isSome, hnone] at h
    simp at h

theorem joinRow_none (h : ¬ (joinType = .leftOuter ∨ HasKey right (joinKey row))) :
    joinRow joinType left right row = .ok none := by
  rw [← rightRow_isSome, not_or, Option.not_isSome_iff_eq_none] at h
  cases joinType with
  | inner => simp only [joinRow, h.2]
  | leftOuter => exact absurd rfl h.1

theorem execJoin_panics (h : Joined joinType (execScan env g table f) (execScan env g table' f')) :
    execJoin joinType (execScan env g table f) (execScan env g table' f') = .error .panicked := by
  have hiff (row : Row) : (joinType = .leftOuter || (rightRow (execScan env g table' f') (joinKey row)).isSome) = true ↔
      joinType = .leftOuter ∨ HasKey (execScan env g table' f') (joinKey row) := by
    rw [Bool.or_eq_true, decide_eq_true_eq, rightRow_isSome]
  have hmap := Except.mapM_error (f := joinRow joinType (execScan env g table f) (execScan env g table' f'))
    (p := fun row => joinType = .leftOuter || (rightRow (execScan env g table' f') (joinKey row)).isSome)
    (fun row hrow hp => joinRow_panics hrow ((hiff row).1 hp))
    (fun row _ hp => ⟨none, joinRow_none fun h => hp ((hiff row).2 h)⟩)
    (any_eq_true.2 (h.imp fun row hrow => ⟨hrow.1, (hiff row).2 hrow.2⟩))
  rw [execJoin, hmap]
  rfl

theorem execJoin_empty (h : ¬ Joined joinType left right) :
    execJoin joinType left right = .ok ⟨joinColumns left.columns right.columns, [], toString 0 ++ " rows (join)"⟩ := by
  have hmap := Except.mapM_ok (f := joinRow joinType left right)
    fun row hrow => joinRow_none fun hp => h ⟨row, hrow, hp⟩
  rw [execJoin, hmap]
  simp [bind, Except.bind, pure, Except.pure]

theorem execute_join (g : Ledger) : execute cfg env g (.join (.scan table f []) (.scan table' f' []) joinType) =
    execJoin joinType (execScan env g table f) (execScan env g table' f') := rfl

theorem not_same_of_panic (r : QueryResult) :
    ¬ (reply listener max (.error .panicked)).SameRows (reply listener max (.ok r)) ∧
      ¬ (reply listener max (.ok r)).SameRows (reply listener max (.error .panicked)) := by
  cases listener with
  | native => exact ⟨id, id⟩
  | pgwire =>
    simp only [reply, pgwireAnswer]
    split <;> exact ⟨id, id⟩

theorem isolated_join_iff_joined :
    Isolated cfg env listener max d (.join (.scan table f []) (.scan table' f' []) joinType) ↔
      ∀ g g' : Ledger, g.AgreeOn d g' → (Joined joinType (execScan env g table f) (execScan env g table' f') ↔
          Joined joinType (execScan env g' table f) (execScan env g' table' f')) := by
  refine forall₃_congr fun g g' _ => ?_
  rw [execute_join, execute_join]
  by_cases h : Joined joinType (execScan env g table f) (execScan env g table' f') <;>
    by_cases h' : Joined joinType (execScan env g' table f) (execScan env g' table' f')
  · rw [execJoin_panics h, execJoin_panics h', iff_true_intro h, iff_true_intro h']
    exact iff_of_true (Answer.SameRows.refl _) Iff.rfl
  · rw [execJoin_panics h, execJoin_empty h', iff_true_intro h, iff_false_intro h']
    exact iff_of_false (not_same_of_panic _).1 (by simp)
  · rw [execJoin_empty h, execJoin_panics h', iff_false_intro h, iff_true_intro h']
    exact iff_of_false (not_same_of_panic _).2 (by simp)
  · rw [execJoin_empty h, execJoin_empty h', iff_false_intro h, iff_false_intro h']
    simp only [execScan_columns, iff_true]
    exact Answer.SameRows.refl _

/-! ### Keys -/

theorem hasKey_iff {α : Type} {xs : List α} (make : α → Row) {keyOf : α → String} (hrows : right.rows = xs.map make)
    (hkey : ∀ x, ((make x).values[rightKeyCol right.columns]?).map Value.display = some (keyOf x)) :
    HasKey right key ↔ ∃ x ∈ xs, keyOf x = key := by
  rw [HasKey, hrows]
  constructor
  · rintro ⟨row, hrow, h⟩
    obtain ⟨x, hx, rfl⟩ := mem_map.1 hrow
    exact ⟨x, hx, Option.some.inj ((hkey x).symm.trans h)⟩
  · rintro ⟨x, hx, rfl⟩
    exact ⟨make x, mem_map_of_mem hx, hkey x⟩

theorem joined_iff {α : Type} {xs : List α} (make : α → Row) {keyOf : α → String} (hrows : left.rows = xs.map make)
    (hkey : ∀ x, joinKey (make x) = keyOf x) : Joined .inner left right ↔ ∃ x ∈ xs, HasKey right (keyOf x) := by
  rw [Joined, hrows]
  constructor
  · rintro ⟨row, hrow, h⟩
    obtain ⟨x, hx, rfl⟩ := mem_map.1 hrow
    exact ⟨x, hx, hkey x ▸ h.resolve_left (by decide)⟩
  · rintro ⟨x, hx, h⟩
    exact ⟨make x, mem_map_of_mem hx, .inr (hkey x ▸ h)⟩

theorem hasKey_ledger : HasKey (execScan env g .ledger none) key ↔
    ∃ e ∈ (selectEntries env g.store none).entries, Uuid.toText e.id = key :=
  hasKey_iff (entryRow env) rfl fun _ => rfl

theorem hasKey_lines : HasKey (execScan env g .ledgerLines none) key ↔
    ∃ x ∈ selectLines env g.store none, env.showDate x.1.effectiveAt = key :=
  hasKey_iff (fun x : JournalEntry × JournalLine => lineRow env x.1 x.2) (execScanLedgerLines_rows env g.store none)
    fun _ => rfl

theorem hasKey_accounts : HasKey (execScan env g .accounts none) key ↔ ∃ a ∈ g.allAccounts, Uuid.toText a.id = key := by
  have hall : g.allAccounts.filter (acceptsAccount none) = g.allAccounts := filter_eq_self.2 fun _ _ => rfl
  refine hasKey_iff (accountRow g.store) ?_ fun _ => rfl
  rw [execScan, execScanAccounts, hall]

theorem joined_ledger : Joined .inner (execScan env g .ledger f) right ↔
    ∃ e ∈ (selectEntries env g.store f).entries, HasKey right (toString e.sequence) :=
  joined_iff (entryRow env) rfl fun _ => rfl

theorem joined_lines : Joined .inner (execScan env g .ledgerLines f) right ↔
    ∃ x ∈ selectLines env g.store f, HasKey right (Uuid.toText x.2.accountId) :=
  joined_iff (fun x : JournalEntry × JournalLine => lineRow env x.1 x.2) (execScanLedgerLines_rows env g.store f)
    fun _ => rfl

theorem joined_accounts : Joined .inner (execScan env g .accounts f) right ↔
    ∃ a ∈ g.allAccounts.filter (acceptsAccount f), HasKey right (Uuid.toText a.id) :=
  joined_iff (accountRow g.store) rfl fun _ => rfl

theorem joined_leftOuter : Joined .leftOuter left right ↔ left.rows ≠ [] := by
  constructor
  · rintro ⟨row, hrow, -⟩
    exact ne_nil_of_mem hrow
  · intro h
    obtain ⟨row, hrow⟩ := exists_mem_of_ne_nil _ h
    exact ⟨row, hrow, .inl rfl⟩

theorem joined_accounts_accounts :
    Joined .inner (execScan env g .accounts f) (execScan env g .accounts none) ↔ (execScan env g .accounts f).rows ≠ [] := by
  constructor
  · rintro ⟨row, hrow, -⟩
    exact ne_nil_of_mem hrow
  · intro h
    obtain ⟨a, ha⟩ := exists_mem_of_ne_nil _ fun hnil => h (map_eq_nil_iff.2 hnil)
    exact joined_accounts.2 ⟨a, ha, hasKey_accounts.2 ⟨a, (mem_filter.1 ha).1, rfl⟩⟩

theorem not_joined_ledger (lawful : ReadEnv.LawfulDates env) :
    ¬ Joined .inner (execScan env g .ledger f) (execScan env g table' none) := by
  rw [joined_ledger]
  rintro ⟨e, -, h⟩
  cases table' with
  | ledger =>
    obtain ⟨e', -, h⟩ := hasKey_ledger.1 h
    exact Uuid.toText_ne_toString _ _ h
  | ledgerLines =>
    obtain ⟨x, -, h⟩ := hasKey_lines.1 h
    exact lawful.ne_number _ _ h
  | accounts =>
    obtain ⟨a, -, h⟩ := hasKey_accounts.1 h
    exact Uuid.toText_ne_toString _ _ h

theorem not_joined_lines (lawful : ReadEnv.LawfulDates env) :
    ¬ Joined .inner (execScan env g table f) (execScan env g .ledgerLines none) := by
  cases table with
  | ledger => exact not_joined_ledger lawful
  | ledgerLines =>
    rw [joined_lines]
    rintro ⟨x, -, h⟩
    obtain ⟨y, -, h⟩ := hasKey_lines.1 h
    exact lawful.ne_id _ _ h
  | accounts =>
    rw [joined_accounts]
    rintro ⟨a, -, h⟩
    obtain ⟨y, -, h⟩ := hasKey_lines.1 h
    exact lawful.ne_id _ _ h

/-! ### When a join tells ledgers apart -/

theorem isolated_iff_of_joined_iff
    (h : ∀ g, Joined joinType (execScan env g table f) (execScan env g table' f') ↔ (execScan env g table f).rows ≠ []) :
    Isolated cfg env listener max d (.join (.scan table f []) (.scan table' f' []) joinType) ↔ ¬ Leaves env d f table := by
  rw [isolated_join_iff_joined]
  simp only [h]
  constructor
  · intro isolated leaves
    obtain ⟨g, agree, hrows⟩ := exists_leak leaves
    exact (isolated .empty g agree).2 hrows (execScan_empty env f table)
  · intro confined g g' agree
    by_cases htable : table = .accounts
    · subst htable
      have hperm := accepted_accounts_perm agree fun a => domain_of_accepted confined
      simp only [execScan, execScanAccounts, ne_eq, ← length_eq_zero_iff, length_map, hperm.length_eq]
    · rw [execScan_rows_eq agree confined htable]

theorem isolated_iff_of_exists (h : Returns env f table → ∃ g g' : Ledger, g.AgreeOn d g' ∧
      ¬ Joined joinType (execScan env g table f) (execScan env g table' f') ∧
      Joined joinType (execScan env g' table f) (execScan env g' table' f')) :
    Isolated cfg env listener max d (.join (.scan table f []) (.scan table' f' []) joinType) ↔ ¬ Returns env f table := by
  rw [isolated_join_iff_joined]
  constructor
  · intro isolated returns
    obtain ⟨g, g', agree, hnone, hjoined⟩ := h returns
    exact hnone ((isolated g g' agree).2 hjoined)
  · intro hnone g g' _
    have hnil (g : Ledger) : ¬ Joined joinType (execScan env g table f) (execScan env g table' f') := by
      rintro ⟨row, hrow, -⟩
      rw [execScan_rows_nil hnone] at hrow
      cases hrow
    exact iff_of_false (hnil g) (hnil g')

theorem isolated_of_not_joined (h : ∀ g, ¬ Joined joinType (execScan env g table f) (execScan env g table' f')) :
    Isolated cfg env listener max d (.join (.scan table f []) (.scan table' f' []) joinType) :=
  isolated_join_iff_joined.2 fun g g' _ => iff_of_false (h g) (h g')

theorem exists_line (h : Returns env f .ledgerLines) : ∃ (e : JournalEntry) (l : JournalLine), 0 < e.sequence ∧ e.id = 1 ∧
    e.lines = [l] ∧ l.accountId = (0 : AccountId) ∧ acceptsEntry env f e ∧ acceptsLine f l := by
  obtain ⟨e, l, positive, accepted, hline, -⟩ := h
  refine ⟨{ e with id := 1, lines := [{ l with accountId := (0 : AccountId) }] }, { l with accountId := (0 : AccountId) },
    positive, rfl, rfl, rfl, (acceptsEntry_with env f e _ _).trans accepted, ?_⟩
  rcases f with _ | f
  · rfl
  · cases f <;> exact hline

theorem exists_lines_accounts (h : Returns env f .ledgerLines) : ∃ g g' : Ledger, g.AgreeOn d g' ∧
    ¬ Joined .inner (execScan env g .ledgerLines f) (execScan env g .accounts none) ∧
    Joined .inner (execScan env g' .ledgerLines f) (execScan env g' .accounts none) := by
  obtain ⟨e, l, positive, -, hlines, haccount, accepted, hline⟩ := exists_line h
  refine ⟨.of (.one e positive) [] nodup_nil ∅, .of (.one e positive) [plain (d ++ "x") 0] (nodup_singleton _) ∅,
    Ledger.agreeOn_of rfl ?_, ?_, ?_⟩
  · intro a ha
    simp only [not_mem_nil, mem_singleton, false_iff]
    rintro rfl
    exact Ledger.other_ne d ha
  · rw [joined_lines]
    rintro ⟨x, -, hkey⟩
    obtain ⟨a, ha, -⟩ := hasKey_accounts.1 hkey
    rw [Ledger.allAccounts_of] at ha
    cases ha
  · refine joined_lines.2 ⟨(e, l), mem_selectLines rfl accepted (by simp [hlines]) hline, hasKey_accounts.2 ?_⟩
    exact ⟨plain (d ++ "x") 0, by simp, by rw [haccount]; rfl⟩

theorem exists_lines_ledger (h : Returns env f .ledgerLines) : ∃ g g' : Ledger, g.AgreeOn d g' ∧
    ¬ Joined .inner (execScan env g .ledgerLines f) (execScan env g .ledger none) ∧
    Joined .inner (execScan env g' .ledgerLines f) (execScan env g' .ledger none) := by
  obtain ⟨e, l, positive, hid, hlines, haccount, accepted, hline⟩ := exists_line h
  let e' := JournalEntry.bare 0 (e.sequence + 1) (d ++ "x")
  refine ⟨.of (.one e positive) [] nodup_nil ∅,
    .of (.two e e' positive (Nat.lt_succ_self _) rfl) [] nodup_nil ∅, Ledger.agreeOn_of ?_ (by simp), ?_, ?_⟩
  · have hother : ¬ e'.domain = d := Ledger.other_ne d
    by_cases hd : e.domain = d <;> simp [EntryDb.one, EntryDb.two, hd, hother]
  · rw [joined_lines]
    rintro ⟨x, hx, hkey⟩
    obtain ⟨entry, hentry, hline⟩ := mem_flatMap.1 hx
    obtain rfl : entry = e := mem_singleton.1 (mem_of_selectEntries hentry)
    obtain ⟨line, hmem, rfl⟩ := mem_map.1 hline
    obtain rfl : line = l := by simpa [hlines] using mem_of_mem_filter hmem
    obtain ⟨found, hfound, heq⟩ := hasKey_ledger.1 hkey
    rw [mem_singleton.1 (mem_of_selectEntries hfound), hid, haccount] at heq
    exact absurd (Uuid.toText_inj heq) (by decide)
  · refine joined_lines.2 ⟨(e, l), mem_selectLines rfl accepted (by simp [hlines]) hline, hasKey_ledger.2 ?_⟩
    refine ⟨e', ?_, by rw [haccount]; rfl⟩
    rw [selectEntries_all (by change 2 ≤ defaultScanLimit; decide)]
    exact mem_cons_of_mem _ mem_cons_self

theorem exists_accounts_ledger (h : Returns env f .accounts) : ∃ g g' : Ledger, g.AgreeOn d g' ∧
    ¬ Joined .inner (execScan env g .accounts f) (execScan env g .ledger none) ∧
    Joined .inner (execScan env g' .accounts f) (execScan env g' .ledger none) := by
  obtain ⟨a, accepted, -⟩ := h
  let e := JournalEntry.bare a.id 1 (d ++ "x")
  refine ⟨.of .empty [a] (nodup_singleton _) ∅, .of (.one e Nat.one_pos) [a] (nodup_singleton _) ∅,
    Ledger.agreeOn_of ?_ (fun _ _ => Iff.rfl), ?_, ?_⟩
  · have hother : ¬ e.domain = d := Ledger.other_ne d
    simp [EntryDb.empty, EntryDb.one, hother]
  · rw [joined_accounts]
    rintro ⟨b, -, hkey⟩
    obtain ⟨found, hfound, -⟩ := hasKey_ledger.1 hkey
    cases mem_of_selectEntries hfound
  · refine joined_accounts.2 ⟨a, by simpa using accepted, hasKey_ledger.2 ⟨e, ?_, rfl⟩⟩
    exact mem_selectEntries_head rfl rfl

/-- What the joins of a scan need: one that has a row for every row on the left must not leave the domain, one that can
    match rows of other domains must have no row, and one whose keys match nothing needs nothing. -/
def JoinConfined (env : ReadEnv) (d : String) (f : Option EntryFilter) (table table' : ScanTable) : JoinType → Prop
  | .leftOuter => ¬ Leaves env d f table
  | .inner =>
    match table, table' with
    | .accounts, .accounts => ¬ Leaves env d f table
    | .ledgerLines, .accounts | .ledgerLines, .ledger | .accounts, .ledger => ¬ Returns env f table
    | .ledger, _ | _, .ledgerLines => True

theorem isolated_join_iff (lawful : ReadEnv.LawfulDates env) :
    Isolated cfg env listener max d (.join (.scan table f []) (.scan table' none []) joinType) ↔
      JoinConfined env d f table table' joinType := by
  cases joinType with
  | leftOuter => exact isolated_iff_of_joined_iff fun g => joined_leftOuter
  | inner =>
    cases table with
    | ledger => exact iff_of_true (isolated_of_not_joined fun g => not_joined_ledger lawful) trivial
    | ledgerLines =>
      cases table' with
      | ledger => exact isolated_iff_of_exists exists_lines_ledger
      | ledgerLines => exact iff_of_true (isolated_of_not_joined fun g => not_joined_lines lawful) trivial
      | accounts => exact isolated_iff_of_exists exists_lines_accounts
    | accounts =>
      cases table' with
      | ledger => exact isolated_iff_of_exists exists_accounts_ledger
      | ledgerLines => exact iff_of_true (isolated_of_not_joined fun g => not_joined_lines lawful) trivial
      | accounts => exact isolated_iff_of_joined_iff fun g => joined_accounts_accounts

end Sql.Read

end VectorLedger
