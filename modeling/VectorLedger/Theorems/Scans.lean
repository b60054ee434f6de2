import VectorLedger.Theorems.Leaks
import VectorLedger.Theorems.Texts

/-! Scans: when the two answers to a plan have the same rows, and when a user with a domain gets the same rows from ledgers
    that agree on it. -/

namespace VectorLedger.Sql.Read

open List

section
variable {listener : Listener} {max : UInt64} {r r' : QueryResult}

def reply (listener : Listener) (max : UInt64) (r : Except QueryError QueryResult) : Answer :=
  match listener with
  | .native => nativeAnswer max r
  | .pgwire _ => pgwireAnswer r

def effectivePlan (listener : Listener) (d : String) (p : ReadPlan) : ReadPlan :=
  match listener with
  | .native => applyDomainFilter p (some d)
  | .pgwire _ => p

/-- A user with the domain gets the same rows for a plan from any two ledgers that agree on it. -/
def Isolated (cfg : Config) (env : ReadEnv) (listener : Listener) (max : UInt64) (d : String) (p : ReadPlan) : Prop :=
  ∀ g g' : Ledger, g.AgreeOn d g' →
    (reply listener max (execute cfg env g p)).SameRows (reply listener max (execute cfg env g' p))

/-! ### Texts -/

theorem not_integrity_of_number (n : Nat) (text : String) : startsWith "INTEGRITY FAILURE" (toString n ++ text) = false := by
  rw [startsWith, decide_eq_false_iff_not]
  rintro ⟨rest, heq⟩
  obtain ⟨c, cs, hdigits⟩ := exists_cons_of_ne_nil (l := (toString n).toList) (by
    rw [Ne, String.toList_eq_nil_iff]
    exact Nat.repr_ne_empty)
  have hc := isDigit_of_mem_toString (n := n) (c := c) (by rw [hdigits]; exact mem_cons_self)
  rw [String.toList_append, hdigits] at heq
  obtain rfl : 'I' = c := (cons.inj heq).1
  exact absurd hc (by decide)

/-! ### Answers with rows -/

theorem Answer.SameRows.refl (a : Answer) : a.SameRows a := by
  cases a with
  | rows rs | dataRows rs => exact List.Perm.refl rs
  | error | closed => trivial

theorem Answer.SameRows.symm {a b : Answer} (h : a.SameRows b) : b.SameRows a := by
  cases a with
  | rows | dataRows => cases b <;> first | exact List.Perm.symm h | exact h
  | error | closed => cases b <;> exact h

theorem capRows_eq_nil {rows : List Row} : capRows max rows = [] ↔ rows = [] := by
  unfold capRows
  split
  · next hmax =>
    have hpos : max.toNat ≠ 0 := Nat.ne_of_gt (UInt64.lt_iff_toNat_lt.1 hmax)
    rw [take_eq_nil_iff]
    exact ⟨fun h => h.resolve_left hpos, .inr⟩
  · exact Iff.rfl

theorem capRows_singleton (row : Row) : capRows max [row] = [row] := by
  unfold capRows
  split
  · next hmax => exact take_of_length_le (Nat.succ_le_of_lt (UInt64.lt_iff_toNat_lt.1 hmax))
  · rfl

theorem pgwireAnswer_ok (h : startsWith "INTEGRITY FAILURE" r.message = false) :
    pgwireAnswer (.ok r) = .dataRows (r.rows.map (dataRow r.columns)) := by
  simp [pgwireAnswer, h]

theorem pgwireAnswer_rows (h : r.rows ≠ []) : pgwireAnswer (.ok r) = .dataRows (r.rows.map (dataRow r.columns)) := by
  simp [pgwireAnswer, h]

theorem not_same_of_empty (hempty : r.rows = []) (hrows : r'.rows ≠ []) :
    ¬ (reply listener max (.ok r)).SameRows (reply listener max (.ok r')) := by
  cases listener with
  | native =>
    intro h
    simp only [reply, nativeAnswer, hempty, capRows_eq_nil.2 rfl] at h
    exact hrows (capRows_eq_nil.1 h.symm.eq_nil)
  | pgwire =>
    simp only [reply, pgwireAnswer_rows hrows]
    intro h
    simp only [pgwireAnswer, hempty] at h
    split at h
    · exact h
    · exact hrows (List.map_eq_nil_iff.1 (List.Perm.symm h).eq_nil)

theorem dataRow_ne {columns : List String} {x y : Row} {col : String} (hcol : col ∈ columns)
    (hne : (x.get col).map Value.display ≠ (y.get col).map Value.display) : dataRow columns x ≠ dataRow columns y :=
  fun heq => hne (map_inj_left.1 heq col hcol)

theorem not_same_of_cell {x y : Row} {col : String} (hx : r.rows = [x]) (hy : r'.rows = [y]) (hcols : r'.columns = r.columns)
    (hcol : col ∈ r.columns) (hne : (x.get col).map Value.display ≠ (y.get col).map Value.display) :
    ¬ (reply listener max (.ok r)).SameRows (reply listener max (.ok r')) := by
  intro h
  cases listener with
  | native =>
    simp only [reply, nativeAnswer, Answer.SameRows, hx, hy, capRows_singleton, singleton_perm_singleton] at h
    exact hne (by rw [h])
  | pgwire =>
    simp only [reply, pgwireAnswer_rows (show r.rows ≠ [] by simp [hx]), pgwireAnswer_rows (show r'.rows ≠ [] by simp [hy]),
      Answer.SameRows, hx, hy, hcols, map_cons, map_nil, singleton_perm_singleton] at h
    exact dataRow_ne hcol hne h

theorem same_of_rows (hcols : r.columns = r'.columns) (hrows : r.rows = r'.rows)
    (hmsg : startsWith "INTEGRITY FAILURE" r.message = false) (hmsg' : startsWith "INTEGRITY FAILURE" r'.message = false) :
    (reply listener max (.ok r)).SameRows (reply listener max (.ok r')) := by
  cases listener with
  | native => simp [reply, nativeAnswer, Answer.SameRows, hrows]
  | pgwire => simp [reply, pgwireAnswer_ok hmsg, pgwireAnswer_ok hmsg', Answer.SameRows, hrows, hcols]

end

variable {cfg : Config} {env : ReadEnv} {g g' : Ledger} {f : Option EntryFilter} {d : String} {table : ScanTable}
  {keep : List String} {listener : Listener} {max : UInt64}

def tableColumns : ScanTable → List String
  | .ledger => entryColumns
  | .ledgerLines => lineColumns
  | .accounts => accountColumns

@[simp] theorem execScan_columns : (execScan env g table f).columns = tableColumns table := by
  cases table <;> rfl

theorem execScan_message : startsWith "INTEGRITY FAILURE" (execScan env g table f).message = false := by
  cases table with
  | ledger =>
    simp only [execScan, execScanEntries]
    split
    · simp only [String.append_assoc, not_integrity_of_number]
    · exact not_integrity_of_number _ _
  | ledgerLines =>
    simp only [execScan, execScanLedgerLines]
    split
    · simp only [String.append_assoc, not_integrity_of_number]
    · exact not_integrity_of_number _ _
  | accounts => exact not_integrity_of_number _ _

/-! ### Projections -/

def visible (columns keep : List String) : List String :=
  if keep.isEmpty then columns
  else if (keep.filter (· ∈ columns)).length = columns.length then columns else keep.filter (· ∈ columns)

def projectRow (columns keep : List String) (row : Row) : Row :=
  if keep.isEmpty then row
  else if (keep.filter (· ∈ columns)).length = columns.length then row
  else ⟨visible columns keep, (visible columns keep).map fun col => (row.get col).getD .null⟩

theorem project_eq (r : QueryResult) (keep : List String) :
    r.project keep = ⟨visible r.columns keep, r.rows.map (projectRow r.columns keep), r.message⟩ := by
  unfold QueryResult.project projectRow visible
  by_cases hkeep : keep.isEmpty
  · simp [hkeep]
  · by_cases hlen : (keep.filter (· ∈ r.columns)).length = r.columns.length <;> simp [hkeep, hlen]

/-! ### Entries and lines -/

theorem execScan_rows_eq (agree : g.AgreeOn d g') (confined : ¬ Leaves env d f table) (htable : table ≠ .accounts) :
    (execScan env g table f).rows = (execScan env g' table f).rows := by
  cases table with
  | ledger =>
    have only : ∀ e, 0 < e.sequence → acceptsEntry env f e → e.domain = d := by
      intro e positive accepted
      by_contra hd
      exact confined ⟨e, positive, accepted, hd⟩
    simp only [execScan, execScanEntries, selectEntries_congr (filter_accepts_eq agree only)]
  | ledgerLines =>
    simp only [execScan, execScanLedgerLines_rows]
    by_cases hline : ∃ l, acceptsLine f l
    · obtain ⟨l, hl⟩ := hline
      have only : ∀ e, 0 < e.sequence → acceptsEntry env f e → e.domain = d := by
        intro e positive accepted
        by_contra hd
        exact confined ⟨e, l, positive, accepted, hl, hd⟩
      simp only [selectLines, selectEntries_congr (filter_accepts_eq agree only)]
    · -- the filter on the side of a line accepts none
      have hnone (s : LedgerStore) : selectLines env s f = [] := by
        refine flatMap_eq_nil_iff.2 fun e _ => List.map_eq_nil_iff.2 (filter_eq_nil_iff.2 fun l _ hl => ?_)
        exact hline ⟨l, hl⟩
      rw [hnone, hnone]
  | accounts => exact absurd rfl htable

theorem execScan_rows_nil (h : ¬ Returns env f table) : (execScan env g table f).rows = [] := by
  cases table with
  | ledger =>
    have hnone : g.store.entryDb.entries.filter (acceptsEntry env f) = [] :=
      filter_eq_nil_iff.2 fun e he accepted => h ⟨e, g.store.entryDb.positive e he, accepted, trivial⟩
    simp [execScan, execScanEntries, selectEntries_nil hnone]
  | ledgerLines =>
    rw [execScan, execScanLedgerLines_rows]
    by_cases hline : ∃ l, acceptsLine f l
    · obtain ⟨l, hl⟩ := hline
      have hnone : g.store.entryDb.entries.filter (acceptsEntry env f) = [] :=
        filter_eq_nil_iff.2 fun e he accepted => h ⟨e, l, g.store.entryDb.positive e he, accepted, hl, trivial⟩
      simp [selectLines, selectEntries_nil hnone]
    · refine List.map_eq_nil_iff.2 (flatMap_eq_nil_iff.2 fun e _ => ?_)
      exact List.map_eq_nil_iff.2 (filter_eq_nil_iff.2 fun l _ hl => hline ⟨l, hl⟩)
  | accounts =>
    have hnone : g.allAccounts.filter (acceptsAccount f) = [] :=
      filter_eq_nil_iff.2 fun a _ accepted => h ⟨a, accepted, trivial⟩
    simp [execScan, execScanAccounts, hnone]

/-! ### Plans over scans -/

section
variable {p : ReadPlan} (make : QueryResult → QueryResult)
  (hexec : ∀ g, execute cfg env g p = .ok (make (execScan env g table f)))
include make hexec

theorem not_isolated_of_leaves (hnil : ∀ r, (make r).rows = [] ↔ r.rows = []) (h : Leaves env d f table) :
    ¬ Isolated cfg env listener max d p := by
  intro isolated
  obtain ⟨g, agree, hrows⟩ := exists_leak h
  have hsame := isolated .empty g agree
  rw [hexec, hexec] at hsame
  exact not_same_of_empty ((hnil _).2 (execScan_empty env f table)) (fun hmade => hrows ((hnil _).1 hmade)) hsame

theorem isolated_of_rows
    (hrows : ∀ r r', r.columns = r'.columns → r.rows = r'.rows → (make r).columns = (make r').columns ∧ (make r).rows = (make r').rows)
    (hmsg : ∀ r, startsWith "INTEGRITY FAILURE" r.message = false → startsWith "INTEGRITY FAILURE" (make r).message = false)
    (h : ∀ g g' : Ledger, g.AgreeOn d g' → (execScan env g table f).rows = (execScan env g' table f).rows) :
    Isolated cfg env listener max d p := by
  intro g g' agree
  rw [hexec, hexec]
  obtain ⟨hcols, hrows⟩ := hrows (execScan env g table f) (execScan env g' table f) (by simp) (h g g' agree)
  exact same_of_rows hcols hrows (hmsg _ execScan_message) (hmsg _ execScan_message)

end

theorem execute_scan (g : Ledger) :
    execute cfg env g (.scan table f keep) = .ok ((execScan env g table f).project keep) := rfl

theorem project_rows_eq_nil {r : QueryResult} : (r.project keep).rows = [] ↔ r.rows = [] := by
  rw [project_eq, List.map_eq_nil_iff]

theorem isolated_scan_of_rows
    (h : ∀ g g' : Ledger, g.AgreeOn d g' → (execScan env g table f).rows = (execScan env g' table f).rows) :
    Isolated cfg env listener max d (.scan table f keep) := by
  refine isolated_of_rows (·.project keep) execute_scan (fun r r' hcols hrows => ?_) (fun r hmsg => ?_) h
  · rw [project_eq, project_eq, hcols, hrows]
    exact ⟨rfl, rfl⟩
  · rw [project_eq]
    exact hmsg

theorem isolated_scan_iff (htable : table ≠ .accounts) :
    Isolated cfg env listener max d (.scan table f keep) ↔ ¬ Leaves env d f table := by
  constructor
  · intro isolated leaves
    exact not_isolated_of_leaves (·.project keep) execute_scan (fun _ => project_rows_eq_nil) leaves isolated
  · intro confined
    exact isolated_scan_of_rows fun g g' agree => execScan_rows_eq agree confined htable

/-! ### Windows -/

theorem windowRows_eq_nil {windowFn : WindowFn} {aliasName : String} {partKey : Row → List String} {raw : Row → Int}
    {states : List String → PartitionState} {rows : List Row} :
    windowRows windowFn aliasName partKey raw states rows = [] ↔ rows = [] := by
  cases rows <;> simp [windowRows]

variable {windowFn : WindowFn} {column aliasName : String} {partitionBy : List String}

theorem execute_window (g : Ledger) : execute cfg env g (.window (.scan table f []) windowFn column aliasName partitionBy) =
    .ok (execWindow (execScan env g table f) windowFn column aliasName partitionBy) := rfl

theorem execWindow_message (r : QueryResult) :
    startsWith "INTEGRITY FAILURE" (execWindow r windowFn column aliasName partitionBy).message = false := by
  unfold execWindow
  exact not_integrity_of_number _ _

theorem isolated_window_of_rows
    (h : ∀ g g' : Ledger, g.AgreeOn d g' → (execScan env g table f).rows = (execScan env g' table f).rows) :
    Isolated cfg env listener max d (.window (.scan table f []) windowFn column aliasName partitionBy) := by
  refine isolated_of_rows (execWindow · windowFn column aliasName partitionBy) execute_window
    (fun r r' hcols hrows => ?_) (fun r _ => execWindow_message r) h
  rcases r with ⟨columns, rows, message⟩
  rcases r' with ⟨columns', rows', message'⟩
  obtain rfl : columns = columns' := hcols
  obtain rfl : rows = rows' := hrows
  exact ⟨rfl, rfl⟩

theorem not_isolated_window (h : Leaves env d f table) :
    ¬ Isolated cfg env listener max d (.window (.scan table f []) windowFn column aliasName partitionBy) :=
  not_isolated_of_leaves (execWindow · windowFn column aliasName partitionBy) execute_window
    (fun _ => windowRows_eq_nil) h

end VectorLedger.Sql.Read
