import VectorLedger.Theorems.Isolation

/-! The rows of a query against those that SQL gives: projections and joins. -/

namespace VectorLedger.Sql.Read

open List

/-! ### Projections -/

/-- A column in a SELECT list, with or without an alias. -/
structure PlainItem where
  column : String
  aliasName : Option String
  deriving DecidableEq, Repr

def PlainItem.name (i : PlainItem) : String := i.aliasName.getD i.column

def PlainItem.toSelectItem (i : PlainItem) : SelectItem :=
  match i.aliasName with
  | none => .unnamedExpr (.operand (.identifier i.column))
  | some name => .exprWithAlias (.operand (.identifier i.column)) name

/-- As many rows as before, each with the values of the selected columns, in the order and under the names of the list. -/
def Selects (items : List PlainItem) (rows : List Row) (r : QueryResult) : Prop :=
  r.columns = items.map (·.name) ∧
    Forall₂ (fun row row' => row'.columns = items.map (·.name) ∧ row'.values.map some = items.map (row.get ·.column))
      rows r.rows

variable {items : List PlainItem}

theorem visible_eq_iff (env : ReadEnv) (table : ScanTable) (nonempty : items ≠ []) :
    visible (tableColumns table) (parseProjections env (items.map (·.toSelectItem))) = items.map (·.name) ↔
      items.map (·.name) = tableColumns table ∨
        items.length ≠ (tableColumns table).length ∧ ∀ i ∈ items, i.name ∈ tableColumns table := by
  have hwild : SelectItem.wildcard ∉ items.map (·.toSelectItem) := by
    rw [mem_map]
    rintro ⟨⟨c, _ | name⟩, -, h⟩ <;> cases h
  have hplain : "" ∉ tableColumns table ∧ "*" ∉ tableColumns table := by cases table <;> decide
  -- A name of the table is neither empty nor a star.
  have hfilter : (parseProjections env (items.map (·.toSelectItem))).filter (· ∈ tableColumns table) =
      (items.map (·.name)).filter (· ∈ tableColumns table) := by
    rw [parseProjections, if_neg hwild, filter_filter, map_map, map_congr_left (g := PlainItem.name)]
    · refine filter_congr fun name _ => ?_
      by_cases hname : name ∈ tableColumns table
      · have hempty : name ≠ "" := fun heq => hplain.1 (heq ▸ hname)
        have hstar : name ≠ "*" := fun heq => hplain.2 (heq ▸ hname)
        simp [hname, hempty, hstar]
      · simp [hname]
    · rintro ⟨c, _ | name⟩ - <;> rfl
  generalize parseProjections env (items.map (·.toSelectItem)) = keep at hfilter
  rw [visible, hfilter]
  constructor
  · intro h
    split at h
    · exact .inl h.symm
    split at h
    · exact .inl h.symm
    · next hlen =>
      rw [h, length_map] at hlen
      exact .inr ⟨hlen, fun i hi => of_decide_eq_true (filter_eq_self.1 h _ (mem_map_of_mem hi))⟩
  · rintro (heq | ⟨hlen, hall⟩)
    · rw [heq, filter_eq_self.2 fun _ h => decide_eq_true h]
      simp
    · have hself : (items.map (·.name)).filter (· ∈ tableColumns table) = items.map (·.name) := by
        rw [filter_eq_self, forall_mem_map]
        exact fun i hi => decide_eq_true (hall i hi)
      have hkeep : ¬keep.isEmpty := by
        rintro hkeep
        rw [isEmpty_iff.1 hkeep, hself] at hfilter
        exact nonempty (map_eq_nil_iff.1 hfilter.symm)
      rw [hself, length_map, if_neg hkeep, if_neg hlen]

/-- The projection is right if the names of the list are columns of the table, not as many as the table has unless they are
    its columns in order, and each alias stands in every row for the same value as its column. -/
theorem projection_selects_iff (env : ReadEnv) (table : ScanTable) (nonempty : items ≠ []) {rows : List Row}
    (whole : ∀ row ∈ rows, row.columns = tableColumns table ∧ row.values.length = (tableColumns table).length)
    (message : String) :
    Selects items rows (QueryResult.project ⟨tableColumns table, rows, message⟩
        (parseProjections env (items.map (·.toSelectItem)))) ↔
      (items.map (·.name) = tableColumns table ∨
        items.length ≠ (tableColumns table).length ∧ ∀ i ∈ items, i.name ∈ tableColumns table) ∧
      ∀ row ∈ rows, ∀ i ∈ items, row.get i.name = row.get i.column := by
  have distinct : (tableColumns table).Nodup := by cases table <;> decide
  rw [project_eq, Selects, visible_eq_iff env table nonempty, and_congr_right_iff, ← visible_eq_iff env table nonempty]
  intro hvisible
  rw [forall₂_map_right_iff, forall₂_same]
  refine forall₂_congr fun row hrow => ?_
  obtain ⟨hcolumns, hvalues⟩ := projectRow_values distinct (whole row hrow).1 (whole row hrow).2
    (parseProjections env (items.map (·.toSelectItem)))
  rw [hcolumns, hvalues, hvisible, map_map, and_iff_right rfl, map_inj_left]
  rfl

open Read.Sample
open VectorLedger.Sample (account config twoAccounts)

def Sample.named : Row := ⟨accountColumns, [.uuid "1", .text "1000", .text "Cash", .null, .null, .null, .null, .bigInt 5]⟩

theorem selected_names : Selects [⟨"name", none⟩, ⟨"balance", none⟩] [named]
    (QueryResult.project ⟨accountColumns, [named], ""⟩
      (parseProjections readEnv [.unnamedExpr (.operand (.identifier "name")), .unnamedExpr (.operand (.identifier "balance"))])) :=
  (@projection_selects_iff [⟨"name", none⟩, ⟨"balance", none⟩] readEnv .accounts (by decide) _
    (by simp [named, tableColumns, accountColumns]) "").2 ⟨.inr (by decide), by simp [PlainItem.name]⟩

/-- An alias is looked up as a column: the row that is left has no value. -/
theorem alias_lost : ¬Selects [⟨"name", some "account"⟩] [named] (QueryResult.project ⟨accountColumns, [named], ""⟩
    (parseProjections readEnv [.exprWithAlias (.operand (.identifier "name")) "account"])) :=
  fun h => absurd h.1 (by decide)

/-! ### Joins -/

variable {env : ReadEnv} {joinType : JoinType}

def tableRows (env : ReadEnv) (g : Ledger) : ScanTable → List Row
  | .ledger => g.store.entryDb.entries.map (entryRow env)
  | .ledgerLines => g.store.entryDb.entries.flatMap fun e => e.lines.map (lineRow env e)
  | .accounts => g.allAccounts.map (accountRow g.store)

/-- The rows of a join in SQL, of which WHERE keeps some: the pairs that meet the ON condition, and in an outer join each row
    on the left that is in none of them. -/
def sqlJoin (env : ReadEnv) (g : Ledger) (joinType : JoinType) (on : Row → Row → Bool) (kept : List Value → Bool)
    (left right : ScanTable) : List (List Value) :=
  ((tableRows env g left).flatMap fun l =>
    match (tableRows env g right).filter (on l), joinType with
    | [], .leftOuter => [l.values ++ (tableColumns right).map fun _ => .null]
    | rs, _ => rs.map fun r => l.values ++ r.values).filter kept

/-- The query gives the expected rows, or as many of them as LIMIT lets through. -/
def Gives (expected : List (List Value)) (limit : Option Nat) (answer : Except QueryError QueryResult) : Prop :=
  ∃ r, answer = .ok r ∧ (∀ row ∈ r.rows, row.values.length = r.columns.length) ∧
    r.rows.map (·.values) <+~ expected ∧ r.rows.length = limit.elim expected.length (min expected.length)

/-- Whatever ON and WHERE say, a join is right only if the code's keys find no pair and SQL gives no row. -/
theorem join_gives_iff (cfg : Config) {q : Query} {left right : ReadPlan} (planned : plan env q = .ok (.join left right joinType))
    (g : Ledger) (on : Row → Row → Bool) (kept : List Value → Bool) (limit : Option Nat) :
    ∃ table f table', left = .scan table f [] ∧ right = .scan table' none [] ∧
      (Gives (sqlJoin env g joinType on kept table table') limit (execute cfg env g (.join left right joinType)) ↔
        ¬Joined joinType (execScan env g table f) (execScan env g table' none) ∧
          (sqlJoin env g joinType on kept table table' = [] ∨ limit = some 0)) := by
  cases plan_planned planned with
  | join table table' f =>
    refine ⟨table, f, table', rfl, rfl, ?_⟩
    rw [execute_join]
    by_cases hjoined : Joined joinType (execScan env g table f) (execScan env g table' none)
    · simp [execJoin_panics hjoined, Gives, hjoined]
    · have hcut (n : Nat) : 0 = limit.elim n (min n) ↔ n = 0 ∨ limit = some 0 := by
        cases limit <;> simp <;> omega
      simp [execJoin_empty hjoined, Gives, hjoined, nil_subperm, hcut]

def Sample.lineQuery : Query where
  body := .select ⟨[.wildcard], [⟨.table "accounts", [(.table "ledger_lines", .leftOuter)]⟩], none, .expressions []⟩
  limit := none

theorem planned_lineQuery :
    plan readEnv lineQuery = .ok (.join (.scan .accounts none []) (.scan .ledgerLines none []) .leftOuter) := by
  decide +kernel

/-- A ledger without accounts joins nothing. -/
theorem empty_join_given :
    Gives [] none (execute config readEnv .empty (.join (.scan .accounts none []) (.scan .ledgerLines none []) .leftOuter)) := by
  obtain ⟨table, f, table', hleft, hright, h⟩ := join_gives_iff config planned_lineQuery .empty (fun _ _ => true)
    (fun _ => true) none
  cases hleft
  cases hright
  exact h.2 ⟨fun hjoined => joined_leftOuter.1 hjoined rfl, .inl rfl⟩

/-- The accounts with the lines on them, in a ledger with two accounts and no entry. -/
theorem join_panics : ∃ g : Ledger, Run.exec (Machine.step config) (.down (.fresh none)) twoAccounts = some (.up g.store) ∧
    plan readEnv lineQuery = .ok (.join (.scan .accounts none []) (.scan .ledgerLines none []) .leftOuter) ∧
    execute config readEnv g (.join (.scan .accounts none []) (.scan .ledgerLines none []) .leftOuter) = .error .panicked :=
  ⟨ledgerOf _ (by decide +kernel), rfl, planned_lineQuery, by decide +kernel⟩

end VectorLedger.Sql.Read
