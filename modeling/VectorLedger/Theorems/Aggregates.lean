import VectorLedger.Lib.Except
import VectorLedger.Theorems.AccountScans

/-! Aggregates: an aggregate counts the rows of its scan, and on accounts it can show their balances. -/

namespace VectorLedger

open List

namespace Sql.Read

variable {cfg : Config} {env : ReadEnv} {g g' : Ledger} {r r' : QueryResult} {f : Option EntryFilter} {d col : String}
  {a : Account} {table : ScanTable} {groupBy : List String} {aggs : List AggExpr} {agg : AggExpr} {listener : Listener}
  {max : UInt64}

/-! ### Groups -/

def groupColumns (groupBy : List String) (aggs : List AggExpr) : List String := groupBy ++ aggs.map (·.aliasName)

def groupKeys (r : QueryResult) (groupBy : List String) : List (List String) :=
  ((r.rows.map (r.groupKey groupBy)).dedup).insertionSort (· ≤ ·)

def keyValues (groupBy key : List String) : List Value := if groupBy.isEmpty then [] else key.map .text

def groupValue (r : QueryResult) (groupBy key : List String) (agg : AggExpr) : Value :=
  computeAggregate agg.func ((r.rows.filter fun row => r.groupKey groupBy row = key).map (r.cell agg.column))

def aggregated (r : QueryResult) (groupBy : List String) (aggs : List AggExpr) : QueryResult where
  columns := groupColumns groupBy aggs
  rows := (groupKeys r groupBy).map fun key =>
    ⟨groupColumns groupBy aggs, keyValues groupBy key ++ aggs.map (groupValue r groupBy key)⟩
  message := toString (groupKeys r groupBy).length ++ " groups"

theorem length_keyValues (row : Row) : (keyValues groupBy (r.groupKey groupBy row)).length = groupBy.length := by
  unfold keyValues QueryResult.groupKey
  by_cases h : groupBy.isEmpty
  · simp [isEmpty_iff.1 h]
  · simp [h]

theorem mem_groupKeys {key : List String} : key ∈ groupKeys r groupBy ↔ ∃ row ∈ r.rows, r.groupKey groupBy row = key := by
  rw [groupKeys, mem_insertionSort, mem_dedup, mem_map]

theorem execAggregate_eq (r : QueryResult) (groupBy : List String) (aggs : List AggExpr) :
    execAggregate r groupBy aggs = .ok (aggregated r groupBy aggs) := by
  have hrow : ∀ key ∈ groupKeys r groupBy, groupRow r groupBy aggs key =
      .ok ⟨groupColumns groupBy aggs, keyValues groupBy key ++ aggs.map (groupValue r groupBy key)⟩ := by
    intro key hkey
    obtain ⟨row, -, rfl⟩ := mem_groupKeys.1 hkey
    refine if_pos ?_
    change _ = (keyValues groupBy (r.groupKey groupBy row) ++ _).length
    simp [length_keyValues]
  have hmap := Except.mapM_ok hrow
  simp only [execAggregate, ← groupKeys.eq_def, hmap]
  simp [aggregated, groupColumns, bind, Except.bind, pure, Except.pure]

theorem execute_aggregate (g : Ledger) : execute cfg env g (.aggregate (.scan table f []) groupBy aggs) =
    .ok (aggregated (execScan env g table f) groupBy aggs) := execAggregate_eq _ _ _

theorem aggregated_rows_eq_nil : (aggregated r groupBy aggs).rows = [] ↔ r.rows = [] := by
  rw [aggregated, map_eq_nil_iff, eq_nil_iff_forall_not_mem, eq_nil_iff_forall_not_mem]
  simp only [mem_groupKeys]
  constructor
  · exact fun h row hrow => h _ ⟨row, hrow, rfl⟩
  · rintro h key ⟨row, hrow, -⟩
    exact h row hrow

theorem aggregated_message : startsWith "INTEGRITY FAILURE" (aggregated r groupBy aggs).message = false :=
  not_integrity_of_number _ _

theorem groupKeys_congr (h : (r.rows.map (r.groupKey groupBy)).Perm (r'.rows.map (r'.groupKey groupBy))) :
    groupKeys r groupBy = groupKeys r' groupBy :=
  List.Perm.eq_of_pairwise' (r := (· ≤ ·)) (pairwise_insertionSort _ _) (pairwise_insertionSort _ _)
    ((perm_insertionSort _ _).trans (h.dedup.trans (perm_insertionSort _ _).symm))

theorem min?_perm {xs ys : List Int} (h : xs.Perm ys) : xs.min? = ys.min? :=
  Option.ext fun n => by simp only [min?_eq_some_iff, h.mem_iff]

theorem max?_perm {xs ys : List Int} (h : xs.Perm ys) : xs.max? = ys.max? :=
  Option.ext fun n => by simp only [max?_eq_some_iff, h.mem_iff]

theorem computeAggregate_perm {cells cells' : List (Option Value)} (h : cells.Perm cells') (func : AggFn) :
    computeAggregate func cells = computeAggregate func cells' := by
  have hnums : (cells.filterMap fun v => v.bind Value.num?).Perm (cells'.filterMap fun v => v.bind Value.num?) :=
    h.filterMap _
  cases func with
  | count => simp only [computeAggregate, h.length_eq]
  | sum => simp only [computeAggregate, hnums.sum_eq]
  | min => simp only [computeAggregate, min?_perm hnums]
  | max => simp only [computeAggregate, max?_perm hnums]
  | avg => simp only [computeAggregate, hnums.sum_eq, hnums.length_eq, hnums.isEmpty_eq]

/-! ### Rows of groups -/

theorem lookup_zip_map (value : AggExpr → Value) :
    ((aggs.map (·.aliasName)).zip (aggs.map value)).lookup col = (aggs.find? (·.aliasName = col)).map value := by
  induction aggs with
  | nil => rfl
  | cons agg aggs ih =>
    rw [map_cons, map_cons, zip_cons_cons, lookup_cons]
    by_cases h : agg.aliasName = col
    · simp [h]
    · rw [beq_false_of_ne (Ne.symm h), find?_cons_of_neg (by simpa using h), ← ih]

theorem groupRow_get {values : List Value} (hlen : values.length = groupBy.length) (value : AggExpr → Value) :
    (Row.mk (groupColumns groupBy aggs) (values ++ aggs.map value)).get col =
      ((groupBy.zip values).lookup col).or ((aggs.find? (·.aliasName = col)).map value) := by
  rw [get_eq_lookup, groupColumns, zip_append hlen.symm, lookup_append, lookup_zip_map]

/-- The listener sends the value of the aggregate. On pgwire that is the first value under its name. -/
def Shown (listener : Listener) (groupBy : List String) (aggs : List AggExpr) (agg : AggExpr) : Prop :=
  match listener with
  | .native => True
  | .pgwire _ => agg.aliasName ∉ groupBy ∧ aggs.find? (·.aliasName = agg.aliasName) = some agg

theorem lookup_zip_isSome {values : List Value} (hlen : values.length = groupBy.length) (hcol : col ∈ groupBy) :
    ∃ v, (groupBy.zip values).lookup col = some v := by
  induction groupBy generalizing values with
  | nil => cases hcol
  | cons c groupBy ih =>
    obtain ⟨v, values, rfl⟩ := exists_cons_of_length_eq_add_one hlen
    rw [zip_cons_cons, lookup_cons]
    by_cases hc : col = c
    · exact ⟨v, by simp [hc]⟩
    · rw [beq_false_of_ne hc]
      exact ih (by simpa using hlen) ((mem_cons.1 hcol).resolve_left hc)

theorem same_of_groups (hkeys : groupKeys r groupBy = groupKeys r' groupBy)
    (hvalues : ∀ agg ∈ aggs, Shown listener groupBy aggs agg → ∀ key, groupValue r groupBy key agg = groupValue r' groupBy key agg) :
    (reply listener max (.ok (aggregated r groupBy aggs))).SameRows
      (reply listener max (.ok (aggregated r' groupBy aggs))) := by
  cases listener with
  | native =>
    refine same_of_rows rfl ?_ aggregated_message aggregated_message
    simp only [aggregated, ← hkeys]
    refine map_congr_left fun key _ => ?_
    rw [map_congr_left fun agg hagg => hvalues agg hagg trivial key]
  | pgwire =>
    rw [reply, reply, pgwireAnswer_ok aggregated_message, pgwireAnswer_ok aggregated_message]
    refine List.Perm.of_eq ?_
    simp only [aggregated, ← hkeys, map_map]
    refine map_congr_left fun key hkey => map_congr_left fun col hcol => congrArg (Option.map Value.display) ?_
    obtain ⟨row, -, rfl⟩ := mem_groupKeys.1 hkey
    rw [groupRow_get (length_keyValues row), groupRow_get (length_keyValues row)]
    by_cases hgroup : col ∈ groupBy
    · obtain ⟨v, hv⟩ := lookup_zip_isSome (length_keyValues (r := r) row) hgroup
      rw [hv, Option.some_or, Option.some_or]
    · congr 1
      rcases hfind : aggs.find? (·.aliasName = col) with _ | agg <;> rw [hfind]
      · rfl
      · obtain rfl : agg.aliasName = col := by simpa using find?_some hfind
        exact congrArg some (hvalues agg (mem_of_find?_eq_some hfind) ⟨hgroup, hfind⟩ _)

theorem aggregated_single {row : Row} (h : r.rows = [row]) : (aggregated r groupBy aggs).rows =
    [⟨groupColumns groupBy aggs, keyValues groupBy (r.groupKey groupBy row) ++
      aggs.map fun agg => computeAggregate agg.func [r.cell agg.column row]⟩] := by
  simp [aggregated, groupKeys, groupValue, h]

/-! ### Aggregates over accounts -/

theorem cell_account (s : LedgerStore) (a : Account) :
    (execScanAccounts g f).cell col (accountRow s a) = (accountRow s a).get col := rfl

theorem groupKey_account (hgroup : "balance" ∉ groupBy) (s s' : LedgerStore) (a : Account) :
    (execScanAccounts g f).groupKey groupBy (accountRow s a) = (execScanAccounts g' f).groupKey groupBy (accountRow s' a) := by
  unfold QueryResult.groupKey
  split
  · rfl
  · refine map_congr_left fun col hcol => ?_
    rw [cell_account, cell_account, accountRow_get (fun h => hgroup (h ▸ hcol)) s s']

section Agree

variable (agree : g.AgreeOn d g') (confined : ¬ Leaves env d f .accounts) (hgroup : "balance" ∉ groupBy)

include agree confined hgroup

theorem groupKeys_accounts : groupKeys (execScanAccounts g f) groupBy = groupKeys (execScanAccounts g' f) groupBy := by
  refine groupKeys_congr ?_
  have hperm := (accepted_accounts_perm agree fun a => domain_of_accepted confined).map
    fun a => (execScanAccounts g f).groupKey groupBy (accountRow g.store a)
  simp only [execScanAccounts, map_map]
  refine hperm.trans (List.Perm.of_eq (map_congr_left fun a _ => ?_))
  exact groupKey_account hgroup _ _ a

theorem groupValue_accounts (hcount : agg.column = "balance" → agg.func = .count) (key : List String) :
    groupValue (execScanAccounts g f) groupBy key agg = groupValue (execScanAccounts g' f) groupBy key agg := by
  -- the accounts of a group
  have hrows (g : Ledger) : (execScanAccounts g f).rows.filter (fun row => (execScanAccounts g f).groupKey groupBy row = key) =
      ((g.allAccounts.filter (acceptsAccount f)).filter
        fun a => (execScanAccounts g f).groupKey groupBy (accountRow g.store a) = key).map (accountRow g.store) :=
    filter_map
  have hperm := (accepted_accounts_perm agree fun a => domain_of_accepted confined).filter
    fun a => (execScanAccounts g f).groupKey groupBy (accountRow g.store a) = key
  have hkey (a : Account) : (execScanAccounts g f).groupKey groupBy (accountRow g.store a) =
      (execScanAccounts g' f).groupKey groupBy (accountRow g'.store a) := groupKey_account hgroup _ _ a
  simp only [groupValue, hrows, hkey] at hperm ⊢
  by_cases hcol : agg.column = "balance"
  · rw [hcount hcol]
    simp only [computeAggregate, length_map, hperm.length_eq]
  · refine computeAggregate_perm ?_ agg.func
    rw [map_map, map_map]
    refine (hperm.map _).trans (List.Perm.of_eq (map_congr_left fun a _ => ?_))
    exact accountRow_get hcol g.store g'.store a

end Agree

theorem display_ne (h : agg.func ≠ .count) :
    (computeAggregate agg.func [some (.bigInt 0)]).display ≠ (computeAggregate agg.func [some (.bigInt 1)]).display := by
  cases hfunc : agg.func with
  | count => exact absurd hfunc h
  | sum | min | max | avg => decide

theorem not_isolated_of_key (accepted : acceptsAccount f a) (hgroup : "balance" ∈ groupBy) :
    ¬ Isolated cfg env listener max d (.aggregate (.scan .accounts f []) groupBy aggs) := by
  intro isolated
  obtain ⟨g, g', agree, haccounts, haccounts', hzero, hone⟩ := exists_balance d a
  have hsame := isolated g g' agree
  rw [execute_aggregate, execute_aggregate] at hsame
  have hcol : "balance" ∈ groupColumns groupBy aggs := mem_append_left _ hgroup
  have hnonempty : groupBy.isEmpty = false := isEmpty_eq_false_iff.2 (ne_nil_of_mem hgroup)
  have hget (g : Ledger) (value : AggExpr → Value) : (Row.mk (groupColumns groupBy aggs)
      (keyValues groupBy ((execScanAccounts g f).groupKey groupBy (accountRow g.store a)) ++ aggs.map value)).get "balance" =
      some (.text (Value.bigInt (g.store.balance a.id)).display) := by
    rw [groupRow_get (length_keyValues _), keyValues, QueryResult.groupKey, hnonempty, if_neg (by decide), if_neg (by decide),
      map_map, ← get_eq_lookup, get_map hgroup]
    rfl
  refine not_same_of_cell (aggregated_single (execScanAccounts_rows haccounts accepted))
    (aggregated_single (execScanAccounts_rows haccounts' accepted)) rfl hcol ?_ hsame
  rw [hget, hget, hzero, hone]
  decide

theorem not_isolated_of_aggregate (accepted : acceptsAccount f a) (hagg : agg ∈ aggs)
    (shown : Shown listener groupBy aggs agg) (hcolumn : agg.column = "balance") (hfunc : agg.func ≠ .count) :
    ¬ Isolated cfg env listener max d (.aggregate (.scan .accounts f []) groupBy aggs) := by
  intro isolated
  obtain ⟨g, g', agree, haccounts, haccounts', hzero, hone⟩ := exists_balance d a
  have hsame := isolated g g' agree
  rw [execute_aggregate, execute_aggregate] at hsame
  have hrow : (aggregated _ groupBy aggs).rows = _ := aggregated_single (execScanAccounts_rows haccounts accepted)
  have hrow' : (aggregated _ groupBy aggs).rows = _ := aggregated_single (execScanAccounts_rows haccounts' accepted)
  have hvalue (g : Ledger) : computeAggregate agg.func [(execScanAccounts g f).cell agg.column (accountRow g.store a)] =
      computeAggregate agg.func [some (.bigInt (g.store.balance a.id))] := by
    rw [hcolumn, cell_account, accountRow_get_balance]
  have hne := display_ne hfunc
  cases listener with
  | native =>
    simp only [reply, nativeAnswer, Answer.SameRows, execScan, hrow, hrow', capRows_singleton,
      singleton_perm_singleton, Row.mk.injEq, true_and] at hsame
    have hvalues := append_inj_right hsame ((length_keyValues _).trans (length_keyValues _).symm)
    have heq := map_inj_left.1 hvalues agg hagg
    rw [hvalue, hvalue, hzero, hone] at heq
    exact hne (congrArg Value.display heq)
  | pgwire =>
    obtain ⟨hgroup, hfind⟩ := shown
    have hcol : agg.aliasName ∈ groupColumns groupBy aggs := mem_append_right _ (mem_map_of_mem hagg)
    refine not_same_of_cell hrow hrow' rfl hcol ?_ hsame
    have hlookup (values : List Value) : (groupBy.zip values).lookup agg.aliasName = none := by
      refine lookup_eq_none_iff.2 fun x hx => ?_
      exact bne_iff_ne.2 fun h => hgroup (h ▸ (of_mem_zip hx).1)
    have hget (g : Ledger) {values : List Value} (hlen : values.length = groupBy.length) :
        (Row.mk (groupColumns groupBy aggs) (values ++ aggs.map fun agg =>
          computeAggregate agg.func [(execScanAccounts g f).cell agg.column (accountRow g.store a)])).get agg.aliasName =
          some (computeAggregate agg.func [some (.bigInt (g.store.balance a.id))]) := by
      rw [groupRow_get hlen, hlookup, hfind, Option.none_or, Option.map_some, hvalue]
    rw [hget g (length_keyValues _), hget g' (length_keyValues _), hzero, hone]
    exact fun h => hne (Option.some.inj h)

/-- An aggregate gives the same rows if and only if its scan cannot leave the domain and, on accounts, the balance is no
    key and of the balances nothing but their number is shown. -/
theorem isolated_aggregate_iff : Isolated cfg env listener max d (.aggregate (.scan table f []) groupBy aggs) ↔
    ¬ Leaves env d f table ∧ (table = .accounts → Returns env f table → "balance" ∉ groupBy ∧
      ∀ agg ∈ aggs, Shown listener groupBy aggs agg → agg.column = "balance" → agg.func = .count) := by
  constructor
  · intro isolated
    refine ⟨fun leaves => not_isolated_of_leaves (aggregated · groupBy aggs) execute_aggregate
      (fun _ => aggregated_rows_eq_nil) leaves isolated, ?_⟩
    rintro rfl ⟨a, accepted, -⟩
    refine ⟨fun hgroup => not_isolated_of_key accepted hgroup isolated, fun agg hagg shown hcolumn => ?_⟩
    by_contra hfunc
    exact not_isolated_of_aggregate accepted hagg shown hcolumn hfunc isolated
  · rintro ⟨confined, hreturns⟩
    by_cases haccounts : table = .accounts ∧ Returns env f table
    · obtain ⟨rfl, returns⟩ := haccounts
      obtain ⟨hgroup, hcount⟩ := hreturns rfl returns
      intro g g' agree
      rw [execute_aggregate, execute_aggregate]
      refine same_of_groups (groupKeys_accounts agree confined hgroup) fun agg hagg shown key => ?_
      exact groupValue_accounts agree confined hgroup (hcount agg hagg shown) key
    · refine isolated_of_rows (aggregated · groupBy aggs) execute_aggregate (fun r r' hcols hrows => ?_)
        (fun _ _ => aggregated_message) fun g g' agree => ?_
      · rcases r with ⟨columns, rows, message⟩
        rcases r' with ⟨columns', rows', message'⟩
        obtain rfl : columns = columns' := hcols
        obtain rfl : rows = rows' := hrows
        exact ⟨rfl, rfl⟩
      · by_cases htable : table = .accounts
        · have hnone : ¬ Returns env f table := fun returns => haccounts ⟨htable, returns⟩
          rw [execScan_rows_nil hnone, execScan_rows_nil hnone]
        · exact execScan_rows_eq agree confined htable

end Sql.Read

end VectorLedger
