import VectorLedger.Lib.Except
import VectorLedger.Server.Queries

/-! The plans that the planner of SELECT gives. A join, an aggregate or a window is over scans of whole rows, and the right
    side of a join has no filter. -/

namespace VectorLedger.Sql

open Except

/-- The plans that the planner makes. -/
inductive Planned : ReadPlan → Prop where
  | scan (table : ScanTable) (filter : Option EntryFilter) (projections : List String) :
      Planned (.scan table filter projections)
  | getBalance (accountRef : String) : Planned (.getBalance accountRef)
  | verifyChain (fromSeq toSeq : Option Nat) : Planned (.verifyChain fromSeq toSeq)
  | verifyEntry (sequence : Nat) : Planned (.verifyEntry sequence)
  | merkleRoot (fromSeq toSeq : Nat) : Planned (.merkleRoot fromSeq toSeq)
  | constant (col val : String) : Planned (.constant col val)
  | join (table right : ScanTable) (filter : Option EntryFilter) (joinType : JoinType) :
      Planned (.join (.scan table filter []) (.scan right none []) joinType)
  | aggregate (table : ScanTable) (filter : Option EntryFilter) (groupBy : List String) (aggregates : List AggExpr) :
      Planned (.aggregate (.scan table filter []) groupBy aggregates)
  | window (table : ScanTable) (filter : Option EntryFilter) (windowFn : WindowFn) (column aliasName : String)
      (partitionBy : List String) : Planned (.window (.scan table filter []) windowFn column aliasName partitionBy)

variable {env : ReadEnv} {p : ReadPlan} {table : String} {selection : Option Condition} {limit : Option Operand}

theorem scanOf_ok {filter : Option EntryFilter} {projections : List String} (h : scanOf table filter projections = .ok p) :
    ∃ t, p = .scan t filter projections := by
  unfold scanOf at h
  split at h <;> cases h
  · exact ⟨.ledger, rfl⟩
  · exact ⟨.ledgerLines, rfl⟩
  · exact ⟨.accounts, rfl⟩

theorem baseScan_ok (h : baseScan env table selection limit = .ok p) : ∃ t filter, p = .scan t filter [] := by
  unfold baseScan at h
  split at h
  · obtain ⟨filter, -, hscan⟩ := bind_eq_ok.1 h
    obtain ⟨t, rfl⟩ := scanOf_ok hscan
    exact ⟨t, some filter, rfl⟩
  · obtain ⟨n, -, hscan⟩ := bind_eq_ok.1 h
    obtain ⟨t, rfl⟩ := scanOf_ok hscan
    exact ⟨t, some (.limit n), rfl⟩
  · obtain ⟨t, rfl⟩ := scanOf_ok h
    exact ⟨t, none, rfl⟩

variable {items : List SelectItem}

theorem planScan_planned (h : planScan env table items selection limit = .ok p) : Planned p := by
  unfold planScan at h
  split at h
  · obtain ⟨filter, -, hscan⟩ := bind_eq_ok.1 h
    obtain ⟨t, rfl⟩ := scanOf_ok hscan
    exact .scan _ _ _
  · obtain ⟨n, -, hscan⟩ := bind_eq_ok.1 h
    obtain ⟨t, rfl⟩ := scanOf_ok hscan
    exact .scan _ _ _
  · obtain ⟨t, rfl⟩ := scanOf_ok h
    exact .scan _ _ _

theorem planConstant_planned (h : planConstant items = .ok p) : Planned p := by
  unfold planConstant at h
  split at h
  · split at h <;> cases h
    exact .constant _ _
  · split at h <;> cases h
    exact .constant _ _
  · cases h

theorem planFunction_planned {f : Function} (h : planFunction env f = some (.ok p)) : Planned p := by
  unfold planFunction at h
  split at h
  · obtain ⟨ref, -, rfl⟩ := map_eq_ok.1 (Option.some.inj h)
    exact .getBalance ref
  · obtain ⟨r, -, rfl⟩ := map_eq_ok.1 (Option.some.inj h)
    exact .verifyChain r.1 r.2
  · obtain ⟨⟨_ | n, m⟩, -, hr⟩ := bind_eq_ok.1 (Option.some.inj h) <;> cases hr
    exact .verifyEntry n
  · obtain ⟨⟨_ | n, m⟩, -, hr⟩ := bind_eq_ok.1 (Option.some.inj h) <;> cases hr
    exact .merkleRoot n _
  all_goals cases h
  all_goals exact .constant _ _

theorem planTableless_planned (h : planTableless env items = .ok p) : Planned p := by
  unfold planTableless at h
  split at h
  · next f _ =>
    rcases hf : planFunction env f with _ | r
    · rw [hf] at h
      exact planConstant_planned h
    · rw [hf] at h
      obtain rfl : r = .ok p := h
      exact planFunction_planned hf
  · exact planConstant_planned h

theorem planTable_planned {body : Select} {from₀ : TableWithJoins} (h : planTable env body from₀ limit = .ok p) :
    Planned p := by
  obtain ⟨table, -, h⟩ := bind_eq_ok.1 h
  split at h
  · obtain ⟨⟨windowFn, column⟩, -, h⟩ := bind_eq_ok.1 h
    obtain ⟨scan, hscan, h⟩ := bind_eq_ok.1 h
    obtain ⟨t, filter, rfl⟩ := baseScan_ok hscan
    cases h
    exact .window _ _ _ _ _ _
  · obtain ⟨scan, hscan, h⟩ := bind_eq_ok.1 h
    obtain ⟨t, filter, rfl⟩ := baseScan_ok hscan
    cases h
    exact .aggregate _ _ _ _
  · obtain ⟨rightTable, -, h⟩ := bind_eq_ok.1 h
    obtain ⟨left, hleft, h⟩ := bind_eq_ok.1 h
    obtain ⟨right, hright, h⟩ := bind_eq_ok.1 h
    obtain ⟨t, filter, rfl⟩ := baseScan_ok hleft
    obtain ⟨t', rfl⟩ := scanOf_ok hright
    cases h
    exact .join _ _ _ _
  · exact planScan_planned h

theorem planQuery_planned {q : Query} (h : planQuery env q = .ok p) : Planned p := by
  unfold planQuery at h
  split at h
  · cases h
  · split at h
    · exact planTableless_planned h
    · exact planTable_planned h

/-! ### The optimizer -/

theorem predicatePushdown_eq (p : ReadPlan) : predicatePushdown p = p := by
  induction p with
  | join left right joinType ihl ihr => rw [predicatePushdown, ihl, ihr]
  | aggregate input groupBy aggregates ih | window input windowFn column aliasName partitionBy ih =>
    rw [predicatePushdown, ih]
  | _ => rfl

theorem constantFold_eq (p : ReadPlan) : constantFold p = p := by
  induction p with
  | scan =>
    unfold constantFold
    split <;> simp_all
  | join left right joinType ihl ihr => rw [constantFold, ihl, ihr]
  | aggregate input groupBy aggregates ih | window input windowFn column aliasName partitionBy ih =>
    rw [constantFold, ih]
  | _ => rfl

theorem plan_planned {q : Query} (h : plan env q = .ok p) : Planned p := by
  obtain ⟨raw, hraw, rfl⟩ := map_eq_ok.1 h
  rw [optimize, predicatePushdown_eq, constantFold_eq]
  exact planQuery_planned hraw

theorem Planned.filtered (h : Planned p) (domain : Option String) : Planned (Read.applyDomainFilter p domain) := by
  unfold Read.applyDomainFilter
  split
  · split
    · exact h
    · split <;> exact .scan _ _ _
  · exact h

end VectorLedger.Sql
