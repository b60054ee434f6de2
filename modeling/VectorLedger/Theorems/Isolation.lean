import VectorLedger.Theorems.Aggregates
import VectorLedger.Theorems.Joins
import VectorLedger.Theorems.Planning

/-! Domains of users: for which SELECT statements a user with a domain gets the same rows from any two ledgers that agree on
    the domain. -/

namespace VectorLedger

open List

namespace Sql.Read

variable {cfg : Config} {env : ReadEnv} {g g' : Ledger} {listener : Listener} {max : UInt64} {role : Role} {d sql : String}
  {q : Query} {p : ReadPlan}

/-! ### Functions of the ledger -/

/-- There is a sequence number between the bounds, as SQLite has them. -/
def RangeOpen (fromSeq toSeq : Nat) : Prop :=
  ∃ n : Nat, 0 < n ∧ EntryDb.asI64 fromSeq ≤ n ∧ (n : Int) ≤ EntryDb.asI64 toSeq

theorem scanRange_eq_nil {fromSeq toSeq : Nat} (h : ¬ RangeOpen fromSeq toSeq) (db : EntryDb) :
    db.scanRange fromSeq toSeq = [] := by
  refine filter_eq_nil_iff.2 fun e he hrange => h ?_
  exact ⟨e.sequence, db.positive e he, of_decide_eq_true hrange⟩

def strayed (d : String) (n : Nat) (positive : 0 < n) : Ledger :=
  .of (.one (.bare 1 n (d ++ "x")) positive) [] List.nodup_nil ∅

theorem agreeOn_strayed (d : String) (n : Nat) (positive : 0 < n) : Ledger.empty.AgreeOn d (strayed d n positive) := by
  refine Ledger.agreeOn_of ?_ (by simp)
  refine (filter_eq_nil_iff.2 fun e he => ?_).symm
  rw [mem_singleton.1 he]
  exact fun h => Ledger.other_ne d (of_decide_eq_true h)

theorem scanRange_strayed {fromSeq toSeq n : Nat} {positive : 0 < n}
    (h : EntryDb.asI64 fromSeq ≤ n ∧ (n : Int) ≤ EntryDb.asI64 toSeq) :
    (strayed d n positive).store.entryDb.scanRange fromSeq toSeq = [.bare 1 n (d ++ "x")] :=
  filter_eq_self.2 fun e he => by
    rw [mem_singleton.1 he]
    exact decide_eq_true h

theorem isolated_of_execute (h : ∀ g g' : Ledger, g.AgreeOn d g' → execute cfg env g p = execute cfg env g' p) :
    Isolated cfg env listener max d p := by
  intro g g' agree
  rw [h g g' agree]
  exact Answer.SameRows.refl _

theorem not_isolated_getBalance (ref : String) : ¬ Isolated cfg env listener max d (.getBalance ref) := by
  intro isolated
  let a : Account := Account.new id ((env.parseUuid ref).getD 0) 0 ref "a" .asset "a" (d ++ "x")
  let g : Ledger := .of .empty [a] (nodup_singleton _) ∅
  have agree : Ledger.empty.AgreeOn d g := by
    refine Ledger.agreeOn_of rfl fun b hb => ?_
    simp only [not_mem_nil, mem_singleton, false_iff]
    rintro rfl
    exact Ledger.other_ne d hb
  have hfound : ∃ id, resolveAccount { env.toEnv with accountOrder := fun _ => g.order } g.store ref = .ok id := by
    have hlookup : g.store.accounts.lookup a.id = some a := Ledger.lookup_of.2 ⟨mem_cons_self, rfl⟩
    have hcode : (g.order.filterMap g.store.accounts.lookup).find? (fun b => b.code = ref) = some a := by
      rw [show g.order.filterMap g.store.accounts.lookup = [a] from Ledger.allAccounts_of]
      exact find?_cons_of_pos (decide_eq_true rfl)
    unfold resolveAccount
    split
    · exact ⟨_, rfl⟩
    · simp only [hcode]
      exact ⟨_, rfl⟩
  have hmissing : resolveAccount { env.toEnv with accountOrder := fun _ => Ledger.empty.order } Ledger.empty.store ref =
      .error (.execution ("account '" ++ ref ++ "' not found")) := by
    simp [resolveAccount, Ledger.empty, Ledger.of]
  obtain ⟨id, hid⟩ := hfound
  have hsame := isolated _ _ agree
  simp only [execute, execGetBalance, hid, hmissing, Except.mapError, bind, Except.bind, pure, Except.pure] at hsame
  cases listener with
  | native => exact hsame
  | pgwire =>
    rw [reply, reply, pgwireAnswer_rows (cons_ne_nil _ _)] at hsame
    exact hsame

theorem not_same_of_count {r : QueryResult} {tip : Hash} {message : String}
    (h : r.rows = [] ∨ ∃ tip, r.rows = [chainRow 1 tip] ∧ r.columns = chainColumns) :
    ¬ (reply listener max (.ok ⟨chainColumns, [chainRow 0 tip], message⟩)).SameRows (reply listener max (.ok r)) := by
  rcases h with hempty | ⟨tip', hrow, hcols⟩
  · exact fun hsame => not_same_of_empty hempty (cons_ne_nil _ _) hsame.symm
  · refine not_same_of_cell rfl hrow hcols (by decide : "entries_verified" ∈ chainColumns) ?_
    exact (by decide : some (Value.bigInt 0).display ≠ some (Value.bigInt 1).display)

theorem integrityFailure_rows (e : LedgerError) : (integrityFailure e).rows = [] := by
  cases e <;> rfl

theorem not_isolated_verifyChain : ¬ Isolated cfg env listener max d (.verifyChain none none) := by
  intro isolated
  refine not_same_of_count ?_ (isolated _ _ (agreeOn_strayed d 1 Nat.one_pos))
  simp only [execVerifyChain, Option.isNone_none, Bool.and_self, if_true]
  split
  · exact .inr ⟨_, rfl, rfl⟩
  · exact .inl (integrityFailure_rows _)

/-- A verification of a range, from the first entry and up to the largest number unless it says otherwise. -/
theorem isolated_verifyChain_iff {fromSeq toSeq : Option Nat} (h : (fromSeq.isNone && toSeq.isNone) = false) :
    Isolated cfg env listener max d (.verifyChain fromSeq toSeq) ↔
      ¬ RangeOpen (fromSeq.getD 1) (toSeq.getD (2 ^ 64 - 1)) := by
  constructor
  · rintro isolated ⟨n, positive, hrange⟩
    have hsame := isolated _ _ (agreeOn_strayed d n positive)
    have hempty : Ledger.empty.store.verifyChainRange cfg fromSeq toSeq = .ok (0, zeroHash) := rfl
    simp only [execute, execVerifyChain, h, Bool.false_eq_true, if_false, hempty] at hsame
    refine not_same_of_count ?_ hsame
    rw [LedgerStore.verifyChainRange, scanRange_strayed hrange]
    dsimp only
    cases LedgerStore.verifyChain cfg.blake3 (JournalEntry.bare 1 n (d ++ "x")).prevHash [.bare 1 n (d ++ "x")] with
    | ok _ => exact .inr ⟨_, rfl, rfl⟩
    | error e => exact .inl (integrityFailure_rows e)
  · intro hclosed
    refine isolated_of_execute fun g g' _ => ?_
    simp only [execute, execVerifyChain, h, Bool.false_eq_true, if_false, LedgerStore.verifyChainRange,
      scanRange_eq_nil hclosed]

theorem isolated_verifyEntry_iff {n : Nat} : Isolated cfg env listener max d (.verifyEntry n) ↔ n = 0 := by
  constructor
  · intro isolated
    by_contra hn
    have positive : 0 < n := Nat.pos_of_ne_zero hn
    have hfound : (strayed d n positive).store.entryDb.getBySequence n = some (.bare 1 n (d ++ "x")) :=
      find?_cons_of_pos (decide_eq_true rfl)
    refine not_same_of_empty ?_ ?_ (isolated _ _ (agreeOn_strayed d n positive))
    · rfl
    · rw [execVerifyEntry, hfound]
      exact cons_ne_nil _ _
  · rintro rfl
    refine isolated_of_execute fun g g' _ => ?_
    have hnone (g : Ledger) : g.store.entryDb.getBySequence 0 = none :=
      find?_eq_none.2 fun e he => by simpa using Nat.ne_of_gt (g.store.entryDb.positive e he)
    simp only [execute, execVerifyEntry, hnone]

theorem isolated_merkleRoot_iff {fromSeq toSeq : Nat} :
    Isolated cfg env listener max d (.merkleRoot fromSeq toSeq) ↔ ¬ RangeOpen fromSeq toSeq := by
  constructor
  · rintro isolated ⟨n, positive, hrange⟩
    have hsame := isolated _ _ (agreeOn_strayed d n positive)
    simp only [execute, execMerkleRoot, scanRange_strayed hrange] at hsame
    refine not_same_of_cell (by rfl) (by rfl) (by rfl) (by simp : "entry_count" ∈ _) ?_ hsame
    exact (by decide : some (Value.bigInt 0).display ≠ some (Value.bigInt 1).display)
  · intro hclosed
    refine isolated_of_execute fun g g' _ => ?_
    simp only [execute, execMerkleRoot, scanRange_eq_nil hclosed]

/-! ### Statements -/

/-- What a plan needs to give the same rows from ledgers that agree on the domain:
    - a scan must not be able to return a row of another domain, nor may the scan under an aggregate, a window or an outer
      join, and the accounts must not show a balance, nor be cut off in an order that is not theirs;
    - a function must not read an entry or an account. -/
def Confined (env : ReadEnv) (listener : Listener) (max : UInt64) (d : String) : ReadPlan → Prop
  | .scan table f keep => ¬ Leaves env d f table ∧ (table = .accounts → Returns env f table →
      "balance" ∉ visible accountColumns keep ∧ (Uncapped listener max ∨ ∀ col ∈ visible accountColumns keep, col = "domain"))
  | .getBalance _ => False
  | .verifyChain fromSeq toSeq => (fromSeq.isNone && toSeq.isNone) = false ∧
      ¬ RangeOpen (fromSeq.getD 1) (toSeq.getD (2 ^ 64 - 1))
  | .verifyEntry n => n = 0
  | .merkleRoot fromSeq toSeq => ¬ RangeOpen fromSeq toSeq
  | .constant _ _ => True
  | .join (.scan table f _) (.scan table' _ _) joinType => JoinConfined env d f table table' joinType
  | .aggregate (.scan table f _) groupBy aggs => ¬ Leaves env d f table ∧ (table = .accounts → Returns env f table →
      "balance" ∉ groupBy ∧ ∀ agg ∈ aggs, Shown listener groupBy aggs agg → agg.column = "balance" → agg.func = .count)
  | .window (.scan table f _) _ _ _ _ => ¬ Leaves env d f table ∧ (table = .accounts → ¬ Returns env f table)
  | .join _ _ _ | .aggregate _ _ _ | .window _ _ _ _ _ => False

theorem isolated_iff (lawful : ReadEnv.LawfulDates env) (planned : Planned p) :
    Isolated cfg env listener max d p ↔ Confined env listener max d p := by
  cases planned with
  | scan table =>
    by_cases htable : table = .accounts
    · subst htable
      simpa only [Confined, true_imp_iff] using isolated_accounts_iff
    · simpa only [Confined, htable, false_imp_iff, and_true] using isolated_scan_iff htable
  | getBalance ref => exact iff_of_false (not_isolated_getBalance ref) id
  | verifyChain fromSeq toSeq =>
    cases h : fromSeq.isNone && toSeq.isNone with
    | true =>
      simp only [Bool.and_eq_true, Option.isNone_iff_eq_none] at h
      obtain ⟨rfl, rfl⟩ := h
      exact iff_of_false not_isolated_verifyChain fun hconfined => absurd hconfined.1 (by decide)
    | false =>
      simp only [Confined, h, true_and]
      exact isolated_verifyChain_iff h
  | verifyEntry => exact isolated_verifyEntry_iff
  | merkleRoot => exact isolated_merkleRoot_iff
  | constant => exact iff_of_true (isolated_of_execute fun _ _ _ => rfl) trivial
  | join => exact isolated_join_iff lawful
  | aggregate => exact isolated_aggregate_iff
  | window => exact isolated_window_iff

/-- The statement is answered from its text. -/
def Stubbed (env : ReadEnv) (role : Role) (sql : String) : Listener → Prop
  | .native => False
  | .pgwire _ => compatibilityStub env role (env.trim sql) ≠ none

theorem answer_eq (parsed : env.parseOne (statementText env sql listener) = .ok q) (planned : plan env q = .ok p)
    (hstub : ¬ Stubbed env role sql listener) (g : Ledger) :
    answer cfg env listener max role d sql g =
      match checkPlanPrivilege role p with
      | .error e => .error (.denied e)
      | .ok () => reply listener max (execute cfg env g (effectivePlan listener d p)) := by
  cases listener with
  | native =>
    simp only [statementText] at parsed
    simp only [answer, executeSql, parsed, planned]
    rfl
  | pgwire =>
    simp only [statementText] at parsed
    have hnone : compatibilityStub env role (env.trim sql) = none := not_not.1 hstub
    simp only [answer, executeQuery, hnone, parsed, planned]
    rfl

theorem answer_stub {username : String} (hstub : Stubbed env role sql (.pgwire username)) :
    ∃ rows, ∀ g, answer cfg env (.pgwire username) max role d sql g = .dataRows rows := by
  obtain ⟨rows, hrows⟩ := Option.ne_none_iff_exists'.1 hstub
  exact ⟨rows, fun g => by simp only [answer, executeQuery, hrows]⟩

/-- A statement that the planner accepts gives a user with a domain the same rows from all ledgers that agree on it if and
    only if the listener answers it from its text, the user's role may not run it, or its plan, with the filter that the
    native listener adds, is confined to the domain. -/
theorem domain_isolated_iff (cfg : Config) (env : ReadEnv) (lawful : ReadEnv.LawfulDates env) (listener : Listener)
    (max : UInt64) (role : Role) (d sql : String) (q : Query) (p : ReadPlan)
    (parsed : env.parseOne (statementText env sql listener) = .ok q) (planned : plan env q = .ok p) :
    (∀ g g' : Ledger, g.AgreeOn d g' →
      (answer cfg env listener max role d sql g).SameRows (answer cfg env listener max role d sql g')) ↔
      Stubbed env role sql listener ∨ checkPlanPrivilege role p ≠ .ok () ∨
        Confined env listener max d (effectivePlan listener d p) := by
  by_cases hstub : Stubbed env role sql listener
  · refine iff_of_true (fun g g' _ => ?_) (.inl hstub)
    cases listener with
    | native => exact hstub.elim
    | pgwire username =>
      obtain ⟨rows, hrows⟩ : ∃ rows, ∀ g, answer cfg env (.pgwire username) max role d sql g = .dataRows rows :=
        answer_stub hstub
      rw [hrows, hrows]
      exact Answer.SameRows.refl _
  · simp only [answer_eq parsed planned hstub]
    cases hrole : checkPlanPrivilege role p with
    | error => exact iff_of_true (fun _ _ _ => trivial) (.inr (.inl (by simp)))
    | ok =>
      have hplanned : Planned (effectivePlan listener d p) := by
        cases listener with
        | native => exact (plan_planned planned).filtered (some d)
        | pgwire => exact plan_planned planned
      simp only [hstub, ne_eq, not_true_eq_false, false_or]
      exact isolated_iff lawful hplanned

namespace Sample

def ledgerQuery (projection : List SelectItem) (selection : Option Condition) : Query where
  body := .select ⟨projection, [⟨.table "ledger", []⟩], selection, .expressions []⟩
  limit := none

def readEnv : ReadEnv where
  toLowercase := id
  parseUuid _ := none
  accountOrder _ := []
  toUppercase := id
  upperChar c := String.singleton c
  display _ := ""
  trim := id
  showDate _ := "1970-01-01"
  toRfc3339 _ := "1970-01-01T00:00:00+00:00"
  ftsMatch _ _ := false
  parseOne
    | "SELECT * FROM ledger" => .ok (ledgerQuery [.wildcard] none)
    | "SELECT * FROM ledger WHERE sequence = 1" => .ok (ledgerQuery [.wildcard] (some (.eq (.identifier "sequence") (.number "1"))))
    | "SELECT COUNT(*) FROM ledger" =>
      .ok (ledgerQuery [.unnamedExpr (.function ⟨"COUNT", .list [.wildcard], none, "COUNT(*)"⟩)] none)
    | _ => .error "syntax error"

theorem lawfulDates : ReadEnv.LawfulDates readEnv where
  ne_number _ n h := by
    have hmem : '-' ∈ (toString n).toList := by
      rw [← h]
      exact (by decide : '-' ∈ "1970-01-01".toList)
    exact absurd (isDigit_of_mem_toString hmem) (by decide)
  ne_id _ u h := by
    have hlength := congrArg length (Uuid.toList_toText u _ rfl)
    rw [← h] at hlength
    simp [length_hexEncode, Uuid.length_asBytes, readEnv] at hlength

end Sample

open Read.Sample
open VectorLedger.Sample (config io transfer twoAccounts)

/-- On the native listener the filter is added to a scan without a condition. -/
theorem domain_isolated_scan : plan readEnv (ledgerQuery [.wildcard] none) = .ok (.scan .ledger none []) ∧
    ∀ g g' : Ledger, g.AgreeOn "retail" g' →
    (answer config readEnv .native 10000 .operator "retail" "SELECT * FROM ledger" g).SameRows
      (answer config readEnv .native 10000 .operator "retail" "SELECT * FROM ledger" g') := by
  have planned : plan readEnv (ledgerQuery [.wildcard] none) = .ok (.scan .ledger none []) := by decide +kernel
  refine ⟨planned, (domain_isolated_iff _ _ lawfulDates .native 10000 .operator "retail" "SELECT * FROM ledger" _
    (.scan .ledger none []) rfl planned).2 (.inr (.inr ⟨?_, ?_⟩))⟩
  · rintro ⟨e, -, accepted, hd⟩
    exact hd (of_decide_eq_true accepted)
  · exact fun h => absurd h (by decide)

instance (a b : Answer) : Decidable (a.SameRows b) := by
  cases a <;> cases b <;> unfold Answer.SameRows <;> infer_instance

def Sample.ledgerOf (s : LedgerStore) (h : s.accounts.keys = {1, 2}) : Ledger where
  store := s
  order := [1, 2]
  nodup := by decide
  mem_order id := by
    rw [← Finmap.mem_keys, h]
    simp

/-- The ledger with no entry and the one with an entry of another domain agree on the domain "retail". A user with this domain
    tells them apart on the native listener with an explicit condition and with an aggregate, and on the pgwire listener
    with any scan. -/
theorem other_domain_read : ∃ g g' : Ledger, Run.exec (Machine.step config) (.down (.fresh none)) twoAccounts =
      some (.up g.store) ∧
    Run.exec (Machine.step config) (.down (.fresh none)) (twoAccounts ++
      [.call io (.postEntry (transfer 10 none 5 2 1))]) = some (.up g'.store) ∧
    g.AgreeOn "retail" g' ∧
    ∀ x ∈ [(Listener.native, "SELECT * FROM ledger WHERE sequence = 1"), (.native, "SELECT COUNT(*) FROM ledger"),
      (.pgwire "teller", "SELECT * FROM ledger")],
      ¬ (answer config readEnv x.1 10000 .operator "retail" x.2 g).SameRows
        (answer config readEnv x.1 10000 .operator "retail" x.2 g') := by
  refine ⟨ledgerOf _ (by decide +kernel), ledgerOf _ (by decide +kernel), rfl, rfl, ⟨by decide +kernel, fun id a _ => ?_⟩,
    by decide +kernel⟩
  exact iff_of_eq rfl

end Sql.Read

end VectorLedger
