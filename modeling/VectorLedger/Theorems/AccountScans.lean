import VectorLedger.Theorems.Scans

/-! Scans of accounts. The balance of an account counts the entries of every domain, and the accounts come in the order
    of the map. -/

namespace VectorLedger

open List

namespace Sql.Read

variable {cfg : Config} {env : ReadEnv} {g g' : Ledger} {s s' : LedgerStore} {f : Option EntryFilter} {d col : String}
  {a : Account} {keep : List String} {listener : Listener} {max : UInt64} {columns : List String} {row : Row}

/-! ### Values by column -/

theorem get_eq_lookup (columns : List String) (values : List Value) (col : String) :
    (Row.mk columns values).get col = (columns.zip values).lookup col := by
  unfold Row.get
  induction columns generalizing values with
  | nil => rfl
  | cons c columns ih =>
    rw [idxOf?_cons]
    cases values with
    | nil =>
      split
      · rfl
      · cases columns.idxOf? col <;> rfl
    | cons =>
      rw [zip_cons_cons, lookup_cons]
      by_cases hc : c = col
      · subst hc
        simp
      · simp only [beq_iff_eq, hc, if_false, show (col == c) = false from beq_false_of_ne (Ne.symm hc)]
        rw [← ih]
        cases columns.idxOf? col <;> rfl

theorem get_map {h : String → Value} (hcol : col ∈ columns) :
    (Row.mk columns (columns.map h)).get col = some (h col) := by
  rw [get_eq_lookup]
  induction columns with
  | nil => cases hcol
  | cons c columns ih =>
    rw [map_cons, zip_cons_cons, lookup_cons]
    by_cases hc : col = c
    · simp [hc]
    · rw [beq_false_of_ne hc]
      exact ih ((mem_cons.1 hcol).resolve_left hc)

theorem accountRow_get_balance (s : LedgerStore) (a : Account) :
    (accountRow s a).get "balance" = some (.bigInt (s.balance a.id)) := rfl

theorem accountRow_get_domain (s : LedgerStore) (a : Account) : (accountRow s a).get "domain" = some (.text a.domain) := rfl

theorem accountRow_get (hcol : col ≠ "balance") (s s' : LedgerStore) (a : Account) :
    (accountRow s a).get col = (accountRow s' a).get col := by
  simp only [accountRow, accountColumns, get_eq_lookup, zip_cons_cons, lookup_cons, beq_false_of_ne hcol]

theorem map_get (distinct : columns.Nodup) {values : List Value} (whole : values.length = columns.length) :
    values.map some = columns.map (Row.mk columns values).get := by
  refine ext_getElem (by simp [whole]) fun i hi hi' => ?_
  rw [length_map] at hi hi'
  have hidx : columns.idxOf? columns[i] = some i := by
    rw [idxOf?_eq_some_iff]
    exact ⟨hi', rfl, fun j hj heq => absurd (distinct.getElem_inj_iff.1 heq) hj.ne⟩
  simp [Row.get, hidx, hi]

theorem projectRow_values (distinct : columns.Nodup) (hcolumns : row.columns = columns)
    (whole : row.values.length = columns.length) (keep : List String) :
    (projectRow columns keep row).columns = visible columns keep ∧
      (projectRow columns keep row).values.map some = (visible columns keep).map row.get := by
  have hall : row.values.map some = columns.map row.get := by
    subst hcolumns
    exact map_get distinct whole
  unfold projectRow
  split
  · next hkeep => rw [visible, if_pos hkeep]; exact ⟨hcolumns, hall⟩
  split
  · next hkeep hlen => rw [visible, if_neg hkeep, if_pos hlen]; exact ⟨hcolumns, hall⟩
  · next hkeep hlen =>
    refine ⟨rfl, ?_⟩
    rw [map_map]
    refine map_congr_left fun col hcol => ?_
    rw [visible, if_neg hkeep, if_neg hlen, mem_filter] at hcol
    have hmem : row.get col ∈ row.values.map some := hall ▸ mem_map_of_mem (of_decide_eq_true hcol.2)
    obtain ⟨v, -, hv⟩ := mem_map.1 hmem
    rw [Function.comp_apply, ← hv, Option.getD_some]

theorem get_of_values {h : String → Option Value} (hvalues : row.values.map some = row.columns.map h)
    (hcol : col ∈ row.columns) : row.get col = h col := by
  obtain ⟨i, hi⟩ := Option.isSome_iff_exists.1 (isSome_idxOf?.2 hcol)
  obtain ⟨hlt, rfl, -⟩ := idxOf?_eq_some_iff.1 hi
  have hvalue := congrArg (·[i]?) hvalues
  simp only [getElem?_map, getElem?_eq_getElem hlt, Option.map_some] at hvalue
  obtain ⟨v, hv, heq⟩ := Option.map_eq_some_iff.1 hvalue
  rw [Row.get, hi, ← heq]
  exact hv

theorem projectRow_account (keep : List String) (s : LedgerStore) (a : Account) :
    (projectRow accountColumns keep (accountRow s a)).columns = visible accountColumns keep ∧
      (projectRow accountColumns keep (accountRow s a)).values.map some =
        (visible accountColumns keep).map (accountRow s a).get :=
  projectRow_values (by decide : accountColumns.Nodup) rfl rfl keep

theorem projectRow_get (hcol : col ∈ visible accountColumns keep) :
    (projectRow accountColumns keep (accountRow s a)).get col = (accountRow s a).get col := by
  obtain ⟨hcolumns, hvalues⟩ := projectRow_account keep s a
  rw [← hcolumns] at hvalues hcol
  exact get_of_values hvalues hcol

theorem projectRow_congr {b : Account}
    (h : ∀ col ∈ visible accountColumns keep, (accountRow s a).get col = (accountRow s' b).get col) :
    projectRow accountColumns keep (accountRow s a) = projectRow accountColumns keep (accountRow s' b) := by
  obtain ⟨hcolumns, hvalues⟩ := projectRow_account keep s a
  obtain ⟨hcolumns', hvalues'⟩ := projectRow_account keep s' b
  rw [map_congr_left h, ← hvalues'] at hvalues
  exact congrArg₂ Row.mk (hcolumns.trans hcolumns'.symm) (map_injective_iff.2 (Option.some_injective _) hvalues)

/-! ### The balance -/

theorem exists_balance (d : String) (a : Account) :
    ∃ g g' : Ledger, g.AgreeOn d g' ∧ g.allAccounts = [a] ∧ g'.allAccounts = [a] ∧ g.store.balance a.id = 0 ∧
      g'.store.balance a.id = 1 := by
  refine ⟨.of .empty [a] (nodup_singleton _) ∅, .of .empty [a] (nodup_singleton _) (Tally.add ∅ a.id 1),
    Ledger.agreeOn_of rfl fun _ _ => Iff.rfl, Ledger.allAccounts_of, Ledger.allAccounts_of, ?_, ?_⟩
  · rw [Ledger.balance_of, Tally.get_empty]
  · rw [Ledger.balance_of, Tally.get_add, Tally.get_empty, if_pos rfl, zero_add]

theorem execScanAccounts_rows (h : g.allAccounts = [a]) (accepted : acceptsAccount f a) :
    (execScanAccounts g f).rows = [accountRow g.store a] := by
  simp [execScanAccounts, h, accepted]

theorem not_isolated_of_balance (accepted : acceptsAccount f a) (shown : "balance" ∈ visible accountColumns keep) :
    ¬ Isolated cfg env listener max d (.scan .accounts f keep) := by
  intro isolated
  obtain ⟨g, g', agree, haccounts, haccounts', hzero, hone⟩ := exists_balance d a
  have hsame := isolated g g' agree
  simp only [execute, execScan, project_eq, execScanAccounts_rows haccounts accepted,
    execScanAccounts_rows haccounts' accepted, map_cons, map_nil] at hsame
  refine not_same_of_cell (x := projectRow accountColumns keep (accountRow g.store a))
    (y := projectRow accountColumns keep (accountRow g'.store a)) (by rfl) (by rfl) (by rfl) shown ?_ hsame
  rw [projectRow_get shown, projectRow_get shown, accountRow_get_balance, accountRow_get_balance, hzero, hone]
  decide

/-! ### The order -/

theorem domain_of_accepted (confined : ¬ Leaves env d f .accounts) (accepted : acceptsAccount f a) : a.domain = d := by
  by_contra hd
  exact confined ⟨a, accepted, hd⟩

theorem accepts_of_domain (confined : ¬ Leaves env d f .accounts) (accepted : acceptsAccount f a) {b : Account}
    (hb : b.domain = d) : acceptsAccount f b := by
  have ha := domain_of_accepted confined accepted
  -- a filter that does not look at the domain accepts the account in another domain too
  have hmoved (h : acceptsAccount f { a with domain := d ++ "x" } = acceptsAccount f a) : acceptsAccount f b :=
    absurd (domain_of_accepted confined (h.trans accepted)) (Ledger.other_ne d)
  rcases f with _ | f
  · rfl
  · cases f with
    | byDomain =>
      simp only [acceptsAccount] at hmoved accepted ⊢
      split_ifs at hmoved accepted ⊢ with hcode hcurrency
      · exact hmoved rfl
      · exact hmoved rfl
      · simpa [hb, ← ha] using accepted
    | byValueIn column values =>
      by_cases hcolumn : column = "domain"
      · subst hcolumn
        have hmem : a.domain ∈ values := of_decide_eq_true accepted
        exact decide_eq_true (by rwa [hb, ← ha])
      · refine hmoved ?_
        simp only [acceptsAccount]
        split <;> first | rfl | exact absurd rfl hcolumn
    | byAccountId | byAccountCode | byAccountName => exact hmoved rfl
    | _ => rfl

def plain (d : String) (n : Nat) : Account := Account.new id (BitVec.ofNat 128 n) 0 "a" "a" .asset "a" d

def distinct (d : String) (n : Nat) : Account :=
  { Account.new id (BitVec.ofNat 128 n) 0 "b" "b" .liability "b" d with status := .closed }

theorem nodup_ids (d : String) {k : Nat} (hk : k < 2 ^ 128) :
    (((range k).map (plain d) ++ [distinct d k]).map (·.id)).Nodup := by
  have hids : ((range k).map (plain d) ++ [distinct d k]).map (·.id) = (range (k + 1)).map (BitVec.ofNat 128) := by
    simp [range_succ, plain, distinct, Account.new, Function.comp_def]
  rw [hids]
  refine List.Nodup.map_on (fun m hm n hn heq => ?_) nodup_range
  have hm := mem_range.1 hm
  have hn := mem_range.1 hn
  have hnat := congrArg BitVec.toNat heq
  rwa [BitVec.toNat_ofNat, BitVec.toNat_ofNat, Nat.mod_eq_of_lt (by omega), Nat.mod_eq_of_lt (by omega)] at hnat

theorem distinct_get_ne {k n : Nat} (hk : k < 2 ^ 128) (hn : n < k) (s : LedgerStore) (hcol : col ∈ accountColumns)
    (hdomain : col ≠ "domain") (hbalance : col ≠ "balance") :
    (accountRow s (distinct d k)).get col ≠ (accountRow s (plain d n)).get col := by
  simp only [accountColumns, mem_cons, not_mem_nil, or_false] at hcol
  rcases hcol with rfl | rfl | rfl | rfl | rfl | rfl | rfl | rfl
  · change some (Value.uuid (Uuid.toText (BitVec.ofNat 128 k))) ≠ some (Value.uuid (Uuid.toText (BitVec.ofNat 128 n)))
    intro heq
    have hnat := congrArg BitVec.toNat (Uuid.toText_inj (Value.uuid.inj (Option.some.inj heq)))
    rw [BitVec.toNat_ofNat, BitVec.toNat_ofNat, Nat.mod_eq_of_lt hk, Nat.mod_eq_of_lt (by omega)] at hnat
    omega
  · exact (by decide : some (Value.text "b") ≠ some (Value.text "a"))
  · exact (by decide : some (Value.text "b") ≠ some (Value.text "a"))
  · exact (by decide : some (Value.text "Liability") ≠ some (Value.text "Asset"))
  · exact (by decide : some (Value.text "b") ≠ some (Value.text "a"))
  · exact (by decide : some (Value.text "Closed") ≠ some (Value.text "Active"))
  · exact absurd rfl hdomain
  · exact absurd rfl hbalance

theorem mem_of_visible (h : col ∈ visible accountColumns keep) : col ∈ accountColumns := by
  unfold visible at h
  split at h
  · exact h
  · split at h
    · exact h
    · exact of_decide_eq_true (mem_filter.1 h).2

/-- No limit cuts the rows of an answer. -/
def Uncapped (listener : Listener) (max : UInt64) : Prop :=
  match listener with
  | .native => max = 0
  | .pgwire _ => True

theorem eq_of_perm_of_same {α : Type} {xs ys : List α} (h : xs.Perm ys) (same : ∀ x ∈ xs, ∀ y ∈ xs, x = y) : xs = ys :=
  @List.Perm.eq_of_pairwise α (fun _ _ => True) xs ys (fun x y hx hy _ _ => same x hx y (h.mem_iff.2 hy))
    (pairwise_of_forall fun _ _ => trivial) (pairwise_of_forall fun _ _ => trivial) h

theorem not_perm_take {α β : Type} {h h' : α → β} {xs : List α} {x : α} {k : Nat} (hlen : xs.length = k) (hk : 0 < k)
    (hne : ∀ y ∈ xs, h y ≠ h' x) : ¬ (((xs ++ [x]).map h).take k).Perm (((x :: xs).map h').take k) := by
  intro hperm
  have hfirst : h' x ∈ ((x :: xs).map h').take k := by
    obtain ⟨m, rfl⟩ := Nat.exists_eq_succ_of_ne_zero (Nat.ne_of_gt hk)
    exact mem_cons_self
  have hmem := hperm.mem_iff.2 hfirst
  rw [map_append, take_append_of_le_length (by simp [hlen]), take_of_length_le (by simp [hlen])] at hmem
  obtain ⟨y, hy, heq⟩ := mem_map.1 hmem
  exact hne y hy heq

theorem not_isolated_of_order (confined : ¬ Leaves env d f .accounts) (accepted : acceptsAccount f a)
    (hidden : "balance" ∉ visible accountColumns keep) (capped : ¬ Uncapped listener max)
    (hcol : col ∈ visible accountColumns keep) (hdomain : col ≠ "domain") :
    ¬ Isolated cfg env listener max d (.scan .accounts f keep) := by
  cases listener with
  | pgwire => exact absurd trivial capped
  | native =>
  have hpos : 0 < max := UInt64.pos_iff_ne_zero.2 capped
  have hk : 0 < max.toNat := UInt64.lt_iff_toNat_lt.1 hpos
  have hlt : max.toNat < 2 ^ 128 := Nat.lt_trans max.toNat_lt (by decide)
  -- the same accounts, once with the distinct one last and once with it first
  let plains := (range max.toNat).map (plain d)
  have hperm : (plains ++ [distinct d max.toNat]).Perm (distinct d max.toNat :: plains) := perm_append_singleton _ _
  have hnodup := nodup_ids d hlt
  let g : Ledger := .of .empty (plains ++ [distinct d max.toNat]) hnodup ∅
  let g' : Ledger := .of .empty (distinct d max.toNat :: plains) ((hperm.map _).nodup_iff.1 hnodup) ∅
  have agree : g.AgreeOn d g' := Ledger.agreeOn_of rfl fun _ _ => hperm.mem_iff
  have hall : ∀ b ∈ plains ++ [distinct d max.toNat], acceptsAccount f b := by
    intro b hb
    refine accepts_of_domain confined accepted ?_
    simp only [plains, mem_append, mem_map, mem_singleton] at hb
    rcases hb with ⟨n, -, rfl⟩ | rfl <;> rfl
  have hrows : (execScanAccounts g f).rows = (plains ++ [distinct d max.toNat]).map (accountRow g.store) := by
    rw [execScanAccounts, Ledger.allAccounts_of, filter_eq_self.2 hall]
  have hrows' : (execScanAccounts g' f).rows = (distinct d max.toNat :: plains).map (accountRow g'.store) := by
    rw [execScanAccounts, Ledger.allAccounts_of, filter_eq_self.2 fun b hb => hall b (hperm.mem_iff.2 hb)]
  intro isolated
  have hsame := isolated g g' agree
  simp only [execute, execScan, project_eq, reply, nativeAnswer, Answer.SameRows, hrows, hrows', capRows, if_pos hpos,
    map_map] at hsame
  refine not_perm_take (by simp [plains]) hk (fun b hb heq => ?_) hsame
  obtain ⟨n, hn, rfl⟩ := mem_map.1 hb
  have hbalance : col ≠ "balance" := fun h => hidden (h ▸ hcol)
  apply distinct_get_ne (d := d) hlt (mem_range.1 hn) g.store (mem_of_visible hcol) hdomain hbalance
  rw [accountRow_get hbalance g.store g'.store, ← projectRow_get hcol, ← projectRow_get hcol]
  exact congrArg (Row.get · col) heq.symm

/-! ### Scans and windows -/

theorem execute_accounts (cfg : Config) (env : ReadEnv) (f : Option EntryFilter)
    (hidden : "balance" ∉ visible accountColumns keep) (s : LedgerStore) (g : Ledger) :
    ∃ n : Nat, execute cfg env g (.scan .accounts f keep) = .ok ⟨visible accountColumns keep,
        (g.allAccounts.filter (acceptsAccount f)).map fun a => projectRow accountColumns keep (accountRow s a),
        toString n ++ " accounts"⟩ := by
  refine ⟨(execScanAccounts g f).rows.length, congrArg Except.ok ?_⟩
  rw [execScan, project_eq]
  simp only [execScanAccounts, map_map]
  congr 1
  exact map_congr_left fun a _ => projectRow_congr fun col hcol => accountRow_get (fun h => hidden (h ▸ hcol)) _ _ a

theorem isolated_of_hidden (confined : ¬ Leaves env d f .accounts) (hidden : "balance" ∉ visible accountColumns keep)
    (hcap : Uncapped listener max ∨ ∀ col ∈ visible accountColumns keep, col = "domain") :
    Isolated cfg env listener max d (.scan .accounts f keep) := by
  intro g g' agree
  obtain ⟨n, hexec⟩ := execute_accounts cfg env f hidden g.store g
  obtain ⟨n', hexec'⟩ := execute_accounts cfg env f hidden g.store g'
  have hperm := (accepted_accounts_perm agree fun a => domain_of_accepted confined).map
    fun a => projectRow accountColumns keep (accountRow g.store a)
  rw [hexec, hexec']
  cases listener with
  | pgwire =>
    have hmsg (n : Nat) := not_integrity_of_number n " accounts"
    rw [reply, reply, pgwireAnswer_ok (r := ⟨_, _, toString n ++ " accounts"⟩) (hmsg n),
      pgwireAnswer_ok (r := ⟨_, _, toString n' ++ " accounts"⟩) (hmsg n')]
    exact hperm.map _
  | native =>
    change (capRows max _).Perm (capRows max _)
    rcases hcap with hmax | hdomain
    · obtain rfl : max = 0 := hmax
      exact hperm
    · -- all rows are the same, so it does not matter which are cut off
      refine List.Perm.of_eq (congrArg (capRows max) (eq_of_perm_of_same hperm fun x hx y hy => ?_))
      obtain ⟨a, ha, rfl⟩ := mem_map.1 hx
      obtain ⟨b, hb, rfl⟩ := mem_map.1 hy
      refine projectRow_congr fun col hcol => ?_
      rw [hdomain col hcol, accountRow_get_domain, accountRow_get_domain, domain_of_accepted confined (mem_filter.1 ha).2, domain_of_accepted confined (mem_filter.1 hb).2]

/-- A scan of accounts gives the same rows if and only if it cannot leave the domain and, if it can return an account at
    all, hides the balance, and is not cut off or shows nothing but the domain. -/
theorem isolated_accounts_iff : Isolated cfg env listener max d (.scan .accounts f keep) ↔
    ¬ Leaves env d f .accounts ∧ (Returns env f .accounts → "balance" ∉ visible accountColumns keep ∧
      (Uncapped listener max ∨ ∀ col ∈ visible accountColumns keep, col = "domain")) := by
  constructor
  · intro isolated
    have confined : ¬ Leaves env d f .accounts := fun leaves =>
      not_isolated_of_leaves (·.project keep) execute_scan (fun _ => project_rows_eq_nil) leaves isolated
    refine ⟨confined, fun ⟨a, accepted, _⟩ => ?_⟩
    have hidden : "balance" ∉ visible accountColumns keep := fun shown => not_isolated_of_balance accepted shown isolated
    refine ⟨hidden, ?_⟩
    by_contra hcap
    push Not at hcap
    obtain ⟨capped, col, hcol, hdomain⟩ := hcap
    exact not_isolated_of_order confined accepted hidden capped hcol hdomain isolated
  · rintro ⟨confined, hreturns⟩
    by_cases returns : Returns env f .accounts
    · exact isolated_of_hidden confined (hreturns returns).1 (hreturns returns).2
    · exact isolated_scan_of_rows fun g g' _ => by rw [execScan_rows_nil returns, execScan_rows_nil returns]

variable {windowFn : WindowFn} {column aliasName : String} {partitionBy : List String}

theorem execWindow_single (windowFn : WindowFn) (column aliasName : String) (partitionBy : List String) {r : QueryResult}
    (h : r.rows = [row]) :
    ∃ v, (execWindow r windowFn column aliasName partitionBy).rows = [⟨row.columns ++ [aliasName], row.values ++ [v]⟩] := by
  simp only [execWindow, h]
  exact ⟨_, rfl⟩

theorem not_isolated_window_of_balance (accepted : acceptsAccount f a) :
    ¬ Isolated cfg env listener max d (.window (.scan .accounts f []) windowFn column aliasName partitionBy) := by
  intro isolated
  obtain ⟨g, g', agree, haccounts, haccounts', hzero, hone⟩ := exists_balance d a
  have hsame := isolated g g' agree
  rw [execute_window, execute_window] at hsame
  obtain ⟨v, hrow⟩ := execWindow_single windowFn column aliasName partitionBy
    (execScanAccounts_rows haccounts accepted)
  obtain ⟨v', hrow'⟩ := execWindow_single windowFn column aliasName partitionBy
    (execScanAccounts_rows haccounts' accepted)
  have hget (s : LedgerStore) (v : Value) : (Row.mk ((accountRow s a).columns ++ [aliasName])
      ((accountRow s a).values ++ [v])).get "balance" = some (.bigInt (s.balance a.id)) := rfl
  have hcol : "balance" ∈ (execWindow (execScanAccounts g f) windowFn column aliasName partitionBy).columns := by
    simp [execWindow, execScanAccounts, accountColumns]
  refine not_same_of_cell hrow hrow' rfl hcol ?_ hsame
  rw [hget, hget, hzero, hone]
  decide

theorem isolated_window_iff {table : ScanTable} :
    Isolated cfg env listener max d (.window (.scan table f []) windowFn column aliasName partitionBy) ↔
      ¬ Leaves env d f table ∧ (table = .accounts → ¬ Returns env f table) := by
  constructor
  · intro isolated
    refine ⟨fun leaves => not_isolated_window leaves isolated, ?_⟩
    rintro rfl ⟨a, accepted, -⟩
    exact not_isolated_window_of_balance accepted isolated
  · rintro ⟨confined, hreturns⟩
    refine isolated_window_of_rows fun g g' agree => ?_
    by_cases htable : table = .accounts
    · rw [execScan_rows_nil (hreturns htable), execScan_rows_nil (hreturns htable)]
    · exact execScan_rows_eq agree confined htable

end Sql.Read

end VectorLedger
