import VectorLedger.Theorems.Indexed
import VectorLedger.Theorems.Replay

/-! The balances and the index that a replay gives, as sums over entries. -/

namespace VectorLedger

open EntryDb List

/-! ### Accounts before entries -/

/-- Every line of an entry among the rows is on an account that was entered before it. -/
def LinesKnown (known : List Account) : List DataPayload → Prop
  | [] => True
  | p :: ps => (∀ e ∈ entriesOf [p], ∀ l ∈ e.lines, ∃ a ∈ known, a.id = l.accountId) ∧
      LinesKnown (known ++ accountsOf [p]) ps

namespace LinesKnown

variable {known known' : List Account} {ps qs : List DataPayload}

theorem append (h : LinesKnown known ps) (h' : LinesKnown (known ++ accountsOf ps) qs) : LinesKnown known (ps ++ qs) := by
  induction ps generalizing known with
  | nil => simpa using h'
  | cons p ps ih =>
    refine ⟨h.1, ih h.2 ?_⟩
    rwa [append_assoc, ← accountsOf_cons]

theorem of_suffix (h : LinesKnown known (ps ++ qs)) : LinesKnown (known ++ accountsOf ps) qs := by
  induction ps generalizing known with
  | nil => simpa using h
  | cons p ps ih =>
    rw [accountsOf_cons, ← append_assoc]
    exact ih h.2

theorem mono (h : LinesKnown known ps) (hsub : ∀ a ∈ known, ∃ b ∈ known', b.id = a.id) : LinesKnown known' ps := by
  induction ps generalizing known known' with
  | nil => trivial
  | cons p ps ih =>
    refine ⟨?_, ih h.2 ?_⟩
    · intro e he l hl
      obtain ⟨a, ha, hid⟩ := h.1 e he l hl
      obtain ⟨b, hb, hid'⟩ := hsub a ha
      exact ⟨b, hb, hid'.trans hid⟩
    · intro a ha
      rcases mem_append.1 ha with ha | ha
      · obtain ⟨b, hb, hid⟩ := hsub a ha
        exact ⟨b, mem_append_left _ hb, hid⟩
      · exact ⟨a, mem_append_right _ ha, rfl⟩

theorem of_all (h : ∀ e ∈ entriesOf ps, ∀ l ∈ e.lines, ∃ a ∈ known, a.id = l.accountId) : LinesKnown known ps := by
  induction ps generalizing known with
  | nil => trivial
  | cons p ps ih =>
    rw [entriesOf_cons, forall_mem_append] at h
    refine ⟨h.1, ih fun e he l hl => ?_⟩
    obtain ⟨a, ha, hid⟩ := h.2 e he l hl
    exact ⟨a, mem_append_left _ ha, hid⟩

theorem mem (h : LinesKnown known ps) {e : JournalEntry} (he : e ∈ entriesOf ps) {l : JournalLine}
    (hl : l ∈ e.lines) : ∃ a ∈ known ++ accountsOf ps, a.id = l.accountId := by
  induction ps generalizing known with
  | nil => cases he
  | cons p ps ih =>
    rw [entriesOf_cons, mem_append] at he
    rcases he with he | he
    · obtain ⟨a, ha, hid⟩ := h.1 e he l hl
      exact ⟨a, mem_append_left _ ha, hid⟩
    · obtain ⟨a, ha, hid⟩ := ih h.2 he
      rw [append_assoc, ← accountsOf_cons] at ha
      exact ⟨a, ha, hid⟩

end LinesKnown

/-! ### Entered accounts -/

section Entered
variable {as : List Account} {a : AccountId} {acct : Account}

theorem mem_of_lookup_enterAccounts (h : (enterAccounts ∅ as).lookup a = some acct) : acct ∈ as ∧ acct.id = a := by
  rw [enterAccounts, Assign.lookup_assign, Finmap.lookup_empty, Option.or_none] at h
  have hmem := Assign.mem_of_latest h
  rw [mem_map] at hmem
  obtain ⟨b, hb, heq⟩ := hmem
  obtain ⟨rfl, rfl⟩ := Prod.mk.inj heq
  exact ⟨hb, rfl⟩

theorem lookup_enterAccounts_eq_none (h : (enterAccounts ∅ as).lookup a = none) : ∀ b ∈ as, b.id ≠ a := by
  rw [enterAccounts, Assign.lookup_assign, Finmap.lookup_empty, Option.or_none, Assign.latest_eq_none] at h
  intro b hb
  exact h (b.id, b) (mem_map_of_mem hb)

end Entered

namespace LedgerStore

variable {k : Nat} {r : Replay} {ps : List DataPayload} {as : List Account} {a : AccountId} {debitNormal : Bool}

/-! ### Balances -/

/-- The entries that a replay counts: all of them, or from the first above the index on while the index is
    taken to be current. -/
def counted (k : Nat) (current : Bool) (es : List JournalEntry) : List JournalEntry :=
  if current then es.dropWhile fun e => e.sequence ≤ k else es

theorem counted_cons (current : Bool) (e : JournalEntry) (es : List JournalEntry) : counted k current (e :: es) =
      if current && decide (e.sequence ≤ k) then counted k true es else e :: counted k false es := by
  cases current with
  | false => rfl
  | true =>
    by_cases hle : e.sequence ≤ k <;> simp [counted, hle]

theorem total_entryDeltas_entered {e : JournalEntry}
    (known : ∀ l ∈ e.lines, ∃ acct ∈ as, acct.id = l.accountId)
    (type : ∀ acct ∈ as, acct.id = a → acct.accountType.isDebitNormal = debitNormal) :
    Tally.total a (entryDeltas (enterAccounts ∅ as) e) = e.balanceDelta debitNormal a := by
  cases found : (enterAccounts ∅ as).lookup a with
  | some acct =>
    obtain ⟨hmem, hid⟩ := mem_of_lookup_enterAccounts found
    rw [total_entryDeltas found, type acct hmem hid]
  | none =>
    rw [total_entryDeltas_unknown found, JournalEntry.balanceDelta_eq_zero]
    intro l hl heq
    obtain ⟨acct, hmem, hid⟩ := known l hl
    exact lookup_enterAccounts_eq_none found acct hmem (hid.trans heq)

theorem foldl_replayRow_balance (plain : ∀ p ∈ ps, p.Plain) (accounts : r.store.accounts = enterAccounts ∅ as)
    (known : LinesKnown as ps)
    (type : ∀ acct ∈ as ++ accountsOf ps, acct.id = a → acct.accountType.isDebitNormal = debitNormal) :
    (ps.foldl (replayRow false k) r).store.balanceCache.get a =
      r.store.balanceCache.get a + signedSum debitNormal a (counted k r.sqliteIsCurrent (entriesOf ps)) := by
  induction ps generalizing r as with
  | nil => cases r.sqliteIsCurrent <;> simp [counted]
  | cons p ps ih =>
    rw [forall_mem_cons] at plain
    rw [accountsOf_cons, ← append_assoc] at type
    rw [foldl_cons, entriesOf_cons]
    rcases replayRow_cases false k r plain.1 with ⟨e, hent, hacct, hrow⟩ | ⟨b, hent, hacct, hrow⟩ |
        ⟨hent, hacct, _, _, _, hrow⟩
    · rw [hacct, append_nil] at type
      have hrest := known.2
      rw [hacct, append_nil] at hrest
      have hentry : Tally.total a (entryDeltas r.store.accounts e) = e.balanceDelta debitNormal a := by
        rw [accounts]
        exact total_entryDeltas_entered (known.1 e (by simp [hent]))
          fun acct hmem => type acct (mem_append_left _ hmem)
      rw [hrow, hent, singleton_append, counted_cons,
        ih plain.2 (replayEntry_accounts.trans accounts) hrest type, replayEntry_normal]
      cases hpass : (r.sqliteIsCurrent && decide (e.sequence ≤ k)) with
      | true => rfl
      | false =>
        simp only [Bool.false_eq_true, if_false, Tally.get_addAll, hentry, signedSum_cons, add_assoc]
    · have hrest := known.2
      rw [hacct] at hrest type
      have haccounts : (r.store.applyAccount b).accounts = enterAccounts ∅ (as ++ [b]) := by
        show r.store.accounts.insert b.id b = _
        rw [accounts, enterAccounts, enterAccounts, map_append, Assign.assign_append]
        rfl
      rw [hrow, hent, nil_append]
      exact ih (r := { r with store := r.store.applyAccount b }) plain.2 haccounts hrest type
    · rw [hacct, append_nil] at type
      have hrest := known.2
      rw [hacct, append_nil] at hrest
      rw [hrow, hent, nil_append]
      exact ih (r := { r with store := { r.store with
        reversalEventIndex := _, settlementEventIndex := _, reconciliationHistory := _ } }) plain.2 accounts hrest type

variable {accounts : Accounts} {db : EntryDb}

theorem get_rebuildLines {acct : Account} (found : accounts.lookup a = some acct)
    {lines : List JournalLine} (known : ∀ l ∈ lines, ∃ acct, accounts.lookup l.accountId = some acct)
    (cache : BalanceCache) :
    (rebuildLines accounts cache lines).get a =
      cache.get a + JournalEntry.lineSum acct.accountType.isDebitNormal a lines := by
  induction lines generalizing cache with
  | nil => simp [rebuildLines]
  | cons line lines ih =>
    rw [forall_mem_cons] at known
    obtain ⟨acct', found'⟩ := known.1
    simp only [rebuildLines, found']
    rw [ih known.2, Tally.get_add, JournalEntry.lineSum_cons, add_assoc]
    congr 2
    split
    · next heq =>
      rw [heq] at found'
      obtain rfl := Option.some.inj (found.symm.trans found')
      rfl
    · rfl

theorem get_rebuildBalanceCache {acct : Account} (found : accounts.lookup a = some acct)
    (known : ∀ e ∈ db.entries, ∀ l ∈ e.lines, ∃ acct, accounts.lookup l.accountId = some acct)
    (cache : BalanceCache) :
    (db.rebuildBalanceCache accounts cache).get a =
      cache.get a + signedSum acct.accountType.isDebitNormal a db.entries :=
  get_foldl_affecting (fun e he => get_rebuildLines found (known e he)) cache

theorem get_rebuildLines_unknown (unknown : accounts.lookup a = none) (lines : List JournalLine)
    (cache : BalanceCache) : (rebuildLines accounts cache lines).get a = cache.get a := by
  induction lines generalizing cache with
  | nil => rfl
  | cons line lines ih =>
    unfold rebuildLines
    cases found : accounts.lookup line.accountId with
    | none => rfl
    | some =>
      have hne : line.accountId ≠ a := by
        rintro rfl
        rw [unknown] at found
        cases found
      rw [ih, Tally.get_add, if_neg hne, add_zero]

theorem get_rebuildBalanceCache_unknown (unknown : accounts.lookup a = none)
    (cache : BalanceCache) : (db.rebuildBalanceCache accounts cache).get a = cache.get a := by
  refine foldl_keeps (·.get a) (fun (cache : BalanceCache) (e : JournalEntry) =>
    if e.status.affectsBalance then rebuildLines accounts cache e.lines else cache) ?_ db.entries cache
  intro cache e
  split
  · exact get_rebuildLines_unknown unknown e.lines cache
  · rfl

/-! ### The index -/

theorem entries_foldl_indexAll {es : List JournalEntry}
    (increasing : (db.entries ++ es).Pairwise fun a b => a.sequence < b.sequence)
    (noClash : (db.entries ++ es).Pairwise fun a b => ¬ Clash a b) (positive : ∀ e ∈ es, 0 < e.sequence) :
    (es.foldl indexAll db).entries = db.entries ++ es := by
  induction es generalizing db with
  | nil => simp
  | cons e es ih =>
    have hinc := pairwise_append.1 increasing
    have hcl := pairwise_append.1 noClash
    have above : ∀ x ∈ db.entries, x.sequence < e.sequence := fun x hx => hinc.2.2 x hx e mem_cons_self
    have accepted : ¬ db.Refused e := by
      rintro (hzero | ⟨row, hrow, hclash⟩)
      · have := positive e mem_cons_self
        omega
      · exact hcl.2.2 row hrow e mem_cons_self hclash.symm
    have hentries : (db.indexAll e).entries = db.entries ++ [e] := by
      rw [indexAll, entries_foldl_refs, entries_insert accepted, insertBySequence_last above]
    rw [foldl_cons, ih]
    · rw [hentries, append_assoc, singleton_append]
    · rwa [hentries, append_assoc, singleton_append]
    · rwa [hentries, append_assoc, singleton_append]
    · exact fun x hx => positive x (mem_cons_of_mem _ hx)

end LedgerStore

end VectorLedger
