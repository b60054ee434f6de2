import VectorLedger.Theorems.Recovery

/-! What a reversal undoes. While each balance is the signed sum of the committed entries, a reversal leaves the
    sum without the entry that it reverses. -/

namespace VectorLedger

open Sample Machine LedgerStore

/-! ### Steps -/

/-- The condition on a step: no rows are left over under its transaction id and no torn record stands before what it
    appends, accounts are created under new ids, SQLite takes the entry of a call that is not cut by a crash, and an open
    finds the accounts of the segments it skips in SQLite and an index that is empty or complete. -/
def UndoStep : Machine → Event → Prop
  | .up s, .call io op => s.txManager.Appendable ∧ FreshId s op ∧ op.Normal ∧ RowTaken io op
  | .up s, .crash _ op => s.txManager.Appendable ∧ FreshId s op ∧ op.Normal
  | .down d, .openStore =>
    d.AccountsKnown ∧ (d.entryDb.entries = [] ∨ d.entryDb.entries = committedEntries d.wal)
  | .down _, .openForImport => False
  | _, _ => True

instance (x : Machine) (ev : Event) : Decidable (UndoStep x ev) := by
  rcases x with _ | _ <;> rcases ev with _ | _ <;> unfold UndoStep <;> infer_instance

/-- Every balance is the signed sum over the committed entries. -/
structure LedgerStore.Summed (s : LedgerStore) : Prop where
  known : ∀ a acct, s.accounts.lookup a = some acct →
    s.balance a = signedSum acct.accountType.isDebitNormal a (committedEntries s.disk.wal)
  unknown : ∀ a, s.accounts.lookup a = none → s.balance a = 0

section Steps
variable {cfg : Config} {io : Io} {s s' : LedgerStore} {op : Op} {e : JournalEntry} {x y : Machine} {ev : Event}
  {d : Disk}

theorem LedgerStore.Summed.versions (h : s.Summed) (cache : s'.balanceCache = s.balanceCache)
    (entries : committedEntries s'.disk.wal = committedEntries s.disk.wal)
    (types : ∀ a, (s'.accounts.lookup a).map (·.accountType) = (s.accounts.lookup a).map (·.accountType)) :
    s'.Summed := by
  have hbalance : ∀ a, s'.balance a = s.balance a := fun a => by rw [LedgerStore.balance, cache]; rfl
  constructor
  · intro a acct' found
    have htype := types a
    rw [found, Option.map_some] at htype
    obtain ⟨acct, hacct, hsame⟩ := Option.map_eq_some_iff.1 htype.symm
    rw [hbalance, entries, h.known a acct hacct, hsame]
  · intro a unknown
    have htype := types a
    rw [unknown, Option.map_none] at htype
    rw [hbalance, h.unknown a (Option.map_eq_none_iff.1 htype.symm)]

theorem types_insert {accounts : Accounts} {id : AccountId} {acct acct' : Account}
    (found : accounts.lookup id = some acct) (type : acct'.accountType = acct.accountType) (a : AccountId) :
    ((accounts.insert id acct').lookup a).map (·.accountType) = (accounts.lookup a).map (·.accountType) := by
  by_cases ha : a = id
  · rw [ha, Finmap.lookup_insert, found, Option.map_some, Option.map_some, type]
  · rw [Finmap.lookup_insert_of_ne _ ha]

theorem Op.types_begun (s : LedgerStore) (op : Op) (a : AccountId) :
    ((op.begun s).accounts.lookup a).map (·.accountType) = (s.accounts.lookup a).map (·.accountType) := by
  rcases op.begun_cases s with hsame | htaken | ⟨id, old, new, found, -, htype, hversion⟩
  · rw [hsame]
  · rw [htaken]
    rfl
  · rw [hversion]
    exact types_insert found htype a

theorem LedgerStore.Summed.committed (h : s.Summed) (accounts : s'.accounts = s.accounts)
    (cache : s'.balanceCache = s.balanceCache.addAll (entryDeltas s.accounts e))
    (entries : committedEntries s'.disk.wal = committedEntries s.disk.wal ++ [e]) : s'.Summed := by
  constructor
  · intro a acct found
    rw [accounts] at found
    have hold : s.balanceCache.get a = _ := h.known a acct found
    rw [LedgerStore.balance, cache, Tally.get_addAll, hold, total_entryDeltas found, entries, signedSum_append,
      signedSum_cons, signedSum_nil, add_zero]
  · intro a unknown
    rw [accounts] at unknown
    have hold : s.balanceCache.get a = 0 := h.unknown a unknown
    rw [LedgerStore.balance, cache, Tally.get_addAll, hold, total_entryDeltas_unknown unknown]
    rfl

theorem LedgerStore.Summed.created {a : Account} (h : s.Summed) (consistent : s.disk.Consistent cfg)
    (current : s.Current) (fresh : ∀ b ∈ committedAccounts s.disk.wal, b.id ≠ a.id)
    (accounts : s'.accounts = s.accounts.insert a.id a) (cache : s'.balanceCache = s.balanceCache)
    (entries : committedEntries s'.disk.wal = committedEntries s.disk.wal) : s'.Summed := by
  have hbalance : ∀ b, s'.balance b = s.balance b := fun b => by rw [LedgerStore.balance, cache]; rfl
  constructor
  · intro b acct found
    rw [hbalance, entries]
    rw [accounts] at found
    by_cases hb : b = a.id
    · have hunknown : s.accounts.lookup b = none := by
        cases hlook : s.accounts.lookup b with
        | none => rfl
        | some acct' =>
          obtain ⟨-, c, hc, hid, -⟩ := current.accounts b acct' hlook
          exact absurd (hid.trans hb) (fresh c hc)
      rw [h.unknown b hunknown, signedSum_eq_zero]
      intro e he l hl heq
      obtain ⟨c, hc, hid⟩ := consistent.linesKnown.mem he hl
      exact fresh c hc (hid.trans (heq.trans hb))
    · rw [Finmap.lookup_insert_of_ne _ hb] at found
      exact h.known b acct found
  · intro b unknown
    rw [accounts] at unknown
    by_cases hb : b = a.id
    · rw [hb, Finmap.lookup_insert] at unknown
      cases unknown
    · rw [Finmap.lookup_insert_of_ne _ hb] at unknown
      rw [hbalance, h.unknown b unknown]

/-- A call keeps the balances the sums. -/
theorem LedgerStore.Summed.effect (h : s.Summed) (consistent : s.disk.Consistent cfg) (current : s.Current)
    (effect : Effect cfg io s op s') (clean : s.txManager.NoLeftover) (fresh : FreshId s op) (normal : op.Normal) :
    s'.Summed := by
  have quiet : ∀ {ps : List DataPayload} {tm : TransactionManager}, Wrote cfg s.txManager ps tm → entriesOf ps = [] →
      committedEntries tm.wal = committedEntries s.disk.wal := by
    intro ps tm wrote hnone
    exact (wrote.entries_eq clean).trans (by rw [hnone, List.append_nil]; rfl)
  cases effect with
  | rejected => exact h
  | failed op c₁ c₂ reached wrote =>
    exact h.versions (Op.begun_balanceCache s op) (quiet wrote rfl) (Op.types_begun s op)
  | created c₁ c₂ wrote => exact h.created consistent current fresh rfl rfl (quiet wrote rfl)
  | closed c₁ c₂ found wrote | held c₁ c₂ found wrote =>
    exact h.versions rfl (quiet wrote rfl) (types_insert found rfl)
  | posted c₁ c₂ valid unseen checked wrote | reversed c₁ c₂ checked wrote =>
    exact h.committed rfl rfl (wrote.entries_eq clean)
  | imported => exact normal.elim
  | settled c₁ c₂ wrote | reconciled c₁ c₂ wrote => exact h.versions rfl (quiet wrote rfl) fun _ => rfl

theorem Disk.Consistent.opened_summed (h : d.Consistent cfg) (known : d.AccountsKnown)
    (index : d.entryDb.entries = [] ∨ d.entryDb.entries = committedEntries d.wal) :
    (LedgerStore.opened false d).Summed := by
  have hall : d.recounted = committedEntries d.wal := by
    rcases h.recounted_cases with ⟨hall, -⟩ | ⟨hbehind, hsplit⟩
    · exact hall
    · rw [hsplit, index.resolve_right hbehind, List.nil_append]
  constructor
  · intro a acct found
    obtain ⟨-, b, hb, rfl, htype⟩ := h.opened_accounts_committed found
    rw [h.opened_balance known hb, hall, opened_wal, htype]
  · intro a unknown
    refine h.opened_balance_unknown known fun b hb hid => ?_
    obtain ⟨acct, found, -⟩ := h.opened_knows known hb
    rw [hid, unknown] at found
    cases found

/-- An open store has all committed entries in its index and its balances. -/
structure Machine.Undoable (cfg : Config) (x : Machine) : Prop where
  consistent : x.Consistent cfg
  complete : ∀ s, x = .up s → s.Complete
  summed : ∀ s, x = .up s → s.Summed

theorem Machine.Undoable.ledgerStep (h : x.Undoable cfg) (ok : UndoStep x ev) : LedgerStep x ev := by
  cases x with
  | down => cases ev <;> first | exact ok.elim | trivial
  | up s =>
    have complete := h.complete s rfl
    cases ev with
    | call io op | crash io op => exact ⟨ok.1, ok.2.1, complete.indexReady op, complete.keyIndexed op⟩
    | _ => trivial

/-- Such a step keeps index and balances complete. -/
theorem Machine.Undoable.step (h : x.Undoable cfg) (ok : UndoStep x ev) (hstep : step cfg x ev = some y) :
    y.Undoable cfg := by
  have consistent := h.consistent.step (h.ledgerStep ok) hstep
  have disk := h.consistent.disk
  cases step_cases hstep with
  | refused => exact h
  | opened => exact ⟨consistent, forall_up disk.opened_complete, forall_up (disk.opened_summed ok.1 ok.2)⟩
  | importing => exact ok.elim
  | called effect =>
    obtain ⟨⟨clean, -⟩, fresh, normal, row⟩ := ok
    have current := h.consistent.current _ rfl
    exact ⟨consistent, forall_up ((h.complete _ rfl).effect disk current effect clean normal row),
      forall_up ((h.summed _ rfl).effect disk current effect clean fresh normal)⟩
  | closed | crashed => exact ⟨consistent, fun _ hs => (nomatch hs), fun _ hs => (nomatch hs)⟩

/-! ### The reversal -/

/-- The line is on the same account, for the same amount, and on the other side. -/
def JournalLine.Mirrors (l l' : JournalLine) : Prop :=
  l'.accountId = l.accountId ∧ l'.currencyCode = l.currencyCode ∧ l'.amount = l.amount ∧ l'.drCr = l.drCr.flip

theorem mirrors_reversalLines (io : Io) (lines : List JournalLine) (k : Nat) :
    List.Forall₂ JournalLine.Mirrors lines ((lines.zipIdx k).map fun l => reversalLine io l.1 l.2) := by
  induction lines generalizing k with
  | nil => exact .nil
  | cons line lines ih => exact .cons ⟨rfl, rfl, rfl, rfl⟩ (ih (k + 1))

theorem signedSum_erase {debitNormal : Bool} {a : AccountId} {es : List JournalEntry} (he : e ∈ es) :
    signedSum debitNormal a es = e.balanceDelta debitNormal a + signedSum debitNormal a (es.erase e) := by
  rw [← signedSum_cons]
  exact ((List.perm_cons_erase he).map _).sum_eq

theorem reverseEntry_accepted {entryId reversalId : Uuid} {description domain : String}
    (h : (s.reverseEntry cfg io entryId description domain).1 = .ok reversalId) :
    ∃ original r, s.checkReversal entryId = .ok original ∧
      r = s.sealReversal cfg io original entryId description domain ∧ r.id = reversalId ∧
      LogsEntries cfg s (s.reverseEntry cfg io entryId description domain).2 [r] ∧
      (s.reverseEntry cfg io entryId description domain).2.balanceCache = s.balanceCache.addAll (entryDeltas s.accounts r) ∧
      (s.reverseEntry cfg io entryId description domain).2.entryDb = indexEntry io s.entryDb r := by
  unfold reverseEntry at h ⊢
  rcases checked : s.checkReversal entryId with err | original
  · rw [checked] at h
    cases h
  refine ⟨original, _, rfl, rfl, ?_⟩
  simp only [checked] at h ⊢
  rcases persistRowPair_effect cfg io s.takeSequence
      (.entry (s.sealReversal cfg io original entryId description domain))
      (some (s.sealReversal cfg io original entryId description domain).prevHash)
      (.reversalEvent ⟨entryId, (s.sealReversal cfg io original entryId description domain).id,
        (s.sealReversal cfg io original entryId description domain).postedAt⟩) fun _ => ⟨rfl, rfl⟩ with
    ⟨tm, c₁, c₂, pageA, slotA, pageB, slotB, hrun, wrote, -⟩ | ⟨err, tm, c₁, c₂, hrun, -⟩
  · simp only [hrun, updateBalances_eq] at h ⊢
    exact ⟨Except.ok.inj h, ⟨_, wrote, rfl⟩, rfl, rfl⟩
  · simp only [hrun] at h
    cases h

end Steps

/-- The entries that would be there if the entry with this id had never been posted: the others, without those that
    reverse it. -/
def withoutEntry (id : Uuid) (es : List JournalEntry) : List JournalEntry :=
  es.filter fun x => x.id ≠ id ∧ x.reversesEntryId ≠ some id

/-- In every run of such steps, a reversal that is accepted, of an entry that no committed one reverses, commits and
    indexes exactly one entry, with lines that mirror those of the reversed one. Every account is left with the balance it
    would have if the reversed entry had never been posted, and an account without a line in it with the balance it had. -/
theorem reversal_restores_balances (cfg : Config) (key : Option SigningKey) (s : LedgerStore) (io : Io)
    (e : JournalEntry) (description domain : String) (reversalId : Uuid)
    (run : Run.Reachable (step cfg) UndoStep (.down (.fresh key)) (.up s))
    (ok : UndoStep (.up s) (.call io (.reverseEntry e.id description domain)))
    (stored : e ∈ s.entryDb.entries) (unique : ∀ x ∈ s.entryDb.entries, x.id = e.id → x = e)
    (unreversed : ∀ x ∈ committedEntries s.disk.wal, x.reversesEntryId ≠ some e.id)
    (accepted : (s.reverseEntry cfg io e.id description domain).1 = .ok reversalId) :
    ∃ r, r.id = reversalId ∧ List.Forall₂ JournalLine.Mirrors e.lines r.lines ∧
      (s.reverseEntry cfg io e.id description domain).2.entryDb.entries = s.entryDb.entries ++ [r] ∧
      committedEntries (s.reverseEntry cfg io e.id description domain).2.disk.wal = committedEntries s.disk.wal ++ [r] ∧
      (∀ a acct, s.accounts.lookup a = some acct → (s.reverseEntry cfg io e.id description domain).2.balance a =
        signedSum acct.accountType.isDebitNormal a
          (withoutEntry e.id (committedEntries (s.reverseEntry cfg io e.id description domain).2.disk.wal))) ∧
      ∀ a, (∀ l ∈ e.lines, l.accountId ≠ a) →
        (s.reverseEntry cfg io e.id description domain).2.balance a = s.balance a := by
  have inv : (up s).Undoable cfg :=
    run.invariant (P := Machine.Undoable cfg)
      ⟨.fresh cfg key, fun _ hs => (nomatch hs), fun _ hs => (nomatch hs)⟩ fun _ _ _ hx ok h => hx.step ok h
  have complete := inv.complete s rfl
  have summed := inv.summed s rfl
  obtain ⟨original, r, checked, hr, hid, log, cache, entryDb⟩ := reverseEntry_accepted accepted
  obtain ⟨found, posted, -⟩ := checkReversal_ok checked
  obtain ⟨horiginal, hsame⟩ := EntryDb.findById_some found
  obtain rfl := unique original horiginal hsame
  have hlines : r.lines = original.lines.zipIdx.map fun l => reversalLine io l.1 l.2 := by
    rw [hr, sealReversal_lines]
  have hdelta : ∀ debitNormal a, r.balanceDelta debitNormal a = -original.balanceDelta debitNormal a := by
    intro debitNormal a
    have hstatus : r.status = .reversal := by rw [hr, sealReversal_status]
    simp only [JournalEntry.balanceDelta, hstatus, posted, EntryStatus.affectsBalance, if_true, hlines]
    exact lineSum_reversal io debitNormal a original.lines 0
  have hentries := log.entries_eq ok.1.noLeftover
  have hrest : withoutEntry original.id (committedEntries s.disk.wal ++ [r]) = (committedEntries s.disk.wal).erase original := by
    have hnodup : (committedEntries s.disk.wal).Nodup := inv.consistent.disk.increasing.imp fun hlt heq => by
      rw [heq] at hlt
      exact Nat.lt_irrefl _ hlt
    have hlast : r.reversesEntryId = some original.id := by simp [hr]
    rw [withoutEntry, List.filter_append, List.filter_cons_of_neg (by simp [hlast]), List.filter_nil, List.append_nil,
      hnodup.erase_eq_filter]
    refine List.filter_congr fun x hx => ?_
    have hsame : x.id = original.id ↔ x = original := ⟨unique x (complete ▸ hx), congrArg _⟩
    by_cases heq : x = original <;> simp [hsame, unreversed x hx, heq]
  refine ⟨r, hid, ?_, ?_, hentries, ?_, ?_⟩
  · rw [hlines]
    exact mirrors_reversalLines io original.lines 0
  · have origin : EntryOrigin cfg io s (.reverseEntry original.id description domain) r := hr ▸ .reversed checked
    have hindex := complete.indexEntry
      (origin.admitted inv.consistent.disk (inv.consistent.current s rfl) (complete.keyIndexed _)) io
    rw [entryDb, hindex, if_pos (origin.rowTaken trivial ok.2.2.2), ← complete]
  · intro a acct known
    have hcommitted : original ∈ committedEntries s.disk.wal := complete ▸ stored
    have hold : s.balanceCache.get a = _ := summed.known a acct known
    rw [hentries, hrest, LedgerStore.balance, cache, Tally.get_addAll, hold, total_entryDeltas known, hdelta,
      signedSum_erase hcommitted]
    omega
  · intro a untouched
    rw [LedgerStore.balance, cache, Tally.get_addAll]
    cases known : s.accounts.lookup a with
    | none =>
      rw [total_entryDeltas_unknown known]
      exact add_zero _
    | some =>
      rw [total_entryDeltas known, hdelta, JournalEntry.balanceDelta_eq_zero untouched]
      exact add_zero _

/-- Two transfers, the store closed and opened again, and the accounts in use since before that. -/
def Sample.reopenedRun : List Event :=
  twoAccounts ++ [.call io (.postEntry (transfer 10 none 5 2 1)),
    .call io (.postEntry (transfer 11 none 7 2 1)), .close, .openStore]

theorem reversal_restores_balances_reopened :
    ∃ s e, Run.exec (step config) (.down (.fresh none)) reopenedRun = some (.up s) ∧
      e ∈ s.entryDb.entries ∧ s.balance 1 = 12 ∧
      (s.reverseEntry config io e.id "undo" "test").2.balance 1 = 7 := by
  have hs : Run.exec (step config) (.down (.fresh none)) reopenedRun = some (.up _) := rfl
  obtain ⟨-, -, -, -, -, hrestored, -⟩ := reversal_restores_balances config none _ io _ "undo" "test" 900
    (Run.reachable_of_exec (by decide +kernel) hs) (by decide +kernel) List.mem_cons_self (by decide +kernel)
    (by decide +kernel) (by decide +kernel)
  exact ⟨_, _, hs, List.mem_cons_self, by decide +kernel, (hrestored 1 _ rfl).trans (by decide +kernel)⟩

/-- After the crash that loses the first entry, 5, from the balances, its reversal takes 5 from the rest, 7. -/
theorem reversal_after_crash : ((Run.exec (step config) (.down (.fresh none)) (twoAccounts ++
        [.call io (.postEntry (transfer 10 none 5 2 1)),
          crashBeforeIndex (transfer 11 none 7 2 1), .openStore])).bind store?).map
      (fun s => ((s.reverseEntry config io 10 "undo" "test").1.isOk,
        (s.reverseEntry config io 10 "undo" "test").2.balance 1,
        signedSum true 1 ((committedEntries s.disk.wal).filter fun x => x.id ≠ 10))) = some (true, 2, 7) := by
  decide +kernel

end VectorLedger
