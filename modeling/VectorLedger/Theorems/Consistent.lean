import VectorLedger.Theorems.Keys
import VectorLedger.Theorems.Rebuild
import VectorLedger.Theorems.Sequence

/-! The log and the SQLite index over the life of a ledger: the indexed entries are the first of the committed ones. -/

namespace VectorLedger

open LedgerStore List TxLog

def committedAccounts (w : Segments WalRecord) : List Account := accountsOf (journal w)

/-- The log is numbered upwards without clashes, its lines are on known accounts, and the index is a first part of it. -/
structure Disk.Consistent (cfg : Config) (d : Disk) : Prop where
  durable : d.Durable cfg
  increasing : (committedEntries d.wal).Pairwise fun a b => a.sequence < b.sequence
  noClash : (committedEntries d.wal).Pairwise fun a b => ¬ Clash a b
  positive : ∀ e ∈ committedEntries d.wal, 0 < e.sequence
  linesKnown : LinesKnown [] (journal d.wal)
  types : ∀ a ∈ committedAccounts d.wal, ∀ b ∈ committedAccounts d.wal, a.id = b.id → a.accountType = b.accountType
  sqliteTypes : ∀ a ∈ d.entryDb.accounts, ∃ b ∈ committedAccounts d.wal, b.id = a.id ∧ b.accountType = a.accountType
  indexed : d.entryDb.entries <+: committedEntries d.wal
  /-- An entry that is not indexed is replayed by the next open. -/
  pending : ∀ e ∈ committedEntries d.wal, e ∈ d.entryDb.entries ∨ e ∈ entriesOf d.visible
  /-- A checkpoint is written only when something is indexed. -/
  unmarked : d.entryDb.entries = [] → d.walCheckpoint = none

/-- An open store agrees with its log: new sequences are above the committed ones, and the accounts in memory are
    committed ones. -/
structure LedgerStore.Current (s : LedgerStore) : Prop where
  positive : 0 < s.nextSequence
  below : ∀ e ∈ committedEntries s.disk.wal, e.sequence < s.nextSequence
  accounts : ∀ a acct, s.accounts.lookup a = some acct →
    acct.id = a ∧ ∃ b ∈ committedAccounts s.disk.wal, b.id = a ∧ b.accountType = acct.accountType

/-- Every committed entry is indexed. -/
def LedgerStore.Complete (s : LedgerStore) : Prop := s.entryDb.entries = committedEntries s.disk.wal

instance (s : LedgerStore) : Decidable s.Complete := by
  unfold LedgerStore.Complete
  infer_instance

/-- An account is created under a new id. -/
def FreshId (s : LedgerStore) : Op → Prop
  | .createAccount a => ∀ b ∈ committedAccounts s.disk.wal, b.id ≠ a.id
  | _ => True

instance (s : LedgerStore) (op : Op) : Decidable (FreshId s op) := by
  rcases op with _ | _ <;> unfold FreshId <;> infer_instance

/-- Entries are posted and reversed only while the index is complete. -/
def IndexReady (s : LedgerStore) : Op → Prop
  | .postEntry _ | .reverseEntry _ _ _ => s.Complete
  | _ => True

theorem Disk.Consistent.fresh (cfg : Config) (key : Option SigningKey) : (Disk.fresh key).Consistent cfg where
  durable := .fresh cfg key
  increasing := List.Pairwise.nil
  noClash := List.Pairwise.nil
  positive _ he := nomatch he
  linesKnown := trivial
  types _ ha := nomatch ha
  sqliteTypes _ ha := nomatch ha
  indexed := nil_prefix
  pending _ he := nomatch he
  unmarked _ := rfl

/-! ### Calls -/

section Calls
variable {cfg : Config} {io : Io} {s s' : LedgerStore} {op : Op} {ps : List DataPayload} {e : JournalEntry}

theorem Wrote.accounts_eq {tm tm' : TransactionManager} (wrote : Wrote cfg tm ps tm') (clean : tm.NoLeftover) :
    committedAccounts tm'.wal = committedAccounts tm.wal ++ accountsOf ps := by
  rw [committedAccounts, committedAccounts, ← accountsOf_append, wrote.journal_eq clean]

theorem Wrote.visible_eq (wrote : Wrote cfg s.txManager ps s'.txManager) (clean : s.txManager.NoLeftover)
    (durable : s.disk.Durable cfg) (durable' : s'.disk.Durable cfg) (checkpoint : s'.walCheckpoint = s.walCheckpoint) :
    s'.disk.visible = s.disk.visible ++ ps := by
  have hstart : s'.disk.startSegment = s.disk.startSegment := by
    simp only [Disk.startSegment, disk, checkpoint]
  rw [durable'.visible_eq, durable.visible_eq, hstart]
  exact wrote.rowsFrom_eq clean durable.sliced durable.start

/-- An entry that can follow the committed ones. -/
structure Admitted (s : LedgerStore) (e : JournalEntry) : Prop where
  positive : 0 < e.sequence
  above : ∀ c ∈ committedEntries s.disk.wal, c.sequence < e.sequence
  noClash : ∀ c ∈ committedEntries s.disk.wal, ¬ Clash c e
  lines : ∀ l ∈ e.lines, ∃ a ∈ committedAccounts s.disk.wal, a.id = l.accountId

/-- The invariant over a write: its entry is admitted, its versions of accounts keep their types, and the index
    takes in no other entry. -/
theorem Disk.Consistent.grow (h : s.disk.Consistent cfg) (durable : s'.disk.Durable cfg)
    (wrote : Wrote cfg s.txManager ps s'.txManager) (clean : s.txManager.NoLeftover)
    (checkpoint : s'.walCheckpoint = s.walCheckpoint)
    (entries : entriesOf ps = [] ∨ ∃ e, entriesOf ps = [e] ∧ Admitted s e)
    (types : ∀ a ∈ accountsOf ps, ∀ b ∈ committedAccounts s.disk.wal ++ accountsOf ps,
      a.id = b.id → a.accountType = b.accountType)
    (indexed : s'.entryDb.entries <+: committedEntries s.disk.wal ++ entriesOf ps)
    (kept : ∀ e ∈ s.entryDb.entries, e ∈ s'.entryDb.entries)
    (sqlite : ∀ a ∈ s'.entryDb.accounts, a ∈ s.entryDb.accounts ∨ a ∈ accountsOf ps) :
    s'.disk.Consistent cfg := by
  have hjournal : journal s'.disk.wal = journal s.disk.wal ++ ps := wrote.journal_eq clean
  have hentries : committedEntries s'.disk.wal = committedEntries s.disk.wal ++ entriesOf ps :=
    wrote.entries_eq clean
  have haccounts : committedAccounts s'.disk.wal = committedAccounts s.disk.wal ++ accountsOf ps :=
    wrote.accounts_eq clean
  have hvisible := wrote.visible_eq clean h.durable durable checkpoint
  have admitted : ∀ e ∈ entriesOf ps, Admitted s e := by
    rcases entries with hnone | ⟨e, hone, hadm⟩
    · simp [hnone]
    · simpa [hone] using hadm
  have single : ∀ R : JournalEntry → JournalEntry → Prop, (entriesOf ps).Pairwise R := by
    intro R
    rcases entries with hnone | ⟨e, hone, -⟩
    · rw [hnone]
      exact List.Pairwise.nil
    · rw [hone]
      exact pairwise_singleton R e
  refine ⟨durable, ?_, ?_, ?_, ?_, ?_, ?_, ?_, ?_, ?_⟩
  · rw [hentries]
    exact pairwise_append.2 ⟨h.increasing, single _, fun c hc e he => (admitted e he).above c hc⟩
  · rw [hentries]
    exact pairwise_append.2 ⟨h.noClash, single _, fun c hc e he => (admitted e he).noClash c hc⟩
  · rw [hentries, forall_mem_append]
    exact ⟨h.positive, fun e he => (admitted e he).positive⟩
  · rw [hjournal]
    exact h.linesKnown.append (.of_all fun e he => (admitted e he).lines)
  · intro a ha b hb hid
    rw [haccounts] at ha hb
    rcases mem_append.1 ha with ha | ha
    · rcases mem_append.1 hb with hb | hb
      · exact h.types a ha b hb hid
      · exact (types b hb a (mem_append_left _ ha) hid.symm).symm
    · exact types a ha b hb hid
  · intro a ha
    rw [haccounts]
    rcases sqlite a ha with ha | ha
    · obtain ⟨b, hb, hsame⟩ := h.sqliteTypes a ha
      exact ⟨b, mem_append_left _ hb, hsame⟩
    · exact ⟨a, mem_append_right _ ha, rfl, rfl⟩
  · rw [hentries]
    exact indexed
  · intro e he
    rw [hentries, mem_append] at he
    rw [hvisible, entriesOf_append, mem_append]
    rcases he with he | he
    · rcases h.pending e he with hdb | hvis
      · exact .inl (kept e hdb)
      · exact .inr (.inl hvis)
    · exact .inr (.inr he)
  · intro hnil
    have hold : s.entryDb.entries = [] := by
      rw [eq_nil_iff_forall_not_mem]
      intro e he
      have hmem : e ∈ s'.disk.entryDb.entries := kept e he
      rw [hnil] at hmem
      cases hmem
    exact checkpoint.trans (h.unmarked hold)

theorem EntryOrigin.admitted (origin : EntryOrigin cfg io s op e) (h : s.disk.Consistent cfg) (current : s.Current)
    (keys : KeyIndexed s op) : Admitted s e := by
  have hseq := origin.counters.1
  refine ⟨hseq ▸ current.positive, fun c hc => hseq ▸ current.below c hc, ?_, ?_⟩
  · rintro c hc (hsame | ⟨hne, hkey⟩)
    · have := current.below c hc
      omega
    · obtain ⟨key, hsome⟩ := Option.ne_none_iff_exists'.1 hne
      exact origin.key_fresh keys (hkey ▸ hsome) c hc hsome
  · refine origin.lines (P := fun a => ∃ b ∈ committedAccounts s.disk.wal, b.id = a) ?_ ?_
    · intro a acct found
      obtain ⟨-, b, hb, hid, -⟩ := current.accounts a acct found
      exact ⟨b, hb, hid⟩
    · intro x hx l hl
      exact h.linesKnown.mem (h.indexed.mem hx) hl

theorem LedgerStore.Complete.indexEntry (complete : s.Complete) (admitted : Admitted s e) (io : Io) :
    (indexEntry io s.entryDb e).entries =
      if io.sqliteRow then committedEntries s.disk.wal ++ [e] else committedEntries s.disk.wal := by
  have above : ∀ x ∈ s.entryDb.entries, x.sequence < e.sequence := by
    rw [complete]
    exact admitted.above
  have accepted : ¬ s.entryDb.Refused e := by
    rintro (hzero | ⟨row, hrow, hclash⟩)
    · have := admitted.positive
      omega
    · rw [complete] at hrow
      exact admitted.noClash row hrow hclash.symm
  have hinsert : (s.entryDb.insert e).entries = committedEntries s.disk.wal ++ [e] := by
    rw [EntryDb.entries_insert accepted, EntryDb.insertBySequence_last above, complete]
  unfold LedgerStore.indexEntry
  cases hrow : io.sqliteRow with
  | false => exact complete
  | true =>
    simp only [Bool.not_true, Bool.false_eq_true, if_false, if_true]
    split
    · exact hinsert
    · rw [entries_insertRefs, hinsert]

theorem LedgerStore.Current.type_eq (current : s.Current) (h : s.disk.Consistent cfg) {id : AccountId}
    {acct acct' : Account} (found : s.accounts.lookup id = some acct) (hid : acct'.id = acct.id)
    (htype : acct'.accountType = acct.accountType) :
    ∀ b ∈ committedAccounts s.disk.wal ++ [acct'], acct'.id = b.id → acct'.accountType = b.accountType := by
  obtain ⟨hkey, c, hc, hcid, hctype⟩ := current.accounts id acct found
  intro b hb hsame
  rcases mem_append.1 hb with hb | hb
  · rw [htype, ← hctype]
    exact h.types c hc b hb (by rw [hcid, ← hkey, ← hid, hsame])
  · rw [mem_singleton.1 hb]

/-- Whatever a call does, the disk stays consistent. -/
theorem Disk.Consistent.effect (h : s.disk.Consistent cfg) (current : s.Current)
    (effect : Effect cfg io s op s') (appendable : s.txManager.Appendable) (fresh : FreshId s op)
    (ready : IndexReady s op) (keys : KeyIndexed s op) : s'.disk.Consistent cfg := by
  have durable := h.durable.effect effect appendable
  have clean := appendable.noLeftover
  have hbefore : ∀ {db : EntryDb} {es : List JournalEntry}, db.entries = s.entryDb.entries →
      db.entries <+: committedEntries s.disk.wal ++ es :=
    fun hdb => hdb ▸ h.indexed.trans (prefix_append _ _)
  have hkept : ∀ {db : EntryDb}, db.entries = s.entryDb.entries → ∀ e ∈ s.entryDb.entries, e ∈ db.entries :=
    fun hdb _ he => hdb ▸ he
  have posting : ∀ {e : JournalEntry} (rows : List DataPayload), EntryOrigin cfg io s op e →
      IndexReady s op = s.Complete → entriesOf rows = [e] → accountsOf rows = [] →
      Wrote cfg s.txManager rows s'.txManager → s'.walCheckpoint = s.walCheckpoint →
      s'.entryDb = indexEntry io s.entryDb e → s'.disk.Consistent cfg := by
    intro e rows origin hready hrows haccts wrote hcp hdb
    have complete : s.Complete := hready ▸ ready
    have admitted := origin.admitted h current keys
    have hindex := complete.indexEntry admitted io
    rw [← hdb] at hindex
    refine h.grow durable wrote clean hcp (.inr ⟨e, hrows, admitted⟩) (by simp [haccts]) ?_ ?_ ?_
    · rw [hindex, hrows]
      split
      · exact prefix_rfl
      · exact prefix_append _ _
    · intro x hx
      rw [complete] at hx
      rw [hindex]
      split
      · exact mem_append_left _ hx
      · exact hx
    · intro a ha
      rw [hdb, accounts_indexEntry] at ha
      exact .inl ha
  cases effect with
  | rejected => exact h
  | failed op c₁ c₂ reached wrote =>
    have hdb : (op.begun s).entryDb = s.entryDb := Op.begun_entryDb s op
    have hentries := congrArg EntryDb.entries hdb
    refine h.grow durable wrote clean (op.begun_walCheckpoint s) (.inl rfl) (by simp) (hbefore hentries) (hkept hentries) ?_
    intro a ha
    have ha' : a ∈ (op.begun s).entryDb.accounts := ha
    rw [hdb] at ha'
    exact .inl ha'
  | @created a tm c₁ c₂ page slot wrote =>
    refine h.grow durable wrote clean rfl (.inl rfl) ?_ (hbefore EntryDb.entries_upsertAccount)
      (hkept EntryDb.entries_upsertAccount) fun b => EntryDb.mem_of_mem_upsertAccount
    intro a' ha' b hb hid
    obtain rfl := mem_singleton.1 ha'
    rcases mem_append.1 hb with hb | hb
    · exact absurd hid.symm (fresh b hb)
    · rw [mem_singleton.1 hb]
  | @closed id acct tm c₁ c₂ page slot found wrote =>
    refine h.grow durable wrote clean rfl (.inl rfl) ?_ (hbefore EntryDb.entries_upsertAccount)
      (hkept EntryDb.entries_upsertAccount) fun b => EntryDb.mem_of_mem_upsertAccount
    intro a' ha'
    obtain rfl := mem_singleton.1 ha'
    exact current.type_eq h found rfl rfl
  | @held id hold acct tm c₁ c₂ page slot found wrote =>
    refine h.grow durable wrote clean rfl (.inl rfl) ?_ (hbefore rfl) (hkept rfl) fun a ha => .inl ha
    intro a' ha'
    obtain rfl := mem_singleton.1 ha'
    exact current.type_eq h found rfl rfl
  | posted c₁ c₂ valid unseen checked wrote =>
    exact posting _ (.posted valid unseen checked) rfl rfl rfl wrote rfl rfl
  | reversed c₁ c₂ checked wrote => exact posting _ (.reversed checked) rfl rfl rfl wrote rfl rfl
  | imported c₁ c₂ valid unseen checked wrote =>
    have origin : EntryOrigin cfg io s _ _ := .imported valid unseen checked
    exact h.grow durable wrote clean rfl (.inr ⟨_, rfl, origin.admitted h current keys⟩)
      (by simp [accountsOf, payloadOf]) (hbefore rfl) (hkept rfl) fun a ha => .inl ha
  | settled c₁ c₂ wrote | reconciled c₁ c₂ wrote =>
    exact h.grow durable wrote clean rfl (.inl rfl) (by simp [accountsOf, payloadOf])
      (hbefore rfl) (hkept rfl) fun a ha => .inl ha

/-- An account in memory was there before with the same type, or has been written. -/
def LedgerStore.Stems (s : LedgerStore) (ps : List DataPayload) (a : AccountId) (acct : Account) : Prop :=
  (∃ old, s.accounts.lookup a = some old ∧ acct.id = old.id ∧ old.accountType = acct.accountType) ∨
    acct ∈ accountsOf ps ∧ acct.id = a

theorem LedgerStore.Current.grow (h : s.Current) (wrote : Wrote cfg s.txManager ps s'.txManager)
    (clean : s.txManager.NoLeftover) (next : s.nextSequence ≤ s'.nextSequence)
    (entries : ∀ e ∈ entriesOf ps, e.sequence < s'.nextSequence)
    (accounts : ∀ a acct, s'.accounts.lookup a = some acct → s.Stems ps a acct) : s'.Current := by
  have hentries : committedEntries s'.disk.wal = committedEntries s.disk.wal ++ entriesOf ps :=
    wrote.entries_eq clean
  have haccounts : committedAccounts s'.disk.wal = committedAccounts s.disk.wal ++ accountsOf ps :=
    wrote.accounts_eq clean
  refine ⟨Nat.lt_of_lt_of_le h.positive next, ?_, ?_⟩
  · rw [hentries, forall_mem_append]
    exact ⟨fun e he => Nat.lt_of_lt_of_le (h.below e he) next, entries⟩
  · intro a acct found
    rw [haccounts]
    rcases accounts a acct found with ⟨old, hold, hid, htype⟩ | ⟨hnew, hid⟩
    · obtain ⟨hkey, b, hb, hbid, hbtype⟩ := h.accounts a old hold
      exact ⟨hid.trans hkey, b, mem_append_left _ hb, hbid, hbtype.trans htype⟩
    · exact ⟨hid, acct, mem_append_right _ hnew, hid, rfl⟩

/-- Whatever a call does, the store stays current. -/
theorem LedgerStore.Current.effect (h : s.Current) (effect : Effect cfg io s op s')
    (clean : s.txManager.NoLeftover) : s'.Current := by
  have same {ps : List DataPayload} : ∀ a acct, s.accounts.lookup a = some acct → s.Stems ps a acct :=
    fun _ acct found => .inl ⟨acct, found, rfl, rfl⟩
  have version {ps : List DataPayload} {id : AccountId} {new : Account} (stems : s.Stems ps id new) :
      ∀ a acct, (s.accounts.insert id new).lookup a = some acct → s.Stems ps a acct := by
    intro a acct hlook
    by_cases ha : a = id
    · subst ha
      rw [Finmap.lookup_insert] at hlook
      cases hlook
      exact stems
    · rw [Finmap.lookup_insert_of_ne _ ha] at hlook
      exact same a acct hlook
  cases effect with
  | rejected => exact h
  | failed op c₁ c₂ reached wrote =>
    rcases op.begun_cases s with hsame | htaken | ⟨id, old, new, found, hid, htype, hversion⟩
    · rw [hsame]
      exact h.grow wrote clean (Nat.le_refl _) (by simp) same
    · rw [htaken]
      exact h.grow wrote clean (Nat.le_succ _) (by simp) same
    · rw [hversion]
      exact h.grow wrote clean (Nat.le_refl _) (by simp) (version (.inl ⟨old, found, hid, htype.symm⟩))
  | @created a tm c₁ c₂ page slot wrote =>
    exact h.grow wrote clean (Nat.le_refl _) (by simp [entriesOf, payloadOf]) (version (.inr ⟨mem_singleton.2 rfl, rfl⟩))
  | closed c₁ c₂ found wrote | held c₁ c₂ found wrote =>
    exact h.grow wrote clean (Nat.le_refl _) (by simp [entriesOf, payloadOf]) (version (.inl ⟨_, found, rfl, rfl⟩))
  | posted c₁ c₂ valid fresh checked wrote | imported c₁ c₂ valid fresh checked wrote =>
    refine h.grow wrote clean (Nat.le_succ _) ?_ same
    intro e he
    obtain rfl := mem_singleton.1 he
    rw [sealEntry_sequence]
    exact Nat.lt_succ_self _
  | reversed c₁ c₂ checked wrote =>
    refine h.grow wrote clean (Nat.le_succ _) ?_ same
    intro e he
    obtain rfl := mem_singleton.1 he
    rw [sealReversal_sequence]
    exact Nat.lt_succ_self _
  | settled c₁ c₂ wrote | reconciled c₁ c₂ wrote =>
    exact h.grow wrote clean (Nat.le_refl _) (by simp [entriesOf, payloadOf]) same

end Calls

end VectorLedger
