import VectorLedger.Server.Queries

/-! What the scans of SELECT read, and ledgers that agree on a domain and differ in what a scan returns. -/

namespace VectorLedger

section
open LedgerStore List

/-- Two ledgers have the same entries and the same accounts of a domain. -/
structure Ledger.AgreeOn (d : String) (g g' : Ledger) : Prop where
  entries : g.store.entryDb.entries.filter (fun e => e.domain = d) = g'.store.entryDb.entries.filter (fun e => e.domain = d)
  accounts : ∀ id a, a.domain = d → (g.store.accounts.lookup id = some a ↔ g'.store.accounts.lookup id = some a)

namespace Sql.Read

variable {env : ReadEnv} {s s' : LedgerStore} {g g' : Ledger} {f : Option EntryFilter} {d : String} {α : Type} {e : JournalEntry}

/-! ### Entries -/

def acceptsEntry (env : ReadEnv) (f : Option EntryFilter) (e : JournalEntry) : Bool :=
  match f with
  | some (.bySequence n) => e.sequence = n
  | some (.bySequenceIn ns) => e.sequence ∈ ns
  | some (.byDomain domain) => e.domain = domain
  | some (.byStatus status) => e.status.debug = LedgerStore.normaliseStatus env status
  | some (.byExternalRef ref) => e.externalRef = some ref
  | some (.byMetadataSearch query) => env.ftsMatch (LedgerStore.ftsQuery query) (e.metadata.getD "")
  | some (.byMetadataEq text) => e.metadata = some text
  | some (.byMetadataContains text) => e.metadata.any fun m => containsText (env.toLowercase text) (env.toLowercase m)
  | some (.limit n) => n ≠ 0
  | some (.byDrCr _) | some (.byAccountId _) | some (.byAccountCode _) | some (.byAccountName _)
  | some (.byValueIn _ _) | none => true

theorem find?_filter_of_imp {p q : α → Bool} (xs : List α) (h : ∀ a, p a → q a) :
    (xs.filter q).find? p = xs.find? p := by
  rw [find?_filter]
  congr 1
  funext a
  by_cases hp : p a
  · simp [hp, h a hp]
  · simp [hp]

@[simp] theorem sqlLimit_nil (n : Nat) : sqlLimit n ([] : List α) = [] := by
  simp [sqlLimit]

theorem selectEntries_congr
    (h : s.entryDb.entries.filter (acceptsEntry env f) = s'.entryDb.entries.filter (acceptsEntry env f)) :
    selectEntries env s f = selectEntries env s' f := by
  have hall (hf : ∀ e, acceptsEntry env f e = true) : s.entryDb.entries = s'.entryDb.entries := by
    rwa [filter_eq_self.2 fun e _ => hf e, filter_eq_self.2 fun e _ => hf e] at h
  rcases f with _ | f
  · simp only [selectEntries, entriesScan, hall fun _ => rfl]
  · cases f with
    | bySequence n =>
      have hfind : s.entryDb.getBySequence n = s'.entryDb.getBySequence n := by
        rw [EntryDb.getBySequence, EntryDb.getBySequence, ← head?_filter, ← head?_filter]
        exact congrArg head? h
      simp only [selectEntries, hfind]
    | bySequenceIn ns =>
      have hfind : ∀ n ∈ ns, s.entryDb.getBySequence n = s'.entryDb.getBySequence n := by
        intro n hn
        have himp : ∀ e : JournalEntry, decide (e.sequence = n) = true → acceptsEntry env (some (.bySequenceIn ns)) e = true := by
          intro e he
          simpa [acceptsEntry, of_decide_eq_true he] using hn
        rw [EntryDb.getBySequence, EntryDb.getBySequence, ← find?_filter_of_imp _ himp, h, find?_filter_of_imp _ himp]
      simp only [selectEntries, filterMap_congr hfind]
    | byDomain | byStatus => exact congrArg (fun es => Selected.upToDefault (sqlLimit defaultScanLimit es)) h
    | byExternalRef => exact congrArg (fun es => (⟨sqlLimit defaultQueryLimit es, false⟩ : Selected)) h
    | byMetadataSearch => exact congrArg (fun es => (⟨sqlLimit defaultScanLimit es, false⟩ : Selected)) h
    | byMetadataEq | byMetadataContains => exact congrArg (fun es => (⟨es.take defaultScanLimit, false⟩ : Selected)) h
    | limit n =>
      rcases Nat.eq_zero_or_pos n with rfl | hn
      · rfl
      · simp only [selectEntries, entriesScan, hall fun _ => by simp [acceptsEntry, Nat.ne_of_gt hn]]
    | _ => simp only [selectEntries, entriesScan, hall fun _ => rfl]

theorem mem_sqlLimit_head {n : Nat} (hn : n ≠ 0) (x : α) (xs : List α) : x ∈ sqlLimit n (x :: xs) := by
  unfold sqlLimit
  split
  · exact mem_cons_self
  · obtain ⟨m, rfl⟩ := Nat.exists_eq_succ_of_ne_zero hn
    exact mem_cons_self

theorem defaultScanLimit_ne : defaultScanLimit ≠ 0 := Nat.succ_ne_zero 9999

theorem mem_selectEntries_head {es : List JournalEntry} (hentries : s.entryDb.entries = e :: es)
    (accepted : acceptsEntry env f e) : e ∈ (selectEntries env s f).entries := by
  have hfilter : s.entryDb.entries.filter (acceptsEntry env f) = e :: es.filter (acceptsEntry env f) := by
    rw [hentries, filter_cons_of_pos accepted]
  have hhead {p : JournalEntry → Bool} (n : Nat) (hn : n ≠ 0) (hp : p e = true) :
      e ∈ sqlLimit n (s.entryDb.entries.filter p) := by
    rw [hentries, filter_cons_of_pos hp]
    exact mem_sqlLimit_head hn _ _
  have hfull (n : Nat) (hn : n ≠ 0) : e ∈ s.entriesScan n := by
    rw [entriesScan, hentries]
    exact mem_sqlLimit_head hn _ _
  have hfind (n : Nat) (hn : e.sequence = n) : s.entryDb.getBySequence n = some e := by
    rw [EntryDb.getBySequence, hentries, find?_cons_of_pos (by simpa using hn)]
  have htake (n : Nat) (hn : n ≠ 0) : e ∈ (s.entryDb.entries.filter (acceptsEntry env f)).take n := by
    rw [hfilter]
    obtain ⟨m, rfl⟩ := Nat.exists_eq_succ_of_ne_zero hn
    exact mem_cons_self
  rcases f with _ | f
  · exact hfull defaultScanLimit defaultScanLimit_ne
  · cases f with
    | bySequence n => simp [selectEntries, hfind n (by simpa [acceptsEntry] using accepted)]
    | bySequenceIn =>
      simp only [selectEntries, mem_insertionSort, mem_filterMap]
      exact ⟨e.sequence, by simpa [acceptsEntry] using accepted, hfind _ rfl⟩
    | byDomain | byStatus | byMetadataSearch => exact hhead defaultScanLimit defaultScanLimit_ne accepted
    | byExternalRef => exact hhead defaultQueryLimit defaultScanLimit_ne accepted
    | byMetadataEq | byMetadataContains => exact htake defaultScanLimit defaultScanLimit_ne
    | limit n =>
      have hn : n ≠ 0 := by simpa [acceptsEntry] using accepted
      simpa only [selectEntries] using hfull n hn
    | _ => exact hfull defaultScanLimit defaultScanLimit_ne

theorem mem_of_sqlLimit {n : Nat} {x : α} {xs : List α} (h : x ∈ sqlLimit n xs) : x ∈ xs := by
  unfold sqlLimit at h
  split at h
  · exact h
  · exact mem_of_mem_take h

theorem mem_of_selectEntries (h : e ∈ (selectEntries env s f).entries) : e ∈ s.entryDb.entries := by
  have hfind (n : Nat) (h : s.entryDb.getBySequence n = some e) : e ∈ s.entryDb.entries := mem_of_find?_eq_some h
  have hlimit (n : Nat) {p : JournalEntry → Bool} (h : e ∈ sqlLimit n (s.entryDb.entries.filter p)) :
      e ∈ s.entryDb.entries := mem_of_mem_filter (mem_of_sqlLimit h)
  have htake (n : Nat) {p : JournalEntry → Bool} (h : e ∈ (s.entryDb.entries.filter p).take n) : e ∈ s.entryDb.entries :=
    mem_of_mem_filter (mem_of_mem_take h)
  rcases f with _ | f
  · exact mem_of_sqlLimit (n := defaultScanLimit) h
  · cases f with
    | bySequence n => exact hfind n (Option.mem_toList.1 h)
    | bySequenceIn =>
      simp only [selectEntries, mem_insertionSort, mem_filterMap] at h
      obtain ⟨n, -, hn⟩ := h
      exact hfind n hn
    | byDomain | byStatus | byMetadataSearch => exact hlimit defaultScanLimit h
    | byExternalRef => exact hlimit defaultQueryLimit h
    | byMetadataEq | byMetadataContains => exact htake defaultScanLimit h
    | limit =>
      simp only [selectEntries, entriesScan] at h
      exact mem_of_sqlLimit h
    | _ => exact mem_of_sqlLimit (n := defaultScanLimit) h

theorem selectEntries_all (h : s.entryDb.entries.length ≤ defaultScanLimit) :
    (selectEntries env s none).entries = s.entryDb.entries := by
  change sqlLimit defaultScanLimit s.entryDb.entries = _
  unfold sqlLimit
  split
  · rfl
  · exact take_of_length_le h

theorem selectEntries_nil (h : s.entryDb.entries.filter (acceptsEntry env f) = []) : (selectEntries env s f).entries = [] := by
  have hempty : (initial (.fresh none)).entryDb.entries = [] := rfl
  have hcongr : selectEntries env s f = selectEntries env (initial (.fresh none)) f :=
    selectEntries_congr (by rw [h, hempty, filter_nil])
  rw [hcongr]
  rcases f with _ | f
  · simp [selectEntries, Selected.upToDefault, entriesScan, hempty]
  · cases f with
    | bySequenceIn ns =>
      have hnone : ns.filterMap (initial (.fresh none)).entryDb.getBySequence = [] :=
        filterMap_eq_nil_iff.2 fun _ _ => rfl
      simp only [selectEntries, hnone, insertionSort_nil]
    | _ =>
      simp [selectEntries, Selected.upToDefault, entriesScan, entriesByDomainLimited,
        entriesByStatusLimited, entriesByExternalRef, searchMetadata, streamed,
        EntryDb.getBySequence, hempty]

theorem filter_of_imp {p q : α → Bool} (xs : List α) (h : ∀ x ∈ xs, p x → q x) :
    xs.filter p = (xs.filter q).filter p := by
  rw [filter_filter]
  refine filter_congr fun x hx => ?_
  cases hp : p x with
  | false => rfl
  | true => rw [h x hx hp]; rfl

theorem filter_accepts_eq (agree : g.AgreeOn d g')
    (only : ∀ e, 0 < e.sequence → acceptsEntry env f e → e.domain = d) :
    g.store.entryDb.entries.filter (acceptsEntry env f) = g'.store.entryDb.entries.filter (acceptsEntry env f) := by
  have hrestrict (s : LedgerStore) := filter_of_imp s.entryDb.entries fun e he ha => decide_eq_true (only e (s.entryDb.positive e he) ha)
  rw [hrestrict, hrestrict, agree.entries]

def selectLines (env : ReadEnv) (s : LedgerStore) (f : Option EntryFilter) : List (JournalEntry × JournalLine) :=
  (selectEntries env s f).entries.flatMap fun e => (e.lines.filter (acceptsLine f)).map fun l => (e, l)

theorem execScanLedgerLines_rows (env : ReadEnv) (s : LedgerStore) (f : Option EntryFilter) :
    (execScanLedgerLines env s f).rows = (selectLines env s f).map fun x => lineRow env x.1 x.2 := by
  simp [execScanLedgerLines, selectLines, map_flatMap, Function.comp_def]

/-! ### Accounts -/

theorem accounts_perm (agree : g.AgreeOn d g') :
    (g.allAccounts.filter fun a => a.domain = d).Perm (g'.allAccounts.filter fun a => a.domain = d) := by
  have hids (g : Ledger) : g.allAccounts.filter (fun a => a.domain = d) =
      (g.order.filter fun id => (g.store.accounts.lookup id).any fun a => a.domain = d).filterMap g.store.accounts.lookup := by
    unfold Ledger.allAccounts
    induction g.order with
    | nil => rfl
    | cons id ids ih =>
      rcases hid : g.store.accounts.lookup id with _ | a
      · simp [hid, ih]
      · by_cases ha : a.domain = d <;> simp [hid, ha, ih]
  have hmem (g : Ledger) (id : AccountId) :
      id ∈ g.order.filter (fun id => (g.store.accounts.lookup id).any fun a => a.domain = d) ↔
        ∃ a, a.domain = d ∧ g.store.accounts.lookup id = some a := by
    rw [mem_filter, g.mem_order, Option.any_eq_true]
    constructor
    · rintro ⟨-, a, ha, hd⟩
      exact ⟨a, of_decide_eq_true hd, ha⟩
    · rintro ⟨a, hd, ha⟩
      exact ⟨Finmap.mem_of_lookup_eq_some ha, a, ha, decide_eq_true hd⟩
  rw [hids g, hids g']
  have hperm : (g.order.filter fun id => (g.store.accounts.lookup id).any fun a => a.domain = d).Perm
      (g'.order.filter fun id => (g'.store.accounts.lookup id).any fun a => a.domain = d) := by
    refine (perm_ext_iff_of_nodup (g.nodup.filter _) (g'.nodup.filter _)).2 fun id => ?_
    rw [hmem, hmem]
    exact exists_congr fun a => and_congr_right fun ha => agree.accounts id a ha
  refine (hperm.filterMap _).trans (List.Perm.of_eq (filterMap_congr fun id hid => ?_))
  obtain ⟨a, ha, hlookup⟩ := (hmem g' id).1 hid
  rw [hlookup, (agree.accounts id a ha).2 hlookup]

theorem accepted_accounts_perm (agree : g.AgreeOn d g') (only : ∀ a, acceptsAccount f a → a.domain = d) :
    (g.allAccounts.filter (acceptsAccount f)).Perm (g'.allAccounts.filter (acceptsAccount f)) := by
  have hrestrict (g : Ledger) := filter_of_imp g.allAccounts fun a _ ha => decide_eq_true (only a ha)
  rw [hrestrict g, hrestrict g']
  exact (accounts_perm agree).filter _

/-! ### What a scan can return -/

/-- A scan with this filter can return something of such a domain. -/
def CanReturn (env : ReadEnv) (f : Option EntryFilter) (P : String → Prop) : ScanTable → Prop
  | .ledger => ∃ e, 0 < e.sequence ∧ acceptsEntry env f e ∧ P e.domain
  | .ledgerLines => ∃ e l, 0 < e.sequence ∧ acceptsEntry env f e ∧ acceptsLine f l ∧ P e.domain
  | .accounts => ∃ a, acceptsAccount f a ∧ P a.domain

/-- The filter lets something of another domain pass. -/
def Leaves (env : ReadEnv) (d : String) (f : Option EntryFilter) (table : ScanTable) : Prop :=
  CanReturn env f (· ≠ d) table

/-- The filter lets something pass. -/
def Returns (env : ReadEnv) (f : Option EntryFilter) (table : ScanTable) : Prop := CanReturn env f (fun _ => True) table

end Sql.Read

end

open List

/-- A ledger with the given index, accounts and balances. The accounts are iterated in the order given. -/
def Ledger.of (db : EntryDb) (accounts : List Account) (nodup : (accounts.map (·.id)).Nodup) (cache : BalanceCache) :
    Ledger where
  store := { LedgerStore.initial (.fresh none) with
    entryDb := db
    accounts := (accounts.map fun a => (⟨a.id, a⟩ : Sigma fun _ : AccountId => Account)).toFinmap
    balanceCache := cache }
  order := accounts.map (·.id)
  nodup := nodup
  mem_order id := by
    rw [Finmap.mem_list_toFinmap]
    simp only [List.mem_map]
    constructor
    · rintro ⟨a, ha, rfl⟩
      exact ⟨a, a, ha, rfl⟩
    · rintro ⟨b, a, ha, heq⟩
      exact ⟨a, ha, congrArg Sigma.fst heq⟩

namespace Ledger

variable {db db' : EntryDb} {accounts accounts' : List Account} {nodup : (accounts.map (·.id)).Nodup}
  {nodup' : (accounts'.map (·.id)).Nodup} {cache cache' : BalanceCache} {d : String}

theorem lookup_of {id : AccountId} {a : Account} :
    (Ledger.of db accounts nodup cache).store.accounts.lookup id = some a ↔ a ∈ accounts ∧ a.id = id := by
  have hkeys : (accounts.map fun a => (⟨a.id, a⟩ : Sigma fun _ : AccountId => Account)).NodupKeys := by
    rw [List.NodupKeys, keys, map_map]
    exact nodup
  rw [show (Ledger.of db accounts nodup cache).store.accounts.lookup id = _ from Finmap.dlookup_list_toFinmap id _,
    ← Option.mem_def, mem_dlookup_iff hkeys, mem_map]
  constructor
  · rintro ⟨b, hb, heq⟩
    cases heq
    exact ⟨hb, rfl⟩
  · rintro ⟨ha, rfl⟩
    exact ⟨a, ha, rfl⟩

@[simp] theorem allAccounts_of : (Ledger.of db accounts nodup cache).allAccounts = accounts := by
  have hlookup : ∀ a ∈ accounts, (Ledger.of db accounts nodup cache).store.accounts.lookup a.id = some a :=
    fun a ha => lookup_of.2 ⟨ha, rfl⟩
  calc (accounts.map (·.id)).filterMap (Ledger.of db accounts nodup cache).store.accounts.lookup
    _ = accounts.filterMap fun a => (Ledger.of db accounts nodup cache).store.accounts.lookup a.id := filterMap_map ..
    _ = accounts.filterMap some := filterMap_congr hlookup
    _ = accounts := filterMap_some

@[simp] theorem balance_of (a : AccountId) : (Ledger.of db accounts nodup cache).store.balance a = cache.get a := rfl

theorem agreeOn_of
    (entries : db.entries.filter (fun e => e.domain = d) = db'.entries.filter (fun e => e.domain = d))
    (same : ∀ a : Account, a.domain = d → (a ∈ accounts ↔ a ∈ accounts')) :
    (Ledger.of db accounts nodup cache).AgreeOn d (Ledger.of db' accounts' nodup' cache') where
  entries := entries
  accounts id a ha := by rw [lookup_of, lookup_of, same a ha]

def empty : Ledger := .of .empty [] List.nodup_nil ∅

theorem other_ne (d : String) : d ++ "x" ≠ d := fun h => by simpa using congrArg String.length h

end Ledger

def JournalEntry.bare (id : Uuid) (sequence : Nat) (domain : String) : JournalEntry where
  id := id
  sequence := sequence
  status := .posted
  description := ""
  lines := []
  effectiveAt := 0
  postedAt := 0
  externalRef := none
  idempotencyKey := none
  reversesEntryId := none
  reversedByEntryId := none
  domain := domain
  contentHash := zeroHash
  prevHash := zeroHash
  chainHash := zeroHash
  approvedBy := none
  metadata := none

def EntryDb.one (e : JournalEntry) (positive : 0 < e.sequence) : EntryDb where
  entries := [e]
  accountEntries := ∅
  accounts := []
  sorted := List.pairwise_singleton _ e
  noClash := List.pairwise_singleton _ e
  positive := by simpa using positive

def EntryDb.two (e e' : JournalEntry) (positive : 0 < e.sequence) (lt : e.sequence < e'.sequence)
    (keyless : e'.idempotencyKey = none) : EntryDb where
  entries := [e, e']
  accountEntries := ∅
  accounts := []
  sorted := List.pairwise_pair.2 lt
  noClash := by
    refine List.pairwise_pair.2 fun hclash => ?_
    rcases hclash with hseq | ⟨hkey, heq⟩
    · exact Nat.ne_of_lt lt hseq
    · exact hkey (heq.trans keyless)
  positive := by
    simp only [List.mem_cons, List.not_mem_nil, or_false, forall_eq_or_imp, forall_eq]
    exact ⟨positive, Nat.lt_trans positive lt⟩

namespace Sql.Read

variable {env : ReadEnv} {f : Option EntryFilter} {d : String} {table : ScanTable}

theorem acceptsEntry_with (env : ReadEnv) (f : Option EntryFilter) (e : JournalEntry) (id : Uuid) (lines : List JournalLine) :
    acceptsEntry env f { e with id := id, lines := lines } = acceptsEntry env f e := by
  rcases f with _ | f
  · rfl
  · cases f <;> rfl

theorem mem_selectLines {s : LedgerStore} {es : List JournalEntry} {l : JournalLine}
    (hentries : s.entryDb.entries = e :: es) (accepted : acceptsEntry env f e) (hl : l ∈ e.lines) (hline : acceptsLine f l) :
    (e, l) ∈ selectLines env s f := by
  refine mem_flatMap.2 ⟨e, mem_selectEntries_head hentries accepted, mem_map.2 ⟨l, ?_, rfl⟩⟩
  exact mem_filter.2 ⟨hl, hline⟩

theorem execScan_empty (env : ReadEnv) (f : Option EntryFilter) (table : ScanTable) :
    (execScan env .empty table f).rows = [] := by
  have hselect : (selectEntries env Ledger.empty.store f).entries = [] := selectEntries_nil rfl
  cases table with
  | ledger => simp [execScan, execScanEntries, hselect]
  | ledgerLines => simp [execScan, execScanLedgerLines, hselect]
  | accounts => simp [execScan, execScanAccounts, Ledger.empty]

theorem exists_leak (h : Leaves env d f table) : ∃ g, Ledger.empty.AgreeOn d g ∧ (execScan env g table f).rows ≠ [] := by
  cases table with
  | ledger =>
    obtain ⟨e, positive, accepted, hd⟩ := h
    refine ⟨.of (.one e positive) [] nodup_nil ∅, Ledger.agreeOn_of ?_ (by simp), ?_⟩
    · simp [EntryDb.empty, EntryDb.one, hd]
    · have hmem := mem_selectEntries_head (s := (Ledger.of (.one e positive) [] nodup_nil ∅).store) rfl accepted
      simpa [execScan, execScanEntries] using ne_nil_of_mem hmem
  | ledgerLines =>
    obtain ⟨e, l, positive, accepted, hline, hd⟩ := h
    let e' := { e with lines := [l] }
    refine ⟨.of (.one e' positive) [] nodup_nil ∅, Ledger.agreeOn_of ?_ (by simp), ?_⟩
    · simp [EntryDb.empty, EntryDb.one, e', hd]
    · have hmem := mem_selectLines (s := (Ledger.of (.one e' positive) [] nodup_nil ∅).store) rfl
        ((acceptsEntry_with env f e e.id [l]).trans accepted) mem_cons_self hline
      rw [execScan, execScanLedgerLines_rows]
      simpa using ne_nil_of_mem hmem
  | accounts =>
    obtain ⟨a, accepted, hd⟩ := h
    refine ⟨.of .empty [a] (nodup_singleton _) ∅, Ledger.agreeOn_of rfl ?_, ?_⟩
    · intro b hb
      simp only [not_mem_nil, mem_singleton, false_iff]
      rintro rfl
      exact hd hb
    · simp [execScan, execScanAccounts, accepted]

end Sql.Read

end VectorLedger
