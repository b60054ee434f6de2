import VectorLedger.Theorems.Indexed

/-! Reads at a snapshot. Later entries get larger sequences, so such a read does not change any more. -/

namespace VectorLedger

open Sample List

namespace LedgerStore

variable {s t : LedgerStore} {a : AccountId} {acct : Account}

/-! ### The balance at a snapshot -/

theorem foldl_snapshotLine (debitNormal : Bool) (a : AccountId) (lines : List JournalLine) (balance : Int) :
    lines.foldl (fun balance line => if line.accountId ≠ a then balance else balance + line.delta debitNormal)
        balance =
      balance + JournalEntry.lineSum debitNormal a lines := by
  induction lines generalizing balance with
  | nil => simp
  | cons line lines ih =>
    rw [foldl_cons, ih, JournalEntry.lineSum_cons, ← add_assoc]
    by_cases hline : line.accountId = a <;> simp [hline]

theorem foldl_snapshotEntry (debitNormal : Bool) (a : AccountId) (n : Nat) (es : List JournalEntry)
    (balance : Int) :
    es.foldl (fun balance e =>
        if e.sequence > n then balance
        else if !e.status.affectsBalance then balance
        else e.lines.foldl (fun balance line =>
          if line.accountId ≠ a then balance else balance + line.delta debitNormal) balance) balance =
      balance + signedSum debitNormal a (es.filter fun e => e.sequence ≤ n) := by
  induction es generalizing balance with
  | nil => simp
  | cons e es ih =>
    rw [foldl_cons, ih]
    by_cases hle : e.sequence ≤ n
    · have hfilter : (e :: es).filter (fun e => e.sequence ≤ n) = e :: es.filter (fun e => e.sequence ≤ n) :=
        filter_cons_of_pos (by simpa using hle)
      rw [hfilter, signedSum_cons, if_neg (Nat.not_lt.2 hle), ← add_assoc]
      congr 1
      cases hstatus : e.status.affectsBalance with
      | true =>
        rw [JournalEntry.balanceDelta, hstatus, if_pos rfl]
        exact foldl_snapshotLine debitNormal a e.lines balance
      | false => simp [JournalEntry.balanceDelta, hstatus]
    · have hfilter : (e :: es).filter (fun e => e.sequence ≤ n) = es.filter (fun e => e.sequence ≤ n) :=
        filter_cons_of_neg (by simpa using hle)
      rw [hfilter, if_pos (Nat.lt_of_not_le hle)]

theorem Indexed.balanceAtSnapshot_eq (h : s.Indexed) (found : s.accounts.lookup a = some acct) (n : Nat) :
    s.balanceAtSnapshot a n =
      signedSum acct.accountType.isDebitNormal a (s.entryDb.entries.filter fun e => e.sequence ≤ n) := by
  unfold balanceAtSnapshot EntryDb.entriesForAccount
  simp only [found]
  rw [foldl_snapshotEntry, zero_add, filter_comm]
  refine signedSum_filter fun e he hmissing => JournalEntry.balanceDelta_eq_zero ?_
  rintro l hl rfl
  have href := h.refs e (mem_of_mem_filter he) l hl
  simp [href] at hmissing

theorem balanceAtSnapshot_unknown (unknown : s.accounts.lookup a = none) (n : Nat) : s.balanceAtSnapshot a n = 0 := by
  simp [balanceAtSnapshot, unknown]

theorem Indexed.balanceAtSnapshot_current (h : s.Indexed) (a : AccountId) :
    s.balanceAtSnapshot a s.currentSnapshot = s.balance a := by
  cases found : s.accounts.lookup a with
  | none => rw [balanceAtSnapshot_unknown found, balance, h.sound.unknown a found]
  | some acct =>
    have hall : s.entryDb.entries.filter (fun e => e.sequence ≤ s.currentSnapshot) = s.entryDb.entries := by
      rw [filter_eq_self]
      intro e he
      exact decide_eq_true (Nat.le_sub_one_of_lt (h.below e he))
    rw [h.balanceAtSnapshot_eq found, hall, balance, h.sums a acct found]

/-! ### Later states -/

/-- What a session adds to a store: accounts, and entries with larger sequences. -/
structure Extends (s t : LedgerStore) : Prop where
  accounts : ∀ a acct, s.accounts.lookup a = some acct → t.accounts.lookup a = some acct
  next : s.nextSequence ≤ t.nextSequence
  entries : ∃ new, t.entryDb.entries = s.entryDb.entries ++ new ∧ ∀ e ∈ new, s.nextSequence ≤ e.sequence

theorem Extends.session {t' : LedgerStore} {cfg : Config} {io : Io} {op : Op} (h : s.Extends t)
    (indexed : t.Indexed) (effect : SessionEffect cfg io t op t') (allowed : SessionOp t op)
    (sqlite : SqliteOk io t op) : s.Extends t' := by
  obtain ⟨new, hentries, hnew⟩ := h.entries
  cases effect with
  | kept accounts cache entryDb next =>
    exact ⟨accounts ▸ h.accounts, Nat.le_trans h.next next, new, entryDb ▸ hentries, hnew⟩
  | created a unknown accounts cache entries refs next =>
    refine ⟨?_, next ▸ h.next, new, entries.trans hentries, hnew⟩
    intro b acct hb
    have hb' := h.accounts b acct hb
    rw [accounts, Finmap.lookup_insert_of_ne]
    · exact hb'
    · rintro rfl
      rw [unknown] at hb'
      cases hb'
  | committed e origin accounts cache entryDb =>
    obtain ⟨happend, -⟩ := indexed.indexEntry origin allowed sqlite
    have hnext := h.next
    refine ⟨accounts ▸ h.accounts, by omega, new ++ [e], ?_, ?_⟩
    · rw [entryDb, happend, hentries, append_assoc]
    · intro x hx
      rcases mem_append.1 hx with hx | hx
      · exact hnew x hx
      · obtain rfl := mem_singleton.1 hx
        rw [origin.counters.1]
        exact h.next

theorem Extends.filter_eq (h : s.Extends t) {p : JournalEntry → Bool}
    (below : ∀ e, p e = true → e.sequence < s.nextSequence) :
    t.entryDb.entries.filter p = s.entryDb.entries.filter p := by
  obtain ⟨new, hentries, hnew⟩ := h.entries
  have hnone : new.filter p = [] := by
    rw [filter_eq_nil_iff]
    intro e he hp
    have := below e hp
    have := hnew e he
    omega
  rw [hentries, filter_append, hnone, append_nil]

theorem Extends.balanceAtSnapshot_eq (h : s.Extends t) (hs : s.Indexed) (ht : t.Indexed) (a : AccountId) :
    t.balanceAtSnapshot a s.currentSnapshot = s.balanceAtSnapshot a s.currentSnapshot := by
  have hpos := hs.positive
  have hsame := h.filter_eq (p := fun e => e.sequence ≤ s.currentSnapshot) (by
    intro e he
    have hle : e.sequence ≤ s.nextSequence - 1 := of_decide_eq_true he
    omega)
  cases found : s.accounts.lookup a with
  | some acct =>
    rw [ht.balanceAtSnapshot_eq (h.accounts a acct found), hs.balanceAtSnapshot_eq found, hsame]
  | none =>
    rw [balanceAtSnapshot_unknown found]
    cases found' : t.accounts.lookup a with
    | none => exact balanceAtSnapshot_unknown found' _
    | some =>
      -- The account is newer than the snapshot, and no entry of it has a line on the account.
      rw [ht.balanceAtSnapshot_eq found', hsame]
      refine signedSum_eq_zero fun e he l hl heq => ?_
      obtain ⟨acct', hacct'⟩ := hs.sound.known e (mem_of_mem_filter he) l hl
      rw [heq, found] at hacct'
      cases hacct'

theorem asI64_le (n : Nat) : EntryDb.asI64 n ≤ n := by
  unfold EntryDb.asI64
  rw [Int.bmod_def]
  split <;> omega

theorem Extends.entriesAtSnapshot_eq (h : s.Extends t) (hs : s.Indexed) :
    t.entriesAtSnapshot s.currentSnapshot = s.entriesAtSnapshot s.currentSnapshot := by
  have hpos := hs.positive
  refine h.filter_eq fun e he => ?_
  rw [decide_eq_true_eq] at he
  have hle := Int.le_trans he.2 (asI64_le s.currentSnapshot)
  unfold currentSnapshot at hle
  omega

end LedgerStore

theorem extends_of_session {cfg : Config} {s t : LedgerStore} (hs : s.Indexed)
    (run : Run.Reachable (Machine.step cfg) (SessionStep IndexedCall) (.up s) (.up t)) :
    t.Indexed ∧ s.Extends t := by
  have hrefl : s.Extends s := ⟨fun _ _ h => h, Nat.le_refl _, [], (append_nil _).symm, by simp⟩
  refine session_invariant (P := fun t => t.Indexed ∧ s.Extends t) run ⟨hs, hrefl⟩ ?_
  rintro io t op t' ⟨ht, hext⟩ ⟨allowed, sqlite⟩ effect
  exact ⟨ht.session (effect.session allowed) allowed sqlite, hext.session ht (effect.session allowed) allowed sqlite⟩

/-- In every state of every session with working inserts, the balance at the current snapshot is the balance,
    and no later state of the session reads anything else at that snapshot. -/
theorem snapshot_reads_stable (cfg : Config) (signingKey : Option SigningKey) (s : LedgerStore) (a : AccountId)
    (run : Run.Reachable (Machine.step cfg) (SessionStep IndexedCall) (.down (.fresh signingKey)) (.up s)) :
    s.balanceAtSnapshot a s.currentSnapshot = s.balance a ∧
      ∀ t, Run.Reachable (Machine.step cfg) (SessionStep IndexedCall) (.up s) (.up t) →
        t.balanceAtSnapshot a s.currentSnapshot = s.balanceAtSnapshot a s.currentSnapshot ∧
          t.entriesAtSnapshot s.currentSnapshot = s.entriesAtSnapshot s.currentSnapshot := by
  have hs := indexed_of_session run
  refine ⟨hs.balanceAtSnapshot_current a, ?_⟩
  intro t later
  obtain ⟨ht, hext⟩ := extends_of_session hs later
  exact ⟨hext.balanceAtSnapshot_eq hs ht a, hext.entriesAtSnapshot_eq hs⟩

/-- A snapshot after one transfer, and a second transfer. -/
theorem snapshot_reads_stable_transfer : ∃ s t, Run.exec (Machine.step config) (.down (.fresh none)) (twoAccounts ++
        [.call io (.postEntry (transfer 10 none 5 2 1))]) = some (.up s) ∧
      Machine.step config (.up s) (.call io (.postEntry (transfer 11 none 7 2 1))) = some (.up t) ∧
      s.balanceAtSnapshot 1 s.currentSnapshot = s.balance 1 ∧
      t.balanceAtSnapshot 1 s.currentSnapshot = s.balanceAtSnapshot 1 s.currentSnapshot ∧
      t.entriesAtSnapshot s.currentSnapshot = s.entriesAtSnapshot s.currentSnapshot := by
  have hs : Run.exec (Machine.step config) (.down (.fresh none)) (twoAccounts ++
      [.call io (.postEntry (transfer 10 none 5 2 1))]) = some (.up _) := rfl
  obtain ⟨hnow, hlater⟩ := snapshot_reads_stable _ _ _ 1 (Run.reachable_of_exec (by decide +kernel) hs)
  exact ⟨_, _, hs, rfl, hnow, hlater _
    (Run.Reachable.init.step (e := .call io (.postEntry (transfer 11 none 7 2 1))) ⟨trivial, rfl, rfl, fun _ _ => rfl⟩ rfl)⟩

end VectorLedger
