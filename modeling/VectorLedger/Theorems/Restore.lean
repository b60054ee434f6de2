import VectorLedger.Theorems.Guards
import VectorLedger.Theorems.Session

/-! What a reopen restores of the state beside entries and balances: the accounts with their holds, the reversals, the
    settlement marks and the reconciliation history. -/

namespace VectorLedger

open Sample List LedgerStore

/-! ### The state that a log describes -/

def reversalsOf (ps : List DataPayload) : List (Uuid × Uuid) :=
  ps.filterMap fun p =>
    match p.row with
    | .reversalEvent e => some (e.originalEntryId, e.reversalEntryId)
    | _ => none

def settlementsOf (ps : List DataPayload) : List (Uuid × EntryStatus) :=
  ps.filterMap fun p =>
    match p.row with
    | .settlementEvent e => some (e.entryId, e.newStatus)
    | _ => none

def recordsOf (ps : List DataPayload) : List ReconciliationRecord :=
  ps.filterMap fun p =>
    match p.row with
    | .reconciliationRecord r => some r
    | _ => none

section Rows
variable (ps qs : List DataPayload)

theorem reversalsOf_append : reversalsOf (ps ++ qs) = reversalsOf ps ++ reversalsOf qs := filterMap_append

theorem settlementsOf_append : settlementsOf (ps ++ qs) = settlementsOf ps ++ settlementsOf qs :=
  filterMap_append

theorem recordsOf_append : recordsOf (ps ++ qs) = recordsOf ps ++ recordsOf qs := filterMap_append

end Rows

/-- What a reopen has to restore. -/
structure View where
  accounts : Accounts
  legalHoldAccounts : Finset AccountId
  reversalEventIndex : Finmap fun _ : Uuid => Uuid
  settlementEventIndex : Finmap fun _ : Uuid => EntryStatus
  reconciliationHistory : List ReconciliationRecord

def LedgerStore.view (s : LedgerStore) : View :=
  ⟨s.accounts, s.legalHoldAccounts, s.reversalEventIndex, s.settlementEventIndex, s.reconciliationHistory⟩

/-- The store is as the rows describe it, read after the accounts `as`. -/
structure LedgerStore.ReadFrom (s : LedgerStore) (as : List Account) (ps : List DataPayload) : Prop where
  accounts : s.accounts = enterAccounts ∅ (as ++ accountsOf ps)
  holds : s.HoldsAgree
  reversals : s.reversalEventIndex = Assign.assign ∅ (reversalsOf ps)
  settlements : s.settlementEventIndex = Assign.assign ∅ (settlementsOf ps)

namespace LedgerStore

variable {s s' : LedgerStore} {as : List Account} {ps qs : List DataPayload} {p : DataPayload}

theorem ReadFrom.append (h : s.ReadFrom as ps) (accounts : s'.accounts = enterAccounts s.accounts (accountsOf qs))
    (holds : s'.HoldsAgree)
    (reversals : s'.reversalEventIndex = Assign.assign s.reversalEventIndex (reversalsOf qs))
    (settlements : s'.settlementEventIndex = Assign.assign s.settlementEventIndex (settlementsOf qs)) :
    s'.ReadFrom as (ps ++ qs) where
  accounts := by
    rw [accounts, h.accounts, accountsOf_append, ← append_assoc]
    simp only [enterAccounts, map_append, Assign.assign_append]
  holds := holds
  reversals := by rw [reversals, h.reversals, reversalsOf_append, Assign.assign_append]
  settlements := by rw [settlements, h.settlements, settlementsOf_append, Assign.assign_append]

theorem ReadFrom.id_eq (h : s.ReadFrom as ps) {a : AccountId} {acct : Account}
    (found : s.accounts.lookup a = some acct) : acct.id = a := by
  rw [h.accounts] at found
  exact (mem_of_lookup_enterAccounts found).2

theorem HoldsAgree.holds_eq (h : s.HoldsAgree) (h' : s'.HoldsAgree) (heq : s.accounts = s'.accounts) :
    s.legalHoldAccounts = s'.legalHoldAccounts := by
  ext a
  rw [h a, h' a, heq]

/-! ### Opens -/

variable {m : Bool} {k : Nat} {r : Replay} {d : Disk}

theorem replayEntry_view (e : JournalEntry) : (replayEntry m k r e).store.view = r.store.view := by
  cases m with
  | true => rfl
  | false => rw [replayEntry_normal]; rfl

theorem ReadFrom.replayRow (h : r.store.ReadFrom as ps) (plain : p.Plain) :
    (replayRow m k r p).store.ReadFrom as (ps ++ [p]) ∧ (LedgerStore.replayRow m k r p).store.reconciliationHistory =
        r.store.reconciliationHistory ++ recordsOf [p] := by
  have holds := h.holds.replayRow (m := m) (k := k) p
  rcases p with ⟨page, slot, mutation, row, hash, prev⟩
  cases mutation with
  | delete =>
    obtain ⟨a, ha⟩ := plain rfl
    simp only at ha
    subst ha
    exact ⟨h.append rfl holds rfl rfl, (append_nil _).symm⟩
  | _ =>
    cases row with
    | account | reversalEvent | settlementEvent => exact ⟨h.append rfl holds rfl rfl, (append_nil _).symm⟩
    | entry e =>
      have hview := replayEntry_view (m := m) (k := k) (r := r) e
      refine ⟨h.append (congrArg View.accounts hview) holds (congrArg View.reversalEventIndex hview)
        (congrArg View.settlementEventIndex hview), ?_⟩
      exact (congrArg View.reconciliationHistory hview).trans (append_nil _).symm
    | reconciliationRecord => exact ⟨h.append rfl holds rfl rfl, rfl⟩

theorem ReadFrom.foldl_replayRow (h : r.store.ReadFrom as ps) (plain : ∀ p ∈ qs, p.Plain) :
    (qs.foldl (LedgerStore.replayRow m k) r).store.ReadFrom as (ps ++ qs) ∧
      (qs.foldl (LedgerStore.replayRow m k) r).store.reconciliationHistory =
        r.store.reconciliationHistory ++ recordsOf qs := by
  induction qs generalizing r ps with
  | nil =>
    rw [append_nil]
    exact ⟨h, (append_nil _).symm⟩
  | cons q qs ih =>
    rw [forall_mem_cons] at plain
    obtain ⟨hrow, hrecords⟩ := h.replayRow (m := m) (k := k) plain.1
    obtain ⟨hrest, hmore⟩ := ih hrow plain.2
    rw [append_assoc, singleton_append] at hrest
    refine ⟨hrest, ?_⟩
    rw [foldl_cons, hmore, hrecords, append_assoc, ← recordsOf_append, singleton_append]

theorem opened_view (m : Bool) (d : Disk) : (opened m d).view = (replayed m d).store.view := by
  unfold opened writeCheckpoint finishReplay
  split_ifs <;> rfl

theorem opened_readFrom (m : Bool) (plain : ∀ p ∈ d.visible, p.Plain) :
    (opened m d).ReadFrom (loadedAccounts m d) d.visible ∧ (opened m d).reconciliationHistory = recordsOf d.visible := by
  obtain ⟨holds, hstart⟩ := replayStart_eq m d
  have hread : (replayStart m d).store.ReadFrom (loadedAccounts m d) [] := by
    refine ⟨?_, replayStart_holdsAgree m d, ?_, ?_⟩
    · rw [hstart, accountsOf_nil, append_nil]
    · rw [hstart]
      rfl
    · rw [hstart]
      rfl
  have hhistory : (replayStart m d).store.reconciliationHistory = [] := by
    rw [hstart]
    rfl
  obtain ⟨hdone, hrecords⟩ := hread.foldl_replayRow (m := m) (k := indexedUpTo m d) plain
  rw [hhistory] at hrecords
  have hview := opened_view m d
  refine ⟨⟨?_, opened_holdsAgree m d, ?_, ?_⟩, ?_⟩
  · exact (congrArg View.accounts hview).trans hdone.accounts
  · exact (congrArg View.reversalEventIndex hview).trans hdone.reversals
  · exact (congrArg View.settlementEventIndex hview).trans hdone.settlements
  · exact (congrArg View.reconciliationHistory hview).trans hrecords

end LedgerStore

/-! ### What the checkpoint skips -/

/-- Nothing is lost with the segments that an open skips: an account that is not in the log from the checkpoint
    on is loaded in its last version, and every reversal and settlement mark is made again later. -/
structure Disk.Restorable (m : Bool) (d : Disk) : Prop where
  accounts : ∀ a ∈ loadedAccounts m d ++ accountsOf d.skippedRows, (∃ b ∈ accountsOf d.visible, b.id = a.id) ∨
      versionOf a.id (loadedAccounts m d) = versionOf a.id (accountsOf d.skippedRows)
  reversals : Assign.Covers (reversalsOf d.skippedRows) (reversalsOf d.visible)
  settlements : Assign.Covers (settlementsOf d.skippedRows) (settlementsOf d.visible)

section Reopen
variable {cfg : Config} {m : Bool} {d : Disk} {s : LedgerStore}

theorem enterAccounts_append_eq_iff (as bs cs : List Account) : enterAccounts ∅ (as ++ cs) = enterAccounts ∅ (bs ++ cs) ↔
      ∀ a ∈ as ++ bs, (∃ c ∈ cs, c.id = a.id) ∨ versionOf a.id as = versionOf a.id bs := by
  simp only [enterAccounts, versionOf, map_append, Assign.assign_append_eq_iff]
  rw [← map_append, forall_mem_map]
  simp only [mem_map, exists_exists_and_eq_and]

theorem restorable_iff (durable : d.Durable cfg) : d.Restorable m ↔ (opened m d).ReadFrom [] (journal d.wal) := by
  obtain ⟨hread, -⟩ := opened_readFrom m durable.plain_visible
  have hjournal := durable.skippedRows_append
  have haccounts := enterAccounts_append_eq_iff (loadedAccounts m d) (accountsOf d.skippedRows) (accountsOf d.visible)
  rw [← hread.accounts, ← accountsOf_append, hjournal] at haccounts
  have hreversals := Assign.assign_eq_append_iff (reversalsOf d.skippedRows) (reversalsOf d.visible)
  rw [← hread.reversals, ← reversalsOf_append, hjournal] at hreversals
  have hsettlements := Assign.assign_eq_append_iff (settlementsOf d.skippedRows) (settlementsOf d.visible)
  rw [← hread.settlements, ← settlementsOf_append, hjournal] at hsettlements
  constructor
  · intro h
    exact ⟨haccounts.2 h.accounts, hread.holds, hreversals.2 h.reversals, hsettlements.2 h.settlements⟩
  · intro h
    exact ⟨haccounts.1 h.accounts, hreversals.1 h.reversals, hsettlements.1 h.settlements⟩

end Reopen

/-! ### Calls -/

/-- An account that is closed or held is written: the change is made in memory first. -/
def VersionWritten (cfg : Config) (io : Io) (s : LedgerStore) (op : Op) : Prop :=
  match op with
  | .closeAccount _ | .setLegalHold _ _ => op.Fits cfg io s ∧ io.Writes
  | _ => True

section Calls
variable {cfg : Config} {io : Io} {s s' : LedgerStore} {op : Op}

theorem VersionWritten.holdWritten (h : VersionWritten cfg io s op) : s.HoldWritten cfg io op := by
  cases op <;> first | exact h | trivial

theorem LedgerStore.ReadFrom.wrote {ps : List DataPayload} (h : s.ReadFrom [] (journal s.disk.wal))
    (wrote : Wrote cfg s.txManager ps s'.txManager) (clean : s.txManager.NoLeftover)
    (accounts : s'.accounts = enterAccounts s.accounts (accountsOf ps)) (holds : s'.HoldsAgree)
    (reversals : s'.reversalEventIndex = Assign.assign s.reversalEventIndex (reversalsOf ps))
    (settlements : s'.settlementEventIndex = Assign.assign s.settlementEventIndex (settlementsOf ps)) :
    s'.ReadFrom [] (journal s'.disk.wal) := by
  have hjournal : journal s'.disk.wal = journal s.disk.wal ++ ps := wrote.journal_eq clean
  rw [hjournal]
  exact h.append accounts holds reversals settlements

/-- A call keeps the store as its log describes it. -/
theorem LedgerStore.ReadFrom.effect (h : s.ReadFrom [] (journal s.disk.wal)) (effect : Effect cfg io s op s')
    (clean : s.txManager.NoLeftover) (written : VersionWritten cfg io s op) :
    s'.ReadFrom [] (journal s'.disk.wal) := by
  have holds := h.holds.effect effect written.holdWritten
  cases effect with
  | rejected => exact h
  | failed op c₁ c₂ reached wrote fault =>
    cases op with
    | closeAccount | setLegalHold => exact absurd written.2 (fault written.1)
    | _ => exact h.wrote wrote clean rfl holds rfl rfl
  | created c₁ c₂ wrote | posted c₁ c₂ valid fresh checked wrote | reversed c₁ c₂ checked wrote
  | imported c₁ c₂ valid fresh checked wrote | settled c₁ c₂ wrote | reconciled c₁ c₂ wrote =>
    exact h.wrote wrote clean rfl holds rfl rfl
  | @closed id acct tm c₁ c₂ page slot found wrote | @held id hold acct tm c₁ c₂ page slot found wrote =>
    obtain rfl := h.id_eq found
    exact h.wrote wrote clean rfl holds rfl rfl

theorem Effect.history (h : Effect cfg io s op s') : s'.reconciliationHistory = s.reconciliationHistory := by
  cases h with
  | failed op => cases op <;> first | rfl | (simp only [withLog, Op.begun]; split <;> rfl)
  | _ => rfl

end Calls

/-! ### Runs -/

/-- The condition on a call: no rows are left over under its transaction id and no torn record stands before what it
    appends, and an account that is closed or held is written. -/
def RestoreCall (cfg : Config) (io : Io) (s : LedgerStore) (op : Op) : Prop :=
  s.txManager.Appendable ∧ VersionWritten cfg io s op

/-- The condition on a step: that of its call, and that nothing is lost with the segments that an open skips. -/
def RestoreStep (cfg : Config) : Machine → Event → Prop
  | .up s, .call io op => RestoreCall cfg io s op
  | .up s, .crash _ _ => s.txManager.Appendable
  | .down d, .openStore => d.Restorable false
  | .down d, .openForImport => d.Restorable true
  | _, _ => True

variable {cfg : Config} {x y : Machine} {ev : Event}

theorem RestoreStep.ready (h : RestoreStep cfg x ev) : AppendStep x ev := by
  cases x <;> cases ev <;> first | exact h.1 | exact h | trivial

/-- What such a run keeps: an open store is as its whole log describes it. -/
structure Machine.Restored (cfg : Config) (x : Machine) : Prop where
  durable : x.disk.Durable cfg
  read : ∀ s, x = .up s → s.ReadFrom [] (journal s.disk.wal)

/-- Such a step keeps an open store as its log describes it. -/
theorem Machine.Restored.step (h : x.Restored cfg) (ok : RestoreStep cfg x ev) (hstep : Machine.step cfg x ev = some y) :
    y.Restored cfg := by
  have durable := h.durable.step hstep ok.ready
  refine ⟨durable, ?_⟩
  rintro s rfl
  cases Machine.step_cases hstep with
  | opened | importing =>
    rw [opened_wal]
    exact (restorable_iff h.durable).1 ok
  | called effect => exact (h.read _ rfl).effect effect ok.1.noLeftover ok.2

/-- A session that was opened on `d`: it keeps the history that the open read, and has added rows to the log that the next
    open reads. -/
structure LedgerStore.OpenedOn (cfg : Config) (m : Bool) (d : Disk) (s : LedgerStore) : Prop where
  durable : s.disk.Durable cfg
  read : s.ReadFrom [] (journal s.disk.wal)
  history : s.reconciliationHistory = recordsOf d.visible
  added : ∃ added, journal s.disk.wal = journal d.wal ++ added ∧ s.disk.visible = (opened m d).disk.visible ++ added

theorem LedgerStore.OpenedOn.effect {m : Bool} {d : Disk} {io : Io} {s s' : LedgerStore} {op : Op} (h : s.OpenedOn cfg m d)
    (ok : RestoreCall cfg io s op) (effect : Effect cfg io s op s') : s'.OpenedOn cfg m d := by
  have durable := h.durable.effect effect ok.1
  obtain ⟨added, hadded, hvisible⟩ := h.added
  obtain ⟨ps, wrote, checkpoint, -⟩ := effect.plain
  refine ⟨durable, h.read.effect effect ok.1.noLeftover ok.2, effect.history.trans h.history, added ++ ps, ?_, ?_⟩
  · rw [← append_assoc, ← hadded]
    exact wrote.journal_eq ok.1.noLeftover
  · rw [← append_assoc, ← hvisible]
    exact wrote.visible_eq ok.1.noLeftover h.durable durable checkpoint

/-- What a reader has seen from one point of a list is what it sees from another after the list has grown, exactly if
    nothing was added and the two points are the same. -/
theorem seen_eq_iff {α : Type} {skipped skipped' seen kept added : List α} (h : skipped' ++ kept = skipped ++ seen)
    (unique : (skipped' ++ (kept ++ added)).Nodup) : kept ++ added = seen ↔ added = [] ∧ skipped' = skipped := by
  constructor
  · rintro rfl
    have hnil : added = [] := by
      rw [eq_nil_iff_forall_not_mem]
      intro r hr
      rw [← append_assoc, nodup_append, h] at unique
      exact unique.2.2 r (by simp [hr]) r hr rfl
    rw [hnil, append_nil] at h
    exact ⟨hnil, append_cancel_right h⟩
  · rintro ⟨rfl, rfl⟩
    rw [append_nil]
    exact append_cancel_left h

/-- In every run of such steps, and any session opened in it, closing the store and opening it again succeeds. It restores
    the state exactly when nothing is lost with the segments it skips, no reconciliation was recorded since the session was
    opened, and no record is in a segment that was read then and is skipped now. A recorded reconciliation is not added to
    the history in memory. -/
theorem reopened_view_iff (cfg : Config) (sound : cfg.SignaturesVerify) (signingKey : Option SigningKey) (m : Bool)
    (d : Disk) (s₀ s : LedgerStore)
    (run : Run.Reachable (Machine.step cfg) (RestoreStep cfg) (.down (.fresh signingKey)) (.down d))
    (restorable : d.Restorable m) (opens : openWith cfg m d = .ok s₀)
    (session : Run.Reachable (Machine.step cfg) (SessionStep (RestoreCall cfg)) (.up s₀) (.up s))
    (unique : (recordsOf (journal s.disk.wal)).Nodup) (whole : s.disk.WholeIfSigned) :
    ∃ t, openStore cfg s.disk = .ok t ∧ (t.view = s.view ↔ s.disk.Restorable false ∧
      recordsOf (journal s.disk.wal) = recordsOf (journal d.wal) ∧
      recordsOf s.disk.skippedRows = recordsOf d.skippedRows) := by
  have before : d.Durable cfg := (run.invariant (P := Machine.Restored cfg) ⟨.fresh cfg signingKey, fun _ hs => nomatch hs⟩
    fun _ _ _ hx ok h => hx.step ok h).durable
  obtain rfl := openWith_ok opens
  have hwal := opened_wal m d
  have inv : s.OpenedOn cfg m d := session_invariant (P := LedgerStore.OpenedOn cfg m d) session
    ⟨opened_durable before, by rw [Machine.ledger, hwal]; exact (restorable_iff before).1 restorable,
      (opened_readFrom m before.plain_visible).2, [], by rw [append_nil, Machine.ledger, hwal], (append_nil _).symm⟩
    fun _ _ _ _ h ok effect => h.effect ok effect
  have durable := inv.durable
  have live := inv.read
  obtain ⟨hread, hhistory⟩ := opened_readFrom false durable.plain_visible
  obtain ⟨added, hadded, hvisible⟩ := inv.added
  have hrecords : s.reconciliationHistory = recordsOf s.disk.visible ↔ recordsOf (journal s.disk.wal) =
      recordsOf (journal d.wal) ∧ recordsOf s.disk.skippedRows = recordsOf d.skippedRows := by
    have hrows := durable.skippedRows_append
    rw [hvisible, ← append_assoc, hadded] at hrows
    have hseen : recordsOf s.disk.skippedRows ++ recordsOf (opened m d).disk.visible =
        recordsOf d.skippedRows ++ recordsOf d.visible := by
      rw [← recordsOf_append, ← recordsOf_append, before.skippedRows_append, append_cancel_right hrows]
    rw [← durable.skippedRows_append, hvisible, recordsOf_append, recordsOf_append] at unique
    rw [inv.history, eq_comm, hvisible, recordsOf_append, seen_eq_iff hseen unique, hadded, recordsOf_append,
      append_right_eq_self]
  refine ⟨opened false s.disk, durable.openWith sound whole false, ?_⟩
  rw [restorable_iff durable, ← hrecords, ← hhistory]
  constructor
  · intro hview
    refine ⟨⟨?_, hread.holds, ?_, ?_⟩, (congrArg View.reconciliationHistory hview).symm⟩
    · exact (congrArg View.accounts hview).trans live.accounts
    · exact (congrArg View.reversalEventIndex hview).trans live.reversals
    · exact (congrArg View.settlementEventIndex hview).trans live.settlements
  · rintro ⟨whole, hsame⟩
    have haccounts : (opened false s.disk).accounts = s.accounts := whole.accounts.trans live.accounts.symm
    unfold LedgerStore.view
    rw [haccounts, hread.holds.holds_eq live.holds haccounts, whole.reversals.trans live.reversals.symm,
      whole.settlements.trans live.settlements.symm, hsame]

instance (m : Bool) (d : Disk) : Decidable (d.Restorable m) :=
  decidable_of_iff
    ((∀ a ∈ loadedAccounts m d ++ accountsOf d.skippedRows, (∃ b ∈ accountsOf d.visible, b.id = a.id) ∨
          versionOf a.id (loadedAccounts m d) = versionOf a.id (accountsOf d.skippedRows)) ∧
      Assign.Covers (reversalsOf d.skippedRows) (reversalsOf d.visible) ∧
      Assign.Covers (settlementsOf d.skippedRows) (settlementsOf d.visible))
    ⟨fun h => ⟨h.1, h.2.1, h.2.2⟩, fun h => ⟨h.accounts, h.reversals, h.settlements⟩⟩

instance (cfg : Config) (io : Io) (s : LedgerStore) (op : Op) : Decidable (VersionWritten cfg io s op) := by
  rcases op with _ | _ <;> unfold VersionWritten Op.Fits <;> infer_instance

instance (cfg : Config) (io : Io) (s : LedgerStore) (op : Op) : Decidable (RestoreCall cfg io s op) := by
  unfold RestoreCall
  infer_instance

instance (cfg : Config) (x : Machine) (ev : Event) : Decidable (RestoreStep cfg x ev) := by
  rcases x with _ | _ <;> rcases ev with _ | _ <;> unfold RestoreStep <;> infer_instance

def Sample.firstDay : List Event := twoAccounts ++ [.call io (.postEntry (transfer 10 none 5 2 1)), .close]

def Sample.busyDay : List Event :=
  [.call io (.postEntry (transfer 11 none 7 2 1)), .call io (.applySettlementEvent 11 .settled none),
    .call io (.reverseEntry 10 "undo" "test"), .call io (.setLegalHold 1 true), .call io (.closeAccount 2)]

/-- The reopen after the second day skips the segments of the two new accounts. -/
theorem reopened_view_iff_busy_day : ∃ d s₀ s t, openStore rolling d = .ok s₀ ∧
    Run.exec (Machine.step rolling) (.up s₀) busyDay = some (.up s) ∧ s.disk.startSegment = 2 ∧
    openStore rolling s.disk = .ok t ∧ t.view = s.view := by
  obtain ⟨x, run, down, restorable, s₀, opens, y, hy, allowed, up, unique, whole, hstart, hview⟩ : ∃ x,
      Run.Reachable (Machine.step rolling) (RestoreStep rolling) (.down (.fresh (some signingKey))) x ∧
        x.store?.isSome = false ∧ x.disk.Restorable false ∧ ∃ s₀, (openStore rolling x.disk).toOption = some s₀ ∧
          ∃ y, Run.exec (Machine.step rolling) (.up s₀) busyDay = some y ∧
            Run.Allowed (Machine.step rolling) (SessionStep (RestoreCall rolling)) (.up s₀) busyDay ∧
            y.store?.isSome = true ∧ (recordsOf (journal y.disk.wal)).Nodup ∧ y.disk.WholeIfSigned ∧
            y.disk.startSegment = 2 ∧ y.disk.Restorable false ∧
            recordsOf (journal y.disk.wal) = recordsOf (journal x.disk.wal) ∧
            recordsOf y.disk.skippedRows = recordsOf x.disk.skippedRows :=
    Run.exists_reachable firstDay (by decide +kernel) (by decide +kernel)
  cases x with
  | up => cases down
  | down d =>
    cases y with
    | down => cases up
    | up s =>
      have opened : openStore rolling d = .ok s₀ := by
        cases hopen : openStore rolling d <;> simp_all [Machine.disk, Except.toOption]
      obtain ⟨t, ht, hiff⟩ := reopened_view_iff rolling config_signaturesVerify _ false d s₀ s run restorable opened
        (Run.reachable_of_exec allowed hy) unique whole
      exact ⟨d, s₀, s, t, opened, hy, hstart, ht, hiff.2 hview⟩

/-- A recorded reconciliation: the live store has no record in its history, the reopened one has it. -/
theorem reconciliation_appears_on_reopen : ((Run.exec (Machine.step config) (.down (.fresh none))
        (twoAccounts ++ [.call io .reconcileAndRecord])).bind Machine.store?).bind
      (fun s => (openStore config s.disk).toOption.map fun t =>
        (s.reconciliationHistory.length, t.reconciliationHistory.length)) = some (0, 1) := by
  decide +kernel

end VectorLedger
