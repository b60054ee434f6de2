import VectorLedger.Theorems.Entries
import VectorLedger.Theorems.Sums

/-! Sessions: what a call does to the accounts, the balances and the index, and what it keeps. -/

namespace VectorLedger

open JournalEntry Machine LedgerStore

/-! ### Session runs -/

/-- A post, a reversal or a new account under an id that is not in use. -/
def SessionOp (s : LedgerStore) : Op → Prop
  | .createAccount a => s.accounts.lookup a.id = none
  | .postEntry _ | .reverseEntry _ _ _ => True
  | _ => False

/-- SQLite takes what the call writes to it. -/
def SqliteOk (io : Io) (s : LedgerStore) : Op → Prop
  | .postEntry e => io.sqliteRow ∧ io.sqliteFts ∧ ∀ n < e.lines.length, io.sqliteRef n
  | .reverseEntry entryId _ _ =>
    io.sqliteRow ∧ io.sqliteFts ∧ ∀ original ∈ s.entryDb.findById entryId, ∀ n < original.lines.length, io.sqliteRef n
  | .createAccount _ | .closeAccount _ => io.sqliteAccount
  | _ => True

/-- A run that opens the ledger once and then makes the calls that `allowed` admits. -/
def SessionStep (allowed : Io → LedgerStore → Op → Prop) : Machine → Event → Prop
  | .down _, .openStore => True
  | .up s, .call io op => allowed io s op
  | _, _ => False

instance (s : LedgerStore) (op : Op) : Decidable (SessionOp s op) := by
  rcases op with _ | _ <;> unfold SessionOp <;> infer_instance

instance (io : Io) (s : LedgerStore) (op : Op) : Decidable (SqliteOk io s op) := by
  rcases op with _ | _ <;> unfold SqliteOk <;> infer_instance

instance (allowed : Io → LedgerStore → Op → Prop) [∀ io s op, Decidable (allowed io s op)] (x : Machine)
    (ev : Event) : Decidable (SessionStep allowed x ev) := by
  rcases x with _ | _ <;> rcases ev with _ | _ <;> unfold SessionStep <;> infer_instance

def Machine.store? : Machine → Option LedgerStore
  | .up s => some s
  | .down _ => none

/-- The ledger that runs, or the one that is opened next. -/
def Machine.ledger : Machine → LedgerStore
  | .up s => s
  | .down d => opened false d

theorem session_invariant {cfg : Config} {allowed : Io → LedgerStore → Op → Prop} {P : LedgerStore → Prop} {x : Machine}
    {s : LedgerStore} (run : Run.Reachable (step cfg) (SessionStep allowed) x (.up s)) (hx : P x.ledger)
    (hcall : ∀ io s op s', P s → allowed io s op → Effect cfg io s op s' → P s') : P s := by
  refine run.invariant (P := fun x => P x.ledger) hx ?_
  intro x ev y hx ok h
  cases step_cases h with
  | refused | opened => exact hx
  | called effect => exact hcall _ _ _ _ hx ok effect
  | importing | closed | crashed => exact ok.elim

/-! ### What a call of a session does -/

/-- A call of a session changes no account, balance or index row, or it creates an account, or it commits an
    entry. -/
inductive SessionEffect (cfg : Config) (io : Io) (s : LedgerStore) (op : Op) (s' : LedgerStore) : Prop where
  | kept (accounts : s'.accounts = s.accounts) (cache : s'.balanceCache = s.balanceCache)
      (entryDb : s'.entryDb = s.entryDb) (next : s.nextSequence ≤ s'.nextSequence)
  | created (a : Account) (unknown : s.accounts.lookup a.id = none)
      (accounts : s'.accounts = s.accounts.insert a.id a) (cache : s'.balanceCache = s.balanceCache)
      (entries : s'.entryDb.entries = s.entryDb.entries)
      (refs : s'.entryDb.accountEntries = s.entryDb.accountEntries) (next : s'.nextSequence = s.nextSequence)
  | committed (e : JournalEntry) (origin : EntryOrigin cfg io s op e) (accounts : s'.accounts = s.accounts)
      (cache : s'.balanceCache = s.balanceCache.addAll (LedgerStore.entryDeltas s.accounts e))
      (entryDb : s'.entryDb = LedgerStore.indexEntry io s.entryDb e)
      (next : s'.nextSequence = s.nextSequence + 1)

theorem Effect.session {cfg : Config} {io : Io} {s s' : LedgerStore} {op : Op} (h : Effect cfg io s op s')
    (allowed : SessionOp s op) : SessionEffect cfg io s op s' := by
  cases h with
  | rejected => exact .kept rfl rfl rfl (Nat.le_refl _)
  | failed op =>
    cases op with
    | createAccount => exact .kept rfl rfl rfl (Nat.le_refl _)
    | postEntry | reverseEntry => exact .kept rfl rfl rfl (Nat.le_succ _)
    | _ => exact allowed.elim
  | @created a =>
    exact .created a allowed rfl rfl EntryDb.entries_upsertAccount (by split <;> rfl) rfl
  | posted c₁ c₂ valid fresh checked => exact .committed _ (.posted valid fresh checked) rfl rfl rfl rfl
  | reversed c₁ c₂ checked => exact .committed _ (.reversed checked) rfl rfl rfl rfl
  | closed | held | imported | settled | reconciled => exact allowed.elim

/-! ### Balanced entries on known accounts -/

namespace JournalEntry

theorem validate_ok {e : JournalEntry} (h : e.validate = .ok ()) : totalOf .debit e.lines = totalOf .credit e.lines := by
  unfold validate at h
  split_ifs at h with _ hne
  exact not_not.1 hne

theorem totalOf_cons (d : DrCr) (line : JournalLine) (lines : List JournalLine) :
    totalOf d (line :: lines) = (if line.drCr = d then line.amount.asI128 else 0) + totalOf d lines := by
  by_cases h : line.drCr = d <;> simp [totalOf, h]

theorem sum_delta (lines : List JournalLine) :
    (lines.map (·.delta true)).sum = totalOf .debit lines - totalOf .credit lines := by
  induction lines with
  | nil => rfl
  | cons line lines ih =>
    rw [List.map_cons, List.sum_cons, ih, totalOf_cons, totalOf_cons]
    cases hdir : line.drCr <;> simp [JournalLine.delta, hdir] <;> omega

end JournalEntry

theorem reversalLine_delta (io : Io) (line : JournalLine) (n : Nat) (debitNormal : Bool) :
    (reversalLine io line n).delta debitNormal = -line.delta debitNormal := by
  cases debitNormal <;> cases hdir : line.drCr <;>
    simp [reversalLine, JournalLine.delta, hdir, DrCr.flip]

theorem lineSum_reversal (io : Io) (debitNormal : Bool) (a : AccountId) (lines : List JournalLine) (k : Nat) :
    lineSum debitNormal a ((lines.zipIdx k).map fun l => reversalLine io l.1 l.2) = -lineSum debitNormal a lines := by
  induction lines generalizing k with
  | nil => rfl
  | cons line lines ih =>
    have haccount : (reversalLine io line k).accountId = line.accountId := rfl
    simp only [List.zipIdx_cons, List.map_cons]
    rw [lineSum_cons, lineSum_cons, ih, haccount, reversalLine_delta]
    split <;> omega

theorem sum_delta_reversal (io : Io) (lines : List JournalLine) (k : Nat) :
    (((lines.zipIdx k).map fun l => reversalLine io l.1 l.2).map (·.delta true)).sum = -(lines.map (·.delta true)).sum := by
  induction lines generalizing k with
  | nil => rfl
  | cons line lines ih =>
    simp only [List.zipIdx_cons, List.map_cons, List.sum_cons]
    rw [ih, reversalLine_delta]
    omega

namespace LedgerStore

/-- What the balances rest on: accounts under their ids, no balance without an account, and indexed entries
    that are balanced and have known accounts. -/
structure Sound (s : LedgerStore) : Prop where
  ids : ∀ a acct, s.accounts.lookup a = some acct → acct.id = a
  unknown : ∀ a, s.accounts.lookup a = none → s.balanceCache.get a = 0
  known : ∀ e ∈ s.entryDb.entries, ∀ l ∈ e.lines, ∃ acct, s.accounts.lookup l.accountId = some acct
  balanced : ∀ e ∈ s.entryDb.entries, JournalEntry.totalOf .debit e.lines = JournalEntry.totalOf .credit e.lines

end LedgerStore

section Sound
variable {cfg : Config} {io : Io} {s s' : LedgerStore} {op : Op} {e : JournalEntry}

theorem EntryOrigin.lines {P : AccountId → Prop} (origin : EntryOrigin cfg io s op e)
    (known : ∀ a acct, s.accounts.lookup a = some acct → P a)
    (indexed : ∀ e ∈ s.entryDb.entries, ∀ l ∈ e.lines, P l.accountId) : ∀ l ∈ e.lines, P l.accountId := by
  intro l hl
  cases origin with
  | posted valid fresh checked =>
    rw [sealEntry_lines] at hl
    obtain ⟨acct, found, -⟩ := checkLine_ok ((checkEntry_ok checked).1 l hl)
    exact known _ acct found
  | reversed checked =>
    obtain ⟨found, -⟩ := checkReversal_ok checked
    rw [sealReversal_lines, List.mem_map] at hl
    obtain ⟨⟨line, n⟩, hmem, rfl⟩ := hl
    exact indexed _ (EntryDb.findById_some found).1 line (List.fst_mem_of_mem_zipIdx hmem)
  | imported valid fresh checked =>
    rw [sealEntry_lines] at hl
    obtain ⟨acct, found, -⟩ := checkImportLine_ok (checkAll_ok.1 checked l hl)
    exact known _ acct found

theorem EntryOrigin.known (origin : EntryOrigin cfg io s op e) (sound : s.Sound) :
    ∀ l ∈ e.lines, ∃ acct, s.accounts.lookup l.accountId = some acct :=
  origin.lines (P := fun a => ∃ acct, s.accounts.lookup a = some acct) (fun _ acct found => ⟨acct, found⟩) sound.known

theorem EntryOrigin.balanced (origin : EntryOrigin cfg io s op e) (sound : s.Sound) :
    totalOf .debit e.lines = totalOf .credit e.lines := by
  cases origin with
  | posted valid | imported valid =>
    rw [sealEntry_lines]
    exact validate_ok valid
  | @reversed entryId description domain original checked =>
    obtain ⟨found, -⟩ := checkReversal_ok checked
    have horiginal := sound.balanced _ (EntryDb.findById_some found).1
    have hsum := sum_delta_reversal io original.lines 0
    rw [sum_delta, sum_delta] at hsum
    rw [sealReversal_lines]
    omega

theorem LedgerStore.Sound.session (h : s.Sound) (effect : SessionEffect cfg io s op s') : s'.Sound := by
  cases effect with
  | kept accounts cache entryDb =>
    exact ⟨accounts ▸ h.ids, accounts ▸ cache ▸ h.unknown, accounts ▸ entryDb ▸ h.known, entryDb ▸ h.balanced⟩
  | created a unknown accounts cache entries =>
    have mono : ∀ b acct, s.accounts.lookup b = some acct → s'.accounts.lookup b = some acct := by
      intro b acct hb
      rw [accounts, Finmap.lookup_insert_of_ne]
      · exact hb
      · rintro rfl
        rw [unknown] at hb
        cases hb
    refine ⟨?_, ?_, ?_, entries ▸ h.balanced⟩
    · intro b acct hb
      rw [accounts] at hb
      by_cases hba : b = a.id
      · subst hba
        rw [Finmap.lookup_insert] at hb
        rw [Option.some.inj hb]
      · rw [Finmap.lookup_insert_of_ne _ hba] at hb
        exact h.ids b acct hb
    · intro b hb
      rw [cache]
      refine h.unknown b ?_
      cases hlook : s.accounts.lookup b with
      | none => rfl
      | some acct =>
        rw [mono b acct hlook] at hb
        cases hb
    · intro e he l hl
      rw [entries] at he
      obtain ⟨acct, found⟩ := h.known e he l hl
      exact ⟨acct, mono _ _ found⟩
  | committed e origin accounts cache entryDb =>
    refine ⟨accounts ▸ h.ids, ?_, ?_, ?_⟩
    · intro a ha
      rw [accounts] at ha
      rw [cache, Tally.get_addAll, h.unknown a ha, total_entryDeltas_unknown ha]
      rfl
    · intro x hx
      rw [accounts]
      rw [entryDb] at hx
      rcases mem_of_mem_indexEntry hx with rfl | hx
      · exact origin.known h
      · exact h.known x hx
    · intro x hx
      rw [entryDb] at hx
      rcases mem_of_mem_indexEntry hx with rfl | hx
      · exact origin.balanced h
      · exact h.balanced x hx

theorem LedgerStore.Sound.initial (d : Disk) (empty : d.entryDb.entries = []) : (LedgerStore.initial d).Sound where
  ids a acct ha := by simp [LedgerStore.initial] at ha
  unknown a _ := by simp [LedgerStore.initial]
  known e he := by
    rw [show (LedgerStore.initial d).entryDb = d.entryDb from rfl, empty] at he
    cases he
  balanced e he := by
    rw [show (LedgerStore.initial d).entryDb = d.entryDb from rfl, empty] at he
    cases he

end Sound

end VectorLedger
