import VectorLedger.Theorems.Events
import VectorLedger.Theorems.Replay

/-! Properties of the lines of entries, and totals by currency. An entry is balanced over all of its lines, whatever their
    currencies. -/

namespace VectorLedger

section
open LedgerStore TxLog

/-- Every entry in the log, committed or not, and every indexed entry has such lines. -/
structure Disk.LinesHave (P : List JournalLine → Prop) (d : Disk) : Prop where
  log : ∀ tx p e, Record.data tx p ∈ d.wal.records → p.row = .entry e → P e.lines
  index : ∀ e ∈ d.entryDb.entries, P e.lines

section Lines
variable {P : List JournalLine → Prop} {cfg : Config} {io : Io} {s s' : LedgerStore} {op : Op} {e : JournalEntry}
  {d : Disk} {m : Bool}

theorem Disk.LinesHave.fresh (key : Option SigningKey) : (Disk.fresh key).LinesHave P where
  log _ _ _ h := nomatch h
  index _ h := nomatch h

theorem mem_entriesOf {ps : List DataPayload} (h : e ∈ entriesOf ps) : ∃ p ∈ ps, p.row = .entry e := by
  obtain ⟨p, hp, hentry⟩ := List.mem_filterMap.1 h
  refine ⟨p, hp, ?_⟩
  cases hrow : p.row with
  | entry =>
    rw [hrow] at hentry
    rw [Option.some.inj hentry]
  | _ => simp [hrow] at hentry

theorem Disk.LinesHave.rows (h : d.LinesHave P) {rs : List WalRecord} (hrs : ∀ r ∈ rs, r ∈ d.wal.records) :
    ∀ e ∈ entriesOf (TxLog.rows rs), P e.lines := by
  intro e he
  obtain ⟨p, hp, hrow⟩ := mem_entriesOf he
  obtain ⟨tx, hdata⟩ := data_of_mem_rows hp
  exact h.log tx p e (hrs _ hdata) hrow

theorem Disk.LinesHave.committed (h : d.LinesHave P) : ∀ e ∈ committedEntries d.wal, P e.lines :=
  h.rows fun _ hr => hr

/-! ### Opens -/

theorem Disk.LinesHave.opened (h : d.LinesHave P) (m : Bool) : (opened m d).disk.LinesHave P := by
  refine ⟨?_, ?_⟩
  · rw [opened_wal]
    exact h.log
  · intro e he
    rcases mem_opened_entries m d e he with hold | hnew
    · exact h.index e hold
    · exact h.rows (fun _ hr => mem_of_mem_readLog hr) e hnew

/-! ### Calls -/

theorem Op.payloads_origin (reached : op.Reaches cfg s) {p : DataPayload} (hp : p ∈ op.payloads cfg io s)
    (hrow : p.row = .entry e) : EntryOrigin cfg io s op e := by
  cases op with
  | postEntry =>
    obtain rfl := List.mem_singleton.1 hp
    obtain rfl := Row.entry.inj hrow
    exact .posted reached.1 reached.2.1 reached.2.2
  | importEntryDirect =>
    obtain rfl := List.mem_singleton.1 hp
    obtain rfl := Row.entry.inj hrow
    exact .imported reached.1 reached.2.1 reached.2.2
  | reverseEntry entryId =>
    rcases checked : s.checkReversal entryId with err | original
    · simp [Op.payloads, checked] at hp
    · simp only [Op.payloads, checked, List.mem_cons, List.not_mem_nil, or_false] at hp
      rcases hp with rfl | rfl
      · obtain rfl := Row.entry.inj hrow
        exact .reversed checked
      · cases hrow
  | closeAccount | setLegalHold =>
    obtain ⟨acct, -, rfl⟩ := List.mem_map.1 hp
    cases hrow
  | _ =>
    obtain rfl := List.mem_singleton.1 hp
    cases hrow

/-- The lines that a call brings in, if it is a post or an import that comes to its write. -/
def Op.EntersLines (cfg : Config) (s : LedgerStore) (op : Op) (lines : List JournalLine) : Prop :=
  op.Reaches cfg s ∧ ∃ e : JournalEntry, e.lines = lines ∧ (op = .postEntry e ∨ op = .importEntryDirect e)

/-- The property of lines is kept by a reversal. -/
def Mirrored (P : List JournalLine → Prop) : Prop :=
  ∀ io lines, P lines → P (lines.zipIdx.map fun l => LedgerStore.reversalLine io l.1 l.2)

theorem EntryOrigin.lines_have (origin : EntryOrigin cfg io s op e) (mirrored : Mirrored P)
    (entered : ∀ lines, op.EntersLines cfg s lines → P lines) (index : ∀ x ∈ s.entryDb.entries, P x.lines) :
    P e.lines := by
  cases origin with
  | @posted x valid fresh checked =>
    rw [sealEntry_lines]
    exact entered _ ⟨⟨valid, fresh, checked⟩, x, rfl, .inl rfl⟩
  | reversed checked =>
    obtain ⟨found, -⟩ := checkReversal_ok checked
    rw [sealReversal_lines]
    exact mirrored io _ (index _ (EntryDb.findById_some found).1)
  | @imported x valid fresh checked =>
    rw [sealEntry_lines]
    exact entered _ ⟨⟨valid, fresh, checked⟩, x, rfl, .inr rfl⟩

theorem Disk.LinesHave.call (h : s.disk.LinesHave P) (mirrored : Mirrored P)
    (entered : ∀ lines, op.EntersLines cfg s lines → P lines) : (s.call cfg io op).2.disk.LinesHave P := by
  constructor
  · intro tx p e hp hrow
    rcases s.call_persisted cfg io op with hsame | ⟨reached, persisted⟩
    · rw [hsame] at hp
      exact h.log tx p e hp hrow
    · rcases persisted.log with hlog | ⟨-, part⟩
      · have hold : Record.data tx p ∈ s.txManager.wal.records := hlog ▸ hp
        exact h.log tx p e hold hrow
      · rcases part.data_mem hp with hold | hnew
        · exact h.log tx p e hold hrow
        · exact (Op.payloads_origin reached hnew hrow).lines_have mirrored entered h.index
  · intro x hx
    have hx' : x ∈ (s.call cfg io op).2.entryDb.entries := hx
    cases (s.call_effect cfg io op).events with
    | kept log entries =>
      rw [entries] at hx'
      exact h.index x hx'
    | committed e origin normal log entryDb =>
      rw [entryDb] at hx'
      rcases mem_of_mem_indexEntry hx' with rfl | hold
      · exact origin.lines_have mirrored entered h.index
      · exact h.index x hold
    | imported e hop reached log entryDb | marked entryId status notes hop log entryDb =>
      rw [entryDb] at hx'
      exact h.index x hx'

end Lines

/-! ### Runs -/

/-- What holds of all lines that posts and imports bring in, and of every mirror, holds of all lines in the log and
    the index. -/
theorem linesHave_of_run {P : List JournalLine → Prop} {cfg : Config} {key : Option SigningKey}
    {ok : Machine → Event → Prop} {x : Machine}
    (run : Run.Reachable (Machine.step cfg) ok (.down (.fresh key)) x) (mirrored : Mirrored P)
    (entered : ∀ s ev io op, ok (.up s) ev → ev.running = some (io, op) →
      ∀ lines, op.EntersLines cfg s lines → P lines) : x.disk.LinesHave P := by
  refine run.invariant (P := fun x => x.disk.LinesHave P) (.fresh key) ?_
  intro x ev y h allowed hstep
  cases x with
  | down =>
    cases Machine.step_cases hstep with
    | refused => exact h
    | opened => exact h.opened false
    | importing => exact h.opened true
  | up s =>
    cases ev with
    | openStore | openForImport => cases hstep
    | call io op | crash io op =>
      cases hstep
      exact h.call mirrored (entered s _ io op allowed rfl)
    | close =>
      cases hstep
      exact h

end

open Sample List JournalEntry

def linesIn (c : String) (lines : List JournalLine) : List JournalLine := lines.filter fun l => l.currencyCode = c

def totalOver (d : DrCr) (es : List JournalEntry) : Int := (es.map fun e => totalOf d e.lines).sum

def totalIn (d : DrCr) (c : String) (es : List JournalEntry) : Int :=
  (es.map fun e => totalOf d (linesIn c e.lines)).sum

def JournalEntry.mixes (c : String) (e : JournalEntry) : Bool :=
  e.lines.any (fun l => l.currencyCode = c) && e.lines.any fun l => l.currencyCode ≠ c

/-- Debits and credits are equal, whatever the currencies. -/
def BalancedLines (lines : List JournalLine) : Prop := totalOf .debit lines = totalOf .credit lines

theorem mirrored_balancedLines : Mirrored BalancedLines := by
  intro io lines h
  have hsum := sum_delta_reversal io lines 0
  rw [sum_delta, sum_delta] at hsum
  unfold BalancedLines at h ⊢
  omega

theorem balanced_linesIn {c : String} {e : JournalEntry} (balanced : BalancedLines e.lines) (pure : e.mixes c = false) :
    totalOf .debit (linesIn c e.lines) = totalOf .credit (linesIn c e.lines) := by
  rw [JournalEntry.mixes, Bool.and_eq_false_iff] at pure
  rcases pure with hnone | hall
  · have hempty : linesIn c e.lines = [] := by
      rw [linesIn, filter_eq_nil_iff]
      intro l hl
      simpa using any_eq_false.1 hnone l hl
    rw [hempty]
    rfl
  · have hsame : linesIn c e.lines = e.lines := by
      rw [linesIn, filter_eq_self]
      intro l hl
      simpa using any_eq_false.1 hall l hl
    rw [hsame]
    exact balanced

theorem totalIn_sub {c : String} {es : List JournalEntry} (balanced : ∀ e ∈ es, BalancedLines e.lines) :
    totalIn .debit c es - totalIn .credit c es =
      totalIn .debit c (es.filter (JournalEntry.mixes c)) - totalIn .credit c (es.filter (JournalEntry.mixes c)) := by
  induction es with
  | nil => rfl
  | cons e es ih =>
    rw [forall_mem_cons] at balanced
    have hrest := ih balanced.2
    cases hmix : e.mixes c with
    | true =>
      rw [filter_cons_of_pos hmix]
      simp only [totalIn, map_cons, sum_cons] at hrest ⊢
      omega
    | false =>
      have hopen := balanced_linesIn balanced.1 hmix
      rw [filter_cons_of_neg (by simp [hmix])]
      simp only [totalIn, map_cons, sum_cons] at hrest ⊢
      omega

/-- In every run, whatever crashes it has, and over any of the committed entries: debits and credits are equal over all
    currencies, and they are equal in a currency exactly when they are so over the entries that mix it with
    others. -/
theorem currency_totals_iff (cfg : Config) (key : Option SigningKey) (x : Machine) (accepted : JournalEntry → Bool)
    (c : String) (run : Run.Reachable (Machine.step cfg) (fun _ _ => True) (.down (.fresh key)) x) :
    totalOver .debit ((committedEntries x.disk.wal).filter accepted) =
        totalOver .credit ((committedEntries x.disk.wal).filter accepted) ∧
      (totalIn .debit c ((committedEntries x.disk.wal).filter accepted) =
          totalIn .credit c ((committedEntries x.disk.wal).filter accepted) ↔
        totalIn .debit c (((committedEntries x.disk.wal).filter accepted).filter (JournalEntry.mixes c)) =
          totalIn .credit c (((committedEntries x.disk.wal).filter accepted).filter (JournalEntry.mixes c))) := by
  have lines : x.disk.LinesHave BalancedLines := by
    refine linesHave_of_run run mirrored_balancedLines ?_
    rintro s ev io op - - lines ⟨reached, e, rfl, rfl | rfl⟩
    · exact validate_ok reached.1
    · exact validate_ok reached.1
  have balanced : ∀ e ∈ (committedEntries x.disk.wal).filter accepted, BalancedLines e.lines :=
    fun e he => lines.committed e (mem_of_mem_filter he)
  refine ⟨congrArg sum (map_congr_left balanced), ?_⟩
  have hsub := totalIn_sub (c := c) balanced
  constructor <;> intro h <;> omega

def Sample.twoCurrencies : List Event :=
  [.openStore, .call io (.createAccount (account 1 .asset)),
    .call io (.createAccount (Account.new config.toUppercase 2 0 "1002" "sample" .income "EUR" "test"))]

def Sample.mixedEntry : JournalEntry :=
  { transfer 10 none 5 2 1 with
    lines := [⟨0, 1, "USD", ⟨5⟩, .debit, none⟩, ⟨0, 2, "EUR", ⟨5⟩, .credit, none⟩] }

theorem currency_totals_iff_sample : ∃ s, Run.exec (Machine.step config) (.down (.fresh none))
        (twoCurrencies ++ [.call io (.postEntry mixedEntry)]) = some (.up s) ∧
      totalOver .debit ((committedEntries s.disk.wal).filter fun _ => true) =
        totalOver .credit ((committedEntries s.disk.wal).filter fun _ => true) :=
  Run.exists_of_exec (by decide +kernel) rfl fun run => (currency_totals_iff config none _ _ "USD" run).1

/-- The mixed entry is accepted and committed: 5 is debited in USD and nothing credited. -/
theorem currency_totals_differ : ((Run.exec (Machine.step config) (.down (.fresh none))
        (twoCurrencies ++ [.call io (.postEntry mixedEntry)])).map fun x =>
      (totalIn .debit "USD" (committedEntries x.disk.wal), totalIn .credit "USD" (committedEntries x.disk.wal))) =
      some (5, 0) := by
  decide +kernel

end VectorLedger
