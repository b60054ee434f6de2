import VectorLedger.Theorems.Entries
import VectorLedger.Theorems.Index

/-! Idempotency keys. A duplicate is looked for in the SQLite index only. -/

namespace VectorLedger

open Sample

/-- A key that is submitted is indexed if a committed entry carries it. -/
def KeyIndexed (s : LedgerStore) : Op → Prop
  | .postEntry e | .importEntryDirect e =>
    match e.idempotencyKey with
    | some key =>
      (∃ c ∈ committedEntries s.txManager.wal, c.idempotencyKey = some key) → s.entryDb.idempotencyKeyExists key
    | none => True
  | _ => True

/-- The condition on a step: no rows are left over under its transaction id, and its key is indexed. -/
def KeyStep : Machine → Event → Prop
  | .up s, .call _ op | .up s, .crash _ op => s.txManager.NoLeftover ∧ KeyIndexed s op
  | _, _ => True

instance (s : LedgerStore) (op : Op) : Decidable (KeyIndexed s op) := by
  rcases op with _ | _ | e | _ | e | _ | _ | _
  case postEntry | importEntryDirect =>
    dsimp only [KeyIndexed]
    rcases e.idempotencyKey with _ | _ <;> infer_instance
  all_goals exact inferInstanceAs (Decidable True)

instance (x : Machine) (ev : Event) : Decidable (KeyStep x ev) := by
  rcases x with _ | _ <;> rcases ev with _ | _ <;> unfold KeyStep <;> infer_instance

theorem KeyStep.clean {x : Machine} {ev : Event} (h : KeyStep x ev) : CleanStep x ev := by
  cases x <;> cases ev <;> first | exact h.1 | trivial

/-! ### A duplicate is refused -/

theorem key_not_committed {s : LedgerStore} {e : JournalEntry} {key : String}
    (fresh : s.duplicateOf e = none) (hkey : e.idempotencyKey = some key)
    (indexed : (∃ c ∈ committedEntries s.txManager.wal, c.idempotencyKey = some key) → s.entryDb.idempotencyKeyExists key) :
    ∀ c ∈ committedEntries s.txManager.wal, c.idempotencyKey ≠ some key := by
  intro c hc hsame
  exact EntryDb.not_idempotencyKeyExists fresh hkey (indexed ⟨c, hc, hsame⟩)

theorem EntryOrigin.key_fresh {cfg : Config} {io : Io} {s : LedgerStore} {op : Op} {e : JournalEntry}
    (origin : EntryOrigin cfg io s op e) (indexed : KeyIndexed s op) {key : String}
    (hkey : e.idempotencyKey = some key) :
    ∀ c ∈ committedEntries s.txManager.wal, c.idempotencyKey ≠ some key := by
  cases origin with
  | @posted e valid fresh | @imported e valid fresh =>
    rw [LedgerStore.sealEntry_idempotencyKey] at hkey
    simp only [KeyIndexed, hkey] at indexed
    exact key_not_committed fresh hkey indexed
  | reversed => simp at hkey

/-! ### Runs -/

/-- No key is on two entries. -/
def KeysUnique (es : List JournalEntry) : Prop :=
  ∀ key, (es.filter fun e => e.idempotencyKey = some key).length ≤ 1

theorem KeysUnique.append {es : List JournalEntry} {e : JournalEntry} (h : KeysUnique es)
    (hnew : ∀ key, e.idempotencyKey = some key → ∀ c ∈ es, c.idempotencyKey ≠ some key) :
    KeysUnique (es ++ [e]) := by
  intro key
  rw [List.filter_append]
  by_cases hkey : e.idempotencyKey = some key
  · have hnil : (es.filter fun c => c.idempotencyKey = some key) = [] := by
      rw [List.filter_eq_nil_iff]
      intro c hc
      simpa using hnew key hkey c hc
    simp [hnil, hkey]
  · simpa [hkey] using h key

theorem KeyStep.keysUnique {cfg : Config} {x y : Machine} {ev : Event} (h : Machine.step cfg x ev = some y)
    (ok : KeyStep x ev) (hx : KeysUnique (committedEntries x.disk.wal)) :
    KeysUnique (committedEntries y.disk.wal) := by
  rcases Machine.step_entries h ok.clean with hsame | ⟨s, io, op, e, rfl, running, origin, happ⟩
  · rwa [hsame]
  · have indexed : KeyIndexed s op := by
      cases ev <;> cases running <;> exact ok.2
    rw [happ]
    exact hx.append fun key hkey => origin.key_fresh indexed hkey

/-- In every run whose submitted keys are indexed when they are committed already, each key is committed at
    most once, over any number of sessions, imports and crashes. -/
theorem committed_keys_unique (cfg : Config) (signingKey : Option SigningKey) (x : Machine)
    (run : Run.Reachable (Machine.step cfg) KeyStep (.down (.fresh signingKey)) x) (key : String) :
    ((committedEntries x.disk.wal).filter fun e => e.idempotencyKey = some key).length ≤ 1 := by
  have hfresh : KeysUnique (committedEntries (Machine.down (.fresh signingKey)).disk.wal) := fun _ => Nat.zero_le 1
  have hunique : KeysUnique (committedEntries x.disk.wal) := by
    apply run.invariant
    · exact hfresh
    · intro x ev y hx ok h
      exact ok.keysUnique h hx
  exact hunique key

/-- The same key posted twice: the second post finds the first in the index. -/
theorem committed_keys_unique_posted_twice : ∃ x, Run.exec (Machine.step config) (.down (.fresh none)) (twoAccounts ++
        [.call io (.postEntry (transfer 10 (some "k") 5 2 1)),
          .call io (.postEntry (transfer 11 (some "k") 5 2 1))]) = some x ∧
      ((committedEntries x.disk.wal).filter fun e => e.idempotencyKey = some "k").length ≤ 1 :=
  Run.exists_of_exec (by decide +kernel) rfl fun run => committed_keys_unique _ _ _ run "k"

/-- The same key imported twice in one session: the import does not index the first entry, so the second
    passes the duplicate check and both are committed. -/
theorem imported_key_committed_twice : (Run.exec (Machine.step config) (.down (.fresh none)) (twoAccounts ++
        [.close, .openForImport, .call io (.importEntryDirect (transfer 10 (some "k") 5 2 1)),
          .call io (.importEntryDirect (transfer 11 (some "k") 5 2 1))])).map
      (fun x => ((committedEntries x.disk.wal).filter fun e => e.idempotencyKey = some "k").length) = some 2 := by
  decide +kernel

end VectorLedger
