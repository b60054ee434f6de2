import VectorLedger.Theorems.Sequence
import VectorLedger.Theorems.Shipping

/-! What no run loses that appends nothing behind a torn record: calls may fail, and the process may close or crash inside a
    record and open in either way. What the log has committed is read again, in its order; the index lists nothing else; and
    an answer to a post is about such an entry. -/

namespace VectorLedger

open Machine LedgerStore Sample

variable {cfg : Config} {x y : Machine} {ev : Event}

theorem Machine.step_grows (h : step cfg x ev = some y) : committedEntries x.disk.wal <+: committedEntries y.disk.wal := by
  rcases step_cases h with _ | ⟨d, -⟩ | ⟨d, -⟩ | effect | _ | effect
  · exact List.prefix_refl _
  · exact (opened_wal false d).symm ▸ List.prefix_refl _
  · exact (opened_wal true d).symm ▸ List.prefix_refl _
  · obtain ⟨ps, wrote, -⟩ := effect.origin
    exact wrote.entries_grow.1
  · exact List.prefix_refl _
  · obtain ⟨ps, wrote, -⟩ := effect.origin
    exact wrote.entries_grow.1

theorem Machine.run_grows (run : Run.Reachable (step cfg) AppendStep x y) :
    committedEntries x.disk.wal <+: committedEntries y.disk.wal :=
  run.invariant (P := fun y => committedEntries x.disk.wal <+: committedEntries y.disk.wal) (List.prefix_refl _)
    fun _ _ _ h _ hstep => h.trans (step_grows hstep)

/-- The entries that a reader of the whole log gets. -/
def readEntries (w : Segments WalRecord) : List JournalEntry := entriesOf (TxLog.rows (readLog w 0).1)

theorem readEntries_eq {w : Segments WalRecord} (torn : w.TornAtEnd) : readEntries w = committedEntries w := by
  rw [readEntries, readLog_eq torn]
  rfl

/-- What such a run keeps: no record stands behind a torn one, and the index lists committed entries only. -/
structure Disk.Kept (cfg : Config) (d : Disk) : Prop where
  durable : d.Durable cfg
  indexed : d.IndexCommitted

theorem Disk.Kept.fresh (cfg : Config) (key : Option SigningKey) : (Disk.fresh key).Kept cfg :=
  ⟨.fresh cfg key, List.forall_mem_nil _⟩

theorem Disk.Kept.step (h : x.disk.Kept cfg) (ready : AppendStep x ev) (hstep : Machine.step cfg x ev = some y) :
    y.disk.Kept cfg := by
  refine ⟨h.durable.step hstep ready, ?_⟩
  rcases step_cases hstep with _ | _ | _ | effect | _ | effect
  · exact h.indexed
  · exact opened_indexCommitted h.durable.torn h.indexed
  · exact opened_indexCommitted h.durable.torn h.indexed
  · exact h.indexed.effect effect
  · exact h.indexed
  · exact h.indexed.effect effect

theorem Machine.run_kept (run : Run.Reachable (step cfg) AppendStep x y) (h : x.disk.Kept cfg) : y.disk.Kept cfg :=
  run.invariant (P := (·.disk.Kept cfg)) h fun _ _ _ h ready hstep => h.step ready hstep

theorem LedgerStore.duplicateOf_some {s : LedgerStore} {e : JournalEntry} {n : Nat} (h : s.duplicateOf e = some n) :
    ∃ e' ∈ s.entryDb.entries, e'.sequence = n ∧ e'.idempotencyKey = e.idempotencyKey := by
  unfold duplicateOf at h
  cases hkey : e.idempotencyKey with
  | none => simp [hkey] at h
  | some key =>
    simp only [hkey, Option.ite_none_right_eq_some, Option.some.injEq] at h
    obtain ⟨e', hfind⟩ : ∃ e', s.entryDb.entries.find? (fun e' => e'.idempotencyKey = some key) = some e' :=
      Option.isSome_iff_exists.1 (List.find?_isSome.2 (List.any_eq_true.1 h.1))
    refine ⟨e', List.mem_of_find?_eq_some hfind, ?_, by simpa using List.find?_some hfind⟩
    simpa [EntryDb.sequenceForIdempotencyKey, hfind] using h.2

instance (x : Machine) (ev : Event) : Decidable (AppendStep x ev) := by
  rcases x with _ | _ <;> rcases ev with _ | _ <;> unfold AppendStep <;> infer_instance

def Sample.diesInSecond : List Event := [crashInRecord 20 (transfer 11 none 7 2 1), .openStore]

end VectorLedger
