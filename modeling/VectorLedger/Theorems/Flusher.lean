import VectorLedger.Theorems.Torn
import VectorLedger.Wal.Flusher

/-! The flag of the group commit. When it is clear, what has been appended to the active segment should be on disk. -/

namespace VectorLedger

open List

namespace Wal

/-- The files are in the order of their indices. -/
def Dir.Sorted (d : Dir) : Prop := (d.map (·.index)).Pairwise (· < ·)

namespace GroupCommit

variable {c : Crypto} {s t : GroupCommit}

/-! ### The flag -/

/-- All of the active segment is on disk. -/
def AllSynced (s : GroupCommit) : Prop := s.synced s.writer.activeIndex = s.writer.active.length

/-- No append is under way. -/
def Settled (s : GroupCommit) : Prop := ∀ pieces, s.writerPc ≠ .writing pieces

/-- The append that is about to set the flag does not do so behind the back of the flusher: between the fsync of the
    flusher and its clearing of the flag, and before its fsync of a segment that has been rolled since it was listed, an
    append ends only when its bytes are on disk. -/
def FinishesInTime (s : GroupCommit) : Prop :=
  match s.flusherPc with
  | .clearing => s.AllSynced
  | .flushing index false => index = s.writer.activeIndex ∨ s.AllSynced
  | _ => True

/-- An append ends in time for the flusher, and none fails while it writes. -/
def Orderly (s : GroupCommit) : FlushEvent → Prop
  | .writer => s.writerPc = .writing [] → s.FinishesInTime
  | .writerFails _ => s.Settled
  | _ => True

/-- Outside of an append, a log that is not dirty is synced. -/
structure Inv (s : GroupCommit) : Prop where
  sealed : ∀ f ∈ s.writer.sealed, f.index < s.writer.activeIndex
  next : s.writer.activeIndex < s.writer.nextSegmentIndex
  durable : s.Settled → s.dirty = false → s.AllSynced
  cleared : s.writerPc = .clearing → s.AllSynced
  inTime : s.Settled → s.FinishesInTime

theorem getLast_dir (w : WalWriter) : w.dir.getLast? = some ⟨w.activeIndex, w.active⟩ := getLast?_concat ..

theorem find_last {d : Dir} {f : SegmentFile} (h : ∀ g ∈ d, g.index < f.index) :
    (d ++ [f]).find? (·.index == f.index) = some f := by
  have hnone : d.find? (·.index == f.index) = none := by
    rw [find?_eq_none]
    intro g hg heq
    exact Nat.ne_of_lt (h g hg) (beq_iff_eq.1 heq)
  rw [find?_append, hnone]
  simp

theorem allSynced_fsyncActive (s : GroupCommit) : s.fsyncActive.AllSynced := Function.update_self ..

theorem fsyncFile_eq (s : GroupCommit) (index : Nat) : ∃ synced, s.fsyncFile index = { s with synced := synced } ∧
      ∀ i, i ≠ index → synced i = s.synced i := by
  unfold fsyncFile
  split
  · exact ⟨_, rfl, fun i hi => Function.update_of_ne hi _ _⟩
  · exact ⟨s.synced, rfl, fun _ _ => rfl⟩

theorem allSynced_fsyncFile (h : ∀ f ∈ s.writer.sealed, f.index < s.writer.activeIndex) {index : Nat}
    (hsynced : index = s.writer.activeIndex ∨ s.AllSynced) : (s.fsyncFile index).AllSynced := by
  by_cases hactive : index = s.writer.activeIndex
  · subst hactive
    have hfind : s.writer.dir.find? (·.index == s.writer.activeIndex) = some ⟨s.writer.activeIndex, s.writer.active⟩ :=
      find_last (f := ⟨s.writer.activeIndex, s.writer.active⟩) h
    rw [fsyncFile, hfind]
    exact Function.update_self ..
  · obtain ⟨synced, heq, hother⟩ := fsyncFile_eq s index
    rw [heq]
    exact (hother _ (Ne.symm hactive)).trans (hsynced.resolve_left hactive)

theorem inTime_of_allSynced (h : s.AllSynced) : s.FinishesInTime := by
  unfold FinishesInTime
  split
  · exact h
  · exact .inr h
  · trivial

theorem settled_of_idle (h : s.writerPc = .idle) : s.Settled := by
  intro pieces heq
  rw [h] at heq
  cases heq

theorem Inv.setWriterPc (h : s.Inv) (settled : s.Settled) {pc : WriterPc} (hpc : pc ≠ .clearing) {n : UInt64} :
    Inv { s with writer := { s.writer with sequence := n }, writerPc := pc } := by
  refine ⟨h.sealed, h.next, fun _ => h.durable settled, fun hclear => absurd hclear hpc, fun _ => h.inTime settled⟩

theorem Inv.writing {pieces : List Bytes} (sealed : ∀ f ∈ s.writer.sealed, f.index < s.writer.activeIndex)
    (next : s.writer.activeIndex < s.writer.nextSegmentIndex) (hpc : s.writerPc = .writing pieces) : s.Inv := by
  have hnot : ¬s.Settled := fun settled => settled pieces hpc
  refine ⟨sealed, next, fun settled => absurd settled hnot, fun hclear => ?_, fun settled => absurd settled hnot⟩
  rw [hpc] at hclear
  cases hclear

theorem Inv.append (h : s.Inv) (hidle : s.writerPc = .idle) (a : Append) : (s.append c a).Inv := by
  unfold GroupCommit.append
  simp only
  split
  · exact Inv.writing h.sealed h.next rfl
  · exact h.setWriterPc (settled_of_idle hidle) (by nofun)

theorem Inv.writerStep (h : s.Inv) (orderly : s.writerPc = .writing [] → s.FinishesInTime)
    (hstep : s.writerStep c = some t) : t.Inv := by
  unfold GroupCommit.writerStep at hstep
  cases hpc : s.writerPc with
  | idle => simp [hpc] at hstep
  | sealing r nonce =>
    simp only [hpc, Option.some.injEq] at hstep
    subst hstep
    have hsynced : AllSynced { s.fsyncActive with activeSealed := true, writerPc := .creating r nonce } :=
      s.allSynced_fsyncActive
    exact ⟨h.sealed, h.next, fun _ _ => hsynced, nofun, fun _ => inTime_of_allSynced hsynced⟩
  | creating =>
    simp only [hpc, Option.some.injEq] at hstep
    subst hstep
    refine Inv.writing ?_ (Nat.lt_succ_self _) rfl
    intro f hf
    rcases mem_append.1 hf with hold | hlast
    · exact Nat.lt_trans (h.sealed f hold) h.next
    · obtain rfl := mem_singleton.1 hlast
      exact h.next
  | writing pieces =>
    cases pieces with
    | cons =>
      simp only [hpc, Option.some.injEq] at hstep
      subst hstep
      exact Inv.writing h.sealed h.next rfl
    | nil =>
      simp only [hpc, Option.some.injEq] at hstep
      subst hstep
      exact ⟨h.sealed, h.next, nofun, nofun, fun _ => orderly hpc⟩
  | syncing =>
    simp only [hpc, Option.some.injEq] at hstep
    subst hstep
    have hsynced : AllSynced { s.fsyncActive with writerPc := .clearing } := s.allSynced_fsyncActive
    exact ⟨h.sealed, h.next, fun _ _ => hsynced, fun _ => hsynced, fun _ => inTime_of_allSynced hsynced⟩
  | clearing =>
    simp only [hpc, Option.some.injEq] at hstep
    subst hstep
    have hsynced := h.cleared hpc
    exact ⟨h.sealed, h.next, fun _ _ => hsynced, nofun, fun _ => inTime_of_allSynced hsynced⟩

theorem Inv.writerFails (h : s.Inv) (settled : s.Settled) {written : Nat} (hstep : s.writerFails written = some t) :
    t.Inv := by
  unfold GroupCommit.writerFails at hstep
  split at hstep
  · cases hstep
    exact h.setWriterPc settled (by nofun)
  · cases hstep
    exact h.setWriterPc settled (by nofun)
  · cases hstep
    exact h.setWriterPc settled (by nofun)
  · next p ps hpc => exact absurd hpc (settled _)
  · cases hstep
  · cases hstep
  · cases hstep

theorem Inv.setFlusherPc (h : s.Inv) {pc : FlusherPc} (inTime : FinishesInTime { s with flusherPc := pc }) :
    Inv { s with flusherPc := pc } :=
  ⟨h.sealed, h.next, h.durable, h.cleared, fun _ => inTime⟩

theorem inTime_afterFlush (s : GroupCommit) (last : Bool) : FinishesInTime { s with flusherPc := afterFlush last } := by
  cases last <;> trivial

theorem Inv.flusherStep (h : s.Inv) (hstep : s.flusherStep = some t) : t.Inv := by
  unfold GroupCommit.flusherStep at hstep
  cases hpc : s.flusherPc with
  | sleeping | exited => simp [hpc] at hstep
  | listing last =>
    simp only [hpc, getLast_dir, Option.some.injEq] at hstep
    subst hstep
    refine h.setFlusherPc ?_
    cases last with
    | false => exact .inl rfl
    | true => trivial
  | flushing index last =>
    simp only [hpc, Option.some.injEq] at hstep
    subst hstep
    obtain ⟨synced, heq, hother⟩ := fsyncFile_eq s index
    have hkept : s.AllSynced → (s.fsyncFile index).AllSynced :=
      fun hsynced => allSynced_fsyncFile h.sealed (.inr hsynced)
    have hlisted : last = false → s.Settled → (s.fsyncFile index).AllSynced := by
      rintro rfl settled
      have hinTime := h.inTime settled
      simp only [FinishesInTime, hpc] at hinTime
      exact allSynced_fsyncFile h.sealed hinTime
    rw [heq] at hkept hlisted ⊢
    refine ⟨h.sealed, h.next, fun settled hclean => hkept (h.durable settled hclean), fun hclear => hkept (h.cleared hclear),
      fun settled => ?_⟩
    cases last with
    | true => trivial
    | false => exact hlisted rfl settled
  | clearing =>
    simp only [hpc, Option.some.injEq] at hstep
    subst hstep
    refine ⟨h.sealed, h.next, fun settled _ => ?_, h.cleared, fun _ => trivial⟩
    have hinTime := h.inTime settled
    simp only [FinishesInTime, hpc] at hinTime
    exact hinTime

theorem Inv.flusherFails (h : s.Inv) (hstep : s.flusherFails = some t) : t.Inv := by
  unfold GroupCommit.flusherFails at hstep
  split at hstep
  · cases hstep
    exact h.setFlusherPc (inTime_afterFlush s _)
  · cases hstep
    exact h.setFlusherPc (inTime_afterFlush s _)
  · cases hstep
  · cases hstep
  · cases hstep

/-- A step of the writer or of the flusher keeps the invariant. -/
theorem Inv.step (h : s.Inv) {ev : FlushEvent} (orderly : s.Orderly ev) (hstep : s.step c ev = some t) : t.Inv := by
  cases ev with
  | append a =>
    simp only [GroupCommit.step, Option.ite_none_right_eq_some, Option.some.injEq] at hstep
    obtain ⟨hidle, rfl⟩ := hstep
    exact h.append hidle a
  | sync =>
    simp only [GroupCommit.step, Option.ite_none_right_eq_some, Option.some.injEq] at hstep
    obtain ⟨hidle, rfl⟩ := hstep
    refine h.setWriterPc (settled_of_idle hidle) ?_
    split <;> nofun
  | writer => exact h.writerStep orderly hstep
  | writerFails => exact h.writerFails orderly hstep
  | wake | shutdown =>
    simp only [GroupCommit.step, Option.ite_none_right_eq_some, Option.some.injEq] at hstep
    obtain ⟨-, rfl⟩ := hstep
    refine h.setFlusherPc ?_
    cases s.dirty <;> trivial
  | flusher => exact h.flusherStep hstep
  | flusherFails => exact h.flusherFails hstep

theorem inv_start (c : Crypto) {d : Dir} (sorted : d.Sorted) (size : Nat) (key : Option WalKey) :
    (start c d size key).Inv := by
  rcases eq_nil_or_concat' d with rfl | ⟨ds, f, rfl⟩
  · exact ⟨forall_mem_nil _, Nat.one_pos, fun _ _ => rfl, (fun h => by cases h), fun _ => trivial⟩
  · have hbefore : ∀ g ∈ ds, g.index < f.index := by
      rw [Dir.Sorted, map_append, pairwise_append] at sorted
      intro g hg
      exact sorted.2.2 _ (mem_map_of_mem hg) _ (mem_singleton_self _)
    have hwriter : (start c (ds ++ [f]) size key).writer.sealed = ds ∧
        (start c (ds ++ [f]) size key).writer.activeIndex = f.index ∧
        (start c (ds ++ [f]) size key).writer.active = f.bytes ∧
        (start c (ds ++ [f]) size key).writer.nextSegmentIndex = f.index + 1 := by
      simp [start, WalWriter.openWithOptions]
    obtain ⟨hsealed, hindex, hactive, hnext⟩ := hwriter
    have hsynced : (start c (ds ++ [f]) size key).AllSynced := by
      rw [AllSynced, hindex, hactive]
      simp only [start]
      rw [find_last hbefore]
      rfl
    refine ⟨?_, ?_, fun _ _ => hsynced, (fun h => by cases h), fun _ => trivial⟩
    · rw [hsealed, hindex]
      exact hbefore
    · rw [hindex, hnext]
      exact Nat.lt_succ_self _

/-- In every run in which appends end in time and no write fails, when the flag is clear and no append is on its way, all
    bytes of the active segment have been fsynced. -/
theorem synced_of_clean (c : Crypto) {d : Dir} (sorted : d.Sorted) (size : Nat) (key : Option WalKey) {s : GroupCommit}
    (run : Run.Reachable (step c) Orderly (start c d size key) s) (settled : s.Settled) (clean : s.dirty = false) :
    s.synced s.writer.activeIndex = s.writer.active.length :=
  (run.invariant (inv_start c sorted size key) fun _ _ _ h orderly hstep => h.step orderly hstep).durable settled clean

instance (s : GroupCommit) : Decidable s.AllSynced := by unfold AllSynced; infer_instance

instance (s : GroupCommit) : Decidable s.Settled :=
  match h : s.writerPc with
  | .writing pieces => isFalse fun settled => settled pieces h
  | .idle | .sealing _ _ | .creating _ _ | .syncing | .clearing => isTrue fun _ hwriting => by cases h.symm.trans hwriting

instance (s : GroupCommit) : Decidable s.FinishesInTime := by
  unfold FinishesInTime
  split <;> infer_instance

instance (s : GroupCommit) (ev : FlushEvent) : Decidable (s.Orderly ev) := by
  cases ev <;> unfold Orderly <;> infer_instance

end GroupCommit

namespace Sample

def appended (txId : UInt64) : List FlushEvent := .append (append txId .begin) :: List.replicate 4 .writer

def flushed : List FlushEvent := [.wake, .flusher, .flusher, .flusher]

/-- A record is appended between the fsync of the flusher and its clearing of the flag. -/
def overtaken : List FlushEvent := appended 1 ++ [.wake, .flusher, .flusher] ++ appended 2 ++ [.flusher]

end Sample

open Wal.Sample

/-- Two records are appended, one before a flush and one after it, and then flushed. -/
theorem GroupCommit.synced_of_clean_flushed : ∃ s, Run.exec (step crypto) (start crypto [] 1000 none)
        (appended 1 ++ flushed ++ appended 2 ++ flushed) = some s ∧
      s.writer.active.length = 76 ∧ s.synced s.writer.activeIndex = s.writer.active.length :=
  Run.exists_of_exec (by decide +kernel) rfl fun run => ⟨by decide +kernel,
    synced_of_clean crypto (d := []) List.Pairwise.nil 1000 none run (by decide +kernel) (by decide +kernel)⟩

/-- The flusher clears the flag that the second append has set: the flag is clear, no call is on its way, and the record of
    the second append is not on disk. -/
theorem GroupCommit.unsynced_when_clean :
    ∃ s, Run.exec (step crypto) (start crypto [] 1000 none) overtaken = some s ∧ s.Settled ∧
      s.dirty = false ∧ s.synced s.writer.activeIndex = 38 ∧ s.writer.active.length = 76 := by
  decide +kernel

end Wal

end VectorLedger
