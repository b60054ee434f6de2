import VectorLedger.Theorems.Torn
import VectorLedger.Wal.Rotation

/-! The log after a rotation of its key. The active file, when it is skipped, keeps its records under the old key, and a
    file without records keeps whatever stands in it. -/

namespace VectorLedger.Wal

open Wal.Sample List Frames

/-! ### Files -/

section Files
variable {c : Crypto} {key : Option WalKey} {d : Dir} {f : SegmentFile}

def SegmentFile.records (c : Crypto) (key : Option WalKey) (f : SegmentFile) : List Record :=
  good (readSegment c key f.index f.bytes)

/-- The file is read without an error. -/
def SegmentFile.Read (c : Crypto) (key : Option WalKey) (f : SegmentFile) : Prop :=
  readSegment c key f.index f.bytes = (f.records c key).map Except.ok

theorem map_ok_inj {rs rs' : List Record} (h : (rs.map .ok : List (Except WalError Record)) = rs'.map .ok) : rs = rs' := by
  have hgood := congrArg good h
  rwa [good_ok, good_ok] at hgood

theorem readDir_of_read (h : ∀ f ∈ d, f.Read c key) :
    readDir c key d = (d.flatMap (SegmentFile.records c key)).map Except.ok := by
  induction d with
  | nil => rfl
  | cons f d ih =>
    rw [forall_mem_cons] at h
    rw [readDir_cons, ih h.2, show readSegment c key f.index f.bytes = _ from h.1, flatMap_cons, map_append]

theorem read_of_readDir {rs : List Record} (h : readDir c key d = rs.map Except.ok) :
    (∀ f ∈ d, f.Read c key) ∧ rs = d.flatMap (SegmentFile.records c key) := by
  have hread : ∀ f ∈ d, f.Read c key := by
    intro f hf
    refine eq_map_good fun e he => ?_
    have hmem : .error e ∈ readDir c key d := mem_flatMap.2 ⟨f, hf, he⟩
    rw [h] at hmem
    obtain ⟨r, -, hr⟩ := mem_map.1 hmem
    cases hr
  exact ⟨hread, map_ok_inj (h.symm.trans (readDir_of_read hread))⟩

/-- The bytes are records of this segment, and nothing else. -/
def Whole (c : Crypto) (key : Option WalKey) (segmentIndex : Nat) (bs : Bytes) : Prop :=
  ∃ gs, bs = bytes gs ∧ ∀ g ∈ gs, Reads (nextRecord c key segmentIndex) g.1 g.2

theorem readSegment_bytes {segmentIndex : Nat} {gs : List (Record × Bytes)}
    (reads : ∀ g ∈ gs, Reads (nextRecord c key segmentIndex) g.1 g.2) :
    readSegment c key segmentIndex (bytes gs) = (gs.map (·.1)).map Except.ok := by
  have hread := readFrom_append (nextRecord_shrinks c key segmentIndex) reads 0 []
  rw [append_nil, readFrom_nil, append_nil] at hread
  rw [readSegment, hread, map_map]
  rfl

end Files

/-! ### Rewritten files -/

def SegmentFile.rotated (c : Crypto) (oldKey : Option WalKey) (newKey : WalKey) (nonces : Nat → Nat → Nonce)
    (f : SegmentFile) : SegmentFile :=
  if (f.records c oldKey).isEmpty then f
  else ⟨f.index, encryptRecords c (c.deriveSegmentKey newKey f.index) f.index (nonces f.index) (f.records c oldKey)⟩

section Rewriting
variable {c : Crypto} {oldKey : Option WalKey} {newKey : WalKey} {nonces : Nat → Nat → Nonce} {d : Dir} {f : SegmentFile}

theorem newFrames_records (key : WalKey) (i : Nat) (ns : Nat → Nonce) (rs : List Record) :
    (newFrames c key i ns rs).map (·.1) = rs := by
  induction rs generalizing ns with
  | nil => rfl
  | cons r rs ih => exact congrArg (r :: ·) (ih _)

theorem newFrames_bytes (key : WalKey) (i : Nat) (ns : Nat → Nonce) (rs : List Record) :
    bytes (newFrames c key i ns rs) = encryptRecords c key i ns rs := by
  induction rs generalizing ns with
  | nil => rfl
  | cons r rs ih => exact congrArg (_ ++ ·) (ih _)

theorem mem_newFrames {key : WalKey} {i : Nat} {ns : Nat → Nonce} {rs : List Record} {g : Record × Bytes}
    (h : g ∈ newFrames c key i ns rs) : g.1 ∈ rs ∧ ∃ nonce, g.2 = encryptRecord c key nonce g.1.toBytes i := by
  induction rs generalizing ns with
  | nil => cases h
  | cons r rs ih =>
    rcases mem_cons.1 h with rfl | hrest
    · exact ⟨mem_cons_self, ns 0, rfl⟩
    · obtain ⟨hr, hg⟩ := ih hrest
      exact ⟨mem_cons_of_mem _ hr, hg⟩

theorem rotated_cases (c : Crypto) (oldKey : Option WalKey) (newKey : WalKey) (nonces : Nat → Nat → Nonce)
    (f : SegmentFile) :
    (f.records c oldKey = [] ∧ f.rotated c oldKey newKey nonces = f) ∨ f.rotated c oldKey newKey nonces = ⟨f.index,
        bytes (newFrames c (c.deriveSegmentKey newKey f.index) f.index (nonces f.index) (f.records c oldKey))⟩ := by
  unfold SegmentFile.rotated
  split
  · next hempty => exact .inl ⟨isEmpty_iff.1 hempty, rfl⟩
  · rw [newFrames_bytes]
    exact .inr rfl

theorem rotated_index : (f.rotated c oldKey newKey nonces).index = f.index := by
  unfold SegmentFile.rotated
  split <;> rfl

theorem recordsToRotate_ok (rs : List Record) : recordsToRotate (rs.map Except.ok) = .ok rs := by
  induction rs with
  | nil => rfl
  | cons r rs ih =>
    rw [map_cons, recordsToRotate, ih]
    rfl

theorem reencryptSegment_read (newKey : WalKey) (nonces : Nat → Nat → Nonce) (h : f.Read c oldKey) :
    ∃ wasPlaintext, reencryptSegment c oldKey newKey (nonces f.index) f =
      .ok (wasPlaintext, f.rotated c oldKey newKey nonces) := by
  have hrecords : recordsToRotate (readSegment c oldKey f.index f.bytes) = .ok (f.records c oldKey) := by
    rw [show readSegment c oldKey f.index f.bytes = _ from h, recordsToRotate_ok]
  refine ⟨4 ≤ f.bytes.length && leNat (f.bytes.take 4) ≠ encryptedMagic.toNat, ?_⟩
  simp only [reencryptSegment, hrecords, bind, Except.bind, SegmentFile.rotated]
  split <;> rfl

theorem rotateSegments_ok {next : SegmentFile → SegmentFile}
    (h : ∀ f ∈ d, ∃ wasPlaintext, reencryptSegment c oldKey newKey (nonces f.index) f = .ok (wasPlaintext, next f)) :
    ∃ counts, rotateSegments c oldKey newKey nonces d = (.ok counts, d.map next) := by
  induction d with
  | nil => exact ⟨_, rfl⟩
  | cons f d ih =>
    rw [forall_mem_cons] at h
    obtain ⟨⟨wasPlaintext, hf⟩, hd⟩ := h
    obtain ⟨counts, hd⟩ := ih hd
    refine ⟨if wasPlaintext then (counts.1, counts.2 + 1) else (counts.1 + 1, counts.2), ?_⟩
    rw [rotateSegments, hf, hd]
    rfl

theorem rotateSegments_read (newKey : WalKey) (nonces : Nat → Nat → Nonce) (h : ∀ f ∈ d, f.Read c oldKey) :
    ∃ counts, rotateSegments c oldKey newKey nonces d = (.ok counts, d.map (SegmentFile.rotated c oldKey newKey nonces)) :=
  rotateSegments_ok fun f hf => reencryptSegment_read newKey nonces (h f hf)

def toRotate (skipActive : Bool) (d : Dir) : Dir := if skipActive then d.dropLast else d

def SegmentFile.afterRotation (c : Crypto) (oldKey : Option WalKey) (newKey : WalKey) (nonces : Nat → Nat → Nonce)
    (skipActive : Bool) (f : SegmentFile) : SegmentFile :=
  if skipActive then f else f.rotated c oldKey newKey nonces

theorem rotateWalKey_read (newKey : WalKey) (nonces : Nat → Nat → Nonce) (h : ∀ g ∈ d ++ [f], g.Read c oldKey)
    (skipActive : Bool) :
    ∃ result, rotateWalKey c (d ++ [f]) oldKey newKey skipActive nonces = (.ok result,
      d.map (SegmentFile.rotated c oldKey newKey nonces) ++ [f.afterRotation c oldKey newKey nonces skipActive]) := by
  cases skipActive with
  | false =>
    obtain ⟨counts, hcounts⟩ := rotateSegments_read newKey nonces h
    refine ⟨⟨counts.1, counts.2, 0⟩, ?_⟩
    simp only [rotateWalKey, Bool.false_eq_true, if_false, hcounts, SegmentFile.afterRotation, map_append,
      Option.toList_none, append_nil]
    rfl
  | true =>
    obtain ⟨counts, hcounts⟩ := rotateSegments_read newKey nonces
      fun g hg => h g (mem_append_left _ hg)
    refine ⟨⟨counts.1, counts.2, 1⟩, ?_⟩
    simp only [rotateWalKey, if_true, dropLast_concat, getLast?_concat, hcounts, SegmentFile.afterRotation]
    rfl

end Rewriting

/-! ### Reading with the new key -/

/-- The file is plaintext records, each as it was written, and behind them nothing that looks like a record. -/
structure SegmentFile.Plain (c : Crypto) (f : SegmentFile) (rs : List Record) (tail : Bytes) : Prop where
  split : f.bytes = rs.flatMap Record.toBytes ++ tail
  written : ∀ r ∈ rs, r.Written c ∧ r.payload.length ≤ maxRecordPayload
  foreign : Foreign tail

section Rotated
variable {c : Crypto} {oldKey : Option WalKey} {newKey : WalKey} {nonces : Nat → Nat → Nonce} {f : SegmentFile}
  {rs : List Record} {tail : Bytes}

theorem SegmentFile.Plain.frames (h : f.Plain c rs tail) : ∃ gs, f.bytes = Frames.bytes gs ++ tail ∧ gs.map (·.1) = rs ∧
    ∀ key, ∀ g ∈ gs, Reads (nextRecord c key f.index) g.1 g.2 := by
  refine ⟨rs.map fun r => (r, r.toBytes), ?_, ?_, fun key => ?_⟩
  · rw [h.split, Frames.bytes, flatMap_map]
  · rw [map_map]
    exact map_id' rs
  · rw [forall_mem_map]
    exact fun r hr => (h.written r hr).1.reads_plaintext (h.written r hr).2

/-- Whatever the key of the reader is, it yields the same. -/
theorem SegmentFile.Plain.read (h : f.Plain c rs tail) (key : Option WalKey) :
    readSegment c key f.index f.bytes = rs.map Except.ok := by
  obtain ⟨gs, hbytes, rfl, hreads⟩ := h.frames
  have hread := readFrom_append (nextRecord_shrinks c key f.index) (hreads key) 0 tail
  rw [readFrom_ended (next_foreign h.foreign _ _), append_nil, ← hbytes] at hread
  rw [readSegment, hread, map_map]
  rfl

theorem records_sound (h : f.Read c oldKey) : ∀ r ∈ f.records c oldKey, r.Sound c := by
  obtain ⟨gs, tail, -, hrecords, hframes, -⟩ := exists_frames_of_readFrom (nextRecord_shrinks c oldKey f.index)
    (FrameIn c oldKey f.index) (fun _ _ _ _ => nextRecord_cut) h
  intro r hr
  rw [← hrecords] at hr
  obtain ⟨g, hg, rfl⟩ := mem_map.1 hr
  exact (hframes g hg).sound

abbrev SegmentFile.framesAnew (c : Crypto) (oldKey : Option WalKey) (newKey : WalKey) (nonces : Nat → Nat → Nonce)
    (f : SegmentFile) : List (Record × Bytes) :=
  newFrames c (c.deriveSegmentKey newKey f.index) f.index (nonces f.index) (f.records c oldKey)

/-- No record of a file gets too large when it is encrypted. -/
def SegmentFile.Fits (c : Crypto) (oldKey : Option WalKey) (f : SegmentFile) : Prop :=
  ∀ r ∈ f.records c oldKey, r.payload.length + 54 ≤ maxRecordPayload

section
variable (lawful : c.Lawful)
include lawful

theorem newFrames_reads (h : f.Read c oldKey) (fits : f.Fits c oldKey) :
    ∀ g ∈ f.framesAnew c oldKey newKey nonces, Reads (nextRecord c (some newKey) f.index) g.1 g.2 := by
  intro g hg
  obtain ⟨hmem, nonce, hb⟩ := mem_newFrames hg
  rw [hb]
  exact (records_sound h g.1 hmem).reads_encrypted lawful nonce (fits g.1 hmem)

theorem read_rotated (h : f.Read c oldKey) (fits : f.Fits c oldKey)
    (same : f.records c oldKey = [] → readSegment c (some newKey) f.index f.bytes = readSegment c oldKey f.index f.bytes) :
    readSegment c (some newKey) f.index (f.rotated c oldKey newKey nonces).bytes = (f.records c oldKey).map Except.ok := by
  rcases rotated_cases c oldKey newKey nonces f with ⟨hempty, hsame⟩ | hnew
  · rw [hsame, same hempty]
    exact h
  · rw [hnew, readSegment_bytes (newFrames_reads lawful h fits), newFrames_records]

/-- The active file has nothing but records that the new key reads. -/
theorem frames_afterRotation {skipActive : Bool} (h : f.Read c oldKey) (fits : skipActive = false → f.Fits c oldKey)
    (plain : skipActive = true ∨ f.records c oldKey = [] → ∃ rs, f.Plain c rs []) :
    ∃ gs, (f.afterRotation c oldKey newKey nonces skipActive).bytes = bytes gs ∧ gs.map (·.1) = f.records c oldKey ∧
      ∀ g ∈ gs, Reads (nextRecord c (some newKey) f.index) g.1 g.2 := by
  by_cases hleft : skipActive = true ∨ f.records c oldKey = []
  · obtain ⟨rs, hplain⟩ := plain hleft
    obtain ⟨gs, hbytes, hrecords, hreads⟩ := hplain.frames
    have hsame : f.afterRotation c oldKey newKey nonces skipActive = f := by
      rcases hleft with rfl | hempty
      · rfl
      · simp [SegmentFile.afterRotation, SegmentFile.rotated, hempty]
    refine ⟨gs, by rw [hsame, hbytes, append_nil], ?_, hreads (some newKey)⟩
    rw [hrecords, SegmentFile.records, hplain.read, good_ok]
  · obtain ⟨hskip, hrecords⟩ := not_or.1 hleft
    obtain rfl := Bool.eq_false_of_not_eq_true hskip
    rcases rotated_cases c oldKey newKey nonces f with ⟨hempty, -⟩ | hnew
    · exact absurd hempty hrecords
    · exact ⟨_, congrArg SegmentFile.bytes hnew, newFrames_records _ _ _ _, newFrames_reads lawful h (fits rfl)⟩

end

end Rotated

/-! ### Rotation and new records -/

/-- What rotation leaves as it is can be read with the new key as well. -/
structure Kept (c : Crypto) (oldKey : Option WalKey) (skipActive : Bool) (d : Dir) : Prop where
  /-- No record that is rewritten gets too large. -/
  fits : ∀ f ∈ toRotate skipActive d, f.Fits c oldKey
  /-- The files that are left as they are have no encrypted record: the active one when it is skipped, and those without
      records. Nothing stands behind the records of the active one. -/
  plain : ∀ f ∈ d, (skipActive = true ∧ f ∈ d.getLast?) ∨ f.records c oldKey = [] →
    ∃ rs tail, f.Plain c rs tail ∧ (f ∈ d.getLast? → tail = [])

section Yields
variable {c : Crypto} {oldKey : Option WalKey} {newKey : WalKey} {nonces : Nat → Nat → Nonce} {skipActive : Bool}
  {d : Dir} {f : SegmentFile} {w : WalWriter} {as : List Append} {fs : List (Record × Bytes)} {later : List Segment}

/-- The writer has been opened on these files after their rotation. -/
structure OpenedOn (c : Crypto) (oldKey : Option WalKey) (newKey : WalKey) (nonces : Nat → Nat → Nonce)
    (skipActive : Bool) (d : Dir) (f : SegmentFile) (w : WalWriter) : Prop where
  sealed : w.sealed = d.map (SegmentFile.rotated c oldKey newKey nonces)
  index : w.activeIndex = f.index
  active : w.active = (f.afterRotation c oldKey newKey nonces skipActive).bytes
  key : w.encryptionKey = some newKey

theorem openedOn_open (h : ∀ g ∈ d ++ [f], g.Read c oldKey) (size : Nat) : OpenedOn c oldKey newKey nonces skipActive d f
      (.openWithOptions c (rotateWalKey c (d ++ [f]) oldKey newKey skipActive nonces).2 size (some newKey)) := by
  obtain ⟨result, hrotate⟩ := rotateWalKey_read newKey nonces h skipActive
  rw [hrotate]
  simp only [WalWriter.openWithOptions, getLast?_concat, dropLast_concat]
  refine ⟨rfl, ?_, rfl, rfl⟩
  unfold SegmentFile.afterRotation
  split
  · rfl
  · exact rotated_index

theorem readDir_rotated (d : Dir) : readDir c (some newKey) (d.map (SegmentFile.rotated c oldKey newKey nonces)) =
    d.flatMap fun f => readSegment c (some newKey) f.index (f.rotated c oldKey newKey nonces).bytes := by
  simp only [readDir, flatMap_map, rotated_index]

theorem yields_of_kept (lawful : c.Lawful) (h : ∀ g ∈ d ++ [f], g.Read c oldKey)
    (o : OpenedOn c oldKey newKey nonces skipActive d f w) (k : Continued c (some newKey) w as fs later)
    (kept : Kept c oldKey skipActive (d ++ [f])) :
    readDir c (some newKey) (w.appendAll c as).2.dir =
      ((d ++ [f]).flatMap (SegmentFile.records c oldKey) ++ (w.appendAll c as).1).map Except.ok := by
  have hlast : f ∈ d ++ [f] := mem_append_right _ (mem_singleton_self f)
  have hearlier : ∀ g ∈ d, readSegment c (some newKey) g.index (g.rotated c oldKey newKey nonces).bytes =
      (g.records c oldKey).map Except.ok := by
    intro g hg
    have hmem : g ∈ d ++ [f] := mem_append_left _ hg
    refine read_rotated lawful (h g hmem) (kept.fits g ?_) fun hempty => ?_
    · unfold toRotate
      split
      · rwa [dropLast_concat]
      · exact hmem
    · obtain ⟨rs, tail, hplain, -⟩ := kept.plain g hmem (.inr hempty)
      rw [hplain.read, hplain.read]
  have hactive : readSegment c (some newKey) f.index (w.active ++ bytes fs) =
      (f.records c oldKey ++ fs.map (·.1)).map Except.ok := by
    obtain ⟨gs, hgs, hrecords, hreads⟩ : ∃ gs, (f.afterRotation c oldKey newKey nonces skipActive).bytes = bytes gs ∧
        gs.map (·.1) = f.records c oldKey ∧ ∀ g ∈ gs, Reads (nextRecord c (some newKey) f.index) g.1 g.2 :=
      frames_afterRotation lawful (h f hlast) (fun hskip => kept.fits f (by simp [toRotate, hskip])) fun hleft => by
        obtain ⟨rs, tail, hplain, htail⟩ := kept.plain f hlast (hleft.imp_left fun hskip => ⟨hskip, by simp⟩)
        obtain rfl := htail (by simp)
        exact ⟨rs, hplain⟩
    have hframes : ∀ g ∈ gs ++ fs, Reads (nextRecord c (some newKey) f.index) g.1 g.2 :=
      forall_mem_append.2 ⟨hreads, fun g hg => o.index ▸ (k.frames g hg).reads⟩
    rw [o.active, hgs, ← bytes_append, readSegment_bytes hframes, map_append, hrecords]
  rw [k.dir, k.records, o.sealed, o.index, readDir_append, readDir_cons, readDir_files k.later, readDir_rotated, hactive,
    flatMap_congr hearlier]
  simp only [flatMap_append, flatMap_singleton, map_append, map_flatMap, append_assoc]

theorem yields_of_nil {size : Nat} (k : Continued c (some newKey) (.openWithOptions c [] size (some newKey)) as fs later) :
    readDir c (some newKey) ((WalWriter.openWithOptions c [] size (some newKey)).appendAll c as).2.dir =
      ((WalWriter.openWithOptions c [] size (some newKey)).appendAll c as).1.map Except.ok := by
  have hfirst : readSegment c (some newKey) 0 (bytes fs) = (fs.map (·.1)).map Except.ok :=
    readSegment_bytes fun g hg => (k.frames g hg).reads
  rw [k.dir, k.records, map_append, ← readDir_files k.later, ← hfirst]
  rfl

end Yields

namespace Sample

def keyed : Crypto where
  crc32 _ := 0
  deriveSegmentKey key _ := key
  encrypt key _ _ msg := msg ++ List.replicate 16 key[0]
  decrypt key _ _ ct := if ct.drop (ct.length - 16) = List.replicate 16 key[0] then some (ct.take (ct.length - 16)) else none

theorem keyed_lawful : keyed.Lawful where
  decrypt_encrypt _ _ _ msg := by simp [keyed]
  length_encrypt _ _ _ msg := by simp [keyed]

def oldKey : WalKey := Vector.replicate 32 1

def newKey : WalKey := Vector.replicate 32 2

def oldLog : Dir := ((WalWriter.openWithOptions keyed [] 1000 (some oldKey)).appendAll keyed [append 1 .begin]).2.dir

def reopened (skipActive : Bool) : WalWriter :=
  .openWithOptions keyed (rotateWalKey keyed oldLog (some oldKey) newKey skipActive fun _ _ => Vector.replicate 12 0).2 100
    (some newKey)

theorem oldLog_readable : readDir keyed (some oldKey) oldLog = (good (readDir keyed (some oldKey) oldLog)).map Except.ok := by
  refine eq_map_good fun e he => ?_
  have hok : ∀ item ∈ readDir keyed (some oldKey) oldLog, item.isOk = true := by decide +kernel
  exact Bool.false_ne_true (hok _ he)

end Sample

end VectorLedger.Wal
