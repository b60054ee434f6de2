import VectorLedger.Theorems.Torn
import VectorLedger.Wal.Recovery

/-! Where the records of a log are: the segment of each record, and what a reader that starts at a later segment sees. -/

namespace VectorLedger.Wal

open List Frames

def placed (ss : List Segment) : List (Nat × Record) := ss.flatMap fun s => s.records.map (s.index, ·)

def recordsFrom (log : List (Nat × Record)) (start : Nat) : List Record := (log.filter fun x => start ≤ x.1).map (·.2)

/-- The records that appends write, each with the index of the segment that it goes to. -/
def WalWriter.placedBy (c : Crypto) (w : WalWriter) : List Append → List (Nat × Record)
  | [] => []
  | a :: as => ((w.append c a).2.activeIndex, w.recordFor c a) :: (w.append c a).2.placedBy c as

@[simp] theorem placed_append (ss ss' : List Segment) : placed (ss ++ ss') = placed ss ++ placed ss' :=
  flatMap_append

@[simp] theorem placed_empty (i : Nat) : placed [⟨i, []⟩] = [] := rfl

theorem recordsFrom_append (log log' : List (Nat × Record)) (start : Nat) :
    recordsFrom (log ++ log') start = recordsFrom log start ++ recordsFrom log' start := by
  simp [recordsFrom]

theorem recordsFrom_zero (log : List (Nat × Record)) : recordsFrom log 0 = log.map (·.2) := by
  simp [recordsFrom]

section Reading
variable {c : Crypto} {masterKey : Option WalKey} {ss : List Segment}

theorem recordsFrom_placed (ss : List Segment) (start : Nat) :
    recordsFrom (placed ss) start = (ss.filter fun s => start ≤ s.index).flatMap Segment.records := by
  induction ss with
  | nil => rfl
  | cons s ss ih =>
    have hcons : placed (s :: ss) = s.records.map (s.index, ·) ++ placed ss := rfl
    rw [hcons, recordsFrom_append, ih, filter_cons]
    by_cases h : start ≤ s.index
    · simp [recordsFrom, h, filter_map, Function.comp_def]
    · simp [recordsFrom, h, filter_map, Function.comp_def]

theorem readDir_fromSegment (readable : ∀ s ∈ ss, s.Readable c masterKey) (start : Nat) :
    readDir c masterKey (Dir.fromSegment (ss.map Segment.file) start) = (recordsFrom (placed ss) start).map Except.ok := by
  have hfiles : Dir.fromSegment (ss.map Segment.file) start = (ss.filter fun s => start ≤ s.index).map Segment.file := by
    rw [Dir.fromSegment, filter_map]
    rfl
  rw [hfiles, readDir_files fun s hs => readable s (mem_of_mem_filter hs), recordsFrom_placed]

end Reading

/-! ### Writing -/

def plainFrame (x : Nat × Record) : Record × Bytes := (x.2, x.2.toBytes)

/-- The files are those of the segments, whose indices increase and whose records are all written without a key and not
    too large for the reader. -/
structure Files (c : Crypto) (masterKey : Option WalKey) (log : Log) (ss : List Segment) : Prop where
  holds : TrackedLog.Holds c masterKey ⟨log, ss⟩
  ordered : (ss.map (·.index)).Pairwise (· < ·)
  frames : ss.flatMap (·.frames) = (placed ss).map plainFrame
  written : ∀ x ∈ placed ss, x.2.Written c ∧ x.2.payload.length ≤ maxRecordPayload
  plain : ∀ w, log = .writing w → w.encryptionKey = none

def filesLength (d : Dir) : Nat := (d.map (·.bytes.length)).sum

theorem filesLength_files (ss : List Segment) :
    filesLength (ss.map Segment.file) = (bytes (ss.flatMap (·.frames))).length := by
  induction ss with
  | nil => rfl
  | cons s ss ih =>
    rw [flatMap_cons, bytes_append, length_append, ← ih]
    rfl

theorem openWithOptions_key (c : Crypto) (d : Dir) (size : Nat) (key : Option WalKey) :
    (WalWriter.openWithOptions c d size key).encryptionKey = key := by
  unfold WalWriter.openWithOptions
  split <;> rfl

theorem append_key (c : Crypto) (w : WalWriter) (a : Append) : (w.append c a).2.encryptionKey = w.encryptionKey := by
  unfold WalWriter.append
  simp only
  split <;> rfl

namespace Files
variable {c : Crypto} {masterKey : Option WalKey} {w : WalWriter} {ss : List Segment} {a : Append} {d : Dir}

theorem nil : Files c masterKey (.closed []) [] := ⟨⟨rfl, nofun, nofun⟩, List.Pairwise.nil, rfl, nofun, nofun⟩

theorem dir {log : Log} (h : Files c masterKey log ss) : log.dir = ss.map Segment.file := h.holds.files

theorem length {log : Log} (h : Files c masterKey log ss) :
    filesLength log.dir = (bytes ((placed ss).map plainFrame)).length := by
  rw [h.dir, filesLength_files, h.frames]

theorem closed (h : Files c masterKey (.writing w) ss) : Files c masterKey (.closed w.dir) ss :=
  ⟨⟨h.holds.files, h.holds.readable, nofun⟩, h.ordered, h.frames, h.written, nofun⟩

theorem placed_opened (ss : List Segment) : placed (if ss.isEmpty then [⟨0, []⟩] else ss) = placed ss := by
  cases ss <;> rfl

theorem opened (h : Files c masterKey (.closed d) ss) (size : Nat) :
    Files c masterKey (.writing (.openWithOptions c d size none)) (if ss.isEmpty then [⟨0, []⟩] else ss) := by
  refine ⟨h.holds.open rfl _ (.inl rfl), ?_, ?_, ?_, ?_⟩
  · split
    · exact pairwise_singleton _ _
    · exact h.ordered
  · rw [placed_opened, ← h.frames]
    cases ss <;> rfl
  · rw [placed_opened]
    exact h.written
  · intro w hw
    obtain rfl := Log.writing.inj hw
    exact openWithOptions_key c d size none

section
variable (h : Files c masterKey (.writing w) ss)
include h

theorem split : ∃ ss' s, ss = ss' ++ [s] ∧ s.index = w.activeIndex ∧ bytes s.frames = w.active := by
  obtain ⟨ss', s, hss, -, hfile⟩ := h.holds.split rfl
  obtain ⟨hindex, hactive⟩ := SegmentFile.mk.inj hfile
  exact ⟨ss', s, hss, hindex.symm, hactive.symm⟩

theorem le_active {x : Nat × Record} (hx : x ∈ placed ss) : x.1 ≤ w.activeIndex := by
  obtain ⟨ss', s, rfl, hindex, -⟩ := h.split
  have hordered := h.ordered
  rw [map_append, pairwise_append] at hordered
  obtain ⟨t, ht, hr⟩ := mem_flatMap.1 hx
  obtain ⟨r, -, rfl⟩ := mem_map.1 hr
  rcases mem_append.1 ht with hold | hlast
  · have hlt := hordered.2.2 t.index (mem_map_of_mem hold) s.index (by simp)
    omega
  · obtain rfl := mem_singleton.1 hlast
    exact hindex.le

theorem ordered_next (frames : List (Record × Bytes)) :
    ((ss ++ [Segment.mk w.nextSegmentIndex frames]).map (·.index)).Pairwise (· < ·) := by
  obtain ⟨ss₀, s, rfl, hindex, -⟩ := h.split
  obtain ⟨-, hnext⟩ := h.holds.writer w rfl
  have hordered := h.ordered
  rw [map_append, pairwise_append]
  refine ⟨hordered, pairwise_singleton _ _, ?_⟩
  intro i hi j hj
  obtain rfl : j = w.nextSegmentIndex := by simpa using hj
  rw [map_append, pairwise_append] at hordered
  rw [map_append, mem_append] at hi
  rcases hi with hold | hlast
  · have hlt := hordered.2.2 i hold s.index (by simp)
    omega
  · obtain rfl : i = s.index := by simpa using hlast
    omega

end

theorem frameFor_plain (plain : w.encryptionKey = none) (nonce : Nonce) (r : Record) : w.frameFor c nonce r = r.toBytes := by
  unfold WalWriter.frameFor
  rw [plain]

theorem concat (h : Files c masterKey (.writing w) ss) {w' : WalWriter} {ss' : List Segment} {i : Nat} {r : Record}
    (holds : TrackedLog.Holds c masterKey ⟨.writing w', ss'⟩) (ordered : (ss'.map (·.index)).Pairwise (· < ·))
    (hplaced : placed ss' = placed ss ++ [(i, r)])
    (hframes : ss'.flatMap (·.frames) = ss.flatMap (·.frames) ++ [(r, r.toBytes)]) (written : r.Written c)
    (small : r.payload.length ≤ maxRecordPayload) (plain : w'.encryptionKey = none) :
    Files c masterKey (.writing w') ss' := by
  refine ⟨holds, ordered, ?_, ?_, ?_⟩
  · rw [hframes, hplaced, map_append, ← h.frames]
    rfl
  · rw [hplaced]
    exact forall_mem_append.2 ⟨h.written, forall_mem_singleton.2 ⟨written, small⟩⟩
  · intro w'' hw
    obtain rfl := Log.writing.inj hw
    exact plain

theorem append (lawful : c.Lawful) (h : Files c masterKey (.writing w) ss) (small : a.payload.length ≤ maxRecordPayload) :
    ∃ ss', Files c masterKey (.writing (w.append c a).2) ss' ∧
      placed ss' = placed ss ++ [((w.append c a).2.activeIndex, w.recordFor c a)] ∧
      w.activeIndex ≤ (w.append c a).2.activeIndex := by
  obtain ⟨ss₀, s, rfl, hindex, hactive⟩ := h.split
  obtain ⟨hkey, hnext⟩ := h.holds.writer w rfl
  have hplain := h.plain w rfl
  have hsmall : FitsReader w.encryptionKey a.payload := by
    rw [hplain]
    exact small
  have hholds := h.holds.append lawful rfl hsmall
  have hordered := h.ordered
  have hwritten := w.recordFor_written c a
  have hplain' : (w.append c a).2.encryptionKey = none := by rw [append_key, hplain]
  rw [TrackedLog.segmentsAfter_append rfl] at hholds
  have step := w.append_cases lawful hkey hsmall
  generalize (w.append c a).2 = w' at step hholds hplain'
  cases step with
  | inPlace b written =>
    obtain rfl := written.trans (frameFor_plain hplain a.nonce _)
    simp only [TrackedLog.addRecord_inPlace] at hholds
    have hplaced : placed (ss₀ ++ [⟨s.index, s.frames ++ [(w.recordFor c a, (w.recordFor c a).toBytes)]⟩]) =
        placed (ss₀ ++ [s]) ++ [(w.activeIndex, w.recordFor c a)] := by
      simp [placed, Segment.records, hindex]
    refine ⟨_, h.concat hholds ?_ hplaced ?_ hwritten small hplain', hplaced, Nat.le_refl _⟩
    · simpa using hordered
    · simp
  | rolled b written =>
    obtain rfl := written.trans (frameFor_plain (w := w.rollSegment) hplain a.rollNonce _)
    simp only [TrackedLog.addRecord_rolled hnext] at hholds
    have hplaced : placed (ss₀ ++ [s] ++ [⟨w.nextSegmentIndex, [(w.recordFor c a, (w.recordFor c a).toBytes)]⟩]) =
        placed (ss₀ ++ [s]) ++ [(w.nextSegmentIndex, w.recordFor c a)] := by
      simp [placed, Segment.records]
    refine ⟨_, h.concat hholds (h.ordered_next _) hplaced ?_ hwritten small hplain', hplaced, ?_⟩
    · simp
    · show w.activeIndex ≤ w.nextSegmentIndex
      omega

theorem appendAll (lawful : c.Lawful) {as : List Append} (h : Files c masterKey (.writing w) ss)
    (small : ∀ a ∈ as, a.payload.length ≤ maxRecordPayload) :
    ∃ ss', Files c masterKey (.writing (w.appendAll c as).2) ss' ∧ placed ss' = placed ss ++ w.placedBy c as := by
  induction as generalizing w ss with
  | nil => exact ⟨ss, h, (append_nil _).symm⟩
  | cons a as ih =>
    rw [forall_mem_cons] at small
    obtain ⟨ss₁, h₁, hplaced₁, -⟩ := h.append lawful small.1
    obtain ⟨ss₂, h₂, hplaced₂⟩ := ih h₁ small.2
    refine ⟨ss₂, h₂, ?_⟩
    rw [hplaced₂, hplaced₁, append_assoc]
    rfl

theorem prepared (h : Files c masterKey (.writing w) ss) (a : Append) :
    ∃ ss', Files c masterKey (.closed (w.prepared c a).dir) ss' ∧ placed ss' = placed ss := by
  unfold WalWriter.prepared
  simp only
  split
  · exact ⟨ss, h.closed, rfl⟩
  · refine ⟨ss ++ [⟨w.nextSegmentIndex, []⟩], ⟨⟨?_, ?_, by simp⟩, h.ordered_next [], ?_, ?_, by simp⟩, by simp⟩
    · have hdir : w.dir = ss.map Segment.file := h.dir
      simp only [Log.dir, WalWriter.rollSegment, WalWriter.dir, map_append] at hdir ⊢
      rw [← hdir]
      rfl
    · refine forall_mem_append.2 ⟨h.holds.readable, forall_mem_singleton.2 (forall_mem_nil _)⟩
    · simp [h.frames]
    · simpa using h.written

end Files

end VectorLedger.Wal
