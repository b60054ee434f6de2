import VectorLedger.Lib.Run
import VectorLedger.Theorems.WalFrames

/-! A log that is cut in its active segment and then written on, behind the torn record, where the reader stops. -/

namespace VectorLedger.Wal

open List Frames

/-! ### Frames of a segment -/

/-- The reader takes a record with this payload. -/
def FitsReader (key : Option WalKey) (payload : Bytes) : Prop :=
  match key with
  | none => payload.length ≤ maxRecordPayload
  | some _ => payload.length + 54 ≤ maxRecordPayload

/-- In this segment the bytes are read as the record, and a part of them that has the magic number is found cut off. -/
structure FrameOf (c : Crypto) (masterKey : Option WalKey) (segmentIndex : Nat) (f : Record × Bytes) : Prop where
  reads : Reads (nextRecord c masterKey segmentIndex) f.1 f.2
  torn : ∀ offset t u, t ++ u = f.2 → u ≠ [] → 4 ≤ t.length → ∃ e, nextRecord c masterKey segmentIndex offset t = .failed e

/-- Nothing that looks like a record: fewer than four bytes, or four that are no magic number. -/
def Foreign (bs : Bytes) : Prop :=
  bs.length < 4 ∨ (leNat (bs.take 4) ≠ encryptedMagic.toNat ∧ leNat (bs.take 4) ≠ walMagic.toNat)

/-- A segment as it was written: its records, each with its bytes. -/
structure Segment where
  index : Nat
  frames : List (Record × Bytes)

def Segment.file (s : Segment) : SegmentFile := ⟨s.index, bytes s.frames⟩

def Segment.records (s : Segment) : List Record := s.frames.map (·.1)

/-- The key reads all records of the segment. -/
def Segment.Readable (c : Crypto) (masterKey : Option WalKey) (s : Segment) : Prop :=
  ∀ f ∈ s.frames, FrameOf c masterKey s.index f

section Segments
variable {c : Crypto} {masterKey : Option WalKey} {ss : List Segment} {s : Segment}

theorem readSegment_append {segmentIndex : Nat} {fs : List (Record × Bytes)}
    (frames : ∀ f ∈ fs, FrameOf c masterKey segmentIndex f) (tail : Bytes) :
    readSegment c masterKey segmentIndex (bytes fs ++ tail) =
      (fs.map (·.1)).map Except.ok ++ readFrom (nextRecord c masterKey segmentIndex) (bytes fs).length tail := by
  rw [readSegment, readFrom_append (nextRecord_shrinks c masterKey segmentIndex) (fun f hf => (frames f hf).reads),
    Nat.zero_add, map_map]
  rfl

theorem next_foreign {segmentIndex : Nat} {bs : Bytes} (h : Foreign bs) (key : Option WalKey) (offset : Nat) :
    nextRecord c key segmentIndex offset bs = .ended := by
  by_cases hshort : bs.length < 4
  · exact nextRecord_short hshort
  · obtain ⟨henc, hwal⟩ := h.resolve_left hshort
    rw [nextRecord, readExact, if_neg hshort]
    simp only
    rw [if_neg henc, if_pos hwal]

theorem readFrom_nil (segmentIndex offset : Nat) : readFrom (nextRecord c masterKey segmentIndex) offset [] = [] :=
  readFrom_ended (nextRecord_short (by decide))

theorem Segment.Readable.read (h : s.Readable c masterKey) :
    readSegment c masterKey s.index (bytes s.frames) = s.records.map Except.ok := by
  have hread := readSegment_append h []
  rwa [append_nil, readFrom_nil, append_nil] at hread

theorem readDir_files (h : ∀ s ∈ ss, s.Readable c masterKey) :
    readDir c masterKey (ss.map Segment.file) = (ss.flatMap Segment.records).map Except.ok := by
  induction ss with
  | nil => rfl
  | cons s ss ih =>
    rw [forall_mem_cons] at h
    rw [flatMap_cons, map_append, ← ih h.2, ← h.1.read]
    rfl

theorem readDir_cons (f : SegmentFile) (d : Dir) :
    readDir c masterKey (f :: d) = readSegment c masterKey f.index f.bytes ++ readDir c masterKey d := rfl

theorem readDir_append (d d' : Dir) :
    readDir c masterKey (d ++ d') = readDir c masterKey d ++ readDir c masterKey d' := flatMap_append

end Segments

/-! ### Appending -/

section Appends
variable {c : Crypto} {masterKey : Option WalKey} {w : WalWriter} {a : Append} {r : Record}

def WalWriter.rolls (c : Crypto) (w : WalWriter) (a : Append) : Bool :=
  !w.hasSpace (w.frameFor c a.nonce (w.recordFor c a)).length

/-- The writer does not encrypt, or does so with this key. -/
def WalWriter.KeyOf (w : WalWriter) (masterKey : Option WalKey) : Prop :=
  w.encryptionKey = none ∨ w.encryptionKey = masterKey

theorem WalWriter.frameFor_frameOf (lawful : c.Lawful) (hkey : w.KeyOf masterKey) (written : r.Written c)
    (small : FitsReader w.encryptionKey r.payload) (nonce : Nonce) :
    FrameOf c masterKey w.activeIndex (r, w.frameFor c nonce r) := by
  unfold frameFor
  cases hk : w.encryptionKey with
  | none =>
    rw [hk] at small
    exact ⟨written.reads_plaintext small, fun offset t u hsplit hu hlong =>
      written.torn_plaintext small hsplit hu hlong offset⟩
  | some key =>
    obtain rfl : some key = masterKey := (hkey.resolve_left (by rw [hk]; exact Option.some_ne_none key)) ▸ hk.symm
    rw [hk] at small
    have hsmall : r.toBytes.length + 16 ≤ maxRecordPayload := by
      have hpayload : r.payload.length + 54 ≤ maxRecordPayload := small
      rw [r.length_toBytes]
      unfold serializedSize
      omega
    exact ⟨written.sound.reads_encrypted lawful nonce small, fun offset t u hsplit hu hlong =>
      torn_encrypted lawful hsmall hsplit hu hlong offset⟩

/-- What an append can do: the record goes to the active segment, or to a new one. -/
inductive Appended (c : Crypto) (masterKey : Option WalKey) (w : WalWriter) (a : Append) : WalWriter → Prop where
  | inPlace (b : Bytes) (written : b = w.frameFor c a.nonce (w.recordFor c a))
      (frame : FrameOf c masterKey w.activeIndex (w.recordFor c a, b)) (space : w.rolls c a = false) :
      Appended c masterKey w a { w with sequence := w.sequence + 1, active := w.active ++ b }
  | rolled (b : Bytes) (written : b = w.rollSegment.frameFor c a.rollNonce (w.recordFor c a))
      (frame : FrameOf c masterKey w.nextSegmentIndex (w.recordFor c a, b)) (full : w.rolls c a = true) :
      Appended c masterKey w a { w.rollSegment with sequence := w.sequence + 1, active := b }

theorem WalWriter.append_record (c : Crypto) (w : WalWriter) (a : Append) : (w.append c a).1 = w.recordFor c a := by
  unfold append
  simp only
  split <;> rfl

theorem WalWriter.append_cases (lawful : c.Lawful) (hkey : w.KeyOf masterKey)
    (small : FitsReader w.encryptionKey a.payload) : Appended c masterKey w a (w.append c a).2 := by
  have written := w.recordFor_written c a
  unfold append
  cases hroll : w.rolls c a with
  | false =>
    have hspace : w.hasSpace (w.frameFor c a.nonce (w.recordFor c a)).length = true := by simpa [rolls] using hroll
    have done := Appended.inPlace _ rfl (w.frameFor_frameOf lawful hkey written small a.nonce) hroll
    simp only
    rw [if_pos (by exact hspace)]
    exact done
  | true =>
    have hspace : w.hasSpace (w.frameFor c a.nonce (w.recordFor c a)).length = false := by simpa [rolls] using hroll
    have done := Appended.rolled _ rfl (w.rollSegment.frameFor_frameOf lawful hkey written small a.rollNonce) hroll
    simp only
    rw [if_neg (by rw [Bool.not_eq_true]; exact hspace)]
    exact done

/-- The first append goes to a new segment. -/
def WalWriter.RollsFirst (c : Crypto) (w : WalWriter) (as : List Append) : Prop := ∀ a ∈ as.head?, w.rolls c a = true

/-- The files after appends: the active one has grown by some frames, and new segments follow it. -/
structure Continued (c : Crypto) (masterKey : Option WalKey) (w : WalWriter) (as : List Append)
    (fs : List (Record × Bytes)) (later : List Segment) : Prop where
  dir : (w.appendAll c as).2.dir = w.sealed ++ (⟨w.activeIndex, w.active ++ bytes fs⟩ :: later.map Segment.file)
  records : (w.appendAll c as).1 = fs.map (·.1) ++ later.flatMap Segment.records
  frames : ∀ f ∈ fs, FrameOf c masterKey w.activeIndex f
  later : ∀ s ∈ later, s.Readable c masterKey
  rolled : fs = [] ↔ w.RollsFirst c as

theorem WalWriter.appendAll_continued (lawful : c.Lawful) (hkey : w.KeyOf masterKey) {as : List Append}
    (small : ∀ a ∈ as, FitsReader w.encryptionKey a.payload) : ∃ fs later, Continued c masterKey w as fs later := by
  induction as generalizing w with
  | nil =>
    refine ⟨[], [], ?_, rfl, nofun, nofun, iff_of_true rfl nofun⟩
    rw [bytes_nil, append_nil]
    rfl
  | cons a as ih =>
    rw [forall_mem_cons] at small
    have step := w.append_cases lawful hkey small.1
    have hall : w.appendAll c (a :: as) =
        (w.recordFor c a :: ((w.append c a).2.appendAll c as).1, ((w.append c a).2.appendAll c as).2) := by
      rw [← w.append_record]
      rfl
    generalize (w.append c a).2 = w' at step hall
    cases step with
    | inPlace b written frame space =>
      obtain ⟨fs, later, hdir, hrecords, hframes, hlater, -⟩ :=
        ih (w := { w with sequence := w.sequence + 1, active := w.active ++ b }) hkey small.2
      refine ⟨(w.recordFor c a, b) :: fs, later, ?_, ?_, forall_mem_cons.2 ⟨frame, hframes⟩, hlater, ?_⟩
      · rw [hall, hdir, bytes_cons, append_assoc]
      · rw [hall, hrecords]
        rfl
      · refine iff_of_false (cons_ne_nil _ _) fun hroll => ?_
        rw [hroll a rfl] at space
        cases space
    | rolled b written frame full =>
      obtain ⟨fs, later, hdir, hrecords, hframes, hlater, -⟩ :=
        ih (w := { w.rollSegment with sequence := w.sequence + 1, active := b }) hkey small.2
      refine ⟨[], ⟨w.nextSegmentIndex, (w.recordFor c a, b) :: fs⟩ :: later, ?_, ?_, nofun, ?_, ?_⟩
      · rw [hall, hdir, bytes_nil, append_nil]
        simp only [rollSegment, dir, append_assoc]
        rfl
      · rw [hall, hrecords]
        rfl
      · exact forall_mem_cons.2 ⟨forall_mem_cons.2 ⟨frame, hframes⟩, hlater⟩
      · refine iff_of_true rfl fun a' ha' => ?_
        cases ha'
        exact full

end Appends

/-! ### Runs -/

/-- A log, and what was written to each of its segments. -/
structure TrackedLog where
  log : Log
  segments : List Segment

namespace TrackedLog

def start : TrackedLog := ⟨.closed [], []⟩

def addRecord (w w' : WalWriter) (r : Record) (ss : List Segment) : List Segment :=
  match ss.getLast? with
  | some s =>
    if w'.activeIndex = w.activeIndex then
      ss.dropLast ++ [{ s with frames := s.frames ++ [(r, w'.active.drop w.active.length)] }]
    else ss ++ [⟨w'.activeIndex, [(r, w'.active)]⟩]
  | none => []

def segmentsAfter (c : Crypto) (t : TrackedLog) (ev : LogEvent) : List Segment :=
  match t.log, ev with
  | .closed _, .openWriter _ _ => if t.segments.isEmpty then [⟨0, []⟩] else t.segments
  | .writing w, .append a => addRecord w (w.append c a).2 (w.append c a).1 t.segments
  | _, _ => t.segments

def step (c : Crypto) (t : TrackedLog) (ev : LogEvent) : Option TrackedLog :=
  (Log.step c t.log ev).map fun log => ⟨log, t.segmentsAfter c ev⟩

/-- The condition on a step: a writer has the key of the reader or none, and payloads are not too large for the
    reader. -/
def Readable (masterKey : Option WalKey) (t : TrackedLog) (ev : LogEvent) : Prop :=
  match t.log, ev with
  | .closed _, .openWriter _ key => key = none ∨ key = masterKey
  | .writing w, .append a => FitsReader w.encryptionKey a.payload
  | _, _ => True

/-- The files are those of the segments, and all their records can be read. -/
structure Holds (c : Crypto) (masterKey : Option WalKey) (t : TrackedLog) : Prop where
  files : t.log.dir = t.segments.map Segment.file
  readable : ∀ s ∈ t.segments, s.Readable c masterKey
  writer : ∀ w, t.log = .writing w → w.KeyOf masterKey ∧ w.nextSegmentIndex = w.activeIndex + 1

variable {c : Crypto} {masterKey : Option WalKey} {t : TrackedLog} {w : WalWriter}

theorem Holds.split (h : t.Holds c masterKey) (writing : t.log = .writing w) :
    ∃ ss s, t.segments = ss ++ [s] ∧ w.sealed = ss.map Segment.file ∧
      (⟨w.activeIndex, w.active⟩ : SegmentFile) = s.file := by
  have hfiles := h.files
  rw [writing] at hfiles
  have hdir : w.sealed ++ [⟨w.activeIndex, w.active⟩] = t.segments.map Segment.file := hfiles
  rcases eq_nil_or_concat t.segments with hnil | ⟨ss, s, hss⟩
  · rw [hnil] at hdir
    simp at hdir
  · rw [hss, concat_eq_append, map_append] at hdir
    obtain ⟨hsealed, hlast⟩ := append_inj' hdir rfl
    refine ⟨ss, s, by rw [hss, concat_eq_append], hsealed, ?_⟩
    simpa using hlast

theorem Holds.open (h : t.Holds c masterKey) {d : Dir} (closed : t.log = .closed d) (size : Nat) {key : Option WalKey}
    (hkey : key = none ∨ key = masterKey) :
    Holds c masterKey ⟨.writing (.openWithOptions c d size key), t.segmentsAfter c (.openWriter size key)⟩ := by
  have hfiles : d = t.segments.map Segment.file := by
    have hfiles := h.files
    rwa [closed] at hfiles
  have hsegments : t.segmentsAfter c (.openWriter size key) = if t.segments.isEmpty then [⟨0, []⟩] else t.segments := by
    simp only [segmentsAfter, closed]
  rw [hsegments]
  rcases eq_nil_or_concat t.segments with hnil | ⟨ss, s, hss⟩
  · rw [hnil] at hfiles ⊢
    subst hfiles
    refine ⟨rfl, ?_, ?_⟩
    · intro s hs
      obtain rfl := mem_singleton.1 hs
      nofun
    · rintro w ⟨⟩
      exact ⟨hkey, rfl⟩
  · have hnonempty : t.segments.isEmpty = false := by simp [hss]
    rw [hnonempty]
    rw [hss, concat_eq_append, map_append] at hfiles
    refine ⟨?_, h.readable, ?_⟩
    · rw [hfiles, hss]
      simp [Log.dir, WalWriter.openWithOptions, WalWriter.dir]
    · rintro w ⟨⟩
      rw [hfiles]
      simp only [WalWriter.openWithOptions, WalWriter.KeyOf, map_cons, map_nil, getLast?_concat]
      exact ⟨hkey, trivial⟩

theorem addRecord_inPlace {b : Bytes} {n : UInt64} :
    addRecord w { w with sequence := n, active := w.active ++ b } r (ss ++ [s]) =
      ss ++ [⟨s.index, s.frames ++ [(r, b)]⟩] := by
  simp [addRecord]

theorem addRecord_rolled {b : Bytes} {n : UInt64}
    (next : w.nextSegmentIndex = w.activeIndex + 1) :
    addRecord w { w.rollSegment with sequence := n, active := b } r (ss ++ [s]) =
      ss ++ [s] ++ [⟨w.nextSegmentIndex, [(r, b)]⟩] := by
  simp [addRecord, WalWriter.rollSegment, next]

theorem segmentsAfter_append (writing : t.log = .writing w) {a : Append} :
    t.segmentsAfter c (.append a) = addRecord w (w.append c a).2 (w.recordFor c a) t.segments := by
  simp only [segmentsAfter, writing, w.append_record]

theorem Holds.append (lawful : c.Lawful) (h : t.Holds c masterKey) (writing : t.log = .writing w) {a : Append}
    (small : FitsReader w.encryptionKey a.payload) :
    Holds c masterKey ⟨.writing (w.append c a).2, t.segmentsAfter c (.append a)⟩ := by
  obtain ⟨hkey, hnext⟩ := h.writer w writing
  obtain ⟨ss, s, hss, hsealed, hfile⟩ := h.split writing
  obtain ⟨hindex, hactive⟩ := SegmentFile.mk.inj hfile
  have hreadable := h.readable
  rw [hss] at hreadable
  rw [segmentsAfter_append writing, hss]
  have step := w.append_cases lawful hkey small
  generalize (w.append c a).2 = w' at step
  cases step with
  | inPlace b written frame =>
    rw [addRecord_inPlace]
    refine ⟨?_, ?_, ?_⟩
    · simp [Log.dir, WalWriter.dir, hsealed, hindex, hactive, Segment.file]
    · rw [forall_mem_append, forall_mem_singleton] at hreadable ⊢
      refine ⟨hreadable.1, ?_⟩
      rw [hindex] at frame
      exact forall_mem_append.2 ⟨hreadable.2, forall_mem_singleton.2 frame⟩
    · rintro w' ⟨⟩
      exact ⟨hkey, hnext⟩
  | rolled b written frame =>
    rw [addRecord_rolled hnext]
    refine ⟨?_, ?_, ?_⟩
    · simp [Log.dir, WalWriter.dir, WalWriter.rollSegment, hsealed, hfile, Segment.file]
    · exact forall_mem_append.2 ⟨hreadable, forall_mem_singleton.2 (forall_mem_singleton.2 frame)⟩
    · rintro w' ⟨⟩
      exact ⟨hkey, rfl⟩

theorem segmentsAfter_close (c : Crypto) (t : TrackedLog) : t.segmentsAfter c .close = t.segments := by
  unfold segmentsAfter
  cases t.log with
  | closed | writing => rfl

theorem Holds.close (h : t.Holds c masterKey) (writing : t.log = .writing w) :
    Holds c masterKey ⟨.closed w.dir, t.segmentsAfter c .close⟩ := by
  have hfiles := h.files
  rw [writing] at hfiles
  rw [segmentsAfter_close]
  exact ⟨hfiles, h.readable, nofun⟩

/-- In every run the files hold what was written to them. -/
theorem holds_of_run (lawful : c.Lawful) (run : Run.Reachable (step c) (Readable masterKey) start t) :
    t.Holds c masterKey := by
  refine run.invariant ⟨rfl, nofun, nofun⟩ ?_
  intro t ev t' h allowed hstep
  obtain ⟨log, hlog, rfl⟩ := Option.map_eq_some_iff.1 hstep
  cases hold : t.log with
  | closed =>
    rw [hold] at hlog
    cases ev with
    | openWriter =>
      cases hlog
      simp only [Readable, hold] at allowed
      exact h.open hold _ allowed
    | append | close => cases hlog
  | writing =>
    rw [hold] at hlog
    cases ev with
    | openWriter => cases hlog
    | append =>
      cases hlog
      simp only [Readable, hold] at allowed
      exact h.append lawful hold allowed
    | close =>
      cases hlog
      exact h.close hold

/-! ### A crash and a new writer -/

def active (t : TrackedLog) : Segment := t.segments.getLast?.getD ⟨0, []⟩

/-- The records that are whole when the active segment is cut to its first bytes. -/
def complete (t : TrackedLog) (cut : Nat) : List Record :=
  t.segments.dropLast.flatMap Segment.records ++ (fitting cut t.active.frames).map (·.1)

def tornTail (t : TrackedLog) (cut : Nat) : Bytes := torn cut t.active.frames

def reopened (c : Crypto) (t : TrackedLog) (cut segmentMaxSize : Nat) (key : Option WalKey) : WalWriter :=
  .openWithOptions c (t.log.dir.truncate cut) segmentMaxSize key

theorem Holds.reopened_eq (h : t.Holds c masterKey) (cut size : Nat) (key : Option WalKey) :
    (t.reopened c cut size key).sealed = t.segments.dropLast.map Segment.file ∧
      (t.reopened c cut size key).activeIndex = t.active.index ∧
      (t.reopened c cut size key).active = bytes (fitting cut t.active.frames) ++ t.tornTail cut ∧
      (t.reopened c cut size key).encryptionKey = key := by
  unfold reopened tornTail active
  rw [h.files, ← take_bytes]
  rcases eq_nil_or_concat t.segments with hnil | ⟨ss, s, hss⟩
  · rw [hnil]
    exact ⟨rfl, rfl, by simp [Dir.truncate, WalWriter.openWithOptions], rfl⟩
  · rw [hss]
    simp [Dir.truncate, WalWriter.openWithOptions, Segment.file]

theorem Holds.active_readable (h : t.Holds c masterKey) : t.active.Readable c masterKey := by
  unfold active
  cases hlast : t.segments.getLast? with
  | none => exact nofun
  | some s => exact h.readable s (mem_of_getLast? hlast)

theorem Holds.read_tornTail (h : t.Holds c masterKey) (cut offset : Nat) :
    ((t.tornTail cut).length < 4 ∧ readFrom (nextRecord c masterKey t.active.index) offset (t.tornTail cut) = []) ∨
      (4 ≤ (t.tornTail cut).length ∧
        ∃ e, readFrom (nextRecord c masterKey t.active.index) offset (t.tornTail cut) = [.error e]) := by
  by_cases hshort : (t.tornTail cut).length < 4
  · exact .inl ⟨hshort, readFrom_ended (nextRecord_short hshort)⟩
  · have hlong : 4 ≤ (t.tornTail cut).length := Nat.le_of_not_lt hshort
    rcases torn_cases cut t.active.frames with hnone | ⟨f, hf, ⟨u, hu⟩, hlt⟩
    · rw [tornTail, hnone] at hlong
      simp at hlong
    · have hrest : u ≠ [] := by
        rintro rfl
        rw [append_nil] at hu
        rw [hu] at hlt
        exact Nat.lt_irrefl _ hlt
      obtain ⟨e, he⟩ := (h.active_readable f hf).torn offset _ u hu hrest hlong
      exact .inr ⟨hlong, e, readFrom_failed he⟩

/-- What the reader finds from the torn tail on, after appends that have put frames behind it and in later segments. -/
def fromTail (c : Crypto) (masterKey : Option WalKey) (t : TrackedLog) (cut : Nat) (fs : List (Record × Bytes))
    (later : List Segment) : List (Except WalError Record) :=
  readFrom (nextRecord c masterKey t.active.index) (bytes (fitting cut t.active.frames)).length
    (t.tornTail cut ++ bytes fs) ++ (later.flatMap Segment.records).map Except.ok

section Crash
variable {cut size : Nat} {key : Option WalKey} {as : List Append} {fs : List (Record × Bytes)} {later : List Segment}

section
variable (h : t.Holds c masterKey) (k : Continued c masterKey (t.reopened c cut size key) as fs later)
include h k

theorem Holds.good_readDir : good (readDir c masterKey ((t.reopened c cut size key).appendAll c as).2.dir) =
      t.complete cut ++ good (t.fromTail c masterKey cut fs later) := by
  obtain ⟨hsealed, hindex, hactive, -⟩ := h.reopened_eq cut size key
  have hfiles : readDir c masterKey (t.segments.dropLast.map Segment.file) =
      (t.segments.dropLast.flatMap Segment.records).map Except.ok :=
    readDir_files fun s hs => h.readable s (mem_of_mem_dropLast hs)
  have hfit : ∀ f ∈ fitting cut t.active.frames, FrameOf c masterKey t.active.index f :=
    fun f hf => h.active_readable f (mem_of_mem_fitting hf)
  have hsegment := readSegment_append hfit (t.tornTail cut ++ bytes fs)
  rw [k.dir, hsealed, hindex, hactive, readDir_append, readDir_cons, readDir_files k.later, hfiles, good_append_ok,
    append_assoc, hsegment, append_assoc, good_append_ok, complete, fromTail, append_assoc]

theorem Holds.yields_iff : good (readDir c masterKey ((t.reopened c cut size key).appendAll c as).2.dir) =
      t.complete cut ++ ((t.reopened c cut size key).appendAll c as).1 ↔ good (t.fromTail c masterKey cut fs later) =
      fs.map (·.1) ++ later.flatMap Segment.records := by
  rw [h.good_readDir k, k.records]
  exact append_right_inj _

theorem Holds.yields_of_whole (whole : t.tornTail cut = []) :
    good (t.fromTail c masterKey cut fs later) = fs.map (·.1) ++ later.flatMap Segment.records := by
  have hframes := k.frames
  rw [(h.reopened_eq cut size key).2.1] at hframes
  have hread := readFrom_append (nextRecord_shrinks c masterKey t.active.index) (fun f hf => (hframes f hf).reads)
    (bytes (fitting cut t.active.frames)).length []
  rw [readFrom_nil, append_nil, append_nil] at hread
  have hok : fs.map (fun f => (.ok f.1 : Except WalError Record)) = (fs.map (·.1)).map Except.ok := by
    rw [map_map]
    rfl
  rw [fromTail, whole, nil_append, hread, hok, ← map_append, good_ok]

end

theorem Holds.fromTail_nil (h : t.Holds c masterKey) (cut : Nat) (later : List Segment) :
    ((t.tornTail cut).length < 4 ∧ good (t.fromTail c masterKey cut [] later) = later.flatMap Segment.records) ∨
      (4 ≤ (t.tornTail cut).length ∧ good (t.fromTail c masterKey cut [] later) = []) := by
  rw [fromTail, bytes_nil, append_nil]
  rcases h.read_tornTail cut (bytes (fitting cut t.active.frames)).length with ⟨hshort, hread⟩ | ⟨hlong, e, hread⟩
  · refine .inl ⟨hshort, ?_⟩
    rw [hread, nil_append, good_ok]
  · refine .inr ⟨hlong, ?_⟩
    rw [hread]
    rfl

end Crash

/-- The cut is between two records; or nothing is appended; or what is left of a record is too short to be noticed,
    and the new records go to a new segment. -/
def Spared (c : Crypto) (t : TrackedLog) (cut : Nat) (w : WalWriter) (as : List Append) : Prop :=
  t.tornTail cut = [] ∨ as = [] ∨ ((t.tornTail cut).length < 4 ∧ w.RollsFirst c as)

/-- In the segment the writer `w` went on with, the reader takes nothing that starts with the torn tail for a record. -/
def TailRejected (c : Crypto) (masterKey : Option WalKey) (t : TrackedLog) (cut : Nat) (w : WalWriter) (d : Dir) : Prop :=
  ∀ f ∈ d, f.index = w.activeIndex → ∀ offset r rest,
    nextRecord c masterKey f.index offset (f.bytes.drop (w.active.length - (t.tornTail cut).length)) ≠ .frame r rest

theorem length_appendAll (c : Crypto) (w : WalWriter) (as : List Append) : (w.appendAll c as).1.length = as.length := by
  induction as generalizing w with
  | nil => rfl
  | cons a as ih => exact congrArg (· + 1) (ih _)

section Crash
variable {cut size : Nat} {key : Option WalKey} {as : List Append} {fs : List (Record × Bytes)} {later : List Segment}

theorem Holds.yields_of_spared (h : t.Holds c masterKey)
    (k : Continued c masterKey (t.reopened c cut size key) as fs later)
    (spared : t.Spared c cut (t.reopened c cut size key) as) :
    good (t.fromTail c masterKey cut fs later) = fs.map (·.1) ++ later.flatMap Segment.records := by
  rcases spared with hwhole | rfl | ⟨hshort, hrolls⟩
  · exact h.yields_of_whole k hwhole
  · have hnone : ([] : List Record) = fs.map (·.1) ++ later.flatMap Segment.records := k.records
    obtain rfl := k.rolled.2 nofun
    rw [← hnone]
    rcases h.fromTail_nil cut later with ⟨-, hgood⟩ | ⟨-, hgood⟩
    · rw [hgood]
      exact hnone.symm
    · exact hgood
  · obtain rfl := k.rolled.2 hrolls
    rcases h.fromTail_nil cut later with ⟨-, hgood⟩ | ⟨hlong, -⟩
    · exact hgood
    · omega

section
variable (h : t.Holds c masterKey) (k : Continued c masterKey (t.reopened c cut size key) as fs later)
  (rejected : t.TailRejected c masterKey cut (t.reopened c cut size key) ((t.reopened c cut size key).appendAll c as).2.dir)
include h k rejected

theorem Holds.next_rejected (offset : Nat) (r : Record) (rest : Bytes) :
    nextRecord c masterKey t.active.index offset (t.tornTail cut ++ bytes fs) ≠ .frame r rest := by
  obtain ⟨-, hindex, hactive, -⟩ := h.reopened_eq cut size key
  have hfile : (⟨(t.reopened c cut size key).activeIndex, (t.reopened c cut size key).active ++ bytes fs⟩ :
      SegmentFile) ∈ ((t.reopened c cut size key).appendAll c as).2.dir := by
    rw [k.dir]
    exact mem_append_right _ mem_cons_self
  have hnext := rejected _ hfile rfl offset r rest
  rw [hindex, hactive] at hnext
  simpa [drop_append] using hnext

theorem Holds.spared_of_yields
    (yields : good (t.fromTail c masterKey cut fs later) = fs.map (·.1) ++ later.flatMap Segment.records) :
    t.Spared c cut (t.reopened c cut size key) as := by
  by_cases hnone : as = []
  · exact .inr (.inl hnone)
  by_cases hfs : fs = []
  · subst hfs
    rcases h.fromTail_nil cut later with ⟨hshort, -⟩ | ⟨-, hgood⟩
    · exact .inr (.inr ⟨hshort, k.rolled.1 rfl⟩)
    · -- The failure hides all the new records, so there are none.
      have hrecords := k.records
      rw [← yields, hgood] at hrecords
      have hlen := length_appendAll c (t.reopened c cut size key) as
      rw [hrecords] at hlen
      exact absurd (eq_nil_of_length_eq_zero hlen.symm) hnone
  · -- Records behind the torn tail are not read, whether the reader ends there or fails.
    exfalso
    rw [fromTail] at yields
    cases hnext : nextRecord c masterKey t.active.index (bytes (fitting cut t.active.frames)).length
        (t.tornTail cut ++ bytes fs) with
    | ended =>
      rw [readFrom_ended hnext, nil_append, good_ok] at yields
      have hlen := congrArg length yields
      rw [length_append, length_map] at hlen
      exact hfs (eq_nil_of_length_eq_zero (by omega))
    | failed =>
      rw [readFrom_failed hnext] at yields
      have hempty : fs.map (·.1) ++ later.flatMap Segment.records = [] := yields.symm
      exact hfs (map_eq_nil_iff.1 (append_eq_nil_iff.1 hempty).1)
    | frame r rest => exact h.next_rejected k rejected _ r rest hnext

end

end Crash

/-- A log is cut in its active segment and written on by a new writer. The reader then yields the complete records and
    the new ones if the cut spares them; and only if it does, unless bytes behind the cut pass for a record. -/
theorem log_read_after_crash (c : Crypto) (lawful : c.Lawful) (masterKey : Option WalKey) (t : TrackedLog)
    (run : Run.Reachable (step c) (Readable masterKey) start t) (cut size : Nat) (key : Option WalKey)
    (hkey : key = none ∨ key = masterKey) (as : List Append) (small : ∀ a ∈ as, FitsReader key a.payload) :
    (t.Spared c cut (t.reopened c cut size key) as →
      good (readDir c masterKey ((t.reopened c cut size key).appendAll c as).2.dir) =
        t.complete cut ++ ((t.reopened c cut size key).appendAll c as).1) ∧
    (t.TailRejected c masterKey cut (t.reopened c cut size key) ((t.reopened c cut size key).appendAll c as).2.dir →
      good (readDir c masterKey ((t.reopened c cut size key).appendAll c as).2.dir) =
        t.complete cut ++ ((t.reopened c cut size key).appendAll c as).1 →
      t.Spared c cut (t.reopened c cut size key) as) := by
  have h := holds_of_run lawful run
  have hkeyOf : (t.reopened c cut size key).encryptionKey = key := (h.reopened_eq cut size key).2.2.2
  obtain ⟨fs, later, k⟩ := (t.reopened c cut size key).appendAll_continued lawful
    (by rw [WalWriter.KeyOf, hkeyOf]; exact hkey) (by rw [hkeyOf]; exact small)
  constructor
  · intro spared
    exact (h.yields_iff k).2 (h.yields_of_spared k spared)
  · intro rejected yields
    exact h.spared_of_yields k rejected ((h.yields_iff k).1 yields)

end TrackedLog

/-! ### Samples -/

namespace Sample

def crcBit (crc : UInt32) : UInt32 := if crc &&& 1 = 1 then (crc >>> 1) ^^^ 0xEDB88320 else crc >>> 1

def crcByte (crc : UInt32) (b : UInt8) : UInt32 := Nat.repeat crcBit 8 (crc ^^^ b.toUInt32)

def crypto : Crypto where
  crc32 bs := bs.foldl crcByte 0xFFFFFFFF ^^^ 0xFFFFFFFF
  deriveSegmentKey key _ := key
  encrypt _ _ _ msg := msg ++ List.replicate 16 0
  decrypt _ _ _ ct := some (ct.take (ct.length - 16))

theorem crypto_lawful : crypto.Lawful where
  decrypt_encrypt _ _ _ msg := by simp [crypto]
  length_encrypt _ _ _ msg := by simp [crypto]

def append (txId : UInt64) (recordType : RecordType) : Append :=
  { txId := txId
    recordType := recordType
    payload := []
    now := 1700000000000000000
    nonce := Vector.replicate 12 0
    rollNonce := Vector.replicate 12 1 }

def session : List LogEvent := [.openWriter 1000 none, .append (append 1 .begin), .append (append 1 .commit)]

def more : List Append := [append 2 .begin, append 2 .commit]

end Sample

open Wal.Sample

instance (key : Option WalKey) (payload : Bytes) : Decidable (FitsReader key payload) := by
  cases key <;> unfold FitsReader <;> infer_instance

instance (masterKey : Option WalKey) (t : TrackedLog) (ev : LogEvent) : Decidable (t.Readable masterKey ev) := by
  rcases t with ⟨_ | _, _⟩ <;> rcases ev with _ | _ <;> unfold TrackedLog.Readable <;> infer_instance

/-- The first record has 38 bytes. When the log is cut there, the new records are read after it. -/
theorem TrackedLog.log_read_after_crash_sample :
    ∃ t, Run.exec (step crypto) start session = some t ∧ (t.complete 38).length = 1 ∧
      good (readDir crypto none ((t.reopened crypto 38 1000 none).appendAll crypto more).2.dir) =
        t.complete 38 ++ ((t.reopened crypto 38 1000 none).appendAll crypto more).1 :=
  Run.exists_of_exec (by decide +kernel) rfl fun run => ⟨by decide +kernel, (log_read_after_crash crypto crypto_lawful none _ run 38 1000
    none (.inl rfl) more (by decide)).1 (.inl (by decide +kernel))⟩

/-- When it is cut in the second record, two or twelve bytes on, the two new records are not read. Cut twelve bytes on
    and with no space left in the segment, they come after an error. -/
theorem TrackedLog.appended_records_unread : ∃ t, Run.exec (step crypto) start session = some t ∧
      (∀ cut ∈ [40, 50], (t.complete cut).length = 1 ∧
        ((t.reopened crypto cut 1000 none).appendAll crypto more).1.length = 2 ∧
        good (readDir crypto none ((t.reopened crypto cut 1000 none).appendAll crypto more).2.dir) = t.complete cut) ∧
      (readDir crypto none ((t.reopened crypto 50 60 none).appendAll crypto more).2.dir).map
        (Except.map fun r => r.header.sequence) = [.ok 1, .error (.truncatedRecord 0 30 0), .ok 2, .ok 3] := by
  decide +kernel

end VectorLedger.Wal
