import VectorLedger.Theorems.Rotation

/-! Sessions of writers on one log. What they append is read back with their key; what others put into the files is read
    too. -/

namespace VectorLedger.Wal

open Wal.Sample List Frames

/-! ### Sessions that are closed -/

/-- A session of a writer, from its opening to its close. -/
structure WriterSession where
  segmentMaxSize : Nat
  masterKey : Option WalKey
  appends : List Append

/-- The records of one session after the other, and the directory after the last. -/
def runSessions (c : Crypto) (d : Dir) : List WriterSession → List Record × Dir
  | [] => ([], d)
  | s :: ss =>
    let (rs, w) := (WalWriter.openWithOptions c d s.segmentMaxSize s.masterKey).appendAll c s.appends
    let (rs', d) := runSessions c w.dir ss
    (rs ++ rs', d)

def Append.content (a : Append) : UInt64 × UInt8 × Int64 × Bytes := (a.txId, a.recordType.toByte, a.now, a.payload)

def Record.content (r : Record) : UInt64 × UInt8 × Int64 × Bytes :=
  (r.header.txId, r.header.recordType, r.header.timestampNs, r.payload)

section Closed
variable {c : Crypto} {key : Option WalKey}

theorem WalWriter.appendAll_content (c : Crypto) (w : WalWriter) (as : List Append) :
    (w.appendAll c as).1.map Record.content = as.map Append.content := by
  induction as generalizing w with
  | nil => rfl
  | cons a as ih =>
    rw [map_cons, ← ih (w.append c a).2, appendAll, map_cons, w.append_record]
    rfl

theorem readable_session (lawful : c.Lawful) {s : WriterSession} (hkey : s.masterKey = none ∨ s.masterKey = key)
    (fits : ∀ a ∈ s.appends, FitsReader s.masterKey a.payload) {ss : List Segment}
    (readable : ∀ g ∈ ss, g.Readable c key) :
    let done := (WalWriter.openWithOptions c (ss.map Segment.file) s.segmentMaxSize s.masterKey).appendAll c s.appends
    ∃ ss' : List Segment, done.2.dir = ss'.map Segment.file ∧ (∀ g ∈ ss', g.Readable c key) ∧
      ss'.flatMap Segment.records = ss.flatMap Segment.records ++ done.1 := by
  have hold : TrackedLog.Holds c key ⟨.closed (ss.map Segment.file), ss⟩ := ⟨rfl, readable, nofun⟩
  have hopen := hold.open rfl s.segmentMaxSize hkey
  obtain ⟨before, g, hsegments, hsealed, hfile⟩ := hopen.split rfl
  obtain ⟨hindex, hactive⟩ := SegmentFile.mk.inj hfile
  have hrecords : (before ++ [g]).flatMap Segment.records = ss.flatMap Segment.records := by
    rw [← hsegments]
    cases ss <;> rfl
  have hreadable := hopen.readable
  rw [hsegments, forall_mem_append, forall_mem_singleton] at hreadable
  have hwriter := (hopen.writer _ rfl).1
  have hfits : ∀ a ∈ s.appends, FitsReader
      (WalWriter.openWithOptions c (ss.map Segment.file) s.segmentMaxSize s.masterKey).encryptionKey a.payload := by
    unfold WalWriter.openWithOptions
    split <;> exact fits
  obtain ⟨fs, later, k⟩ := WalWriter.appendAll_continued lawful hwriter hfits
  refine ⟨before ++ (⟨g.index, g.frames ++ fs⟩ :: later), ?_, ?_, ?_⟩
  · rw [k.dir, hsealed, hindex, hactive]
    simp [Segment.file]
  · refine forall_mem_append.2 ⟨hreadable.1, forall_mem_cons.2 ⟨?_, k.later⟩⟩
    have hframes := k.frames
    rw [hindex] at hframes
    exact forall_mem_append.2 ⟨hreadable.2, hframes⟩
  · rw [k.records, ← hrecords]
    simp [Segment.records]

theorem readable_sessions (lawful : c.Lawful) (sessions : List WriterSession)
    (keys : ∀ s ∈ sessions, s.masterKey = none ∨ s.masterKey = key)
    (fits : ∀ s ∈ sessions, ∀ a ∈ s.appends, FitsReader s.masterKey a.payload) {ss : List Segment}
    (readable : ∀ g ∈ ss, g.Readable c key) :
    ∃ ss' : List Segment, (runSessions c (ss.map Segment.file) sessions).2 = ss'.map Segment.file ∧
      (∀ g ∈ ss', g.Readable c key) ∧
      ss'.flatMap Segment.records = ss.flatMap Segment.records ++ (runSessions c (ss.map Segment.file) sessions).1 := by
  induction sessions generalizing ss with
  | nil => exact ⟨ss, rfl, readable, (append_nil _).symm⟩
  | cons s sessions ih =>
    rw [forall_mem_cons] at keys fits
    obtain ⟨ss₁, hdir, hreadable, hrecords⟩ := readable_session lawful keys.1 fits.1 readable
    obtain ⟨ss', hdir', hreadable', hrecords'⟩ := ih keys.2 fits.2 hreadable
    rw [← hdir] at hdir' hrecords'
    refine ⟨ss', hdir', hreadable', ?_⟩
    rw [hrecords', hrecords, append_assoc]
    rfl

theorem runSessions_content (c : Crypto) (d : Dir) (sessions : List WriterSession) :
    (runSessions c d sessions).1.map Record.content = sessions.flatMap fun s => s.appends.map Append.content := by
  induction sessions generalizing d with
  | nil => rfl
  | cons s sessions ih => rw [runSessions, map_append, ih, WalWriter.appendAll_content, flatMap_cons]

end Closed

/-- After sessions that are plaintext or under one key, the directory read with that key yields what they appended,
    record by record. -/
theorem runSessions_readDir (c : Crypto) (lawful : c.Lawful) (key : WalKey) (sessions : List WriterSession)
    (keys : ∀ s ∈ sessions, s.masterKey = none ∨ s.masterKey = some key)
    (fits : ∀ s ∈ sessions, ∀ a ∈ s.appends, FitsReader s.masterKey a.payload) :
    readDir c (some key) (runSessions c [] sessions).2 = (runSessions c [] sessions).1.map Except.ok ∧
      (runSessions c [] sessions).1.map Record.content = sessions.flatMap fun s => s.appends.map Append.content := by
  obtain ⟨ss, hdir, hreadable, hrecords⟩ := readable_sessions lawful sessions keys fits (show ∀ g ∈ [], _ from nofun)
  refine ⟨?_, runSessions_content c [] sessions⟩
  rw [show (runSessions c [] sessions).2 = _ from hdir, readDir_files hreadable, hrecords]
  rfl

/-- A plaintext session and an encrypted one, each with segments of one record. -/
theorem runSessions_readDir_mixed :
    let sessions : List WriterSession := [⟨40, none, [append 1 .begin, append 1 .commit]⟩,
      ⟨80, some oldKey, [append 2 .begin, append 2 .commit]⟩]
    (runSessions keyed [] sessions).2.length = 4 ∧ readDir keyed (some oldKey) (runSessions keyed [] sessions).2 =
        (runSessions keyed [] sessions).1.map Except.ok := by
  intro sessions
  exact ⟨by decide +kernel, (runSessions_readDir keyed keyed_lawful oldKey sessions (by decide) (by decide)).1⟩

/-! ### Files that were changed -/

/-- A log with the records that were put down in it, each with the index of its segment. -/
structure AuthoredLog where
  log : Log
  written : List (Nat × Record)

namespace AuthoredLog

def start : AuthoredLog := ⟨.closed [], []⟩

/-- A crash that has put down the whole of a record has written it. -/
def writtenBy (c : Crypto) (log : Log) (ev : SessionEvent) : List (Nat × Record) :=
  match log, ev with
  | .writing w, .append a => [((w.append c a).2.activeIndex, w.recordFor c a)]
  | .writing w, .crash a written =>
    if (w.frameOf c a).length ≤ written then [((w.prepared c a).activeIndex, w.recordFor c a)] else []
  | _, _ => []

def step (c : Crypto) (t : AuthoredLog) (ev : SessionEvent) : Option AuthoredLog :=
  (Log.session c t.log ev).map fun log => ⟨log, t.written ++ writtenBy c t.log ev⟩

/-- Every writer has the key. -/
def Keyed (key : WalKey) (_ : AuthoredLog) (ev : SessionEvent) : Prop :=
  match ev with
  | .openWriter _ masterKey => masterKey = some key
  | _ => True

instance (key : WalKey) (t : AuthoredLog) (ev : SessionEvent) : Decidable (Keyed key t ev) := by
  cases ev <;> unfold Keyed <;> infer_instance

/-- Nothing that stands in these files decrypts, under the key of a segment, but what was encrypted for it. -/
def Unforged (c : Crypto) (key : WalKey) (t : AuthoredLog) (d : Dir) : Prop :=
  ∀ f ∈ d, ∀ blob msg, blob <:+: f.bytes → decryptRecord c (c.deriveSegmentKey key f.index) blob f.index = .ok msg →
    ∃ r, (f.index, r) ∈ t.written ∧ msg = r.toBytes

/-- A record that can be read without a key stands in the file, where the reader comes to it. -/
def Planted (c : Crypto) (key : WalKey) (f : SegmentFile) (r : Record) : Prop :=
  ∃ gs b rest, f.bytes = bytes gs ++ (b ++ rest) ∧
    (∀ g ∈ gs, Reads (nextRecord c (some key) f.index) g.1 g.2) ∧ Reads (nextRecord c none f.index) r b

variable {c : Crypto} {key : WalKey} {t : AuthoredLog} {f : SegmentFile} {r : Record}

/-- In every run the log has what its writers wrote. -/
theorem sound_of_run (run : Run.Reachable (step c) (Keyed key) start t) : ∀ x ∈ t.written, x.2.Sound c := by
  refine run.invariant (P := fun t => ∀ x ∈ t.written, x.2.Sound c) nofun ?_
  intro t ev t' h _ hstep
  obtain ⟨log, -, rfl⟩ := Option.map_eq_some_iff.1 hstep
  refine forall_mem_append.2 ⟨h, fun x hx => ?_⟩
  unfold writtenBy at hx
  split at hx
  · obtain rfl := mem_singleton.1 hx
    exact (WalWriter.recordFor_written c _ _).sound
  · split at hx
    · obtain rfl := mem_singleton.1 hx
      exact (WalWriter.recordFor_written c _ _).sound
    · cases hx
  · cases hx

theorem read_cases {i : Nat} {key : Option WalKey} {b : Bytes} (h : Reads (nextRecord c key i) r b) :
    (∀ key', Reads (nextRecord c key' i) r b) ∨
      ∃ k msg, key = some k ∧ decryptRecord c (c.deriveSegmentKey k i) b i = .ok msg ∧
        parsePlaintextRecord c b.length msg [] = .frame r [] := by
  have hhere := h 0 []
  rw [append_nil] at hhere
  unfold nextRecord at hhere
  rcases h₁ : readExact 4 b with e | ⟨magicBytes, bs⟩
  · simp [h₁] at hhere
  simp only [h₁] at hhere
  obtain ⟨rfl, hlength⟩ := readExact_ok h₁
  split_ifs at hhere with henc hwal
  · obtain ⟨header, ct, hbs, hblob, -, -⟩ := nextEncrypted_cut hhere
    rw [append_nil] at hbs
    subst hbs
    have hnext : nextEncrypted c key i 0 magicBytes (header ++ (ct ++ [])) = _ := hblob.next key 0 magicBytes []
    rw [append_nil, hhere] at hnext
    cases key with
    | none => cases hnext
    | some k =>
      cases hmsg : decryptRecord c (c.deriveSegmentKey k i) (magicBytes ++ (header ++ ct)) i with
      | error => simp [hmsg] at hnext
      | ok msg =>
        simp only [hmsg, Nat.zero_add] at hnext
        exact .inr ⟨k, msg, rfl, hmsg, hnext.symm⟩
  · refine .inl fun key' offset rest => ?_
    have hread := h offset rest
    rw [append_assoc, nextRecord, readExact_append hlength] at hread ⊢
    simpa only [if_neg henc] using hread

theorem read_of_planted (h : Planted c key f r) : .ok r ∈ readSegment c (some key) f.index f.bytes := by
  obtain ⟨gs, b, rest, hbytes, hgs, hb⟩ := h
  rcases read_cases hb with hall | ⟨k, msg, hnone, -⟩
  · rw [readSegment, hbytes, readFrom_append (nextRecord_shrinks c _ _) hgs,
      readFrom_frame (nextRecord_shrinks c _ _) (hall (some key) _ rest)]
    exact mem_append_right _ mem_cons_self
  · cases hnone

/-- After any change of the files that forges no ciphertext, the reader yields records that were written to the same
    segment if and only if every plaintext record it comes to was. -/
theorem read_written_iff (c : Crypto) (key : WalKey) (t : AuthoredLog)
    (run : Run.Reachable (step c) (Keyed key) start t) (d : Dir) (unforged : t.Unforged c key d) :
    (∀ f ∈ d, ∀ r, .ok r ∈ readSegment c (some key) f.index f.bytes → (f.index, r) ∈ t.written) ↔
      ∀ f ∈ d, ∀ r, Planted c key f r → (f.index, r) ∈ t.written := by
  constructor
  · intro h f hf r hplanted
    exact h f hf r (read_of_planted hplanted)
  · intro h f hf r hread
    obtain ⟨gs, b, rest, hbytes, hgs, hb⟩ := exists_frame_of_mem (nextRecord_shrinks c _ _)
      (FrameIn c (some key) f.index) (fun _ _ _ _ => nextRecord_cut) hread
    rcases read_cases hb.reads with hplain | ⟨k, msg, hk, hmsg, hparse⟩
    · exact h f hf r ⟨gs, b, rest, hbytes, fun g hg => (hgs g hg).reads, hplain none⟩
    · cases hk
      obtain ⟨r', hr', rfl⟩ := unforged f hf b msg ⟨bytes gs, rest, by rw [hbytes, append_assoc]⟩ hmsg
      rw [(sound_of_run run _ hr').parse] at hparse
      cases hparse
      exact hr'

def sampleRun : List SessionEvent := [.openWriter 1000 (some oldKey), .append (append 1 .begin), .close]

/-- A record that no writer wrote, in place of what the writer left in the file. -/
def forgery : Record := (WalWriter.openWithOptions keyed [] 1000 none).recordFor keyed (append 7 .commit)

theorem unforged_of_untagged {f : SegmentFile} (h : ¬replicate 16 1 <:+: f.bytes) : t.Unforged keyed oldKey [f] := by
  intro g hg blob msg hblob hmsg
  obtain rfl := mem_singleton.1 hg
  unfold decryptRecord at hmsg
  simp only at hmsg
  split_ifs at hmsg
  refine absurd ?_ h
  cases hdecrypt : keyed.decrypt (keyed.deriveSegmentKey oldKey g.index) ((blob.drop 4).take 12)
      (leBytes 8 g.index) ((blob.drop encHeaderSize).take (leNat ((blob.drop 16).take 4))) with
  | none => simp [hdecrypt] at hmsg
  | some =>
    simp only [keyed] at hdecrypt
    split_ifs at hdecrypt with htag
    rw [show oldKey[0] = 1 from rfl] at htag
    rw [← htag]
    exact ((drop_suffix _ _).isInfix.trans ( take_prefix _ _).isInfix).trans
      ((drop_suffix _ _).isInfix.trans hblob)

/-- The file holds a plaintext copy of the record that the writer put down. It is read, and it was written. -/
theorem read_written_iff_copied :
    let copied := (WalWriter.openWithOptions keyed [] 1000 none).recordFor keyed (append 1 .begin)
    ∃ t, Run.exec (step keyed) start sampleRun = some t ∧ readSegment keyed (some oldKey) 0 copied.toBytes = [.ok copied] ∧
      ∀ f ∈ [(⟨0, copied.toBytes⟩ : SegmentFile)], ∀ r,
        .ok r ∈ readSegment keyed (some oldKey) f.index f.bytes → (f.index, r) ∈ t.written := by
  intro copied
  have ht : Run.exec (step keyed) start sampleRun = some _ := rfl
  have hread : readSegment keyed (some oldKey) 0 copied.toBytes = [.ok copied] := by decide +kernel
  refine ⟨_, ht, hread, (read_written_iff keyed oldKey _ (Run.reachable_of_exec (by decide +kernel) ht)
    [⟨0, copied.toBytes⟩] (unforged_of_untagged (by decide +kernel))).2 fun f hf r hplanted => ?_⟩
  obtain rfl := mem_singleton.1 hf
  have hmem := read_of_planted hplanted
  rw [hread, mem_singleton] at hmem
  cases hmem
  exact mem_cons_self

/-- A plaintext record takes the place of the encrypted one. No ciphertext is forged, and the reader yields it. -/
theorem planted_record_read : ∃ t, Run.exec (step keyed) start sampleRun = some t ∧
      Run.Allowed (step keyed) (Keyed oldKey) start sampleRun ∧
      t.Unforged keyed oldKey [⟨0, forgery.toBytes⟩] ∧
      .ok forgery ∈ readSegment keyed (some oldKey) 0 forgery.toBytes ∧ (0, forgery) ∉ t.written :=
  ⟨_, rfl, by decide +kernel, unforged_of_untagged (by decide +kernel), by decide +kernel, by decide +kernel⟩

end AuthoredLog

end VectorLedger.Wal
