import VectorLedger.Theorems.Torn

/-! A log whose files have been changed. The reader takes some of the places where it stops for the end of the file, and
    goes on with the next one. -/

namespace VectorLedger.Wal

open Wal.Sample List Frames

/-- A segment as it was written, and the bytes that its file has now. -/
structure Changed where
  segment : Segment
  bytes : Bytes

namespace Changed

def file (x : Changed) : SegmentFile := ⟨x.segment.index, x.bytes⟩

def read (c : Crypto) (masterKey : Option WalKey) (x : Changed) : List (Except WalError Record) :=
  readSegment c masterKey x.segment.index x.bytes

/-- The checks reject every byte string that is not a record originally written at that place: what the reader takes for
    a record at a place of the changed file is the frame that was written there. -/
def ChecksReject (c : Crypto) (masterKey : Option WalKey) (x : Changed) : Prop :=
  ∀ place r rest, nextRecord c masterKey x.segment.index place (x.bytes.drop place) = .frame r rest →
    ∃ b later, framesFrom place x.segment.frames = (r, b) :: later ∧ x.bytes.drop place = b ++ rest

/-- Bytes at which the reader takes a file to have ended: there are fewer than four, or they begin with no magic number, or
    with an encrypted record whose text begins with none. -/
def NoRecord (c : Crypto) (masterKey : Option WalKey) (segmentIndex : Nat) (bs : Bytes) : Prop :=
  Foreign bs ∨ ∃ key blob plaintext, masterKey = some key ∧ blob <+: bs ∧
    decryptRecord c (c.deriveSegmentKey key segmentIndex) blob segmentIndex = .ok plaintext ∧
    (decodeHeader (plaintext.take serializedSize)).magic ≠ walMagic

/-- The first records stand in the file as they were written, and where the next one was written there is no record. -/
def CutShort (c : Crypto) (masterKey : Option WalKey) (x : Changed) : Prop :=
  ∃ before after rest, x.segment.frames = before ++ after ∧ after ≠ [] ∧ x.bytes = Frames.bytes before ++ rest ∧
    NoRecord c masterKey x.segment.index rest

/-- All records stand in the file as they were written, and there is none behind them. -/
def Whole (c : Crypto) (masterKey : Option WalKey) (x : Changed) : Prop :=
  ∃ rest, x.bytes = Frames.bytes x.segment.frames ++ rest ∧ NoRecord c masterKey x.segment.index rest

/-- The first file that begins with a record begins with the one that was written there. -/
def Resumes (c : Crypto) (masterKey : Option WalKey) (xs : List Changed) : Prop :=
  ∃ blank x later f fs, xs = blank ++ x :: later ∧ (∀ y ∈ blank, NoRecord c masterKey y.segment.index y.bytes) ∧
    x.segment.frames = f :: fs ∧ f.2 <+: x.bytes

/-- After files that are whole, none that is cut short is followed by one that begins as it was written. -/
def NoneSkipped (c : Crypto) (masterKey : Option WalKey) (xs : List Changed) : Prop :=
  ∀ before x after, xs = before ++ x :: after → (∀ y ∈ before, y.Whole c masterKey) → x.CutShort c masterKey →
    ¬Resumes c masterKey after

variable {c : Crypto} {masterKey : Option WalKey} {x : Changed} {xs : List Changed}

theorem checkRecord_ne_ended {headerBytes payload rest : Bytes} {crc : UInt32} :
    checkRecord c headerBytes payload crc rest ≠ .ended := by
  unfold checkRecord
  split <;> simp

theorem noRecord_of_ended {segmentIndex offset : Nat} {bs : Bytes} (h : nextRecord c masterKey segmentIndex offset bs = .ended) :
    NoRecord c masterKey segmentIndex bs := by
  unfold nextRecord at h
  rcases h₁ : readExact 4 bs with e | ⟨magicBytes, bs₁⟩
  · unfold readExact at h₁
    split_ifs at h₁ with hshort
    exact .inl (.inl hshort)
  simp only [h₁] at h
  obtain ⟨rfl, hlength⟩ := readExact_ok h₁
  split_ifs at h with henc hwal
  · -- Only what has been decrypted can end the file here.
    right
    unfold nextEncrypted at h
    split at h
    · cases h
    · next header bs₂ h₂ =>
      simp only at h
      split at h
      · cases h
      split at h
      · cases h
      next ciphertext bs₃ h₃ =>
      obtain ⟨rfl, -⟩ := readExact_ok h₂
      obtain ⟨rfl, -⟩ := readExact_ok h₃
      split at h
      · cases h
      next key =>
      split at h
      · cases h
      next plaintext hplain =>
      refine ⟨key, _, plaintext, rfl, ?_, hplain, ?_⟩
      · exact ⟨bs₃, by simp⟩
      · unfold parsePlaintextRecord at h
        simp only at h
        split_ifs at h with hshort hmagic
        · exact hmagic
        · exact absurd h checkRecord_ne_ended
  · exact .inl (.inr (by rw [take_left' hlength]; exact ⟨henc, hwal⟩))
  · unfold nextPlaintext at h
    split at h
    · cases h
    simp only at h
    split at h
    · cases h
    split at h
    · cases h
    split at h
    · cases h
    split at h
    · cases h
    · exact absurd h checkRecord_ne_ended

theorem read_cases (h : x.ChecksReject c masterKey) : ∃ before after rest, x.segment.frames = before ++ after ∧
    x.bytes = Frames.bytes before ++ rest ∧
    (x.read c masterKey = (before.map (·.1)).map Except.ok ∧ NoRecord c masterKey x.segment.index rest ∨
      ∃ e, x.read c masterKey = (before.map (·.1)).map Except.ok ++ [.error e]) := by
  obtain ⟨before, after, rest, hframes, hbytes, hread⟩ :=
    readFrom_first (nextRecord_shrinks c masterKey x.segment.index) h 0
  rw [framesFrom_zero] at hframes
  refine ⟨before, after, rest, hframes, hbytes, hread.imp_left fun ⟨hread, offset, hend⟩ => ⟨hread, noRecord_of_ended hend⟩⟩

theorem readDir_cons_file (x : Changed) (xs : List Changed) :
    readDir c masterKey ((x :: xs).map file) = x.read c masterKey ++ readDir c masterKey (xs.map file) := rfl

theorem good_eq_nil_of_not_resumes (h : ∀ x ∈ xs, x.ChecksReject c masterKey) (not : ¬Resumes c masterKey xs) :
    good (readDir c masterKey (xs.map file)) = [] := by
  induction xs with
  | nil => rfl
  | cons x xs ih =>
    rw [forall_mem_cons] at h
    rw [readDir_cons_file]
    obtain ⟨before, after, rest, hframes, hbytes, hread⟩ := read_cases h.1
    cases before with
    | cons f before =>
      refine absurd ⟨[], x, xs, f, _, rfl, by simp, hframes, Frames.bytes before ++ rest, ?_⟩ not
      rw [hbytes, Frames.bytes_cons, append_assoc]
    | nil =>
      rcases hread with ⟨hread, hend⟩ | ⟨e, hread⟩
      · rw [hread]
        refine ih h.2 ?_
        rintro ⟨blank, y, later, f, fs, rfl, hblank, hy⟩
        refine not ⟨x :: blank, y, later, f, fs, rfl, forall_mem_cons.2 ⟨?_, hblank⟩, hy⟩
        rwa [hbytes]
      · rw [hread]
        rfl

/-- What the reader takes for a record at this place is what was written there. -/
def acceptsWritten (c : Crypto) (masterKey : Option WalKey) (x : Changed) (place : Nat) : Bool :=
  match nextRecord c masterKey x.segment.index place (x.bytes.drop place) with
  | .frame r rest =>
    match framesFrom place x.segment.frames with
    | (r', b) :: _ => r = r' ∧ x.bytes.drop place = b ++ rest
    | [] => false
  | _ => true

theorem checksReject_iff : x.ChecksReject c masterKey ↔ ∀ place < x.bytes.length, x.acceptsWritten c masterKey place := by
  constructor
  · intro h place _
    unfold acceptsWritten
    cases hnext : nextRecord c masterKey x.segment.index place (x.bytes.drop place) with
    | ended | failed => rfl
    | frame r rest =>
      obtain ⟨b, later, hframes, hsplit⟩ := h place r rest hnext
      simp [hframes, hsplit]
  · intro h place r rest hnext
    by_cases hplace : place < x.bytes.length
    · have hacc := h place hplace
      unfold acceptsWritten at hacc
      rw [hnext] at hacc
      simp only at hacc
      split at hacc
      · next r' b later hframes =>
        obtain ⟨rfl, hsplit⟩ := of_decide_eq_true hacc
        exact ⟨b, later, hframes, hsplit⟩
      · cases hacc
    · -- Behind the end of the file there is nothing to take.
      rw [drop_eq_nil_of_le (Nat.le_of_not_lt hplace)] at hnext
      cases hnext

instance (c : Crypto) (masterKey : Option WalKey) (x : Changed) : Decidable (x.ChecksReject c masterKey) :=
  decidable_of_iff _ checksReject_iff.symm

theorem not_cutShort (magic : ∀ f ∈ x.segment.frames, 4 ≤ f.2.length ∧ leNat (f.2.take 4) = walMagic.toNat)
    (unchanged : x.bytes = Frames.bytes x.segment.frames) : ¬x.CutShort c none := by
  rintro ⟨before, after, rest, hframes, hafter, hbytes, hend⟩
  rw [unchanged, hframes, Frames.bytes_append] at hbytes
  obtain rfl := append_cancel_left hbytes
  cases after with
  | nil => exact hafter rfl
  | cons f after =>
    obtain ⟨hlong, hmagic⟩ := magic f (by simp [hframes])
    rw [Frames.bytes_cons] at hend
    rcases hend with (hshort | ⟨-, hother⟩) | ⟨key, -, -, hnone, -⟩
    · rw [length_append] at hshort
      omega
    · exact hother (by rwa [take_append_of_le_length hlong])
    · cases hnone

theorem noneSkipped_of_dropLast (h : ∀ x ∈ xs.dropLast, ¬x.CutShort c masterKey) : NoneSkipped c masterKey xs := by
  rintro before x after rfl - hcut
  cases after with
  | nil =>
    rintro ⟨blank, y, later, f, fs, hnil, -⟩
    simp at hnil
  | cons =>
    refine absurd hcut (h x ?_)
    rw [dropLast_append_of_ne_nil (by simp)]
    simp

end Changed

namespace Sample

def twoSegments : List LogEvent :=
  [.openWriter 76 none, .append (append 1 .begin), .append (append 1 .commit), .append (append 2 .begin),
    .append (append 2 .commit)]

/-- The segments of a log, with the first byte of the second record overwritten in one of them. -/
def overwritten (segment : Nat) (t : TrackedLog) : List Changed :=
  t.segments.map fun s => ⟨s, if s.index = segment then (Frames.bytes s.frames).set 38 0 else Frames.bytes s.frames⟩

end Sample

end VectorLedger.Wal
