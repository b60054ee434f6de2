import VectorLedger.Lib.Except
import VectorLedger.Theorems.WalSessions

/-! A rotation of the key that is interrupted and run again. A crash leaves every segment as it was or wholly rewritten;
    the second run rewrites the former and takes the latter for empty. -/

namespace VectorLedger.Wal

open Wal.Sample SegmentFile List Frames

/-! ### File-system steps -/

section Steps
variable {c : Crypto} {oldKey : Option WalKey} {newKey : WalKey} {nonces : Nat → Nat → Nonce} {f f' : SegmentFile}
  {disk : RotationDisk} {i : Nat}

theorem segments_of_apply {s : RotationStep} (h : ∀ i, s ≠ .renameTmp i) : (disk.apply s).segments = disk.segments := by
  cases s with
  | createTmp | writeTmp | syncTmp => rfl
  | renameTmp i => exact absurd rfl (h i)

theorem segments_of_tmpSteps (fs : List (Record × Bytes)) (m : Nat) (disk : RotationDisk) :
    (((tmpSteps i fs).take m).foldl RotationDisk.apply disk).segments = disk.segments := by
  have hkeeps : ∀ s ∈ (tmpSteps i fs).take m, ∀ j, s ≠ .renameTmp j := by
    intro s hs j
    rcases mem_append.1 (mem_of_mem_take hs) with hs | hs
    · rcases mem_cons.1 hs with rfl | hs
      · nofun
      · obtain ⟨f, -, rfl⟩ := mem_map.1 hs
        nofun
    · obtain rfl := mem_singleton.1 hs
      nofun
  generalize (tmpSteps i fs).take m = steps at hkeeps
  induction steps generalizing disk with
  | nil => rfl
  | cons s steps ih =>
    rw [forall_mem_cons] at hkeeps
    rw [foldl_cons, ih _ hkeeps.2, segments_of_apply hkeeps.1]

theorem tmp_of_writes {b : Bytes} (h : disk.tmp i = some b) (fs : List (Record × Bytes)) :
    ((fs.map fun f => RotationStep.writeTmp i f.2).foldl RotationDisk.apply disk).tmp i = some (b ++ bytes fs) := by
  induction fs generalizing disk b with
  | nil => rw [bytes_nil, append_nil, map_nil, foldl_nil, h]
  | cons f fs ih =>
    rw [map_cons, bytes_cons, ← append_assoc]
    exact ih (by simp [RotationDisk.apply, h])

theorem tmp_of_tmpSteps (fs : List (Record × Bytes)) (disk : RotationDisk) :
    ((tmpSteps i fs).foldl RotationDisk.apply disk).tmp i = some (bytes fs) := by
  have hempty : (disk.apply (.createTmp i)).tmp i = some [] := by simp [RotationDisk.apply]
  rw [tmpSteps, foldl_append]
  exact tmp_of_writes hempty fs

theorem reencryptSteps_cases {wasPlaintext : Bool}
    (h : reencryptSegment c oldKey newKey (nonces f.index) f = .ok (wasPlaintext, f')) :
    (reencryptSteps c oldKey newKey (nonces f.index) f = .ok [] ∧ f' = f) ∨
      ∃ fs, reencryptSteps c oldKey newKey (nonces f.index) f = .ok (tmpSteps f.index fs ++ [.renameTmp f.index]) ∧
        f' = ⟨f.index, bytes fs⟩ := by
  unfold reencryptSteps
  obtain ⟨records, hrecords, h⟩ := Except.bind_eq_ok.1 h
  simp only [hrecords]
  split at h
  · cases h
    exact .inl ⟨if_pos ‹_›, rfl⟩
  · cases h
    refine .inr ⟨_, if_neg ‹_›, ?_⟩
    rw [newFrames_bytes]

theorem rename_segment {pre post : Dir} (hsegments : disk.segments = pre ++ f :: post)
    (distinct : ((pre ++ f :: post).map index).Nodup) {bs : Bytes} (h : disk.tmp f.index = some bs) :
    (disk.apply (.renameTmp f.index)).segments = pre ++ ⟨f.index, bs⟩ :: post := by
  have hother : ∀ g ∈ pre ++ post, g.index ≠ f.index := by
    rw [map_append, map_cons, nodup_middle, nodup_cons, ← map_append] at distinct
    exact fun g hg heq => distinct.1 (mem_map.2 ⟨g, hg, heq⟩)
  have hkeep : ∀ gs : Dir, (∀ g ∈ gs, g ∈ pre ++ post) →
      gs.map (fun g => if g.index = f.index then ⟨f.index, bs⟩ else g) = gs := by
    intro gs hgs
    exact (map_congr_left fun g hg => if_neg (hother g (hgs g hg))).trans (map_id' gs)
  simp only [RotationDisk.apply, h, hsegments, map_append, map_cons, if_true]
  rw [hkeep pre fun g hg => mem_append_left _ hg, hkeep post fun g hg => mem_append_right _ hg]

theorem steps_of_segment {wasPlaintext : Bool} {pre post : Dir}
    (h : reencryptSegment c oldKey newKey (nonces f.index) f = .ok (wasPlaintext, f'))
    (hsegments : disk.segments = pre ++ f :: post) (distinct : ((pre ++ f :: post).map index).Nodup) :
    f'.index = f.index ∧ ∃ steps, reencryptSteps c oldKey newKey (nonces f.index) f = .ok steps ∧
      (steps.foldl RotationDisk.apply disk).segments = pre ++ f' :: post ∧
      ∀ m < steps.length, ((steps.take m).foldl RotationDisk.apply disk).segments = pre ++ f :: post := by
  rcases reencryptSteps_cases h with ⟨hsteps, rfl⟩ | ⟨fs, hsteps, rfl⟩
  · exact ⟨rfl, [], hsteps, hsegments, nofun⟩
  have hkeep := segments_of_tmpSteps (i := f.index) fs (tmpSteps f.index fs).length disk
  rw [take_length, hsegments] at hkeep
  refine ⟨rfl, _, hsteps, ?_, fun m hm => ?_⟩
  · rw [foldl_append]
    exact rename_segment hkeep distinct (tmp_of_tmpSteps fs disk)
  · rw [length_append, length_singleton] at hm
    rw [take_append_of_le_length (by omega), segments_of_tmpSteps, hsegments]

theorem segments_of_steps {next : SegmentFile → SegmentFile} {d pre : Dir}
    (hnext : ∀ f ∈ d, ∃ b, reencryptSegment c oldKey newKey (nonces f.index) f = .ok (b, next f))
    (hsegments : disk.segments = pre ++ d) (distinct : ((pre ++ d).map index).Nodup) (n : Nat) :
    ∃ d₁ d₂, d = d₁ ++ d₂ ∧ (((rotationSteps c oldKey newKey nonces d).take n).foldl RotationDisk.apply disk).segments =
        pre ++ (d₁.map next ++ d₂) ∧
      ((rotationSteps c oldKey newKey nonces d).length ≤ n → d₂ = []) := by
  induction d generalizing pre disk n with
  | nil => exact ⟨[], [], rfl, by simpa [rotationSteps] using hsegments, fun _ => rfl⟩
  | cons f d ih =>
    rw [forall_mem_cons] at hnext
    obtain ⟨⟨b, hf⟩, hd⟩ := hnext
    obtain ⟨hindex, steps, hsteps, hdone, hpart⟩ := steps_of_segment hf hsegments distinct
    simp only [rotationSteps, hsteps, take_append, length_append]
    by_cases hn : n < steps.length
    · refine ⟨[], f :: d, rfl, ?_, fun hall => by omega⟩
      rw [Nat.sub_eq_zero_of_le hn.le, take_zero, append_nil, hpart n hn]
      rfl
    · obtain ⟨d₁, d₂, hsplit, hafter, hall⟩ := ih hd
        (by simpa using hdone : _ = (pre ++ [next f]) ++ d) (by simpa [hindex] using distinct) (n - steps.length)
      refine ⟨f :: d₁, d₂, by rw [hsplit, cons_append], ?_, fun hlength => hall (by omega)⟩
      rw [take_of_length_le (Nat.not_lt.1 hn), foldl_append, hafter]
      simp

end Steps

/-! ### The second run -/

/-- A ciphertext under the new key of a segment is rejected under its old key, if the two differ. -/
def Crypto.RejectsOld (c : Crypto) (oldKey : Option WalKey) (newKey : WalKey) : Prop :=
  ∀ key ∈ oldKey, ∀ i nonce aad msg, c.deriveSegmentKey key i ≠ c.deriveSegmentKey newKey i →
    c.decrypt (c.deriveSegmentKey key i) nonce aad (c.encrypt (c.deriveSegmentKey newKey i) nonce aad msg) = none

section Again
variable {c : Crypto} {oldKey : Option WalKey} {newKey : WalKey} {nonces nonces' : Nat → Nat → Nonce} {f : SegmentFile}
  {d : Dir}

theorem newFrame_rejected (lawful : c.Lawful) (rejects : c.RejectsOld oldKey newKey) {i : Nat}
    (differ : ∀ key ∈ oldKey, c.deriveSegmentKey key i ≠ c.deriveSegmentKey newKey i) (nonce : Nonce) {msg : Bytes}
    (small : msg.length + 16 ≤ maxRecordPayload) (offset : Nat) (rest : Bytes) :
    nextRecord c oldKey i offset (encryptRecord c (c.deriveSegmentKey newKey i) nonce msg i ++ rest) =
      .failed .decryption := by
  cases oldKey with
  | none =>
    have hct := lawful.length_encrypt (c.deriveSegmentKey newKey i) nonce.toList (leBytes 8 i) msg
    have hsmall := hct ▸ small
    rw [encryptRecord, nextRecord_encrypted, append_assoc, ← append_assoc nonce.toList]
    refine Blob.next ⟨by simp, ?_, hsmall⟩ none offset _ rest
    rw [drop_left' nonce.length_toList, leNat_length hsmall]
  | some key => rw [nextRecord_blob lawful key _ nonce small, rejects key rfl i _ _ _ (differ key rfl)]

theorem Whole.read (h : Whole c oldKey f.index f.bytes) : f.Read c oldKey := by
  obtain ⟨gs, hbytes, hreads⟩ := h
  rw [SegmentFile.Read, records, hbytes, readSegment_bytes hreads, good_ok]

theorem reencrypted_first (lawful : c.Lawful) (newKey : WalKey) (nonces : Nat → Nat → Nonce)
    (whole : Whole c oldKey f.index f.bytes) (fits : f.Fits c oldKey) :
    ∃ b g, reencryptSegment c oldKey newKey (nonces f.index) f = .ok (b, g) ∧
      readSegment c (some newKey) g.index g.bytes = (f.records c oldKey).map Except.ok := by
  obtain ⟨b, hb⟩ := reencryptSegment_read newKey nonces whole.read
  refine ⟨b, _, hb, ?_⟩
  rw [rotated_index]
  refine read_rotated lawful whole.read fits fun hempty => ?_
  obtain ⟨gs, hbytes, hreads⟩ := whole
  have hgs : gs = [] := by
    rw [records, hbytes, readSegment_bytes hreads, good_ok] at hempty
    exact map_eq_nil_iff.1 hempty
  rw [hbytes, hgs]
  exact (readFrom_nil _ _).trans (readFrom_nil _ _).symm

theorem reencryptSegment_left {ns : Nat → Nonce} (h : recordsToRotate (readSegment c oldKey f.index f.bytes) = .ok []) :
    ∃ b, reencryptSegment c oldKey newKey ns f = .ok (b, f) := by
  refine ⟨4 ≤ f.bytes.length && leNat (f.bytes.take 4) ≠ encryptedMagic.toNat, ?_⟩
  simp only [reencryptSegment, h]
  rfl

theorem nothing_to_rotate (nonces : Nat → Nat → Nonce) (lawful : c.Lawful) (rejects : c.RejectsOld oldKey newKey)
    (differ : ∀ key ∈ oldKey, c.deriveSegmentKey key f.index ≠ c.deriveSegmentKey newKey f.index)
    (fits : f.Fits c oldKey) :
    recordsToRotate (readSegment c oldKey f.index (bytes (f.framesAnew c oldKey newKey nonces))) = .ok [] := by
  unfold framesAnew
  cases hrecords : f.records c oldKey with
  | nil =>
    rw [readSegment]
    rfl
  | cons r =>
    rw [Fits, hrecords, forall_mem_cons] at fits
    have hsmall : r.toBytes.length + 16 ≤ maxRecordPayload := by
      rw [r.length_toBytes]
      unfold serializedSize
      omega
    rw [readSegment, newFrames, bytes_cons, readFrom_failed (newFrame_rejected lawful rejects differ _ hsmall _ _)]
    rfl

/-- What the first run has rewritten is left alone by the second, or rewritten once more where the two keys of the
    segment are the same. -/
theorem reencrypted_again (lawful : c.Lawful) (rejects : c.RejectsOld oldKey newKey)
    (whole : Whole c oldKey f.index f.bytes) (fits : f.Fits c oldKey)
    (nonces nonces' : Nat → Nat → Nonce) :
    ∃ b g, reencryptSegment c oldKey newKey (nonces' f.index) (f.rotated c oldKey newKey nonces) = .ok (b, g) ∧
      readSegment c (some newKey) g.index g.bytes = (f.records c oldKey).map Except.ok := by
  rcases rotated_cases c oldKey newKey nonces f with ⟨-, hsame⟩ | hnew
  · rw [hsame]
    exact reencrypted_first lawful newKey nonces' whole fits
  have hframes : ∀ key, c.deriveSegmentKey key f.index = c.deriveSegmentKey newKey f.index →
      ∀ g ∈ f.framesAnew c oldKey newKey nonces, Reads (nextRecord c (some key) f.index) g.1 g.2 := by
    intro key hkey g hg
    obtain ⟨hmem, nonce, hb⟩ := mem_newFrames hg
    rw [hb, ← hkey]
    exact (records_sound whole.read g.1 hmem).reads_encrypted lawful nonce (fits g.1 hmem)
  have hread : readSegment c (some newKey) f.index (bytes (f.framesAnew c oldKey newKey nonces)) =
      (f.records c oldKey).map Except.ok := by
    rw [readSegment_bytes (hframes newKey rfl), newFrames_records]
  rw [hnew]
  by_cases hkey : ∃ key ∈ oldKey, c.deriveSegmentKey key f.index = c.deriveSegmentKey newKey f.index
  · obtain ⟨key, rfl, hkey⟩ := hkey
    have hrecords : records c (some key) ⟨f.index, bytes (f.framesAnew c (some key) newKey nonces)⟩ =
        f.records c (some key) := by
      rw [records, readSegment_bytes (hframes key hkey), good_ok, newFrames_records]
    obtain ⟨b, g, hg, hafter⟩ := reencrypted_first lawful newKey nonces'
      (f := ⟨f.index, bytes (f.framesAnew c (some key) newKey nonces)⟩) ⟨_, rfl, hframes key hkey⟩ (by rwa [Fits, hrecords])
    exact ⟨b, g, hg, hrecords ▸ hafter⟩
  · have hnone := nothing_to_rotate nonces lawful rejects (fun key hk heq => hkey ⟨key, hk, heq⟩) fits
    obtain ⟨b, hb⟩ := reencryptSegment_left
      (f := ⟨f.index, bytes (f.framesAnew c oldKey newKey nonces)⟩) hnone
    exact ⟨b, _, hb, hread⟩

theorem readDir_map {next : SegmentFile → SegmentFile} (read : ∀ f ∈ d, f.Read c oldKey)
    (h : ∀ f ∈ d, readSegment c (some newKey) (next f).index (next f).bytes = (f.records c oldKey).map Except.ok) :
    readDir c (some newKey) (d.map next) = readDir c oldKey d := by
  rw [readDir, flatMap_map]
  exact flatMap_congr fun f hf => (h f hf).trans (read f hf).symm

def SegmentFile.after (c : Crypto) (oldKey : Option WalKey) (newKey : WalKey) (nonces : Nat → Nat → Nonce)
    (g : SegmentFile) : SegmentFile :=
  match reencryptSegment c oldKey newKey (nonces g.index) g with
  | .ok (_, g') => g'
  | .error _ => g

theorem after_of_ok {g : SegmentFile} {rs : List Record}
    (h : ∃ b g', reencryptSegment c oldKey newKey (nonces g.index) g = .ok (b, g') ∧
      readSegment c (some newKey) g'.index g'.bytes = rs.map Except.ok) :
    (∃ b, reencryptSegment c oldKey newKey (nonces g.index) g = .ok (b, g.after c oldKey newKey nonces)) ∧
      readSegment c (some newKey) (g.after c oldKey newKey nonces).index (g.after c oldKey newKey nonces).bytes =
        rs.map Except.ok := by
  obtain ⟨b, g', hg, hread⟩ := h
  simp only [SegmentFile.after, hg]
  exact ⟨⟨b, rfl⟩, hread⟩

end Again

/-- A rotation stops after any number of its file-system steps, with anything in the files beside the segments. Run again,
    it completes, and the log is read with the new key as it was with the old one. -/
theorem rotation_after_crash (c : Crypto) (lawful : c.Lawful) (oldKey : Option WalKey) (newKey : WalKey)
    (rejects : c.RejectsOld oldKey newKey) (d : Dir) (distinct : (d.map index).Nodup)
    (whole : ∀ f ∈ d, Whole c oldKey f.index f.bytes)
    (fits : ∀ r, .ok r ∈ readDir c oldKey d → r.payload.length + 54 ≤ maxRecordPayload)
    (nonces nonces' : Nat → Nat → Nonce) (tmp tmp' : Nat → Option Bytes) (n : Nat) :
    let crashed := (((rotationSteps c oldKey newKey nonces d).take n).foldl RotationDisk.apply ⟨d, tmp⟩).segments
    let done := ((rotationSteps c oldKey newKey nonces' crashed).foldl RotationDisk.apply ⟨crashed, tmp'⟩).segments
    (∃ result, rotateWalKey c crashed oldKey newKey false nonces' = (.ok result, done)) ∧
      readDir c (some newKey) done = readDir c oldKey d := by
  intro crashed done
  have hrecords : ∀ f ∈ d, ∀ r ∈ f.records c oldKey, r.payload.length + 54 ≤ maxRecordPayload := by
    intro f hf r hr
    refine fits r (mem_flatMap.2 ⟨f, hf, ?_⟩)
    rw [(whole f hf).read]
    exact mem_map_of_mem hr
  obtain ⟨d₁, d₂, rfl, hcrashed, -⟩ := segments_of_steps
    (fun f hf => reencryptSegment_read newKey nonces (whole f hf).read)
    (show (RotationDisk.mk d tmp).segments = [] ++ d from rfl) distinct n
  rw [nil_append] at hcrashed
  rw [forall_mem_append] at whole hrecords
  have hleft : ∀ f ∈ d₂, _ := fun f hf =>
    after_of_ok (reencrypted_first lawful newKey nonces' (whole.2 f hf) (hrecords.2 f hf))
  have hmade : ∀ f ∈ d₁, _ := fun f hf => after_of_ok
    (rotated_index ▸ reencrypted_again lawful rejects (whole.1 f hf) (hrecords.1 f hf) nonces nonces')
  have hok : ∀ g ∈ crashed, ∃ b, reencryptSegment c oldKey newKey (nonces' g.index) g =
      .ok (b, g.after c oldKey newKey nonces') := by
    rw [show crashed = _ from hcrashed, forall_mem_append, forall_mem_map]
    exact ⟨fun f hf => (hmade f hf).1, fun f hf => (hleft f hf).1⟩
  have hindices : (crashed.map index).Nodup := by
    have hsame : crashed.map index = (d₁ ++ d₂).map index := by
      rw [show crashed = _ from hcrashed, map_append, map_map, map_append]
      exact congrArg (· ++ _) (map_congr_left fun f _ => rotated_index)
    rwa [hsame]
  obtain ⟨e₁, e₂, hsplit, hdone, hall⟩ := segments_of_steps hok
    (show (RotationDisk.mk crashed tmp').segments = [] ++ crashed from rfl) hindices (rotationSteps c oldKey newKey nonces' crashed).length
  obtain rfl := hall (Nat.le_refl _)
  rw [append_nil] at hsplit
  rw [take_length, nil_append, append_nil, ← hsplit] at hdone
  obtain ⟨counts, hcounts⟩ := rotateSegments_ok hok
  refine ⟨⟨⟨counts.1, counts.2, 0⟩, ?_⟩, ?_⟩
  · rw [show done = _ from hdone, rotateWalKey]
    simp only [Bool.false_eq_true, if_false, hcounts, append_nil, Option.toList]
    rfl
  · rw [show done = _ from hdone, show crashed = _ from hcrashed, map_append, readDir_append, readDir_append, map_map]
    exact congrArg₂ (· ++ ·) (readDir_map (fun f hf => (whole.1 f hf).read) fun f hf => (hmade f hf).2)
      (readDir_map (fun f hf => (whole.2 f hf).read) fun f hf => (hleft f hf).2)

namespace Sample

/-- A plaintext segment, and one under the old key. -/
def mixedLog : Dir :=
  (runSessions keyed [] [⟨40, none, [append 1 .begin]⟩, ⟨40, some oldKey, [append 2 .begin]⟩]).2

theorem keyed_rejectsOld : keyed.RejectsOld (some oldKey) newKey := by
  rintro key ⟨⟩ i nonce aad msg -
  simp [keyed, oldKey, newKey]

theorem mixedLog_whole : ∀ f ∈ mixedLog, Whole keyed (some oldKey) f.index f.bytes := by
  obtain ⟨ss, hdir, hreadable, -⟩ := readable_sessions keyed_lawful
    [⟨40, none, [append 1 .begin]⟩, ⟨40, some oldKey, [append 2 .begin]⟩] (by decide) (by decide)
    (nofun : ∀ g ∈ [], Segment.Readable keyed (some oldKey) g)
  intro f hf
  rw [show mixedLog = _ from hdir] at hf
  obtain ⟨s, hs, rfl⟩ := mem_map.1 hf
  exact ⟨s.frames, rfl, fun g hg => (hreadable s hs g hg).reads⟩

end Sample

/-- The first run stops when it has rewritten the first segment of two. -/
theorem rotation_after_crash_between :
    let steps := rotationSteps keyed (some oldKey) newKey fun _ _ => Vector.replicate 12 0
    let disk : RotationDisk := ⟨mixedLog, fun _ => none⟩
    let crashed := (((steps mixedLog).take 4).foldl RotationDisk.apply disk).segments
    (steps mixedLog).length = 8 ∧ good (readDir keyed (some oldKey) crashed) = [] ∧
      readDir keyed (some newKey) ((steps crashed).foldl RotationDisk.apply ⟨crashed, disk.tmp⟩).segments =
        readDir keyed (some oldKey) mixedLog := by
  intro steps disk crashed
  have hsmall : ∀ item ∈ readDir keyed (some oldKey) mixedLog,
      item.toOption.all fun r => r.payload.length + 54 ≤ maxRecordPayload := by decide +kernel
  exact ⟨by decide +kernel, by decide +kernel, (rotation_after_crash keyed keyed_lawful
    (some oldKey) newKey keyed_rejectsOld mixedLog (by decide +kernel) mixedLog_whole
    (fun r hr => by simpa [Except.toOption] using hsmall _ hr) _ _ disk.tmp disk.tmp 4).2⟩

end VectorLedger.Wal
