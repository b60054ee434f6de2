import VectorLedger.Wal.Writer

/-! The reader takes back what the writer puts down, wherever it stands, and no part of it is read as a record. -/

namespace VectorLedger.Wal

open List Frames

/-! ### Bytes -/

variable {n : Nat} {bs : Bytes}

theorem takeNat_leBytes {v : Nat} (h : v < 256 ^ n) (rest : Bytes) : takeNat n (leBytes n v ++ rest) = (v, rest) := by
  have hlen := length_leBytes n v
  rw [takeNat, take_left' hlen, drop_left' hlen, leNat_leBytes h]

def RecordHeader.tailBytes (h : RecordHeader) : Bytes := h.toBytes.drop 4

@[simp] theorem RecordHeader.length_toBytes (h : RecordHeader) : h.toBytes.length = serializedSize := by
  simp [RecordHeader.toBytes, serializedSize]

theorem RecordHeader.length_tailBytes (h : RecordHeader) : h.tailBytes.length = serializedSize - 4 := by
  rw [RecordHeader.tailBytes, length_drop, RecordHeader.length_toBytes]

theorem RecordHeader.toBytes_eq (h : RecordHeader) : h.toBytes = leBytes 4 h.magic.toNat ++ h.tailBytes := by
  rw [RecordHeader.tailBytes, RecordHeader.toBytes, drop_left' (length_leBytes 4 _)]

theorem takeNat_u8 (v : UInt8) (rest : Bytes) : takeNat 1 (leBytes 1 v.toNat ++ rest) = (v.toNat, rest) :=
  takeNat_leBytes v.toNat_lt rest

theorem takeNat_u32 (v : UInt32) (rest : Bytes) : takeNat 4 (leBytes 4 v.toNat ++ rest) = (v.toNat, rest) :=
  takeNat_leBytes v.toNat_lt rest

theorem takeNat_u64 (v : UInt64) (rest : Bytes) : takeNat 8 (leBytes 8 v.toNat ++ rest) = (v.toNat, rest) :=
  takeNat_leBytes v.toNat_lt rest

theorem decodeHeader_toBytes (h : RecordHeader) : decodeHeader h.toBytes = h := by
  have hlast := takeNat_u32 h.payloadLen []
  rw [append_nil] at hlast
  simp only [decodeHeader, RecordHeader.toBytes, takeNat_u8, takeNat_u32, takeNat_u64, hlast]
  simp

theorem takeNat_append (h : bs.length = n) (rest : Bytes) : takeNat n (bs ++ rest) = (leNat bs, rest) := by
  rw [takeNat, take_left' h, drop_left' h]

theorem exists_split {m : Nat} (h : bs.length = n + m) : ∃ xs ys, bs = xs ++ ys ∧ xs.length = n ∧ ys.length = m := by
  refine ⟨bs.take n, bs.drop n, (take_append_drop n bs).symm, ?_, ?_⟩
  · rw [length_take]
    omega
  · rw [length_drop]
    omega

theorem leBytes_u8 (h : bs.length = 1) : leBytes 1 (UInt8.ofNat (leNat bs)).toNat = bs := by
  have hlt := leNat_lt bs
  rw [h] at hlt
  rw [UInt8.toNat_ofNat_of_lt' hlt, leBytes_leNat h]

theorem leBytes_u32 (h : bs.length = 4) : leBytes 4 (UInt32.ofNat (leNat bs)).toNat = bs := by
  have hlt := leNat_lt bs
  rw [h] at hlt
  rw [UInt32.toNat_ofNat_of_lt' hlt, leBytes_leNat h]

theorem leBytes_u64 (h : bs.length = 8) : leBytes 8 (UInt64.ofNat (leNat bs)).toNat = bs := by
  have hlt := leNat_lt bs
  rw [h] at hlt
  rw [UInt64.toNat_ofNat_of_lt' hlt, leBytes_leNat h]

theorem toBytes_decodeHeader (h : bs.length = serializedSize) : (decodeHeader bs).toBytes = bs := by
  obtain ⟨magic, bs, rfl, hmagic, h⟩ := exists_split (n := 4) (m := 30) h
  obtain ⟨version, bs, rfl, hversion, h⟩ := exists_split (n := 1) (m := 29) h
  obtain ⟨recordType, bs, rfl, htype, h⟩ := exists_split (n := 1) (m := 28) h
  obtain ⟨txId, bs, rfl, htx, h⟩ := exists_split (n := 8) (m := 20) h
  obtain ⟨sequence, bs, rfl, hsequence, h⟩ := exists_split (n := 8) (m := 12) h
  obtain ⟨time, payloadLen, rfl, htime, hlen⟩ := exists_split (n := 8) (m := 4) h
  have hlast := takeNat_append hlen []
  rw [append_nil] at hlast
  simp only [decodeHeader, takeNat_append hmagic, takeNat_append hversion, takeNat_append htype, takeNat_append htx,
    takeNat_append hsequence, takeNat_append htime, hlast, RecordHeader.toBytes, UInt64.toUInt64_toInt64,
    leBytes_u8 hversion, leBytes_u8 htype, leBytes_u32 hmagic, leBytes_u32 hlen, leBytes_u64 htx, leBytes_u64 hsequence,
    leBytes_u64 htime]

theorem readExact_append {b : Bytes} (h : b.length = n) (rest : Bytes) : readExact n (b ++ rest) = .ok (b, rest) := by
  rw [readExact, if_neg (by rw [length_append]; omega), take_left' h, drop_left' h]

theorem readExact_short (h : bs.length < n) : readExact n bs = .error (.truncatedRecord 0 n 0) := if_pos h

theorem readExact_ok {b rest : Bytes} (h : readExact n bs = .ok (b, rest)) : bs = b ++ rest ∧ b.length = n := by
  unfold readExact at h
  split_ifs at h with hshort
  cases h
  refine ⟨(take_append_drop n bs).symm, ?_⟩
  rw [length_take]
  omega

/-! ### Records -/

/-- The header is as a writer makes it for the payload, and the checksum is right. -/
structure Record.Written (c : Crypto) (r : Record) : Prop where
  magic : r.header.magic = walMagic
  version : r.header.version = walVersion
  payloadLen : r.header.payloadLen = .ofNat r.payload.length
  checksum : r.crc32 = c.crc32 (r.header.toBytes ++ r.payload)

/-- A record with the magic number, the version and the checksum that the reader wants. -/
structure Record.Sound (c : Crypto) (r : Record) : Prop where
  magic : r.header.magic = walMagic
  version : r.header.version = walVersion
  checksum : r.crc32 = c.crc32 (r.header.toBytes ++ r.payload)

section Records
variable {c : Crypto} {r : Record} {masterKey : Option WalKey} {segmentIndex : Nat}

theorem Record.Written.sound (h : r.Written c) : r.Sound c := ⟨h.magic, h.version, h.checksum⟩

theorem WalWriter.recordFor_written (c : Crypto) (w : WalWriter) (a : Append) : (w.recordFor c a).Written c :=
  ⟨rfl, rfl, rfl, rfl⟩

theorem Record.length_toBytes (r : Record) : r.toBytes.length = serializedSize + r.payload.length + 4 := by
  simp [Record.toBytes, Nat.add_assoc]

theorem leNat_crcBytes (v : UInt32) : UInt32.ofNat (leNat (leBytes 4 v.toNat)) = v := by
  rw [leNat_leBytes v.toNat_lt, UInt32.ofNat_toNat]

theorem Record.Written.payloadLen_toNat (h : r.Written c) (small : r.payload.length ≤ maxRecordPayload) :
    r.header.payloadLen.toNat = r.payload.length := by
  rw [h.payloadLen, UInt32.toNat_ofNat']
  unfold maxRecordPayload at small
  omega

theorem Record.Sound.checkRecord (h : r.Sound c) (rest : Bytes) :
    checkRecord c r.header.toBytes r.payload r.crc32 rest = .frame r rest := by
  rw [Wal.checkRecord, ← h.checksum, if_neg (fun hne => hne rfl), decodeHeader_toBytes]

theorem Record.Written.reads_plaintext (h : r.Written c) (small : r.payload.length ≤ maxRecordPayload) :
    Reads (nextRecord c masterKey segmentIndex) r r.toBytes := by
  intro offset rest
  have hmagic : leNat (leBytes 4 r.header.magic.toNat) = walMagic.toNat := by
    rw [leNat_leBytes r.header.magic.toNat_lt, h.magic]
  have hsplit : r.toBytes ++ rest = leBytes 4 r.header.magic.toNat ++
      (r.header.tailBytes ++ (r.payload ++ (leBytes 4 r.crc32.toNat ++ rest))) := by
    rw [Record.toBytes, r.header.toBytes_eq]
    simp only [append_assoc]
  rw [hsplit, nextRecord, readExact_append (length_leBytes 4 _)]
  simp only [hmagic]
  rw [if_neg (by decide), if_neg (by simp), nextPlaintext, readExact_append r.header.length_tailBytes]
  simp only [← r.header.toBytes_eq, decodeHeader_toBytes, h.version, h.payloadLen_toNat small]
  rw [if_neg (by simp), if_neg (Nat.not_lt.2 small), readExact_append rfl]
  simp only [readExact_append (length_leBytes 4 _), leNat_crcBytes]
  exact h.sound.checkRecord rest

theorem Record.Sound.parse (h : r.Sound c) (offset : Nat) (rest : Bytes) :
    parsePlaintextRecord c offset r.toBytes rest = .frame r rest := by
  have hlen := r.length_toBytes
  have hheader : r.toBytes.take serializedSize = r.header.toBytes := take_left' r.header.length_toBytes
  have hbody : r.toBytes.drop serializedSize = r.payload ++ leBytes 4 r.crc32.toNat :=
    drop_left' r.header.length_toBytes
  have hpayload : (r.toBytes.drop serializedSize).take (r.toBytes.length - 4 - serializedSize) = r.payload := by
    rw [hbody, take_left' (by omega)]
  have hcrc : r.toBytes.drop (r.toBytes.length - 4) = leBytes 4 r.crc32.toNat := by
    rw [hlen, Nat.add_sub_cancel, ← drop_drop, hbody, drop_left' rfl]
  rw [parsePlaintextRecord, if_neg (by omega)]
  simp only [hheader, hpayload, hcrc, decodeHeader_toBytes, h.magic, h.version, leNat_crcBytes]
  rw [if_neg (by simp), if_neg (by simp)]
  exact h.checkRecord rest

variable {ct msg t u bs rest rest' plaintext magicBytes : Bytes} {key : WalKey} {offset : Nat} {a : Record}

theorem leNat_length (small : ct.length ≤ maxRecordPayload) : leNat (leBytes 4 ct.length) = ct.length := by
  refine leNat_leBytes ?_
  unfold maxRecordPayload at small
  omega

theorem decryptRecord_blob (lawful : c.Lawful) (segmentIndex : Nat) (key key' : WalKey) (nonce : Nonce)
    (small : msg.length + 16 ≤ maxRecordPayload) :
    decryptRecord c key' (encryptRecord c key nonce msg segmentIndex) segmentIndex =
      match c.decrypt key' nonce.toList (leBytes 8 segmentIndex)
          (c.encrypt key nonce.toList (leBytes 8 segmentIndex) msg) with
      | some plaintext => .ok plaintext
      | none => .error .decryption := by
  have hct := lawful.length_encrypt key nonce.toList (leBytes 8 segmentIndex) msg
  rw [← hct] at small
  rw [encryptRecord]
  generalize c.encrypt key nonce.toList (leBytes 8 segmentIndex) msg = ct at hct small
  generalize hblob : leBytes 4 encryptedMagic.toNat ++ (nonce.toList ++ (leBytes 4 ct.length ++ ct)) = blob
  have hnonce : nonce.toList.length = 12 := nonce.length_toList
  have hmagic : leNat (blob.take 4) = encryptedMagic.toNat := by
    rw [← hblob, take_left' (length_leBytes 4 _), leNat_leBytes (by decide)]
  have hafter : blob.drop 4 = nonce.toList ++ (leBytes 4 ct.length ++ ct) := by
    rw [← hblob, drop_left' (length_leBytes 4 _)]
  have hfield : blob.drop 16 = leBytes 4 ct.length ++ ct := by
    rw [show 16 = 4 + 12 from rfl, ← drop_drop, hafter, drop_left' hnonce]
  have hbody : blob.drop encHeaderSize = ct := by
    rw [show encHeaderSize = 16 + 4 from rfl, ← drop_drop, hfield, drop_left' (length_leBytes 4 _)]
  have hlength : blob.length = encHeaderSize + ct.length := by
    rw [← hblob]
    simp only [length_append, length_leBytes, hnonce, encHeaderSize]
    omega
  simp only [decryptRecord, hmagic, hafter, hfield, hbody, hlength, take_left' (length_leBytes 4 _),
    take_left' hnonce, leNat_length small, take_length]
  rewrite [if_neg (by omega), if_neg (by simp), if_neg (by omega)]
  cases c.decrypt key' nonce.toList (leBytes 8 segmentIndex) ct <;> rfl

theorem nextRecord_encrypted (nonce : Nonce) (ct : Bytes) (offset : Nat) (rest : Bytes) :
    nextRecord c masterKey segmentIndex offset
        (leBytes 4 encryptedMagic.toNat ++ (nonce.toList ++ (leBytes 4 ct.length ++ ct)) ++ rest) =
      nextEncrypted c masterKey segmentIndex offset (leBytes 4 encryptedMagic.toNat)
        ((nonce.toList ++ leBytes 4 ct.length) ++ (ct ++ rest)) := by
  simp only [append_assoc]
  rw [nextRecord, readExact_append (length_leBytes 4 _)]
  exact if_pos (leNat_leBytes (by decide))

theorem length_frameHead (nonce : Nonce) (n : Nat) : (nonce.toList ++ leBytes 4 n).length = 16 := by simp

theorem drop_frameHead (nonce : Nonce) (n : Nat) : (nonce.toList ++ leBytes 4 n).drop 12 = leBytes 4 n :=
  drop_left' nonce.length_toList

theorem nextRecord_blob (lawful : c.Lawful) (readerKey key : WalKey) (nonce : Nonce)
    (small : msg.length + 16 ≤ maxRecordPayload) (offset : Nat) (rest : Bytes) :
    nextRecord c (some readerKey) segmentIndex offset (encryptRecord c key nonce msg segmentIndex ++ rest) =
      match c.decrypt (c.deriveSegmentKey readerKey segmentIndex) nonce.toList (leBytes 8 segmentIndex)
          (c.encrypt key nonce.toList (leBytes 8 segmentIndex) msg) with
      | some plaintext =>
        parsePlaintextRecord c (offset + (encryptRecord c key nonce msg segmentIndex).length) plaintext rest
      | none => .failed .decryption := by
  have hdecrypt := decryptRecord_blob lawful segmentIndex key (c.deriveSegmentKey readerKey segmentIndex) nonce small
  have hct := lawful.length_encrypt key nonce.toList (leBytes 8 segmentIndex) msg
  rw [encryptRecord] at hdecrypt ⊢
  generalize c.encrypt key nonce.toList (leBytes 8 segmentIndex) msg = ct at hct hdecrypt
  have hlen : ct.length ≤ maxRecordPayload := by omega
  rw [nextRecord_encrypted, nextEncrypted, readExact_append (length_frameHead nonce _)]
  simp only [drop_frameHead, leNat_length hlen]
  rw [if_neg (Nat.not_lt.2 hlen), readExact_append rfl]
  simp only [append_assoc, hdecrypt]
  cases c.decrypt (c.deriveSegmentKey readerKey segmentIndex) nonce.toList (leBytes 8 segmentIndex) ct <;> rfl

theorem Record.Sound.reads_encrypted (h : r.Sound c) (lawful : c.Lawful) (nonce : Nonce)
    (small : r.payload.length + 54 ≤ maxRecordPayload) :
    Reads (nextRecord c (some key) segmentIndex) r
      (encryptRecord c (c.deriveSegmentKey key segmentIndex) nonce r.toBytes segmentIndex) := by
  intro offset rest
  have hsmall : r.toBytes.length + 16 ≤ maxRecordPayload := by
    rw [r.length_toBytes]
    unfold serializedSize
    omega
  rw [nextRecord_blob lawful key _ nonce hsmall, lawful.decrypt_encrypt]
  exact h.parse _ rest

/-! ### Torn records -/

theorem append_split {m x : Bytes} (h : t ++ u = m ++ x) (hlen : m.length ≤ t.length) :
    ∃ t', t = m ++ t' ∧ t' ++ u = x := by
  obtain ⟨t', rfl⟩ : m <+: t := prefix_of_prefix_length_le ⟨x, rfl⟩ ⟨u, h⟩ hlen
  rw [append_assoc] at h
  exact ⟨t', rfl, append_cancel_left h⟩

theorem nextRecord_short (h : bs.length < 4) : nextRecord c masterKey segmentIndex offset bs = .ended := by
  rw [nextRecord, readExact_short h]

theorem Record.Written.torn_write (h : r.Written c) (small : r.payload.length ≤ maxRecordPayload)
    (hsplit : t ++ u = r.toBytes) (hu : u ≠ []) (hlong : 4 ≤ t.length) (offset : Nat) :
    ∃ e, nextRecord c masterKey segmentIndex offset t = .failed e ∧ e.isTorn = true := by
  have hmagic : leNat (leBytes 4 r.header.magic.toNat) = walMagic.toNat := by
    rw [leNat_leBytes r.header.magic.toNat_lt, h.magic]
  rw [Record.toBytes, r.header.toBytes_eq, append_assoc] at hsplit
  obtain ⟨t₁, rfl, h₁⟩ := append_split hsplit (by rwa [length_leBytes])
  rw [nextRecord, readExact_append (length_leBytes 4 _)]
  simp only [hmagic]
  rw [if_neg (by decide), if_neg (by simp), nextPlaintext]
  by_cases hheader : t₁.length < serializedSize - 4
  · exact ⟨_, by rw [readExact_short hheader], rfl⟩
  obtain ⟨t₂, rfl, h₂⟩ := append_split h₁ (by rw [r.header.length_tailBytes]; omega)
  rw [readExact_append r.header.length_tailBytes]
  simp only [← r.header.toBytes_eq, decodeHeader_toBytes, h.version, h.payloadLen_toNat small]
  rw [if_neg (by simp), if_neg (Nat.not_lt.2 small)]
  by_cases hpayload : t₂.length < r.payload.length
  · exact ⟨_, by rw [readExact_short hpayload], rfl⟩
  obtain ⟨t₃, rfl, h₃⟩ := append_split h₂ (Nat.not_lt.1 hpayload)
  rw [readExact_append rfl]
  have hcrc : t₃.length < 4 := by
    have hlen := congrArg length h₃
    rw [length_append, length_leBytes] at hlen
    have hpos := length_pos_of_ne_nil hu
    omega
  simp only [readExact_short hcrc]
  exact ⟨_, rfl, rfl⟩

theorem Record.Written.torn_plaintext (h : r.Written c) (small : r.payload.length ≤ maxRecordPayload)
    (hsplit : t ++ u = r.toBytes) (hu : u ≠ []) (hlong : 4 ≤ t.length) (offset : Nat) :
    ∃ e, nextRecord c masterKey segmentIndex offset t = .failed e := by
  obtain ⟨e, hfailed, -⟩ := h.torn_write small hsplit hu hlong offset
  exact ⟨e, hfailed⟩

theorem torn_encrypted (lawful : c.Lawful) {nonce : Nonce}
    (small : msg.length + 16 ≤ maxRecordPayload) (hsplit : t ++ u = encryptRecord c key nonce msg segmentIndex)
    (hu : u ≠ []) (hlong : 4 ≤ t.length) (offset : Nat) :
    ∃ e, nextRecord c masterKey segmentIndex offset t = .failed e := by
  have hct := lawful.length_encrypt key nonce.toList (leBytes 8 segmentIndex) msg
  rw [← hct] at small
  rw [encryptRecord] at hsplit
  generalize c.encrypt key nonce.toList (leBytes 8 segmentIndex) msg = ct at small hsplit
  obtain ⟨t₁, rfl, h₁⟩ := append_split hsplit (by rwa [length_leBytes])
  rw [nextRecord, readExact_append (length_leBytes 4 _)]
  simp only
  rw [if_pos (leNat_leBytes (by decide)), nextEncrypted]
  by_cases hheader : t₁.length < 16
  · exact ⟨_, by rw [readExact_short hheader]⟩
  rw [← append_assoc] at h₁
  obtain ⟨t₂, rfl, h₂⟩ := append_split h₁ (by rw [length_frameHead]; omega)
  rw [readExact_append (length_frameHead nonce _)]
  simp only [drop_frameHead, leNat_length small]
  have hbody : t₂.length < ct.length := by
    have hlen := congrArg length h₂
    rw [length_append] at hlen
    have hpos := length_pos_of_ne_nil hu
    omega
  rw [if_neg (Nat.not_lt.2 small), readExact_short hbody]
  exact ⟨_, rfl⟩

theorem checkRecord_rest {headerBytes payload : Bytes} {crc : UInt32}
    (h : checkRecord c headerBytes payload crc rest = .frame a rest') : rest' = rest := by
  unfold checkRecord at h
  split_ifs at h
  exact (Next.frame.inj h).2.symm

theorem parsePlaintextRecord_rest
    (h : parsePlaintextRecord c offset plaintext rest = .frame a rest') : rest' = rest := by
  unfold parsePlaintextRecord at h
  simp only at h
  split_ifs at h
  exact checkRecord_rest h

/-! ### Records in any file -/

theorem checkRecord_sound {headerBytes payload : Bytes} {crc : UInt32}
    (hlength : headerBytes.length = serializedSize) (magic : (decodeHeader headerBytes).magic = walMagic)
    (version : (decodeHeader headerBytes).version = walVersion)
    (h : checkRecord c headerBytes payload crc rest = .frame r rest') : r.Sound c := by
  unfold checkRecord at h
  split_ifs at h with hcrc
  obtain ⟨rfl, -⟩ := Next.frame.inj h
  refine ⟨magic, version, ?_⟩
  rw [toBytes_decodeHeader hlength]
  exact (Decidable.not_not.1 hcrc).symm

theorem checkRecord_reads {headerBytes payload : Bytes} {crc : UInt32}
    (h : checkRecord c headerBytes payload crc rest = .frame r rest') (rest : Bytes) :
    checkRecord c headerBytes payload crc rest = .frame r rest := by
  unfold checkRecord at h ⊢
  split_ifs at h ⊢
  rw [(Next.frame.inj h).1]

theorem parse_sound (h : parsePlaintextRecord c offset plaintext rest = .frame r rest') : r.Sound c ∧
    ∀ offset rest, parsePlaintextRecord c offset plaintext rest = .frame r rest := by
  unfold parsePlaintextRecord at h
  simp only at h
  split_ifs at h with hlength hmagic hversion
  have hheader : (plaintext.take serializedSize).length = serializedSize := by
    rw [length_take]
    omega
  refine ⟨checkRecord_sound hheader (Decidable.not_not.1 hmagic) (Decidable.not_not.1 hversion) h, fun offset rest => ?_⟩
  rw [parsePlaintextRecord, if_neg hlength]
  simp only
  rw [if_neg hmagic, if_neg hversion, checkRecord_reads h]

/-- The header of an encrypted record fits its text. -/
structure Blob (header ct : Bytes) : Prop where
  headerSize : header.length = 16
  length : ct.length = leNat (header.drop 12)
  small : ct.length ≤ maxRecordPayload

theorem Blob.next {header : Bytes} (h : Blob header ct) (masterKey : Option WalKey) (offset : Nat)
    (magicBytes rest : Bytes) :
    nextEncrypted c masterKey segmentIndex offset magicBytes (header ++ (ct ++ rest)) =
      match masterKey with
      | none => .failed .decryption
      | some key =>
        match decryptRecord c (c.deriveSegmentKey key segmentIndex) (magicBytes ++ (header ++ ct)) segmentIndex with
        | .error e => .failed e
        | .ok plaintext =>
          parsePlaintextRecord c (offset + (magicBytes ++ (header ++ ct)).length) plaintext rest := by
  have hsmall := h.small
  rw [nextEncrypted, readExact_append h.headerSize]
  simp only [← h.length]
  rewrite [if_neg (Nat.not_lt.2 hsmall), readExact_append rfl]
  rfl

/-- What stands in a file where the reader takes a record. -/
structure FrameIn (c : Crypto) (masterKey : Option WalKey) (segmentIndex : Nat) (f : Record × Bytes) : Prop where
  reads : Reads (nextRecord c masterKey segmentIndex) f.1 f.2
  sound : f.1.Sound c

theorem nextEncrypted_cut (h : nextEncrypted c masterKey segmentIndex offset magicBytes bs = .frame r rest) :
    ∃ header ct, bs = header ++ (ct ++ rest) ∧ Blob header ct ∧ r.Sound c ∧
      ∀ offset rest, nextEncrypted c masterKey segmentIndex offset magicBytes (header ++ (ct ++ rest)) = .frame r rest := by
  have hall := h
  unfold nextEncrypted at h
  rcases h₁ : readExact 16 bs with e | ⟨header, bs₁⟩
  · simp [h₁] at h
  simp only [h₁] at h
  split_ifs at h with hlarge
  rcases h₂ : readExact (leNat (header.drop 12)) bs₁ with e | ⟨ct, bs₂⟩
  · simp [h₂] at h
  obtain ⟨rfl, hheader⟩ := readExact_ok h₁
  obtain ⟨rfl, hct⟩ := readExact_ok h₂
  have hblob : Blob header ct := ⟨hheader, hct, by omega⟩
  rw [hblob.next] at hall
  cases masterKey with
  | none => cases hall
  | some key =>
    simp only at hall
    cases hplain : decryptRecord c (c.deriveSegmentKey key segmentIndex) (magicBytes ++ (header ++ ct)) segmentIndex with
    | error => simp [hplain] at hall
    | ok =>
      simp only [hplain] at hall
      obtain rfl := parsePlaintextRecord_rest hall
      obtain ⟨hsound, hreads⟩ := parse_sound hall
      refine ⟨header, ct, rfl, hblob, hsound, fun offset rest => ?_⟩
      rw [hblob.next]
      simp only [hplain, hreads]

theorem nextPlaintext_cut (hlength : magicBytes.length = 4)
    (hmagic : leNat magicBytes = walMagic.toNat) (h : nextPlaintext c offset magicBytes bs = .frame r rest) :
    ∃ b, bs = b ++ rest ∧ r.Sound c ∧ ∀ offset rest, nextPlaintext c offset magicBytes (b ++ rest) = .frame r rest := by
  unfold nextPlaintext at h
  rcases h₁ : readExact (serializedSize - 4) bs with e | ⟨remainingHeader, bs₁⟩
  · simp [h₁] at h
  simp only [h₁] at h
  split_ifs at h with hversion hlarge
  rcases h₂ : readExact (decodeHeader (magicBytes ++ remainingHeader)).payloadLen.toNat bs₁ with e | ⟨payload, bs₂⟩
  · simp [h₂] at h
  simp only [h₂] at h
  rcases h₃ : readExact 4 bs₂ with e | ⟨crcBytes, bs₃⟩
  · simp [h₃] at h
  simp only [h₃] at h
  obtain rfl := checkRecord_rest h
  obtain ⟨rfl, hheader⟩ := readExact_ok h₁
  obtain ⟨rfl, hpayload⟩ := readExact_ok h₂
  obtain ⟨rfl, hcrc⟩ := readExact_ok h₃
  have hfull : (magicBytes ++ remainingHeader).length = serializedSize := by
    rw [length_append, hlength, hheader]
    rfl
  have hmagic' : (decodeHeader (magicBytes ++ remainingHeader)).magic = walMagic := by
    simp only [decodeHeader, takeNat_append hlength, hmagic]
    rfl
  refine ⟨remainingHeader ++ (payload ++ crcBytes), by simp,
    checkRecord_sound hfull hmagic' (Decidable.not_not.1 hversion) h, fun offset rest' => ?_⟩
  rw [append_assoc, append_assoc, nextPlaintext, readExact_append hheader]
  simp only
  rw [if_neg hversion, if_neg hlarge, readExact_append hpayload]
  simp only [readExact_append hcrc]
  exact checkRecord_reads h rest'

theorem nextRecord_cut (h : nextRecord c masterKey segmentIndex offset bs = .frame r rest) :
    ∃ b, bs = b ++ rest ∧ FrameIn c masterKey segmentIndex (r, b) := by
  unfold nextRecord at h
  rcases h₁ : readExact 4 bs with e | ⟨magicBytes, bs₁⟩
  · simp [h₁] at h
  simp only [h₁] at h
  obtain ⟨rfl, hlength⟩ := readExact_ok h₁
  split_ifs at h with henc hwal
  · obtain ⟨header, ct, rfl, -, hsound, hreads⟩ := nextEncrypted_cut h
    refine ⟨magicBytes ++ (header ++ ct), by simp, fun offset rest => ?_, hsound⟩
    rw [append_assoc, append_assoc, nextRecord, readExact_append hlength]
    simp only [if_pos henc, hreads]
  · obtain ⟨b, rfl, hsound, hreads⟩ := nextPlaintext_cut hlength (Decidable.not_not.1 hwal) h
    refine ⟨magicBytes ++ b, by simp, fun offset rest => ?_, hsound⟩
    rw [append_assoc, nextRecord, readExact_append hlength]
    simp only [if_neg henc, if_neg hwal, hreads]

theorem nextRecord_shrinks (c : Crypto) (masterKey : Option WalKey) (segmentIndex : Nat) :
    Shrinks (nextRecord c masterKey segmentIndex) := by
  intro offset bs r rest h
  obtain ⟨b, rfl, hframe⟩ := nextRecord_cut h
  have hb : b ≠ [] := by
    rintro rfl
    cases hframe.reads 0 []
  rw [length_append]
  exact Nat.lt_add_of_pos_left (length_pos_of_ne_nil hb)

end Records

end VectorLedger.Wal
