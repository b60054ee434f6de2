import VectorLedger.Theorems.AuditLog
import VectorLedger.Theorems.AuditPackage

/-! What a file that passes the check says about a ledger. The proof of an entry is not tied to the entry, and the
    entries of a full package are not counted. -/

namespace VectorLedger.AuditPackage

open List Merkle JournalEntry

/-! ### Entry proofs -/

def pathOf (proof : Json) : List ProofStep :=
  ((proof.get "path").asArray.getD []).filterMap fun step =>
    (decodeHash ((step.get "sibling").strD "")).map fun s => ⟨s, (step.get "sibling_is_left").asBool.getD false⟩

def leafOf (package : Json) : Option Hash := decodeHash (((package.get "merkle_proof").get "leaf_hash").strD "")

theorem foldPath_eq (blake3 : List UInt8 → Hash) (cur : Hash) (proof : Json) :
    foldPath blake3 cur proof = MerkleTree.follow (hashNode blake3) cur (pathOf proof) := by
  have hsteps (steps : List Json) (cur : Hash) : steps.foldl (foldStep blake3) cur =
      MerkleTree.follow (hashNode blake3) cur (steps.filterMap fun step =>
        (decodeHash ((step.get "sibling").strD "")).map fun s =>
          ⟨s, (step.get "sibling_is_left").asBool.getD false⟩) := by
    induction steps generalizing cur with
    | nil => rfl
    | cons step steps ih =>
      rw [foldl_cons, ih, foldStep]
      cases hsibling : decodeHash ((step.get "sibling").strD "") with
      | none => rw [filterMap_cons_none (by rw [hsibling]; rfl)]
      | some =>
        rw [filterMap_cons_some (by rw [hsibling]; rfl)]
        simp only [MerkleTree.follow, foldl_cons, MerkleTree.Step.apply, MerkleTree.Step.pair]
        split <;> rfl
  unfold foldPath pathOf
  cases (proof.get "path").asArray with
  | none => rfl
  | some steps => exact hsteps steps cur

/-- What an entry proof that passes has shown: the entry carries its own hashes, and some leaf has a path to the root. -/
structure Shown (env : Env) (package : Json) (rootHex : String) (e : JournalEntry) (leaf : Hash) : Prop where
  entry : env.entryFromJson (package.get "entry") = .ok e
  hashes : e.verifyHashes env.config.blake3 = true
  starts : leafOf package = some leaf
  root : ((package.get "merkle_proof").get "root").strD "" = rootHex
  path : hashToHex (MerkleTree.follow (hashNode env.config.blake3) leaf (pathOf (package.get "merkle_proof"))) = rootHex

section Shown
variable {env : Env} {package : Json} {rootHex : String}

theorem verifyHashes_of_errors {blake3 : List UInt8 → Hash} {e : JournalEntry} (content : contentErrors blake3 e = [])
    (chain : chainErrors blake3 e = []) : e.verifyHashes blake3 = true := by
  unfold contentErrors at content
  unfold chainErrors at chain
  split at content
  · cases content
  · next hcontent =>
    split at chain
    · cases chain
    · next hchain => exact verifyHashes_iff.2 ⟨(not_not.1 hcontent).symm, (not_not.1 hchain).symm⟩

theorem checkEntryProof_shown {found : Findings} (h : checkEntryProof env package rootHex = some found)
    (none : found.errors = []) : ∃ e leaf, Shown env package rootHex e leaf := by
  unfold checkEntryProof at h
  cases hentry : env.entryFromJson (package.get "entry") with
  | error =>
    simp only [hentry, Option.some.injEq] at h
    subst h
    cases none
  | ok e =>
    simp only [hentry] at h
    cases hleaf : decodeHash (((package.get "merkle_proof").get "leaf_hash").strD "") with
    | none =>
      simp only [hleaf, Option.some.injEq] at h
      subst h
      simp at none
    | some leaf =>
      simp only [hleaf] at h
      cases hroot : proofRootErrors (((package.get "merkle_proof").get "root").strD "") rootHex with
      | none => simp [hroot] at h
      | some =>
        simp only [hroot, Option.some.injEq] at h
        subst h
        simp only [append_eq_nil_iff] at none
        obtain ⟨⟨hcontent, hchain⟩, hpath, rfl⟩ := none
        have hsame : ((package.get "merkle_proof").get "root").strD "" = rootHex := by
          unfold proofRootErrors at hroot
          split at hroot
          · assumption
          · split at hroot <;> cases hroot
        refine ⟨e, leaf, hentry, verifyHashes_of_errors hcontent hchain, hleaf, hsame, ?_⟩
        unfold proofPathErrors at hpath
        split at hpath
        · cases hpath
        · next heq => rw [← foldPath_eq, not_not.1 heq, hsame]

theorem checkEntryProof_of_shown {e : JournalEntry} {leaf : Hash} (h : Shown env package rootHex e leaf) :
    checkEntryProof env package rootHex = some ⟨1, true, true, true, []⟩ := by
  have hleaf : decodeHash (((package.get "merkle_proof").get "leaf_hash").strD "") = some leaf := h.starts
  simp only [checkEntryProof, h.entry, hleaf, contentErrors_eq_nil h.hashes, chainErrors_eq_nil h.hashes, h.root,
    proofRootErrors_self, foldPath_eq, h.path, proofPathErrors]
  simp

theorem passes_entryProof_iff (type : fileType (package.get "meta") = "entry_proof") : Passes env package ↔
    (checkSignature env (package.get "meta")).2 = [] ∧ ∃ e leaf, Shown env package (namedRoot (package.get "meta")) e leaf := by
  rw [passes_iff, check, if_pos type]
  refine and_congr_right fun _ => ⟨?_, ?_⟩
  · rintro ⟨found, hfound, hnone⟩
    exact checkEntryProof_shown hfound hnone
  · rintro ⟨e, leaf, hshown⟩
    exact ⟨_, checkEntryProof_of_shown hshown, rfl⟩

theorem Shown.replace {e e' : JournalEntry} {leaf : Hash} {j : Json} (h : Shown env package rootHex e leaf)
    (reads : env.entryFromJson j = .ok e') (hashes : e'.verifyHashes env.config.blake3 = true)
    (object : ∃ fields, package = .object fields) : Shown env (package.set "entry" j) rootHex e' leaf := by
  obtain ⟨fields, rfl⟩ := object
  have hproof : ((Json.object fields).set "entry" j).get "merkle_proof" = (Json.object fields).get "merkle_proof" :=
    Json.get_set_of_ne (by decide)
  refine ⟨by rw [Json.get_set_self, reads], hashes, ?_, ?_, ?_⟩
  · rw [leafOf, hproof]
    exact h.starts
  · rw [hproof]
    exact h.root
  · rw [hproof]
    exact h.path

end Shown

theorem object_of_type {package : Json} (type : fileType (package.get "meta") = "entry_proof") :
    ∃ fields, package = .object fields := by
  cases package with
  | object fields => exact ⟨fields, rfl⟩
  | _ => exact absurd (show "commitment" = "entry_proof" from type) (by decide)

/-! ### Entries that are in no ledger -/

theorem length_utf8_replicate (n : Nat) : (utf8 (String.ofList (replicate n 'a'))).length = n := by
  have hone : (String.utf8EncodeChar 'a').length = 1 := rfl
  rw [utf8_eq, String.toByteArray_ofList, utf8Encode, toList_data_toByteArray, length_flatMap,
    map_replicate, sum_replicate_nat, hone, Nat.mul_one]

theorem length_description_le (e : JournalEntry) : (utf8 e.description).length ≤ e.canonicalBytes.length := by
  simp only [canonicalBytes, writeBytes, length_append]
  omega

theorem canonicalBytes_finalizeHashes (blake3 : List UInt8 → Hash) (e : JournalEntry) (prev : Hash) :
    (e.finalizeHashes blake3 prev).canonicalBytes = e.canonicalBytes := by
  unfold finalizeHashes finalizeChainHash
  split <;> rfl

theorem exists_other_entry (blake3 : List UInt8 → Hash) (e : JournalEntry) (items : List (List UInt8)) :
    ∃ e' : JournalEntry, e'.verifyHashes blake3 = true ∧ e'.canonicalBytes ∉ items := by
  -- A description that is longer than all the items together.
  let other : JournalEntry := { e with description := String.ofList (replicate (items.flatten.length + 1) 'a') }
  refine ⟨other.finalizeHashes blake3 zeroHash, verifyHashes_finalizeHashes, fun hmem => ?_⟩
  rw [canonicalBytes_finalizeHashes] at hmem
  have hshort := (sublist_flatten_of_mem hmem).length_le
  have hlong := length_description_le other
  rw [length_utf8_replicate] at hlong
  omega

/-- An entry proof against the root of a ledger that passes: if its leaf is that of the entry it shows, the entry is in
    the ledger. The check does not ask for that. Whatever the ledger is, there is an entry that is not in it and that can
    stand in the file in place of the entry shown: the file still passes. -/
theorem proved_entry_in_ledger (env : Env) (ledger : LedgerStore) (package : Json) (e : JournalEntry)
    (type : fileType (package.get "meta") = "entry_proof")
    (root : namedRoot (package.get "meta") =
      hashToHex (merkleRoot env.config.blake3 (ledger.entryDb.entries.map canonicalBytes)))
    (entry : env.entryFromJson (package.get "entry") = .ok e)
    (collisionFree : CollisionFree env.config.blake3 (strings env.config.blake3 (ledger.entryDb.entries.map canonicalBytes) ++
      (0 :: e.canonicalBytes) :: pathStrings env.config.blake3 (hashLeaf env.config.blake3 e.canonicalBytes)
        (pathOf (package.get "merkle_proof"))))
    (passes : Passes env package) :
    (ledger.entryDb.entries ≠ [] → leafOf package = some (hashLeaf env.config.blake3 e.canonicalBytes) →
      e.canonicalBytes ∈ ledger.entryDb.entries.map canonicalBytes) ∧
    ∃ e' : JournalEntry, e'.canonicalBytes ∉ ledger.entryDb.entries.map canonicalBytes ∧
      ∀ j, env.entryFromJson j = .ok e' → Passes env (package.set "entry" j) := by
  obtain ⟨hsig, shown, leaf, hshown⟩ := (passes_entryProof_iff type).1 passes
  obtain rfl : shown = e := Except.ok.inj (hshown.entry.symm.trans entry)
  refine ⟨fun hne hleaf => ?_, ?_⟩
  · obtain rfl : leaf = hashLeaf env.config.blake3 shown.canonicalBytes := Option.some.inj (hshown.starts.symm.trans hleaf)
    exact mem_of_follow (by simpa using hne) collisionFree (Vector.toList_inj.1 (hexEncode_inj (hshown.path.trans root)))
  · obtain ⟨e', hhashes, hout⟩ :=
      exists_other_entry env.config.blake3 shown (ledger.entryDb.entries.map canonicalBytes)
    refine ⟨e', hout, fun j hj => ?_⟩
    have hmeta : (package.set "entry" j).get "meta" = package.get "meta" := Json.get_set_of_ne (by decide)
    rw [passes_entryProof_iff (by rw [hmeta]; exact type), hmeta]
    exact ⟨hsig, e', leaf, hshown.replace hj hhashes (object_of_type type)⟩

namespace Sample

def ledger : LedgerStore := { LedgerStore.initial disk with lastChainHash := third.chainHash }

def leaves : List (List UInt8) := ledger.entryDb.entries.map canonicalBytes

theorem ledger_entries : ledger.entryDb.entries = [first, second, third] := by decide +kernel

def thirdProof : MerkleProof where
  leafIndex := 2
  leafHash := hashLeaf packageConfig.blake3 third.canonicalBytes
  path := MerkleTree.path (hashNode packageConfig.blake3) leaves.length (leaves.map (hashLeaf packageConfig.blake3)) 2
  root := merkleRoot packageConfig.blake3 leaves

def proofOf (id : Nat) : Json :=
  .object [
    ("meta", .object [("package_type", .string "entry_proof"),
      ("committed_root", .string (hashToHex (merkleRoot packageConfig.blake3 leaves)))]),
    ("entry", .ofNat id),
    ("merkle_proof", proofJson thirdProof)]

def unposted : JournalEntry := linked 5 2 first.chainHash

end Sample

open AuditPackage.Sample

theorem proved_entry_in_ledger_sample : Passes env (proofOf 3) ∧ third.canonicalBytes ∈ leaves := by
  have hpasses : Passes env (proofOf 3) := by
    unfold Passes
    decide +kernel
  exact ⟨hpasses, (proved_entry_in_ledger env ledger (proofOf 3) third rfl rfl rfl (.of_nodup (by decide +kernel))
    hpasses).1 (by simp [ledger_entries]) (decodeHash_hashToHex _)⟩

/-- The proof of the third entry passes with an entry in its place that was never posted. -/
theorem proved_entry_not_in_ledger : env.entryFromJson ((proofOf 5).get "entry") = .ok unposted ∧
    fileType ((proofOf 5).get "meta") = "entry_proof" ∧
    namedRoot ((proofOf 5).get "meta") =
      hashToHex (merkleRoot env.config.blake3 (ledger.entryDb.entries.map canonicalBytes)) ∧
    CollisionFree env.config.blake3
      (strings env.config.blake3 (ledger.entryDb.entries.map canonicalBytes) ++ (0 :: unposted.canonicalBytes) ::
          pathStrings env.config.blake3 (hashLeaf env.config.blake3 unposted.canonicalBytes)
            (pathOf ((proofOf 5).get "merkle_proof"))) ∧
    Passes env (proofOf 5) ∧
    unposted.canonicalBytes ∉ ledger.entryDb.entries.map canonicalBytes := by
  refine ⟨rfl, rfl, rfl, .of_nodup (by decide +kernel), ?_, by decide +kernel⟩
  unfold Passes
  decide +kernel

/-! ### Full packages -/

def items (package : Json) : List Json := (package.get "entries").asArray.getD []

def carried (env : Env) (package : Json) : List JournalEntry := (decodeEntries env 0 (items package)).1

/-- The file names the root, the chain tip and the number of entries of a ledger. -/
structure Names (env : Env) (info : Json) (ledger : LedgerStore) : Prop where
  root : decodeHash (namedRoot info) = some (rootOf env.config.blake3 (ledger.entryDb.entries.map canonicalBytes))
  tip : decodeHash ((info.get "chain_tip").strD "") = some ledger.chainTip
  count : (info.get "entry_count").u64D.toNat = ledger.entryDb.count

/-- If a signature of what the file names verifies under a key, the message was signed with it: it is that of a package for
    one of these ledgers, or one of at most 40 bytes. Commits, checkpoints and the roots of query results are signed as
    messages of that size. -/
def Unforged (env : Env) (key : SigningKey) (states : Set (LedgerStore × GenerateOptions)) (info : Json) : Prop :=
  ∀ root tip sig, decodeHash (namedRoot info) = some root → decodeHash ((info.get "chain_tip").strD "") = some tip →
    env.config.verify (env.config.publicKey key) (payload info root tip) sig = .ok () →
    (payload info root tip).length ≤ 40 ∨ ∃ s ∈ states, payload info root tip = signPayload env s.1 s.2

section Full
variable {env : Env} {package info : Json}

theorem checkSignature_valid (h : (checkSignature env info).1 = .valid) :
    ∃ root tip pubkey sig, decodeHash (namedRoot info) = some root ∧
      decodeHash ((info.get "chain_tip").strD "") = some tip ∧
      decodeBytes 32 ((info.get "signing_pubkey").strD "") = some pubkey ∧
      env.config.verify pubkey (payload info root tip) sig = .ok () := by
  unfold checkSignature at h
  simp only at h
  split at h
  · cases h
  · split at h
    · next root tip pubkey sig hroot htip hpubkey hsig =>
      split at h
      · cases h
      · split at h
        · next hverify => exact ⟨root, tip, pubkey, sig, hroot, htip, hpubkey, hverify⟩
        · cases h
    · cases h

theorem length_payload (root tip : Hash) : 40 < (payload info root tip).length := by
  simp only [payload, length_append, Vector.length_toList]
  omega

theorem names_of_payload_eq {root tip : Hash} {ledger : LedgerStore} {opts : GenerateOptions}
    (hroot : decodeHash (namedRoot info) = some root) (htip : decodeHash ((info.get "chain_tip").strD "") = some tip)
    (fits : ledger.entryDb.count < 2 ^ 64) (h : payload info root tip = signPayload env ledger opts) :
    Names env info ledger := by
  simp only [payload, signPayload, append_assoc, collect_leafBytes] at h
  obtain ⟨h₁, h⟩ := append_inj h (by simp)
  obtain ⟨h₂, h⟩ := append_inj h (by simp)
  obtain ⟨h₃, -⟩ := append_inj h (by simp)
  refine ⟨by rw [hroot, Vector.toList_inj.1 h₁], by rw [htip, Vector.toList_inj.1 h₂], ?_⟩
  exact leBytes_inj (by simpa using UInt64.toNat_lt _) (by simpa using fits) h₃

theorem length_decodeEntries (i : Nat) (vs : List Json) (h : (decodeEntries env i vs).2 = []) :
    (decodeEntries env i vs).1.length = vs.length := by
  induction vs generalizing i with
  | nil => rfl
  | cons v vs ih =>
    rw [decodeEntries] at h ⊢
    cases hv : env.entryFromJson v with
    | error => simp [hv] at h
    | ok =>
      simp only [hv] at h ⊢
      rw [length_cons, length_cons, ih (i + 1) h]

/-- What a full package that passes has shown: every item is an entry and, if there is an array of them, the root is that
    of the entries. -/
theorem checkFull_shown {rootHex : String} {n : Nat} (h : (checkFull env package rootHex n).errors = []) :
    (carried env package).length = (items package).length ∧
      (items package ≠ [] → hashToHex (rootOf env.config.blake3 ((carried env package).map canonicalBytes)) = rootHex) := by
  unfold checkFull at h
  unfold carried items
  cases hentries : (package.get "entries").asArray with
  | none => exact ⟨rfl, fun hne => absurd rfl hne⟩
  | some arr =>
    simp only [hentries, append_eq_nil_iff] at h
    obtain ⟨⟨⟨hdecoded, -⟩, hroot⟩, -⟩ := h
    refine ⟨length_decodeEntries 0 arr hdecoded, fun _ => ?_⟩
    unfold rootErrors at hroot
    split at hroot
    · cases hroot
    · next heq => exact not_not.1 heq

end Full

/-- A full package that passes with a valid signature under a key names the root, the tip and the number of entries of a
    ledger that was signed for. It carries the entries of that ledger if and only if it carries as many as it names. -/
theorem signed_entries_iff (env : Env) (key : SigningKey) (states : Set (LedgerStore × GenerateOptions))
    (fits : ∀ s ∈ states, s.1.entryDb.count < 2 ^ 64) (package : Json) (report : VerifyReport)
    (verified : verify env (some package) = .ok report) (passed : report.passed = true) (type : report.packageType = "full")
    (valid : report.sigStatus = .valid)
    (signer : decodeBytes 32 report.signingPubkey = some (env.config.publicKey key))
    (unforged : Unforged env key states (package.get "meta")) :
    (∃ s ∈ states, Names env (package.get "meta") s.1) ∧ ∀ ledger, Names env (package.get "meta") ledger →
        CollisionFree env.config.blake3 (strings env.config.blake3 ((carried env package).map canonicalBytes) ++
          strings env.config.blake3 (ledger.entryDb.entries.map canonicalBytes)) →
        ((carried env package).map canonicalBytes = ledger.entryDb.entries.map canonicalBytes ↔
          (items package).length = ((package.get "meta").get "entry_count").u64D.toNat) := by
  unfold verify at verified
  simp only at verified
  split at verified
  · cases verified
  · next found hfound =>
    cases verified
    simp only [decide_eq_true_eq, append_eq_nil_iff] at passed
    obtain ⟨root, tip, pubkey, sig, hroot, htip, hpubkey, hverify⟩ := checkSignature_valid valid
    obtain rfl : pubkey = env.config.publicKey key := Option.some.inj (hpubkey.symm.trans signer)
    have htype : fileType (package.get "meta") = "full" := type
    rw [check, htype] at hfound
    cases hfound
    obtain ⟨hlen, hshown⟩ := checkFull_shown passed.2
    refine ⟨?_, fun ledger names collisionFree => ⟨fun hsame => ?_, fun hcount => ?_⟩⟩
    · rcases unforged root tip sig hroot htip hverify with hshort | ⟨s, hs, hsame⟩
      · exact absurd hshort (Nat.not_le.2 (length_payload root tip))
      · exact ⟨s, hs, names_of_payload_eq hroot htip (fits s hs) hsame⟩
    · have := congrArg length hsame
      rw [length_map, length_map] at this
      rw [← hlen, this, names.count]
      rfl
    · have hledger : ((carried env package).map canonicalBytes).length = (ledger.entryDb.entries.map canonicalBytes).length := by
        rw [length_map, length_map, hlen, hcount, names.count]
        rfl
      by_cases hnone : items package = []
      · rw [length_map, hlen, hnone] at hledger
        rw [eq_nil_of_length_eq_zero hledger.symm]
        exact eq_nil_of_length_eq_zero (by rw [length_map, hlen, hnone]; rfl)
      · refine eq_of_merkleRoot_eq hledger collisionFree ?_
        have hroots := names.root
        rw [← hshown hnone, decodeHash_hashToHex] at hroots
        rw [← rootOf_eq, ← rootOf_eq]
        exact Option.some.inj hroots

namespace Sample

def packageOf (ids : List Nat) : Json :=
  .object [("meta", metaJson env ledger "now" (options true)), ("entries", .array (ids.map .ofNat))]

theorem meta_packageOf (ids : List Nat) : (packageOf ids).get "meta" = metaJson env ledger "now" (options true) := rfl

theorem names_ledger (ids : List Nat) : Names env ((packageOf ids).get "meta") ledger := by
  have hcount : (UInt64.ofNat ledger.entryDb.count).toNat = ledger.entryDb.count := by rw [EntryDb.count, ledger_entries]; rfl
  refine ⟨?_, decodeHash_hashToHex _, hcount⟩
  rw [meta_packageOf, namedRoot_metaJson, decodeHash_hashToHex]

theorem unforged_ledger (ids : List Nat) :
    Unforged env VectorLedger.Sample.signingKey {(ledger, options true)} ((packageOf ids).get "meta") := by
  intro root tip sig hroot htip _
  have hnames := names_ledger ids
  obtain rfl := Option.some.inj (hnames.root.symm.trans hroot)
  obtain rfl := Option.some.inj (hnames.tip.symm.trans htip)
  exact .inr ⟨_, rfl, payload_metaJson⟩

end Sample

theorem signed_entries_sample : (carried env (packageOf [1, 2, 3])).map canonicalBytes =
      ledger.entryDb.entries.map canonicalBytes := by
  obtain ⟨report, hreport, hpassed, htype, hvalid, hsigner⟩ : ∃ report, verify env (some (packageOf [1, 2, 3])) = .ok report ∧
      report.passed = true ∧ report.packageType = "full" ∧ report.sigStatus = .valid ∧
      decodeBytes 32 report.signingPubkey = some (packageConfig.publicKey VectorLedger.Sample.signingKey) := by decide +kernel
  refine ((signed_entries_iff env VectorLedger.Sample.signingKey {(ledger, options true)} ?_
    (packageOf [1, 2, 3]) report hreport hpassed htype hvalid hsigner (unforged_ledger _)).2 ledger
    (names_ledger _) ?_).2 ?_
  · rintro s rfl
    rw [EntryDb.count, ledger_entries]
    decide
  · exact .of_nodup (by decide +kernel)
  · rw [(names_ledger [1, 2, 3]).count, EntryDb.count, ledger_entries]
    rfl

/-- With its third entry written twice the package of three entries passes, and the signature is valid. -/
theorem signed_entries_repeated :
    (∃ report, verify env (some (packageOf [1, 2, 3, 4])) = .ok report ∧ report.passed = true ∧
      report.packageType = "full" ∧ report.sigStatus = .valid ∧
      decodeBytes 32 report.signingPubkey = some (packageConfig.publicKey VectorLedger.Sample.signingKey)) ∧
    Unforged env VectorLedger.Sample.signingKey {(ledger, options true)}
      ((packageOf [1, 2, 3, 4]).get "meta") ∧
    Names env ((packageOf [1, 2, 3, 4]).get "meta") ledger ∧
    CollisionFree env.config.blake3
      (strings env.config.blake3 ((carried env (packageOf [1, 2, 3, 4])).map canonicalBytes) ++
        strings env.config.blake3 (ledger.entryDb.entries.map canonicalBytes)) ∧
    (carried env (packageOf [1, 2, 3, 4])).map canonicalBytes ≠ ledger.entryDb.entries.map canonicalBytes :=
  ⟨by decide +kernel, unforged_ledger _, names_ledger _, .of_nodup (by decide +kernel), by decide +kernel⟩

end VectorLedger.AuditPackage
