import VectorLedger.AuditPackage
import VectorLedger.Lib.Except
import VectorLedger.Theorems.Chain
import VectorLedger.Theorems.Merkle
import VectorLedger.Theorems.Reopen
import VectorLedger.Theorems.Texts

/-! Audit packages that were generated, and the proofs of entries against them, pass the check. -/

namespace VectorLedger

open List

theorem leBytes_mod (n v : Nat) : leBytes n (v % 256 ^ n) = leBytes n v := by
  induction n generalizing v with
  | zero => rfl
  | succ n ih =>
    have hhigh : v % 256 ^ (n + 1) / 256 = v / 256 % 256 ^ n := by
      rw [Nat.pow_succ, Nat.mul_comm, Nat.mod_mul_right_div_self]
    have hlow : UInt8.ofNat (v % 256 ^ (n + 1)) = UInt8.ofNat v := by
      apply UInt8.toNat_inj.1
      rw [UInt8.toNat_ofNat']
      exact Nat.mod_mod_of_dvd _ (Dvd.intro_left _ rfl)
    rw [leBytes, leBytes, hhigh, hlow, ih]

namespace Json

variable {j v : Json} {key other : String} {fields : List (String × Json)}

theorem get_set_self (fields : List (String × Json)) (key : String) (v : Json) :
    ((object fields).set key v).get key = v := by
  have hnone : (fields.filter fun f => f.1 ≠ key).lookup key = none := by
    rw [lookup_eq_none_iff]
    intro f hf
    simpa using Ne.symm (of_decide_eq_true (mem_filter.1 hf).2)
  rw [set, get, lookup_append, hnone]
  simp

theorem get_set_of_ne (h : other ≠ key) : (j.set key v).get other = j.get other := by
  cases j with
  | object fields =>
    have hlookup : (fields.filter fun f => f.1 ≠ key).lookup other = fields.lookup other := by
      induction fields with
      | nil => rfl
      | cons f fields ih =>
        by_cases hf : f.1 = key
        · have hother : (other == f.1) = false := by simpa [hf] using h
          rw [filter_cons_of_neg (by simpa using hf), lookup_cons, hother, ih]
        · rw [filter_cons_of_pos (by simpa using hf), lookup_cons, lookup_cons, ih]
    have hlast : [(key, v)].lookup other = none := by simp [h]
    rw [set, get, get, lookup_append, hlookup, hlast, Option.or_none]
  | _ => rfl

end Json

namespace AuditPackage

open Merkle JournalEntry

/-! ### Texts -/

theorem decodeBytes_hexEncode {n : Nat} {bytes : List UInt8} (h : bytes.length = n) :
    decodeBytes n (hexEncode bytes) = some bytes := by
  rw [decodeBytes, FourEyes.hexDecode_hexEncode]
  exact if_pos h

@[simp] theorem decodeHash_hashToHex (h : Hash) : decodeHash (hashToHex h) = some h := by
  rw [decodeHash, hashToHex, decodeBytes_hexEncode h.length_toList]
  refine congrArg some (Vector.ext fun i hi => ?_)
  rw [Vector.getElem_ofFn, getD_eq_getElem _ _ (by simpa using hi), Vector.getElem_toList]

theorem hexEncode_ne_empty {bytes : List UInt8} (h : bytes ≠ []) : hexEncode bytes ≠ "" := by
  intro hempty
  have hlen := length_hexEncode bytes
  rw [hempty] at hlen
  have hpos := length_pos_of_ne_nil h
  have hzero : 2 * bytes.length = 0 := hlen.symm
  omega

/-! ### The proof of an item in a file -/

theorem foldStep_stepJson (blake3 : List UInt8 → Hash) (cur : Hash) (step : ProofStep) :
    foldStep blake3 cur (stepJson step) = step.apply (hashNode blake3) cur := by
  have hsibling : ((stepJson step).get "sibling").strD "" = hashToHex step.sibling := rfl
  have hleft : ((stepJson step).get "sibling_is_left").asBool = some step.siblingIsLeft := rfl
  rw [foldStep, hsibling, hleft, decodeHash_hashToHex]
  simp only [Option.getD_some, MerkleTree.Step.apply, MerkleTree.Step.pair]
  split <;> rfl

theorem foldPath_proofJson (blake3 : List UInt8 → Hash) (cur : Hash) (proof : MerkleProof) :
    foldPath blake3 cur (proofJson proof) = MerkleTree.follow (hashNode blake3) cur proof.path := by
  have hpath : ((proofJson proof).get "path").asArray = some (proof.path.map stepJson) := rfl
  rw [foldPath, hpath]
  simp only [foldl_map, foldStep_stepJson]
  rfl

@[simp] theorem leaf_proofJson (proof : MerkleProof) :
    ((proofJson proof).get "leaf_hash").strD "" = hashToHex proof.leafHash := rfl

@[simp] theorem root_proofJson (proof : MerkleProof) : ((proofJson proof).get "root").strD "" = hashToHex proof.root := rfl

/-! ### What is collected -/

theorem collect_eq (includeEntries : Bool) (es : List JournalEntry) (c : Collected) :
    (es.foldl (Collected.next includeEntries) c).leafBytes = c.leafBytes ++ es.map canonicalBytes ∧
      (includeEntries = true → (es.foldl (Collected.next includeEntries) c).entryVec = c.entryVec ++ es) := by
  induction es generalizing c with
  | nil => simp
  | cons e es ih =>
    rw [foldl_cons, (ih _).1]
    refine ⟨by simp [Collected.next], fun h => ?_⟩
    rw [(ih _).2 h]
    simp [Collected.next, h]

@[simp] theorem collect_leafBytes (includeEntries : Bool) (ledger : LedgerStore) :
    (collect includeEntries ledger).leafBytes = ledger.entryDb.entries.map canonicalBytes :=
  (collect_eq includeEntries _ .start).1

theorem rootOf_eq (blake3 : List UInt8 → Hash) (items : List (List UInt8)) : rootOf blake3 items = merkleRoot blake3 items := by
  cases items with
  | nil | cons => rfl

/-! ### Entries that were verified pass -/

variable {blake3 : List UInt8 → Hash} {es : List JournalEntry}

theorem contentErrors_eq_nil {e : JournalEntry} (h : e.verifyHashes blake3 = true) :
    contentErrors blake3 e = [] := if_neg (not_not.2 (verifyHashes_iff.1 h).1.symm)

theorem chainErrors_eq_nil {e : JournalEntry} (h : e.verifyHashes blake3 = true) :
    chainErrors blake3 e = [] := if_neg (not_not.2 (verifyHashes_iff.1 h).2.symm)

theorem checkEntries_of_linked {prev : Hash}
    (hashes : ∀ e ∈ es, e.verifyHashes blake3 = true) (linked : Linked prev es) :
    checkEntries blake3 prev es = ([], [], []) := by
  induction es generalizing prev with
  | nil => rw [checkEntries]
  | cons e es ih =>
    rw [forall_mem_cons] at hashes
    rw [checkEntries, ih hashes.2 linked.2, contentErrors_eq_nil hashes.1, chainErrors_eq_nil hashes.1, linkErrors,
      if_neg (not_not.2 linked.1)]
    rfl

/-- These entries are read from JSON as they were written. -/
def Env.RoundTrips (env : Env) (es : List JournalEntry) : Prop := ∀ e ∈ es, env.entryFromJson (env.entryToJson e) = .ok e

theorem decodeEntries_map {env : Env} (h : env.RoundTrips es) (i : Nat) :
    decodeEntries env i (es.map env.entryToJson) = (es, []) := by
  induction es generalizing i with
  | nil => rfl
  | cons e es ih =>
    have he : env.entryFromJson (env.entryToJson e) = .ok e := h e mem_cons_self
    rw [map_cons, decodeEntries, ih (fun e' he' => h e' (mem_cons_of_mem _ he')), he]

theorem proofErrors_eq_nil {items : List (List UInt8)} {proofs : List MerkleProof}
    (h : ∀ p ∈ proofs, Proves blake3 items p) (i : Nat) : proofErrors blake3 i (proofs.map proofJson) = [] := by
  induction proofs generalizing i with
  | nil => rfl
  | cons p proofs ih =>
    have hpath := (h p mem_cons_self).path
    rw [map_cons, proofErrors, ih (fun q hq => h q (mem_cons_of_mem _ hq))]
    simp [foldPath_proofJson, hpath]

/-! ### The signature -/

/-- The signing key gives signatures and a public key of the right lengths, and its signatures verify. -/
structure Env.Lawful (env : Env) : Prop where
  verifies : env.config.SignaturesVerify
  signature : ∀ key msg, (env.config.sign key msg).length = 64
  publicKey : ∀ key, (env.config.publicKey key).length = 32
  key : ∀ key, env.keyError (env.config.publicKey key) = none

section Signature
variable {env : Env} {ledger : LedgerStore} {generatedAt : String} {opts : GenerateOptions}

theorem payload_metaJson : payload (metaJson env ledger generatedAt opts)
        (rootOf env.config.blake3 (ledger.entryDb.entries.map canonicalBytes)) ledger.chainTip =
      signPayload env ledger opts := by
  have hcount : leBytes 8 (UInt64.ofNat ledger.entryDb.count).toNat = leBytes 8 ledger.entryDb.count := by
    exact leBytes_mod 8 _
  rw [signPayload, ← hcount, collect_leafBytes]
  rfl

theorem namedRoot_metaJson : namedRoot (metaJson env ledger generatedAt opts) =
    hashToHex (rootOf env.config.blake3 (ledger.entryDb.entries.map canonicalBytes)) := by
  rw [← collect_leafBytes opts.includeEntries]
  rfl

theorem checkSignature_metaJson (lawful : env.Lawful) : checkSignature env (metaJson env ledger generatedAt opts) =
      (if ledger.txManager.signingKey.isSome then .valid else .absent, []) := by
  have htip : ((metaJson env ledger generatedAt opts).get "chain_tip").strD "" = hashToHex ledger.chainTip := rfl
  have hsig : ((metaJson env ledger generatedAt opts).get "root_signature").strD "" =
      (signatureTexts env ledger opts).1 := rfl
  have hkey : ((metaJson env ledger generatedAt opts).get "signing_pubkey").strD "" =
      (signatureTexts env ledger opts).2 := rfl
  rw [checkSignature, namedRoot_metaJson, htip, hsig, hkey, decodeHash_hashToHex, decodeHash_hashToHex, signatureTexts,
    signBytes]
  cases hsigning : ledger.txManager.signingKey with
  | none => simp
  | some key =>
    have hsig' := lawful.signature key (signPayload env ledger opts)
    have hkey' := lawful.publicKey key
    have hne : ¬ (hexEncode (env.config.sign key (signPayload env ledger opts)) = "" ∨
        hexEncode (env.config.publicKey key) = "") := by
      refine not_or_intro (hexEncode_ne_empty fun hnil => ?_) (hexEncode_ne_empty fun hnil => ?_)
      · simp [hnil] at hsig'
      · simp [hnil] at hkey'
    simp only [Option.map_some, if_neg hne, decodeBytes_hexEncode hsig', decodeBytes_hexEncode hkey', lawful.key key,
      payload_metaJson, lawful.verifies key, Option.isSome_some, if_true]

end Signature

/-! ### Packages -/

section Packages
variable {env : Env} {package : Json}

theorem passes_iff : Passes env package ↔
    (checkSignature env (package.get "meta")).2 = [] ∧ ∃ found, check env package = some found ∧ found.errors = [] := by
  unfold Passes verify
  cases hcheck : check env package with
  | none | some => simp [hcheck]

variable {d : Disk} {generatedAt : String} {opts : GenerateOptions} {report : GenerateReport} {ledger : LedgerStore}

/-- The package has the entries of the ledger, and proofs for them. -/
structure Embeds (env : Env) (ledger : LedgerStore) (package : Json) : Prop where
  entries : package.get "entries" = .array (ledger.entryDb.entries.map env.entryToJson)
  proofs : ∃ proofs : List MerkleProof, package.get "merkle_proofs" = .array (proofs.map proofJson) ∧
    ∀ p ∈ proofs, Proves env.config.blake3 (ledger.entryDb.entries.map canonicalBytes) p

theorem generate_ok (h : generate env d generatedAt opts = .ok (report, package, ledger)) :
    LedgerStore.openStore env.config d = .ok ledger ∧ ledger.verifyChainIntegrity env.config = .ok () ∧
      package.get "meta" = metaJson env ledger generatedAt opts ∧
      (opts.includeEntries = true → Embeds env ledger package) := by
  unfold generate at h
  cases hopen : LedgerStore.openStore env.config d with
  | error => simp [hopen] at h
  | ok s =>
    simp only [hopen] at h
    cases hchain : s.verifyChainIntegrity env.config with
    | error => simp [hchain] at h
    | ok =>
      simp only [hchain] at h
      by_cases hfull : opts.includeEntries = true
      · simp only [hfull, if_true] at h
        cases hproofs : (range s.entryDb.count).mapM
            (merkleProof env.config.blake3 (collect true s).leafBytes) with
        | none => simp only [hproofs, reduceCtorEq] at h
        | some proofs =>
          simp only [hproofs] at h
          obtain ⟨-, rfl, rfl⟩ := h
          refine ⟨rfl, hchain, ?_, fun _ => ⟨?_, proofs, ?_, ?_⟩⟩
          · rw [Json.get_set_of_ne (by decide)]
            rfl
          · rw [Json.get_set_of_ne (by decide), Json.get_set_of_ne (by decide), Json.get_set_self, collect,
              (collect_eq true _ _).2 rfl]
            rfl
          · rw [Json.get_set_of_ne (by decide)]
            exact Json.get_set_self _ _ _
          · rw [collect_leafBytes] at hproofs
            exact mapM_merkleProof_proves hproofs
      · simp only [hfull] at h
        obtain ⟨-, rfl, rfl⟩ := h
        exact ⟨rfl, hchain, rfl, fun htrue => absurd htrue hfull⟩

theorem fileType_metaJson : fileType (metaJson env ledger generatedAt opts) = packageType opts := rfl

theorem asStr_root_metaJson : ((metaJson env ledger generatedAt opts).get "merkle_root").asStr =
    some (hashToHex (merkleRoot env.config.blake3 (ledger.entryDb.entries.map canonicalBytes))) := by
  rw [← rootOf_eq, ← collect_leafBytes opts.includeEntries]
  rfl

theorem passes_of_generate (lawful : env.Lawful) (roundTrips : env.RoundTrips ledger.entryDb.entries)
    (h : generate env d generatedAt opts = .ok (report, package, ledger)) : Passes env package := by
  obtain ⟨-, hchain, hmeta, hembeds⟩ := generate_ok h
  rw [passes_iff, hmeta]
  refine ⟨by rw [checkSignature_metaJson lawful], ?_⟩
  rw [check, hmeta, fileType_metaJson, packageType]
  by_cases hfull : opts.includeEntries = true
  · obtain ⟨hentries, proofs, hproofs, hproves⟩ := hembeds hfull
    rw [if_pos hfull]
    refine ⟨_, rfl, ?_⟩
    rw [checkFull, hentries, hproofs, namedRoot_metaJson]
    simp only [Json.asArray, Option.getD_some, decodeEntries_map roundTrips,
      checkEntries_of_linked (verifyChain_iff.1 hchain).1 (verifyChain_iff.1 hchain).2, proofErrors_eq_nil hproves, rootErrors]
    simp
  · rw [if_neg hfull]
    exact ⟨_, rfl, rfl⟩

end Packages

/-! ### Proofs of entries -/

section Proofs
variable {env : Env} {d : Disk} {ledger : LedgerStore} {e : JournalEntry}

theorem entryIndex_foldl {sequence : Nat} (found : Option Nat) (k : Nat) {i : Nat}
    (hi : es[i]? = some e) (hseq : e.sequence = sequence) (sorted : es.Pairwise fun a b => a.sequence < b.sequence) :
    (es.foldl (fun (idx : Option Nat × Nat) e => (if e.sequence = sequence then some idx.2 else idx.1, idx.2 + 1))
      (found, k)).1 = some (k + i) := by
  induction es generalizing found k i with
  | nil => simp at hi
  | cons e' es ih =>
    rw [pairwise_cons] at sorted
    rw [foldl_cons]
    cases i with
    | zero =>
      obtain rfl : e' = e := by simpa using hi
      have hlater : ∀ x ∈ es, x.sequence ≠ sequence := fun x hx heq => by
        have := sorted.1 x hx
        omega
      have hkeep (es : List JournalEntry) (h : ∀ x ∈ es, x.sequence ≠ sequence) (found : Option Nat) (k : Nat) :
          (es.foldl (fun (idx : Option Nat × Nat) e => (if e.sequence = sequence then some idx.2 else idx.1, idx.2 + 1))
            (found, k)).1 = found := by
        induction es generalizing k with
        | nil => rfl
        | cons x es ih =>
          rw [foldl_cons, if_neg (h x mem_cons_self)]
          exact ih (fun y hy => h y (mem_cons_of_mem _ hy)) _
      rw [hkeep es hlater, if_pos hseq, Nat.add_zero]
    | succ =>
      rw [ih _ _ (by simpa using hi) sorted.2]
      congr 1
      omega

theorem entryIndex_eq (db : EntryDb) {i : Nat} (hi : db.entries[i]? = some e) :
    entryIndex e.sequence db.entries = some i := by
  rw [entryIndex, entryIndex_foldl none 0 hi rfl db.sorted, Nat.zero_add]

theorem proofRootErrors_self (text : String) : proofRootErrors text text = some [] := if_pos rfl

theorem checkEntryProof_eq {package : Json} {proof : MerkleProof} {items : List (List UInt8)}
    (hashes : e.verifyHashes env.config.blake3 = true) (entry : env.entryFromJson (package.get "entry") = .ok e)
    (merkle : package.get "merkle_proof" = proofJson proof) (proves : Proves env.config.blake3 items proof) :
    checkEntryProof env package (hashToHex (merkleRoot env.config.blake3 items)) = some ⟨1, true, true, true, []⟩ := by
  simp only [checkEntryProof, entry, merkle, contentErrors_eq_nil hashes, chainErrors_eq_nil hashes, leaf_proofJson,
    root_proofJson, decodeHash_hashToHex, ← proves.root, proofRootErrors_self, foldPath_proofJson, proves.path, proofPathErrors]
  simp

theorem passes_of_proveEntry {commitment : Json} {file provedAt : String} {report : ProveReport} {proof : Json}
    (proved : proveEntry env d file (some commitment) e.sequence provedAt = .ok (report, proof, ledger))
    (hashes : e.verifyHashes env.config.blake3 = true) (roundTrip : env.entryFromJson (env.entryToJson e) = .ok e)
    (he : LedgerStore.openStore env.config d = .ok ledger → e ∈ ledger.entryDb.entries) : Passes env proof := by
  unfold proveEntry at proved
  simp only at proved
  split at proved
  · cases proved
  · next committedRoot hroot =>
    split at proved
    · cases proved
    · next ledger' hopen =>
      split at proved
      · cases proved
      · next entry hentry =>
        split at proved
        · cases proved
        · next idx hidx =>
          split at proved
          · split at proved <;> cases proved
          · next hsame =>
            split at proved
            · cases proved
            · next merkle hmerkle =>
              obtain ⟨-, rfl, rfl⟩ := by simpa only [Except.ok.injEq] using proved
              obtain rfl : e = entry := Option.some.inj ((EntryDb.getBySequence_eq (he hopen)).symm.trans hentry)
              refine passes_iff.2 ⟨rfl, ⟨1, true, true, true, []⟩, ?_, rfl⟩
              rw [not_not] at hsame
              exact hsame ▸ checkEntryProof_eq hashes roundTrip rfl (merkleProof_proves hmerkle)

theorem proveEntry_writes {commitment : Json} (file provedAt : String)
    (opened : LedgerStore.openStore env.config d = .ok ledger)
    (root : ((commitment.get "meta").get "merkle_root").asStr =
      some (hashToHex (merkleRoot env.config.blake3 (ledger.entryDb.entries.map canonicalBytes))))
    (he : e ∈ ledger.entryDb.entries) :
    ∃ report proof, proveEntry env d file (some commitment) e.sequence provedAt = .ok (report, proof, ledger) := by
  obtain ⟨i, hi⟩ := mem_iff_getElem?.1 he
  have hlt : i < (ledger.entryDb.entries.map canonicalBytes).length := by
    rw [length_map]
    exact (List.getElem?_eq_some_iff.1 hi).1
  obtain ⟨proof, hproof⟩ := merkleProof_some env.config.blake3 hlt
  simp only [proveEntry, root, opened, EntryDb.getBySequence_eq he, entryIndex_eq _ hi, hproof, ne_eq]
  exact ⟨_, _, rfl⟩

end Proofs

/-! ### The two commands -/

/-- A package that was generated passes the check. Every file that prove_entry writes against it for an entry of the
    ledger passes too, and one is written if the data directory opens again with the same entries. -/
theorem generated_package_passes (env : Env) (lawful : env.Lawful) (d : Disk) (generatedAt : String)
    (opts : GenerateOptions) (report : GenerateReport) (package : Json) (ledger : LedgerStore)
    (generated : generate env d generatedAt opts = .ok (report, package, ledger))
    (roundTrips : env.RoundTrips ledger.entryDb.entries) :
    Passes env package ∧ ∀ e ∈ ledger.entryDb.entries, ∀ file provedAt,
      (∀ report' proof ledger', proveEntry env ledger.disk file (some package) e.sequence provedAt =
        .ok (report', proof, ledger') → Passes env proof) ∧
      (∀ ledger', LedgerStore.openStore env.config ledger.disk = .ok ledger' →
        ledger'.entryDb.entries = ledger.entryDb.entries →
        ∃ report' proof, proveEntry env ledger.disk file (some package) e.sequence provedAt =
          .ok (report', proof, ledger')) := by
  obtain ⟨-, hchain, hmeta, -⟩ := generate_ok generated
  refine ⟨passes_of_generate lawful roundTrips generated, fun e he file provedAt => ⟨?_, ?_⟩⟩
  · intro report' proof ledger' proved
    refine passes_of_proveEntry proved ((verifyChain_iff.1 hchain).1 e he) (roundTrips e he) fun reopened => ?_
    rw [LedgerStore.openWith_ok reopened]
    exact LedgerStore.mem_opened he
  · intro ledger' reopened same
    refine proveEntry_writes file provedAt reopened ?_ (same ▸ he)
    rw [hmeta, same]
    exact asStr_root_metaJson

instance (env : Env) (package : Json) : Decidable (Passes env package) :=
  decidable_of_iff ((verify env (some package)).toOption.any (·.passed) = true) (by
    unfold Passes
    cases verify env (some package) <;> simp [Except.toOption])

/-! ### Values for concrete files -/

namespace Sample

open VectorLedger.Sample

/-- A configuration with a hash that tells concrete strings apart. A signature holds the hash of the message and the
    public key. -/
def packageConfig : Config :=
  { hashing with
    sign := fun key msg => (Sample.hash msg).toList ++ (Sample.hash key).toList
    publicKey := fun key => (Sample.hash key).toList
    verify := fun publicKey msg signature =>
      if signature = (Sample.hash msg).toList ++ publicKey then .ok () else .error "signature mismatch" }

def linked (id : Uuid) (sequence : Nat) (prev : Hash) : JournalEntry :=
  { entry id none [] with sequence := sequence }.finalizeHashes Sample.hash prev

def first : JournalEntry := linked 1 1 zeroHash

def second : JournalEntry := linked 2 2 first.chainHash

def third : JournalEntry := linked 3 3 second.chainHash

def env : Env where
  config := packageConfig
  keyError _ := none
  entryToJson e := .ofNat e.id.toNat
  entryFromJson j :=
    match j.u64D.toNat with
    | 1 => .ok first
    | 2 => .ok second
    | 3 => .ok third
    -- The third entry once more, linked to itself.
    | 4 => .ok (third.finalizeChainHash Sample.hash third.chainHash)
    -- An entry that is in no ledger.
    | 5 => .ok (linked 5 2 first.chainHash)
    | _ => .error "unknown entry"

theorem env_lawful : env.Lawful where
  verifies _ _ := by simp only [env, packageConfig, if_true]
  signature _ _ := by simp [env, packageConfig]
  publicKey _ := by simp [env, packageConfig]
  key _ := rfl

/-- A data directory in which the first three entries are indexed, and whose log was pruned. -/
def disk : Disk where
  wal := .empty
  entryDb := ((EntryDb.empty.insert first).insert second).insert third
  walCheckpoint := none
  signingKey := some signingKey

def options (includeEntries : Bool) : GenerateOptions := ⟨includeEntries, some "tenant", none, some "2026-07-01", none⟩

end Sample

open AuditPackage.Sample

theorem generated_package_passes_sample :
    ∃ report package ledger, generate env disk "now" (options true) = .ok (report, package, ledger) ∧
      ledger.entryDb.count = 3 ∧ Passes env package ∧
      ∃ report' proof ledger', proveEntry env ledger.disk "package.json" (some package) second.sequence "later" =
        .ok (report', proof, ledger') ∧ Passes env proof := by
  obtain ⟨⟨report, package, ledger⟩, hgen, hentries, ledger', hopen, hentries'⟩ : ∃ r,
      generate env disk "now" (options true) = .ok r ∧ r.2.2.entryDb.entries = [first, second, third] ∧
      ∃ ledger', LedgerStore.openStore env.config r.2.2.disk = .ok ledger' ∧
        ledger'.entryDb.entries = [first, second, third] := by decide +kernel
  dsimp only at hentries hopen
  have htrips : env.RoundTrips ledger.entryDb.entries := by
    rw [hentries]
    unfold Env.RoundTrips
    decide +kernel
  obtain ⟨hpasses, hproofs⟩ :=
    generated_package_passes env env_lawful disk "now" _ report package ledger hgen htrips
  obtain ⟨hall, hwrites⟩ := hproofs second (by simp [hentries]) "package.json" "later"
  obtain ⟨report', proof, hproof⟩ := hwrites ledger' hopen (hentries'.trans hentries.symm)
  exact ⟨report, package, ledger, hgen, by simp [EntryDb.count, hentries], hpasses, report', proof, ledger', hproof,
    hall report' proof ledger' hproof⟩

end AuditPackage

end VectorLedger
