import VectorLedger.FourEyes.Queue
import VectorLedger.Merkle
import VectorLedger.Replay

/-! Audit packages: a commitment to the ledger, with its entries or without, the proof of one entry against a commitment,
    and the check of such files. A file is the JSON value that it holds. -/

namespace VectorLedger

/-! ### JSON values -/

inductive Json where
  | null
  | bool (b : Bool)
  | number (value : Option UInt64)
  | string (s : String)
  | array (items : List Json)
  | object (fields : List (String × Json))

namespace Json

def get (j : Json) (key : String) : Json :=
  match j with
  | .object fields => (fields.lookup key).getD .null
  | _ => .null

def set (j : Json) (key : String) (value : Json) : Json :=
  match j with
  | .object fields => .object (fields.filter (fun f => f.1 ≠ key) ++ [(key, value)])
  | j => j

def asStr : Json → Option String
  | .string s => some s
  | _ => none

def asU64 : Json → Option UInt64
  | .number value => value
  | _ => none

def asBool : Json → Option Bool
  | .bool b => some b
  | _ => none

def asArray : Json → Option (List Json)
  | .array items => some items
  | _ => none

def strD (j : Json) (default : String) : String := j.asStr.getD default

def u64D (j : Json) : UInt64 := j.asU64.getD 0

def ofU64 (n : UInt64) : Json := .number (some n)

def ofNat (n : Nat) : Json := .ofU64 (.ofNat n)

end Json

namespace AuditPackage

open Merkle JournalEntry

structure Env where
  config : Config
  /-- What `DbVerifyingKey::from_bytes` says of bytes that are no key. -/
  keyError : List UInt8 → Option String
  entryToJson : JournalEntry → Json
  entryFromJson : Json → Except String JournalEntry

/-- An error that ends the command: its text, and the error of the ledger behind it. -/
structure Failure where
  context : String
  cause : Option LedgerError

def hashToHex (h : Hash) : String := hexEncode h.toList

def decodeBytes (n : Nat) (text : String) : Option (List UInt8) :=
  match FourEyes.hexDecode text with
  | .ok bytes => if bytes.length = n then some bytes else none
  | .error _ => none

def decodeHash (text : String) : Option Hash :=
  (decodeBytes 32 text).map fun bytes => Vector.ofFn fun i => bytes.getD i 0

/-- The first bytes of a text. There are none if the text is shorter or its characters do not end there: the slice
    panics. -/
def sliceTo : Nat → List Char → Option (List Char)
  | 0, _ => some []
  | _ + 1, [] => none
  | n + 1, c :: cs => if c.utf8Size ≤ n + 1 then (sliceTo (n + 1 - c.utf8Size) cs).map (c :: ·) else none

def formatVersion : UInt64 := 2

def vledgerVersion : String := "1.6.0"

structure GenerateOptions where
  includeEntries : Bool
  tenant : Option String
  description : Option String
  periodStart : Option String
  periodEnd : Option String

structure GenerateReport where
  entryCount : Nat
  rootHex : String
  chainTipHex : String
  signed : Bool
  packageType : String

/-! ### generate -/

structure Collected where
  firstSequence : UInt64
  lastSequence : UInt64
  leafBytes : List (List UInt8)
  entryVec : List JournalEntry

def Collected.start : Collected := ⟨0, 0, [], []⟩

def Collected.next (includeEntries : Bool) (c : Collected) (e : JournalEntry) : Collected where
  firstSequence := if c.firstSequence = 0 then .ofNat e.sequence else c.firstSequence
  lastSequence := .ofNat e.sequence
  leafBytes := c.leafBytes ++ [e.canonicalBytes]
  entryVec := if includeEntries then c.entryVec ++ [e] else c.entryVec

def collect (includeEntries : Bool) (ledger : LedgerStore) : Collected :=
  ledger.entryDb.entries.foldl (Collected.next includeEntries) .start

def rootOf (blake3 : List UInt8 → Hash) (leafBytes : List (List UInt8)) : Hash :=
  if leafBytes = [] then zeroHash else merkleRoot blake3 leafBytes

def packageType (opts : GenerateOptions) : String := if opts.includeEntries then "full" else "commitment"

def signPayload (env : Env) (ledger : LedgerStore) (opts : GenerateOptions) : List UInt8 :=
  let c := collect opts.includeEntries ledger
  let tenantBytes := utf8 (opts.tenant.getD "")
  let descBytes := utf8 (opts.description.getD "")
  let psBytes := utf8 (opts.periodStart.getD "")
  let peBytes := utf8 (opts.periodEnd.getD "")
  (rootOf env.config.blake3 c.leafBytes).toList ++ ledger.chainTip.toList ++ leBytes 8 ledger.entryDb.count ++
    (leBytes 4 tenantBytes.length ++ tenantBytes) ++ (leBytes 4 descBytes.length ++ descBytes) ++
    (leBytes 4 psBytes.length ++ psBytes) ++ (leBytes 4 peBytes.length ++ peBytes) ++
    leBytes 8 c.firstSequence.toNat ++ leBytes 8 c.lastSequence.toNat

def signBytes (cfg : Config) (ledger : LedgerStore) (message : List UInt8) : Option (List UInt8 × List UInt8) :=
  ledger.txManager.signingKey.map fun key => (cfg.sign key message, cfg.publicKey key)

def signatureTexts (env : Env) (ledger : LedgerStore) (opts : GenerateOptions) : String × String :=
  match signBytes env.config ledger (signPayload env ledger opts) with
  | some (sig, pubkey) => (hexEncode sig, hexEncode pubkey)
  | none => ("", "")

def metaJson (env : Env) (ledger : LedgerStore) (generatedAt : String) (opts : GenerateOptions) : Json :=
  let c := collect opts.includeEntries ledger
  let signature := signatureTexts env ledger opts
  .object [
    ("format_version", .ofU64 formatVersion),
    ("package_type", .string (packageType opts)),
    ("generated_at", .string generatedAt),
    ("vledger_version", .string vledgerVersion),
    ("entry_count", .ofNat ledger.entryDb.count),
    ("first_sequence", .ofU64 c.firstSequence),
    ("last_sequence", .ofU64 c.lastSequence),
    ("chain_tip", .string (hashToHex ledger.chainTip)),
    ("merkle_root", .string (hashToHex (rootOf env.config.blake3 c.leafBytes))),
    ("root_signature", .string signature.1),
    ("signing_pubkey", .string signature.2),
    ("algorithm", .string "BLAKE3 + Ed25519"),
    ("tenant", .string (opts.tenant.getD "")),
    ("description", .string (opts.description.getD "")),
    ("period_start", .string (opts.periodStart.getD "")),
    ("period_end", .string (opts.periodEnd.getD ""))]

def stepJson (step : ProofStep) : Json :=
  .object [("sibling", .string (hashToHex step.sibling)), ("sibling_is_left", .bool step.siblingIsLeft)]

def proofJson (proof : MerkleProof) : Json :=
  .object [
    ("leaf_index", .ofNat proof.leafIndex),
    ("leaf_hash", .string (hashToHex proof.leafHash)),
    ("path", .array (proof.path.map stepJson)),
    ("root", .string (hashToHex proof.root))]

def chainProofJson (e : JournalEntry) : Json :=
  .object [
    ("sequence", .ofNat e.sequence),
    ("prev_hash", .string (hashToHex e.prevHash)),
    ("content_hash", .string (hashToHex e.contentHash)),
    ("chain_hash", .string (hashToHex e.chainHash))]

def generate (env : Env) (d : Disk) (generatedAt : String) (opts : GenerateOptions) :
    Except Failure (GenerateReport × Json × LedgerStore) :=
  match LedgerStore.openStore env.config d with
  | .error e => .error ⟨"Failed to open ledger", some e⟩
  | .ok ledger =>
    match ledger.verifyChainIntegrity env.config with
    | .error e =>
      .error ⟨"Cannot generate audit package: ledger hash chain is broken. Run `vledger verify` to diagnose.", some e⟩
    | .ok () =>
      let c := collect opts.includeEntries ledger
      let report : GenerateReport :=
        { entryCount := ledger.entryDb.count
          rootHex := hashToHex (rootOf env.config.blake3 c.leafBytes)
          chainTipHex := hashToHex ledger.chainTip
          signed := (signatureTexts env ledger opts).1 ≠ ""
          packageType := packageType opts }
      let package := Json.object [("meta", metaJson env ledger generatedAt opts)]
      if opts.includeEntries then
        match (List.range ledger.entryDb.count).mapM (merkleProof env.config.blake3 c.leafBytes) with
        | none => .error ⟨"merkle_proof cannot be None when i < len", none⟩
        | some proofs =>
          .ok (report,
            ((package.set "entries" (.array (c.entryVec.map env.entryToJson))).set
              "merkle_proofs" (.array (proofs.map proofJson))).set
              "chain_proof" (.array (c.entryVec.map chainProofJson)),
            ledger)
      else .ok (report, package, ledger)

/-! ### prove_entry -/

structure ProveReport where
  sequence : Nat
  entryId : String
  rootHex : String

/-- Where the entry with a sequence stands: the pass keeps the last place that it has seen. -/
def entryIndex (sequence : Nat) (es : List JournalEntry) : Option Nat :=
  (es.foldl (fun (idx : Option Nat × Nat) e => (if e.sequence = sequence then some idx.2 else idx.1, idx.2 + 1))
    (none, 0)).1

def proveEntry (env : Env) (d : Disk) (commitmentFile : String) (commitment : Option Json) (sequence : Nat)
    (generatedAt : String) : Except Failure (ProveReport × Json × LedgerStore) :=
  match commitment with
  | none => .error ⟨"Invalid JSON in commitment file", none⟩
  | some commitment =>
    match ((commitment.get "meta").get "merkle_root").asStr with
    | none => .error ⟨"Commitment file missing merkle_root", none⟩
    | some committedRoot =>
      match LedgerStore.openStore env.config d with
      | .error e => .error ⟨"Failed to open ledger", some e⟩
      | .ok ledger =>
        match ledger.entryDb.getBySequence sequence with
        | none => .error ⟨"Entry with sequence=" ++ toString sequence ++ " not found", none⟩
        | some entry =>
          let leafBytes := ledger.entryDb.entries.map canonicalBytes
          match entryIndex sequence ledger.entryDb.entries with
          | none => .error ⟨"Entry with sequence=" ++ toString sequence ++ " not found in SQLite index", none⟩
          | some idx =>
            let rootHex := hashToHex (merkleRoot env.config.blake3 leafBytes)
            if rootHex ≠ committedRoot then
              match sliceTo 16 rootHex.toList, sliceTo 16 committedRoot.toList with
              | some root, some committed =>
                .error ⟨"Ledger Merkle root (" ++ String.ofList root ++ ") does not match committed root (" ++
                  String.ofList committed ++ "). The ledger may have changed since the commitment was generated.", none⟩
              | _, _ => .error ⟨"byte index 16 is out of bounds or no char boundary", none⟩
            else
              match merkleProof env.config.blake3 leafBytes idx with
              | none => .error ⟨"Failed to generate Merkle proof for index " ++ toString idx, none⟩
              | some proof =>
                .ok (⟨sequence, Uuid.toText entry.id, rootHex⟩,
                  .object [
                    ("meta", .object [
                      ("format_version", .ofU64 formatVersion),
                      ("package_type", .string "entry_proof"),
                      ("generated_at", .string generatedAt),
                      ("vledger_version", .string vledgerVersion),
                      ("committed_root", .string committedRoot),
                      ("commitment_file", .string commitmentFile)]),
                    ("entry", env.entryToJson entry),
                    ("chain_proof", chainProofJson entry),
                    ("merkle_proof", proofJson proof)],
                  ledger)

/-! ### verify -/

inductive SigStatus where
  | absent
  | valid
  | invalid
  deriving DecidableEq, Repr

structure VerifyReport where
  entryCount : Nat
  rootHex : String
  chainTipHex : String
  packageType : String
  contentOk : Bool
  chainOk : Bool
  merkleOk : Bool
  sigStatus : SigStatus
  errors : List String
  generatedAt : String
  vledgerVersion : String
  formatVersion : UInt64
  passed : Bool
  tenant : String
  description : String
  periodStart : String
  periodEnd : String
  firstSequence : UInt64
  lastSequence : UInt64
  signingPubkey : String

/-- The root that a file names: that of a package, or that of the commitment an entry is proved against. -/
def namedRoot (info : Json) : String := ((info.get "merkle_root").asStr <|> (info.get "committed_root").asStr).getD ""

def payload (info : Json) (root tip : Hash) : List UInt8 :=
  let tenant := utf8 ((info.get "tenant").strD "")
  let description := utf8 ((info.get "description").strD "")
  let periodStart := utf8 ((info.get "period_start").strD "")
  let periodEnd := utf8 ((info.get "period_end").strD "")
  root.toList ++ tip.toList ++ leBytes 8 (info.get "entry_count").u64D.toNat ++
    (leBytes 4 tenant.length ++ tenant) ++ (leBytes 4 description.length ++ description) ++
    (leBytes 4 periodStart.length ++ periodStart) ++ (leBytes 4 periodEnd.length ++ periodEnd) ++
    leBytes 8 (info.get "first_sequence").u64D.toNat ++ leBytes 8 (info.get "last_sequence").u64D.toNat

def checkSignature (env : Env) (info : Json) : SigStatus × List String :=
  let sigHex := (info.get "root_signature").strD ""
  let pubkeyHex := (info.get "signing_pubkey").strD ""
  if sigHex = "" ∨ pubkeyHex = "" then (.absent, [])
  else
    match decodeHash (namedRoot info), decodeHash ((info.get "chain_tip").strD ""), decodeBytes 32 pubkeyHex,
        decodeBytes 64 sigHex with
    | some root, some tip, some pubkey, some sig =>
      match env.keyError pubkey with
      | some e => (.invalid, ["Invalid signing public key: " ++ e])
      | none =>
        match env.config.verify pubkey (payload info root tip) sig with
        | .ok () => (.valid, [])
        | .error _ => (.invalid, ["Root signature verification FAILED — commitment may have been altered"])
    | _, _, _, _ => (.invalid, ["Failed to decode signature/pubkey/root/chain_tip hex"])

/-- One step of a proof in a file. A sibling that is no hash is passed over. -/
def foldStep (blake3 : List UInt8 → Hash) (cur : Hash) (step : Json) : Hash :=
  match decodeHash ((step.get "sibling").strD "") with
  | some s =>
    if (step.get "sibling_is_left").asBool.getD false then hashNode blake3 s cur else hashNode blake3 cur s
  | none => cur

def foldPath (blake3 : List UInt8 → Hash) (cur : Hash) (proof : Json) : Hash :=
  match (proof.get "path").asArray with
  | some steps => steps.foldl (foldStep blake3) cur
  | none => cur

def seqError (e : JournalEntry) (what : String) : String := "seq=" ++ toString e.sequence ++ ": " ++ what

def contentErrors (blake3 : List UInt8 → Hash) (e : JournalEntry) : List String :=
  if blake3 e.canonicalBytes ≠ e.contentHash then [seqError e "content_hash mismatch"] else []

def chainErrors (blake3 : List UInt8 → Hash) (e : JournalEntry) : List String :=
  if blake3 e.chainBytes ≠ e.chainHash then [seqError e "chain_hash mismatch"] else []

def linkErrors (prev : Hash) (e : JournalEntry) : List String :=
  if e.prevHash ≠ prev then [seqError e "prev_hash linkage broken"] else []

structure Findings where
  entryCount : Nat
  contentOk : Bool
  chainOk : Bool
  merkleOk : Bool
  errors : List String

/-- The texts of a root that is not the committed one. The slices can panic. -/
def proofRootErrors (rootInProof rootHex : String) : Option (List String) :=
  if rootInProof = rootHex then some []
  else
    match sliceTo (min 16 rootInProof.utf8ByteSize) rootInProof.toList,
        sliceTo (min 16 rootHex.utf8ByteSize) rootHex.toList with
    | some a, some b =>
      some ["Proof root (" ++ String.ofList a ++ ") does not match committed root (" ++ String.ofList b ++ ")"]
    | _, _ => none

def proofPathErrors (cur : Hash) (rootInProof : String) : List String :=
  if hashToHex cur ≠ rootInProof then ["Merkle proof path does not verify to committed root"] else []

def checkEntryProof (env : Env) (package : Json) (rootHex : String) : Option Findings :=
  match env.entryFromJson (package.get "entry") with
  | .error _ => some ⟨1, false, false, false, ["Failed to deserialize entry from proof package"]⟩
  | .ok entry =>
    let blake3 := env.config.blake3
    let content := contentErrors blake3 entry
    let chain := chainErrors blake3 entry
    let proof := package.get "merkle_proof"
    let rootInProof := (proof.get "root").strD ""
    match decodeHash ((proof.get "leaf_hash").strD "") with
    | some leaf =>
      match proofRootErrors rootInProof rootHex with
      | some rootErrors =>
        let merkle := proofPathErrors (foldPath blake3 leaf proof) rootInProof ++ rootErrors
        some ⟨1, content = [], chain = [], merkle = [], content ++ chain ++ merkle⟩
      | none => none
    | none => some ⟨1, content = [], chain = [], false, content ++ chain ++ ["Invalid leaf_hash hex in Merkle proof"]⟩

/-- The entries of an array from an index on, and the errors of those that are none. -/
def decodeEntries (env : Env) : Nat → List Json → List JournalEntry × List String
  | _, [] => ([], [])
  | i, v :: vs =>
    let rest := decodeEntries env (i + 1) vs
    match env.entryFromJson v with
    | .ok e => (e :: rest.1, rest.2)
    | .error e => (rest.1, ("Entry[" ++ toString i ++ "] deserialization failed: " ++ e) :: rest.2)

/-- The errors of entries with their hashes and their links, in order; then those of the contents and those of the chain. -/
def checkEntries (blake3 : List UInt8 → Hash) : Hash → List JournalEntry → List String × List String × List String
  | _, [] => ([], [], [])
  | prev, e :: es =>
    let rest := checkEntries blake3 e.chainHash es
    let content := contentErrors blake3 e
    let chain := chainErrors blake3 e ++ linkErrors prev e
    (content ++ chain ++ rest.1, content ++ rest.2.1, chain ++ rest.2.2)

/-- The errors of the proofs of an array from an index on. A proof whose leaf is no hash is passed over. -/
def proofErrors (blake3 : List UInt8 → Hash) : Nat → List Json → List String
  | _, [] => []
  | i, proof :: proofs =>
    let rest := proofErrors blake3 (i + 1) proofs
    match decodeHash ((proof.get "leaf_hash").strD "") with
    | some leaf =>
      if hashToHex (foldPath blake3 leaf proof) ≠ (proof.get "root").strD "" then
        ("Merkle proof[" ++ toString i ++ "]: path does not verify to root") :: rest
      else rest
    | none => rest

def rootErrors (computed : Hash) (rootHex : String) : List String :=
  if hashToHex computed ≠ rootHex then ["Merkle root mismatch — entries do not match committed root"] else []

/-- The second check of a full package. Nothing is checked if it has no array of entries. -/
def checkFull (env : Env) (package : Json) (rootHex : String) (entryCount : Nat) : Findings :=
  match (package.get "entries").asArray with
  | none => ⟨entryCount, true, true, true, []⟩
  | some entriesArr =>
    let blake3 := env.config.blake3
    let decoded := decodeEntries env 0 entriesArr
    let found := checkEntries blake3 zeroHash decoded.1
    let root := rootErrors (rootOf blake3 (decoded.1.map canonicalBytes)) rootHex
    let proofs := proofErrors blake3 0 ((package.get "merkle_proofs").asArray.getD [])
    ⟨entriesArr.length, found.2.1 = [], found.2.2 = [], root ++ proofs = [], decoded.2 ++ found.1 ++ root ++ proofs⟩

def fileType (info : Json) : String := (info.get "package_type").strD "commitment"

def check (env : Env) (package : Json) : Option Findings :=
  let info := package.get "meta"
  let entryCount := (info.get "entry_count").u64D.toNat
  if fileType info = "entry_proof" then checkEntryProof env package (namedRoot info)
  else if fileType info = "full" then some (checkFull env package (namedRoot info) entryCount)
  else some ⟨entryCount, true, true, true, []⟩

def verify (env : Env) (file : Option Json) : Except Failure VerifyReport :=
  match file with
  | none => .error ⟨"Invalid JSON in audit package", none⟩
  | some package =>
    let info := package.get "meta"
    let signature := checkSignature env info
    match check env package with
    | none => .error ⟨"byte index 16 is not a char boundary", none⟩
    | some found =>
      let errors := signature.2 ++ found.errors
      .ok
        { entryCount := found.entryCount
          rootHex := namedRoot info
          chainTipHex := (info.get "chain_tip").strD ""
          packageType := fileType info
          contentOk := found.contentOk
          chainOk := found.chainOk
          merkleOk := found.merkleOk
          sigStatus := signature.1
          errors := errors
          generatedAt := (info.get "generated_at").strD "?"
          vledgerVersion := (info.get "vledger_version").strD "?"
          formatVersion := (info.get "format_version").u64D
          passed := errors = []
          tenant := (info.get "tenant").strD ""
          description := (info.get "description").strD ""
          periodStart := (info.get "period_start").strD ""
          periodEnd := (info.get "period_end").strD ""
          firstSequence := (info.get "first_sequence").u64D
          lastSequence := (info.get "last_sequence").u64D
          signingPubkey := (info.get "signing_pubkey").strD "" }

def Passes (env : Env) (package : Json) : Prop := ∃ report, verify env (some package) = .ok report ∧ report.passed = true

end AuditPackage

end VectorLedger
