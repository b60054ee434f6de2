import Mathlib.Data.Char
import VectorLedger.AuditPackage
import VectorLedger.Lib.FileSystem
import VectorLedger.Lib.SortedMap
import VectorLedger.Wal.Format

/-! Backups of a data directory: the encrypted archive and its key file, how it is restored, and how it is checked
    without restoring it. An archive is the list of its entries. -/

namespace VectorLedger.Backup

open FileSystem JournalEntry

abbrev Bytes := Wal.Bytes

abbrev Key := Wal.WalKey

abbrev Text := List Char

/-! ### Manifests -/

structure BackupManifest where
  vledgerVersion : String
  createdAtUnix : Nat
  createdAtRfc : String
  /-- The hash of the plaintext for each path in the archive, without its suffix. -/
  files : SortedMap Text String
  manifestHash : String
  encrypted : Bool

structure BackupKeySidecar where
  wrappedKeyHex : String
  kdfContext : String

structure Env where
  crypto : Wal.Crypto
  blake3 : Bytes → Hash
  derive : Key → String → Key
  manifestToJson : BackupManifest → Bytes
  /-- Nothing if the bytes are no text or the text is no manifest. -/
  manifestFromJson : Bytes → Option BackupManifest
  sidecarToJson : BackupKeySidecar → Bytes
  sidecarFromJson : Bytes → Option BackupKeySidecar

structure Failure where
  context : String
  cause : Option Errno

def Failure.io (e : Errno) : Failure := ⟨"", some e⟩

def Failure.text (context : String) : Failure := ⟨context, none⟩

def textBytes (t : Text) : Bytes := utf8 (String.ofList t)

def hashHex (env : Env) (bytes : Bytes) : String := hexEncode (env.blake3 bytes).toList

def computeManifestHash (env : Env) (files : SortedMap Text String) : String :=
  hashHex env (files.entries.flatMap fun f => textBytes f.1 ++ utf8 f.2)

def BackupManifest.verify (env : Env) (m : BackupManifest) : Bool := computeManifestHash env m.files = m.manifestHash

/-! ### Encryption -/

def encrypt (env : Env) (key : Key) (nonce : Wal.Nonce) (plaintext aad : Bytes) : Bytes :=
  nonce.toList ++ env.crypto.encrypt key nonce.toList aad plaintext

def decrypt (env : Env) (key : Key) (ciphertext aad : Bytes) : Option Bytes :=
  if ciphertext.length < 12 then none else env.crypto.decrypt key (ciphertext.take 12) aad (ciphertext.drop 12)

def keyWrapContext : String := "vgdb/backup-key-wrap"

def backupContext (tsUnix : Nat) : String := "vgdb/backup/" ++ toString tsUnix

def deriveBackupKey (env : Env) (master : Key) (tsUnix : Nat) : Key := env.derive master (backupContext tsUnix)

def writeKeySidecar (env : Env) (backupKey master : Key) (nonce : Wal.Nonce) (tsUnix : Nat) : Bytes :=
  let wrapKey := env.derive master keyWrapContext
  let ct := encrypt env wrapKey nonce backupKey.toList (utf8 keyWrapContext)
  env.sidecarToJson ⟨hexEncode ct, backupContext tsUnix⟩

def sidecarPath (archivePath : Text) : Text := archivePath ++ ['.', 'k', 'e', 'y']

def readKeySidecar (env : Env) (archivePath : Text) (sidecar : Option Bytes) (master : Key) : Except Failure Key :=
  match sidecar with
  | none =>
    .error ⟨"Cannot read backup key sidecar '" ++ String.ofList (sidecarPath archivePath) ++
      "'. This file must accompany the archive to restore an encrypted backup.", some .noEnt⟩
  | some json =>
    match env.sidecarFromJson json with
    | none => .error (.text "parse key sidecar JSON")
    | some sidecar =>
      match FourEyes.hexDecode sidecar.wrappedKeyHex with
      | .error _ => .error (.text "hex-decode wrapped key")
      | .ok ct =>
        match decrypt env (env.derive master keyWrapContext) ct (utf8 keyWrapContext) with
        | none => .error (.text "Backup key decryption failed — wrong master key or corrupted sidecar")
        | some pt =>
          if h : pt.length = 32 then .ok ⟨pt.toArray, by simpa using h⟩
          else .error (.text "Backup key wrong length")

/-! ### Archives -/

structure Entry where
  name : Text
  data : Bytes

/-- The entries up to the end, or up to the first one that cannot be read in full. -/
structure Archive where
  entries : List Entry
  damaged : Bool

structure ArchiveFile where
  path : Text
  archive : Archive
  sidecar : Option Bytes

def manifestName : Text := ['M', 'A', 'N', 'I', 'F', 'E', 'S', 'T', '.', 'j', 's', 'o', 'n']

def encSuffix : Text := ['.', 'e', 'n', 'c']

def wal : Name := ⟨['w', 'a', 'l'], by decide⟩

def pages : Name := ⟨['p', 'a', 'g', 'e', 's'], by decide⟩

def catalog : Name := ⟨['c', 'a', 't', 'a', 'l', 'o', 'g'], by decide⟩

def audit : Name := ⟨['a', 'u', 'd', 'i', 't'], by decide⟩

def keys : Name := ⟨['k', 'e', 'y', 's'], by decide⟩

def pubkey : Name :=
  ⟨['d', 'b', '_', 's', 'i', 'g', 'n', 'i', 'n', 'g', '_', 'p', 'u', 'b', 'k', 'e', 'y', '.', 'h', 'e', 'x'], by decide⟩

def backupDirs : List Name := [wal, pages, catalog, audit]

def keysWhitelist : List Name := [pubkey]

/-! ### Creating a backup -/

def depth (fs : Fs Bytes) : Nat := (fs.nodes.map fun x => x.1.length).foldr max 0

def walkFuel (fs : Fs Bytes) : Nat := (Fs.maxLinks + 1) * (depth fs + 1)

/-- The canonical paths of the files below a directory, through links that stay below the root. -/
def walkdirSafe (fs : Fs Bytes) (canonicalRoot : List Name) : Nat → Path → Except Errno (List (List Name))
  | 0, _ => .error .loop
  | fuel + 1, dir => do
    let names ← fs.readDir dir
    let found ← names.mapM fun n =>
      let path := dir.join (.ofName n)
      match fs.canonicalize path with
      | .error _ => .ok []
      | .ok resolved =>
        if !canonicalRoot.isPrefixOf resolved then .ok []
        else if fs.dirAt resolved then walkdirSafe fs canonicalRoot fuel path
        else .ok [resolved]
    return found.flatten

/-- The name of a file in the archive. A path that does not lie behind the directory is taken whole. -/
def relativeName (dir : Path) (dirName : Name) (resolved : List Name) : Text :=
  match Path.stripPrefix resolved dir with
  | some rel => dirName.1 ++ '/' :: Path.display rel
  | none => dirName.1 ++ '/' :: '/' :: Path.display resolved

def readResolved (fs : Fs Bytes) (resolved : List Name) : Except Errno Bytes :=
  match fs.fileAt resolved with
  | some bytes => .ok bytes
  | none => .error .isDir

/-- The names and the contents of the files in one directory. -/
def archiveDirSafe (fs : Fs Bytes) (dir : Path) (dirName : Name) (canonicalRoot : List Name) :
    Except Errno (List (Text × Bytes)) := do
  let found ← walkdirSafe fs canonicalRoot (walkFuel fs) dir
  found.mapM fun resolved => do
    let bytes ← readResolved fs resolved
    return (relativeName dir dirName resolved, bytes)

def archiveDir (fs : Fs Bytes) (dataDir : Path) (canonicalRoot : List Name) (dirName : Name) :
    Except Failure (List (Text × Bytes)) :=
  let dir := dataDir.join (.ofName dirName)
  if !fs.pathExists dir then .ok []
  else
    match archiveDirSafe fs dir dirName canonicalRoot with
    | .error e => .error ⟨"Failed to archive " ++ String.ofList dirName.1 ++ "/", some e⟩
    | .ok files => .ok files

def archiveKey (fs : Fs Bytes) (dataDir : Path) (canonicalRoot : List Name) (name : Name) :
    Except Failure (List (Text × Bytes)) :=
  let keysDir := dataDir.join (.ofName keys)
  if !fs.pathExists keysDir then .ok []
  else
    match fs.canonicalize (keysDir.join (.ofName name)) with
    | .error _ => .ok []
    | .ok resolved =>
      if !canonicalRoot.isPrefixOf resolved then .ok []
      else
        match readResolved fs resolved with
        | .error e => .error (.io e)
        | .ok bytes => .ok [(keys.1 ++ '/' :: name.1, bytes)]

def gather (fs : Fs Bytes) (dataDir : Path) (canonicalRoot : List Name) : Except Failure (List (Text × Bytes)) := do
  let dirs ← backupDirs.mapM (archiveDir fs dataDir canonicalRoot)
  let pubkeys ← keysWhitelist.mapM (archiveKey fs dataDir canonicalRoot)
  return dirs.flatten ++ pubkeys.flatten

/-- The name as tar stores it: the steps of the path, joined again, or the text itself where these do not fit into the
    header. -/
def storedName (name : Text) : Text :=
  match (Path.parse name).names with
  | some ns => if (textBytes (Path.display ns)).length ≤ 100 then Path.display ns else name
  -- Refused by tar, if it is short; `gather` gives no such name.
  | none => name

def archiveEntry (env : Env) (backupKey : Option Key) (nonce : Wal.Nonce) (file : Text × Bytes) : Entry :=
  match backupKey with
  | some key => ⟨storedName (file.1 ++ encSuffix), encrypt env key nonce file.2 (textBytes file.1)⟩
  | none => ⟨storedName file.1, file.2⟩

def manifestFiles (env : Env) (files : List (Text × Bytes)) : SortedMap Text String :=
  files.foldl (fun m file => m.insert file.1 (hashHex env file.2)) .empty

/-- The time of a backup and its random nonces: one for each file, and one for the key file. -/
structure Draw where
  tsUnix : Nat
  tsRfc : String
  nonces : Nat → Wal.Nonce

structure Created where
  archive : Archive
  sidecar : Option Bytes
  manifest : BackupManifest

def createBackupInner (env : Env) (fs : Fs Bytes) (dataDir : Text) (master : Option Key) (draw : Draw) :
    Except Failure Created :=
  let backupKey := master.map fun m => deriveBackupKey env m draw.tsUnix
  match fs.canonicalize (.parse dataDir) with
  | .error e => .error ⟨"Cannot canonicalize data_dir: " ++ String.ofList dataDir, some e⟩
  | .ok canonicalRoot => do
    let files ← gather fs (.parse dataDir) canonicalRoot
    let entries := files.mapIdx fun i file => archiveEntry env backupKey (draw.nonces i) file
    let manifest : BackupManifest :=
      { vledgerVersion := AuditPackage.vledgerVersion
        createdAtUnix := draw.tsUnix
        createdAtRfc := draw.tsRfc
        files := manifestFiles env files
        manifestHash := computeManifestHash env (manifestFiles env files)
        encrypted := master.isSome }
    return {
      archive := ⟨entries ++ [⟨manifestName, env.manifestToJson manifest⟩], false⟩
      sidecar := master.map fun m =>
        writeKeySidecar env (deriveBackupKey env m draw.tsUnix) m (draw.nonces files.length) draw.tsUnix
      manifest := manifest }

def createBackupEncrypted (env : Env) (fs : Fs Bytes) (dataDir : Text) (master : Key) (draw : Draw) :
    Except Failure Created :=
  createBackupInner env fs dataDir (some master) draw

/-! ### Restoring a backup -/

def readManifest (env : Env) (parseError : String) (a : Archive) : Except Failure BackupManifest :=
  match a.entries.find? (·.name = manifestName) with
  | some e =>
    match env.manifestFromJson e.data with
    | some m => .ok m
    | none => .error (.text parseError)
  | none => if a.damaged then .error (.text "failed to read entire block") else .error (.text "MANIFEST.json not found in archive")

def logicalName (encrypted : Bool) (name : Text) : Text :=
  if encrypted && encSuffix.isSuffixOf name then name.take (name.length - 4) else name

/-- The guard against paths that lead out of the target. Where neither the file nor its directory is there, it lets the
    entry pass. -/
def escapes (fs : Fs Bytes) (canonicalTarget : List Name) (dest : Path) : Bool :=
  match fs.canonicalize dest with
  | .ok normalised => !canonicalTarget.isPrefixOf normalised
  | .error _ =>
    match dest.parent with
    | some parent =>
      match fs.canonicalize parent with
      | .ok c =>
        let normalised := match dest.fileName with
          | some n => c ++ [n]
          | none => c
        !canonicalTarget.isPrefixOf normalised
      | .error _ => false
    -- The path itself, which has no steps.
    | none => !(dest.absolute && canonicalTarget = [])

def joinText (a b : Text) : Text :=
  if b.head? = some '/' ∨ a = [] then b else if a.getLast? = some '/' then a ++ b else a ++ '/' :: b

def createParents (fs : Fs Bytes) (dest : Path) : Except Errno Unit × Fs Bytes :=
  match dest.parent with
  | some parent => fs.createDirAll parent
  | none => (.ok (), fs)

def openEntry (env : Env) (backupKey : Option Key) (logical : Text) (raw : Bytes) : Option Bytes :=
  match backupKey with
  | some key => decrypt env key raw (textBytes logical)
  | none => some raw

def extractEntry (env : Env) (target : Text) (canonicalTarget : List Name) (encrypted : Bool) (backupKey : Option Key)
    (fs : Fs Bytes) (e : Entry) : Except Failure Unit × Fs Bytes :=
  if e.name = manifestName then (.ok (), fs)
  else
    let logical := logicalName encrypted e.name
    let dest := (Path.parse target).join (.parse logical)
    if escapes fs canonicalTarget dest then (.ok (), fs)
    else
      match createParents fs dest with
      | (.error err, fs') => (.error (.io err), fs')
      | (.ok (), fs') =>
        match openEntry env backupKey logical e.data with
        | none =>
          (.error (.text ("Decryption failed for '" ++ String.ofList logical ++ "' — wrong key or corrupted archive")), fs')
        | some plain =>
          match fs'.write dest plain with
          | .error err => (.error ⟨"Failed to write '" ++ String.ofList (joinText target logical) ++ "'", some err⟩, fs')
          | .ok fs'' => (.ok (), fs'')

def extractAll (env : Env) (target : Text) (canonicalTarget : List Name) (encrypted : Bool) (backupKey : Option Key)
    (damaged : Bool) : Fs Bytes → List Entry → Except Failure Unit × Fs Bytes
  | fs, [] => if damaged then (.error (.text "failed to read entire block"), fs) else (.ok (), fs)
  | fs, e :: es =>
    match extractEntry env target canonicalTarget encrypted backupKey fs e with
    | (.ok (), fs') => extractAll env target canonicalTarget encrypted backupKey damaged fs' es
    | failed => failed

def checkFile (env : Env) (fs : Fs Bytes) (target : Text) (file : Text × String) : Except Failure (List String) :=
  let full := (Path.parse target).join (.parse file.1)
  if !fs.pathExists full then .ok ["Missing: " ++ String.ofList file.1]
  else
    match fs.read full with
    | .error e => .error (.io e)
    | .ok bytes => if hashHex env bytes ≠ file.2 then .ok ["Hash mismatch: " ++ String.ofList file.1] else .ok []

def checkRestored (env : Env) (fs : Fs Bytes) (target : Text) (m : BackupManifest) : Except Failure BackupManifest := do
  let failures ← m.files.entries.mapM (checkFile env fs target)
  if failures.flatten ≠ [] then
    .error (.text ("Restore verification failed:\n" ++ String.intercalate "\n" failures.flatten))
  else .ok m

def restoreKey (env : Env) (f : ArchiveFile) (m : BackupManifest) (master : Option Key) : Except Failure (Option Key) :=
  if m.encrypted then
    match master with
    | none =>
      .error (.text ("Archive is encrypted but no master key was provided for restore.\n" ++
        "Use `vledger restore` which loads the master key automatically."))
    | some master => (readKeySidecar env f.path f.sidecar master).map some
  else .ok none

/-- The second and the third pass, into a directory that is made if it is not there. -/
def restoreInto (env : Env) (fs : Fs Bytes) (f : ArchiveFile) (target : Text) (m : BackupManifest) (backupKey : Option Key) :
    Except Failure BackupManifest × Fs Bytes :=
  match fs.createDirAll (.parse target) with
  | (.error e, fs') => (.error (.io e), fs')
  | (.ok (), fs') =>
    match fs'.canonicalize (.parse target) with
    | .error e => (.error ⟨"Cannot canonicalize target_dir: " ++ String.ofList target, some e⟩, fs')
    | .ok canonicalTarget =>
      match extractAll env target canonicalTarget m.encrypted backupKey f.archive.damaged fs' f.archive.entries with
      | (.error e, fs'') => (.error e, fs'')
      | (.ok (), fs'') => (checkRestored env fs'' target m, fs'')

def restoreBackupInner (env : Env) (fs : Fs Bytes) (f : ArchiveFile) (target : Text) (force : Bool) (master : Option Key) :
    Except Failure BackupManifest × Fs Bytes :=
  if fs.pathExists (.parse target) && !force then
    (.error (.text ("Target directory already exists: " ++ String.ofList target ++ "\nUse --force to overwrite.")), fs)
  else
    match readManifest env "Failed to parse MANIFEST.json" f.archive with
    | .error e => (.error e, fs)
    | .ok m =>
      if !m.verify env then
        (.error (.text "Backup manifest hash verification FAILED — archive may be corrupt or tampered"), fs)
      else
        match restoreKey env f m master with
        | .error e => (.error e, fs)
        | .ok backupKey => restoreInto env fs f target m backupKey

def restoreBackupEncrypted (env : Env) (fs : Fs Bytes) (f : ArchiveFile) (target : Text) (force : Bool) (master : Key) :
    Except Failure BackupManifest × Fs Bytes :=
  restoreBackupInner env fs f target force (some master)

/-! ### Checking a backup -/

inductive FileVerifyStatus where
  | ok
  | hashMismatch
  | decryptionFailed
  | notInManifest
  deriving DecidableEq, Repr

structure FileVerifyResult where
  path : Text
  status : FileVerifyStatus
  reason : Option String

structure VerifyReport where
  archivePath : Text
  vledgerVersion : String
  createdAt : String
  encrypted : Bool
  manifestHash : String
  manifestHashOk : Bool
  totalFiles : Nat
  contentVerified : Bool
  fileResults : List FileVerifyResult
  failedFiles : Nat

def VerifyReport.isOk (r : VerifyReport) : Bool := r.manifestHashOk && r.failedFiles == 0

def verifyKey (env : Env) (f : ArchiveFile) (m : BackupManifest) (master : Option Key) : Except Failure (Option Key) :=
  if m.encrypted then
    match master with
    | some master => if f.sidecar.isSome then (readKeySidecar env f.path f.sidecar master).map some else .ok none
    | none => .ok none
  else .ok none

/-- The result for one entry. The slices of the hashes for a mismatch can panic. -/
def verifyEntry (env : Env) (m : BackupManifest) (backupKey : Option Key) (e : Entry) :
    Except Failure (List FileVerifyResult) :=
  if e.name = manifestName then .ok []
  else
    let logical := logicalName m.encrypted e.name
    match m.files.get? logical with
    | none => .ok [⟨logical, .notInManifest, none⟩]
    | some expected =>
      match openEntry env backupKey logical e.data with
      | none => .ok [⟨logical, .decryptionFailed, none⟩]
      | some plain =>
        let actual := hashHex env plain
        if actual = expected then .ok [⟨logical, .ok, none⟩]
        else
          match AuditPackage.sliceTo 16 expected.toList, AuditPackage.sliceTo 16 actual.toList with
          | some a, some b =>
            .ok [⟨logical, .hashMismatch, some ("expected " ++ String.ofList a ++ ", got " ++ String.ofList b)⟩]
          | _, _ => .error (.text "byte index 16 is out of bounds or no char boundary")

def verifyEntries (env : Env) (m : BackupManifest) (backupKey : Option Key) (a : Archive) :
    Except Failure (List FileVerifyResult) :=
  if backupKey.isSome || !m.encrypted then
    match a.entries.mapM (verifyEntry env m backupKey) with
    | .error e => .error e
    | .ok results => if a.damaged then .error (.text "failed to read entire block") else .ok results.flatten
  else .ok []

def verifyBackup (env : Env) (f : ArchiveFile) (master : Option Key) : Except Failure VerifyReport := do
  let m ← readManifest env "Parse MANIFEST.json" f.archive
  let backupKey ← verifyKey env f m master
  let results ← verifyEntries env m backupKey f.archive
  return {
    archivePath := f.path
    vledgerVersion := m.vledgerVersion
    createdAt := m.createdAtRfc
    encrypted := m.encrypted
    manifestHash := m.manifestHash
    manifestHashOk := m.verify env
    totalFiles := m.files.entries.length
    contentVerified := results ≠ []
    fileResults := results
    failedFiles := (results.filter (·.status ≠ .ok)).length }

end VectorLedger.Backup
