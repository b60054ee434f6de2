import VectorLedger.Theorems.BackupChecks

/-! Backups that someone without the master key has changed. -/

namespace VectorLedger.Backup

open List FileSystem JournalEntry

variable {env : Env} {fs fs' fs₀ made : Fs Bytes} {dataDir target : Text} {D T : List Name} {master key : Key} {draw : Draw}
  {files : List (Text × Bytes)} {f : ArchiveFile} {m : BackupManifest} {force : Bool}

/-- What the restore decrypts was encrypted in the backup, for the same name. -/
def Unforged (env : Env) (key : Key) (files : List (Text × Bytes)) (a : Archive) : Prop :=
  ∀ e ∈ a.entries, e.name ≠ manifestName → ∀ data, decrypt env key e.data (textBytes (logicalName true e.name)) = some data →
    ∃ file ∈ files, ∃ nonce, e.data = encrypt env key nonce file.2 (textBytes file.1) ∧ logicalName true e.name = file.1

namespace Sample

def walX : Text := ['w', 'a', 'l', '/', 'x']

def forged (env : Env) (files : List (Text × Bytes)) (encrypted : Bool) : BackupManifest :=
  { manifestOf env Sample.draw files with encrypted := encrypted }

def forgedFile (env : Env) (entries : List Entry) (files : List (Text × Bytes)) (encrypted : Bool) : ArchiveFile where
  path := ['b']
  archive := ⟨entries ++ [⟨manifestName, env.manifestToJson (forged env files encrypted)⟩], false⟩
  sidecar := some (writeKeySidecar env (deriveBackupKey env masterKey 0) masterKey (Sample.draw.nonces 0) 0)

def entry : Entry := archiveEntry plainEnv (some (deriveBackupKey plainEnv masterKey 0)) (Vector.replicate 12 0) (walX, [1])

theorem gathered : gather disk (.parse ['/', 'd']) [d] = .ok [(walX, [1])] := rfl

/-- Entries that are copies of the one in the backup, or too short to be decrypted. -/
theorem unforged {entries : List Entry} {files : List (Text × Bytes)} {encrypted : Bool}
    (h : ∀ e ∈ entries, e = entry ∨ e.data.length < 12) :
    Unforged plainEnv (deriveBackupKey plainEnv masterKey 0) [(walX, [1])] (forgedFile plainEnv entries files encrypted).archive := by
  intro e he hname data hopen
  rcases mem_append.1 he with he | he
  · rcases h e he with rfl | hshort
    · exact ⟨_, mem_cons_self, Vector.replicate 12 0, rfl, by decide +kernel⟩
    · rw [decrypt, if_pos hshort] at hopen
      cases hopen
  · obtain rfl := mem_singleton.1 he
    exact absurd rfl hname

end Sample

open Backup.Sample

end VectorLedger.Backup
