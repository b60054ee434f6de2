import VectorLedger.Theorems.RoundTrip

/-! The check of a backup against what a restore needs. It passes archives that cannot be restored. -/

namespace VectorLedger.Backup

open Backup.Sample List FileSystem

variable {env : Env} {f : ArchiveFile} {m : BackupManifest} {master : Key} {backupKey : Option Key} {report : VerifyReport}
  {fs made : Fs Bytes} {target : Text} {T : List Name} {force : Bool} {e : Entry}

/-! ### What a passing check has shown -/

theorem readManifest_ok_iff (text text' : String) {a : Archive} :
    readManifest env text a = .ok m ↔ readManifest env text' a = .ok m := by
  unfold readManifest
  split
  · split <;> simp
  · split <;> simp

/-- The entry opens under its name, and has the hash that the manifest has for it. -/
def InOrder (env : Env) (m : BackupManifest) (backupKey : Option Key) (e : Entry) : Prop :=
  ∃ data, openEntry env backupKey (logicalName m.encrypted e.name) e.data = some data ∧
    m.files.get? (logicalName m.encrypted e.name) = some (hashHex env data)

theorem inOrder_of_verifyEntry {results : List FileVerifyResult} (h : verifyEntry env m backupKey e = .ok results)
    (ok : ∀ r ∈ results, r.status = .ok) (hname : e.name ≠ manifestName) : InOrder env m backupKey e := by
  unfold verifyEntry at h
  rw [if_neg hname] at h
  simp only at h
  split at h
  · cases h
    exact absurd (ok _ mem_cons_self) (by simp)
  · next expected hexpected =>
    split at h
    · cases h
      exact absurd (ok _ mem_cons_self) (by simp)
    · next plain hplain =>
      split at h
      · next hhash => exact ⟨plain, hplain, hhash ▸ hexpected⟩
      · split at h
        · cases h
          exact absurd (ok _ mem_cons_self) (by simp)
        · cases h

theorem inOrder_of_verifyEntries {results : List FileVerifyResult} (h : verifyEntries env m backupKey f.archive = .ok results)
    (readable : backupKey.isSome = true ∨ m.encrypted = false) (ok : ∀ r ∈ results, r.status = .ok) :
    f.archive.damaged = false ∧ ∀ e ∈ f.archive.entries, e.name ≠ manifestName → InOrder env m backupKey e := by
  unfold verifyEntries at h
  rw [if_pos (by simpa using readable)] at h
  split at h
  · cases h
  · next lists hlists =>
    split at h
    · cases h
    · next hdamaged =>
      cases h
      refine ⟨by simpa using hdamaged, fun e he hname => ?_⟩
      obtain ⟨l, hl, hentry⟩ := (Except.of_mapM_ok hlists).1 e he
      exact inOrder_of_verifyEntry hentry (fun r hr => ok r (mem_flatten.2 ⟨l, hl, hr⟩)) hname

/-- What a report without failures has shown of the archive. -/
structure Passed (env : Env) (f : ArchiveFile) (master : Key) (m : BackupManifest) (backupKey : Option Key) : Prop where
  manifest : readManifest env "Parse MANIFEST.json" f.archive = .ok m
  hash : m.verify env = true
  key : verifyKey env f m (some master) = .ok backupKey
  entries : backupKey.isSome = true ∨ m.encrypted = false →
    f.archive.damaged = false ∧ ∀ e ∈ f.archive.entries, e.name ≠ manifestName → InOrder env m backupKey e

theorem passed_of_verifyBackup (verified : verifyBackup env f (some master) = .ok report) (ok : report.isOk = true) :
    ∃ m backupKey, Passed env f master m backupKey := by
  obtain ⟨m, hmanifest, h⟩ := Except.bind_eq_ok.1 verified
  obtain ⟨backupKey, hkey, h⟩ := Except.bind_eq_ok.1 h
  obtain ⟨results, hresults, h⟩ := Except.bind_eq_ok.1 h
  cases h
  rw [VerifyReport.isOk, Bool.and_eq_true, beq_iff_eq, length_eq_zero_iff, filter_eq_nil_iff] at ok
  refine ⟨m, backupKey, hmanifest, ok.1, hkey, fun hreadable => inOrder_of_verifyEntries hresults hreadable fun r hr => ?_⟩
  simpa using ok.2 r hr

/-! ### What a restore needs -/

/-- The paths that the entries are written to with the hashes that the manifest has for them, the last one first. -/
def placed (m : BackupManifest) (a : Archive) : List (List Name × String) :=
  (a.entries.filterMap fun e =>
    if e.name = manifestName then none
    else
      match (Path.parse (logicalName m.encrypted e.name)).names, m.files.get? (logicalName m.encrypted e.name) with
      | some ns, some hash => some (ns, hash)
      | _, _ => none).reverse

/-- The key file is there if it is needed. The last entry for each path of the manifest has the hash that the manifest has
    for it. No path is that of a directory for another one. -/
structure Restorable (f : ArchiveFile) (m : BackupManifest) : Prop where
  sidecar : m.encrypted = true → f.sidecar.isSome = true
  complete : ∀ file ∈ m.files.entries, ∀ ns, (Path.parse file.1).names = some ns →
    (placed m f.archive).lookup ns = some file.2
  fit : ∀ a ∈ placed m f.archive, ∀ b ∈ placed m f.archive, a.1 <+: b.1 → a.1 = b.1

/-- The paths of the manifest are relative paths of plain names. -/
def PlainPaths (m : BackupManifest) : Prop := ∀ file ∈ m.files.entries, ∃ ns, (Path.parse file.1).names = some ns

theorem InOrder.entryFile (h : InOrder env m backupKey e) (plain : PlainPaths m) (hname : e.name ≠ manifestName) :
    ∃ ns data, entryFile env m.encrypted backupKey e = some (ns, data) ∧
      (Path.parse (logicalName m.encrypted e.name)).names = some ns ∧
      m.files.get? (logicalName m.encrypted e.name) = some (hashHex env data) := by
  obtain ⟨data, hopen, hhash⟩ := h
  obtain ⟨ns, hns⟩ := plain _ (SortedMap.get?_eq_some.1 hhash)
  exact ⟨ns, data, entryFile_eq_some.2 ⟨hname, hns, hopen⟩, hns, hhash⟩

theorem placed_eq (entries : ∀ e ∈ f.archive.entries, e.name ≠ manifestName → InOrder env m backupKey e)
    (plain : PlainPaths m) : placed m f.archive =
      (f.archive.entries.filterMap (entryFile env m.encrypted backupKey)).reverse.map fun file => (file.1, hashHex env file.2) := by
  unfold placed
  rw [map_reverse, map_filterMap]
  congr 1
  refine filterMap_congr fun e he => ?_
  by_cases hname : e.name = manifestName
  · have hnone : entryFile env m.encrypted backupKey e = none := by rw [Backup.entryFile, if_pos hname]
    rw [if_pos hname, hnone]
    rfl
  · obtain ⟨ns, data, hfile, hns, hhash⟩ := (entries e he hname).entryFile plain hname
    simp [hname, hfile, hns, hhash]

theorem lookup_map_hash (files : List (List Name × Bytes)) (ns : List Name) :
    (files.map fun file => (file.1, hashHex env file.2)).lookup ns = (files.lookup ns).map (hashHex env) := by
  induction files with
  | nil => rfl
  | cons file files ih =>
    rw [map_cons, lookup_cons, lookup_cons, ih]
    cases ns == file.1 <;> rfl

theorem restoreKey_of_verifyKey (h : verifyKey env f m (some master) = .ok backupKey)
    (sidecar : m.encrypted = true → f.sidecar.isSome = true) :
    restoreKey env f m (some master) = .ok backupKey ∧ (backupKey.isSome = true ∨ m.encrypted = false) := by
  unfold verifyKey at h
  unfold restoreKey
  cases hencrypted : m.encrypted with
  | false =>
    rw [hencrypted, if_neg Bool.false_ne_true] at h
    exact ⟨by rw [if_neg Bool.false_ne_true, h], .inr rfl⟩
  | true =>
    simp only [hencrypted, if_true, sidecar hencrypted] at h ⊢
    refine ⟨h, .inl ?_⟩
    obtain ⟨key, -, rfl⟩ := Except.map_eq_ok.1 h
    rfl

theorem Passed.restores_iff (hpassed : Passed env f master m backupKey) (plain : PlainPaths m)
    (fresh : Fresh fs target T made) :
    (∃ m' fs', restoreBackupEncrypted env fs f target force master = (.ok m', fs')) ↔ Restorable f m := by
  have hmanifest := (readManifest_ok_iff "Parse MANIFEST.json" "Failed to parse MANIFEST.json").1 hpassed.manifest
  by_cases hsidecar : m.encrypted = true → f.sidecar.isSome = true
  · obtain ⟨hkey, hreadable⟩ := restoreKey_of_verifyKey hpassed.key hsidecar
    obtain ⟨hdamaged, hentries⟩ := hpassed.entries hreadable
    have hplain : ∀ e ∈ f.archive.entries, e.name ≠ manifestName →
        ∃ file, entryFile env m.encrypted backupKey e = some file := by
      intro e he hname
      obtain ⟨ns, data, hfile, -⟩ := (hentries e he hname).entryFile plain hname
      exact ⟨_, hfile⟩
    have hplaced := placed_eq hentries plain
    generalize hfiles : (f.archive.entries.filterMap (entryFile env m.encrypted backupKey)).reverse = files at hplaced
    have hfit : AllFit files ↔ ∀ a ∈ placed m f.archive, ∀ b ∈ placed m f.archive, a.1 <+: b.1 → a.1 = b.1 := by
      rw [allFit_iff, hplaced]
      simp only [forall_mem_map]
    -- With the files in place, the last pass compares them with the manifest.
    have hcheck {fs' : Fs Bytes} (hholds : fs'.Holds T files) (hleads : fs'.Leads (.parse target) T) :
        checkRestored env fs' target m = .ok m ↔ ∀ file ∈ m.files.entries, ∀ ns,
          (Path.parse file.1).names = some ns → (placed m f.archive).lookup ns = some file.2 := by
      rw [checkRestored_ok_iff, and_iff_right rfl]
      refine forall₂_congr fun file hfile => ?_
      obtain ⟨ns, hns⟩ := plain file hfile
      rw [checkFile_ok_iff hholds hleads hns, hplaced, hns]
      simp [lookup_map_hash, Option.map_eq_some_iff]
    have hstate {fs' : Fs Bytes} (hextract : extractAll env target T m.encrypted backupKey f.archive.damaged made
        f.archive.entries = (.ok (), fs')) : fs'.Holds T files ∧ fs'.Leads (.parse target) T ∧ AllFit files := by
      obtain ⟨-, hholds, hleads, hallfit, -⟩ := holds_of_extractAll hextract (fun e he hname data hopen => by
        obtain ⟨⟨ns, data'⟩, hfile⟩ := hplain e he hname
        exact ⟨ns, (entryFile_eq_some.1 hfile).2.1⟩) fresh.empty fresh.leads List.Pairwise.nil
      rw [hfiles, append_nil] at hholds hallfit
      exact ⟨hholds, hleads, hallfit⟩
    constructor
    · rintro ⟨m', fs', hrestore⟩
      obtain ⟨hmanifest', -, key', hkey', hextract, hok⟩ := (restore_fresh_iff fresh).1 hrestore
      obtain rfl := Except.ok.inj (hmanifest.symm.trans hmanifest')
      obtain rfl := Except.ok.inj (hkey.symm.trans hkey')
      obtain ⟨hholds, hleads, hallfit⟩ := hstate hextract
      exact ⟨hsidecar, (hcheck hholds hleads).1 hok, hfit.1 hallfit⟩
    · intro hrestorable
      obtain ⟨fs', hextract⟩ := extractAll_ok hplain fresh.empty fresh.leads (by
        rw [hfiles, append_nil]
        exact hfit.2 hrestorable.fit)
      rw [← hdamaged] at hextract
      obtain ⟨hholds, hleads, -⟩ := hstate hextract
      exact ⟨m, fs', (restore_fresh_iff fresh).2
        ⟨hmanifest, hpassed.hash, backupKey, hkey, hextract, (hcheck hholds hleads).2 hrestorable.complete⟩⟩
  · refine iff_of_false ?_ fun hrestorable => hsidecar hrestorable.sidecar
    rintro ⟨m', fs', hrestore⟩
    obtain ⟨hmanifest', -, key', hkey', -⟩ := (restore_fresh_iff fresh).1 hrestore
    obtain rfl := Except.ok.inj (hmanifest.symm.trans hmanifest')
    push Not at hsidecar
    have hnone : f.sidecar = none := by simpa using hsidecar.2
    rw [restoreKey, if_pos hsidecar.1, hnone] at hkey'
    cases hkey'

/-- An archive that passes the check, and whose paths are plain names, can be restored into a fresh target exactly if its
    key file is there, each path of the manifest has its entry, and the paths fit together. -/
theorem verified_restores_iff (verified : verifyBackup env f (some master) = .ok report) (ok : report.isOk = true)
    (manifest : readManifest env "Parse MANIFEST.json" f.archive = .ok m) (plain : PlainPaths m)
    (fresh : Fresh fs target T made) :
    (∃ m' fs', restoreBackupEncrypted env fs f target force master = (.ok m', fs')) ↔ Restorable f m := by
  obtain ⟨m', backupKey, hpassed⟩ := passed_of_verifyBackup verified ok
  obtain rfl := Except.ok.inj (manifest.symm.trans hpassed.manifest)
  exact hpassed.restores_iff plain fresh

/-! ### Archives that pass -/

namespace Sample

def masterKey : Key := Vector.replicate 32 0

def draw : Draw := ⟨0, "", fun _ => Vector.replicate 12 0⟩

def file : Text × Bytes := (['x'], [1])

def archiveFile (env : Env) (files : List (Text × Bytes)) (sidecar : Bool) : ArchiveFile where
  path := ['b']
  archive := archiveOf env (deriveBackupKey env masterKey 0) draw.nonces files (manifestOf env draw [file])
  sidecar := if sidecar then some (writeKeySidecar env (deriveBackupKey env masterKey 0) masterKey (draw.nonces 0) 0) else none

theorem plain_file : Plain [file] := by
  intro f hf
  obtain rfl := mem_singleton.1 hf
  exact ⟨_, rfl⟩

theorem plainPaths (env : Env) : PlainPaths (manifestOf env draw [file]) := by
  intro listed hlisted
  obtain rfl := mem_singleton.1 hlisted
  exact ⟨_, rfl⟩

end Sample

/-- A backup of one file passes, and it is restored. -/
theorem verified_restores_sample : ∃ (env : Env) (report : VerifyReport),
    verifyBackup env (archiveFile env [file] true) (some masterKey) = .ok report ∧
    report.isOk = true ∧ ∃ m fs', restoreBackupEncrypted env disk
      (archiveFile env [file] true) ['r'] false masterKey = (.ok m, fs') := by
  obtain ⟨report, hverified, hok⟩ : ∃ report,
      verifyBackup plainEnv (archiveFile plainEnv [file] true) (some masterKey) = .ok report ∧ report.isOk = true := by
    decide +kernel
  have hplaced : placed (manifestOf plainEnv draw [file]) (archiveFile plainEnv [file] true).archive =
      [([x], hashHex plainEnv [1])] := by decide +kernel
  refine ⟨plainEnv, report, hverified, hok, (verified_restores_iff hverified hok (readManifest_archiveOf lawful plain_file)
    (plainPaths _) fresh_disk).2 ⟨fun _ => rfl, ?_, ?_⟩⟩
  · intro file hfile ns hns
    obtain rfl := mem_singleton.1 hfile
    obtain rfl : [x] = ns := Option.some.inj hns
    rw [hplaced]
    rfl
  · rw [hplaced]
    simp

/-- Without its key file, or without the entry of a file, a backup passes and is not restored. -/
theorem verified_not_restored : ∃ env : Env, env.Lawful ∧ ∀ f ∈ [archiveFile env [file] false, archiveFile env [] true],
      (∃ report, verifyBackup env f (some masterKey) = .ok report ∧ report.isOk = true) ∧
      ∀ m fs', restoreBackupEncrypted env disk f ['r'] false masterKey ≠ (.ok m, fs') := by
  have hfails : ∀ f ∈ [archiveFile plainEnv [file] false, archiveFile plainEnv [] true],
      (∃ report, verifyBackup plainEnv f (some masterKey) = .ok report ∧ report.isOk = true) ∧
      (restoreBackupEncrypted plainEnv disk f ['r'] false masterKey).1.isOk = false := by
    decide +kernel
  refine ⟨plainEnv, lawful, fun f hf => ⟨(hfails f hf).1, fun m fs' hrestore => ?_⟩⟩
  have hfailed := (hfails f hf).2
  rw [hrestore] at hfailed
  cases hfailed

end VectorLedger.Backup
