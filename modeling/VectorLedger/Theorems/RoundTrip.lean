import VectorLedger.Theorems.Gather
import VectorLedger.Theorems.Texts

/-! A backup that is restored with the same master key. Every file comes back under the name it has in the archive. -/

namespace VectorLedger.Backup

open List FileSystem JournalEntry

variable {env : Env} {fs fs₂ made : Fs Bytes} {dataDir target path : Text} {D T : List Name} {master key : Key} {draw : Draw}
  {force : Bool}

/-! ### Round trips of the parts -/

/-- What is encrypted or written as JSON is read back as it was. -/
structure Env.Lawful (env : Env) : Prop where
  crypto : env.crypto.Lawful
  manifest : ∀ m, env.manifestFromJson (env.manifestToJson m) = some m
  sidecar : ∀ s, env.sidecarFromJson (env.sidecarToJson s) = some s

theorem decrypt_encrypt (lawful : env.crypto.Lawful) (nonce : Wal.Nonce) (plaintext aad : Bytes) :
    decrypt env key (encrypt env key nonce plaintext aad) aad = some plaintext := by
  have hlen : nonce.toList.length = 12 := by simp
  unfold decrypt encrypt
  rw [if_neg (by rw [length_append]; omega), take_left' hlen, drop_left' hlen]
  exact lawful.decrypt_encrypt _ _ _ _

theorem readKeySidecar_of_opens {nonce : Wal.Nonce} {tsUnix : Nat}
    (sidecar : ∀ s, env.sidecarFromJson (env.sidecarToJson s) = some s)
    (opens : decrypt env (env.derive master keyWrapContext)
      (encrypt env (env.derive master keyWrapContext) nonce key.toList (utf8 keyWrapContext)) (utf8 keyWrapContext) =
        some key.toList) :
    readKeySidecar env path (some (writeKeySidecar env key master nonce tsUnix)) master = .ok key := by
  unfold readKeySidecar writeKeySidecar
  simp only [sidecar, FourEyes.hexDecode_hexEncode, opens]
  rw [dif_pos (by simp)]
  congr 1

theorem readKeySidecar_written (lawful : env.Lawful) (nonce : Wal.Nonce) (tsUnix : Nat) :
    readKeySidecar env path (some (writeKeySidecar env key master nonce tsUnix)) master = .ok key :=
  readKeySidecar_of_opens lawful.sidecar (decrypt_encrypt lawful.crypto _ _ _)

theorem logicalName_enc (s : Text) : logicalName true (s ++ encSuffix) = s := by
  have hsuffix : encSuffix.isSuffixOf (s ++ encSuffix) = true := by
    rw [isSuffixOf_iff_suffix]
    exact suffix_append _ _
  have hlen : (s ++ encSuffix).length - 4 = s.length := by simp [encSuffix]
  rw [logicalName, Bool.true_and, if_pos hsuffix, hlen, take_left' rfl]

theorem enc_ne_manifest (s : Text) : s ++ encSuffix ≠ manifestName := by
  intro h
  have := congrArg getLast? h
  rw [getLast?_append] at this
  revert this
  simp [encSuffix, manifestName]

theorem entryFile_archiveEntry (lawful : env.Lawful) (nonce : Wal.Nonce) {ns : List Name} (ne : ns ≠ []) (data : Bytes) :
    entryFile env true (some key) (archiveEntry env (some key) nonce (Path.display ns, data)) = some (ns, data) := by
  simp only [entryFile_eq_some, archiveEntry, storedName_display ne, logicalName_enc, parse_display ne]
  exact ⟨enc_ne_manifest _, Path.names_ofNames ne, decrypt_encrypt lawful.crypto _ _ _⟩

/-! ### The archive of a tree -/

def archiveOf (env : Env) (key : Key) (nonces : Nat → Wal.Nonce) (files : List (Text × Bytes)) (m : BackupManifest) : Archive :=
  ⟨(files.mapIdx fun i file => archiveEntry env (some key) (nonces i) file) ++ [⟨manifestName, env.manifestToJson m⟩], false⟩

def manifestOf (env : Env) (draw : Draw) (files : List (Text × Bytes)) : BackupManifest where
  vledgerVersion := AuditPackage.vledgerVersion
  createdAtUnix := draw.tsUnix
  createdAtRfc := draw.tsRfc
  files := manifestFiles env files
  manifestHash := computeManifestHash env (manifestFiles env files)
  encrypted := true

variable {files : List (Text × Bytes)} {nonces : Nat → Wal.Nonce} {m : BackupManifest}

theorem createBackup_eq (leads : fs.Leads (.parse dataDir) D)
    (gathered : gather fs (.parse dataDir) D = .ok files) : createBackupEncrypted env fs dataDir master draw = .ok
      { archive := archiveOf env (deriveBackupKey env master draw.tsUnix) draw.nonces files (manifestOf env draw files)
        sidecar := some (writeKeySidecar env (deriveBackupKey env master draw.tsUnix) master (draw.nonces files.length) draw.tsUnix)
        manifest := manifestOf env draw files } := by
  unfold createBackupEncrypted createBackupInner
  simp only [leads.canonicalize, gathered]
  rfl

/-- The names are relative paths of plain names. -/
def Plain (files : List (Text × Bytes)) : Prop := ∀ file ∈ files, ∃ ns, (Path.parse file.1).names = some ns

theorem mem_entries {e : Entry} (h : e ∈ (archiveOf env key nonces files m).entries) (hname : e.name ≠ manifestName) :
    ∃ file ∈ files, ∃ nonce, e = archiveEntry env (some key) nonce file := by
  rcases mem_append.1 h with h | h
  · obtain ⟨i, hi, rfl⟩ := mem_mapIdx.1 h
    exact ⟨_, getElem_mem hi, _, rfl⟩
  · obtain rfl := mem_singleton.1 h
    exact absurd rfl hname

theorem entry_of_mem {file : Text × Bytes} (h : file ∈ files) :
    ∃ nonce, archiveEntry env (some key) nonce file ∈ (archiveOf env key nonces files m).entries := by
  obtain ⟨i, hi, rfl⟩ := mem_iff_getElem.1 h
  exact ⟨nonces i, mem_append_left _ (mem_mapIdx.2 ⟨i, hi, rfl⟩)⟩

theorem readManifest_archiveOf (lawful : env.Lawful) (plain : Plain files)
    {parseError : String} : readManifest env parseError (archiveOf env key nonces files m) = .ok m := by
  have hnone : (files.mapIdx fun i file => archiveEntry env (some key) (nonces i) file).find? (·.name = manifestName) = none := by
    rw [find?_eq_none]
    intro e he
    obtain ⟨i, hi, rfl⟩ := mem_mapIdx.1 he
    obtain ⟨ns, hns⟩ := plain _ (getElem_mem hi)
    obtain ⟨s, hs, -⟩ := storedName_enc hns
    simp [archiveEntry, hs, enc_ne_manifest]
  unfold readManifest archiveOf
  simp only [find?_append, hnone, Option.none_or]
  simp [lawful.manifest]

theorem mem_filterMap_entries (lawful : env.Lawful) {ns : List Name} {data : Bytes}
    (shown : ∀ file ∈ files, ∃ ns, ns ≠ [] ∧ file.1 = Path.display ns) (ne : ns ≠ []) :
    (ns, data) ∈ (archiveOf env key nonces files m).entries.filterMap (entryFile env true (some key)) ↔
      (Path.display ns, data) ∈ files := by
  rw [mem_filterMap]
  constructor
  · rintro ⟨e, he, hfile⟩
    obtain ⟨⟨s, data'⟩, hmem, nonce, rfl⟩ := mem_entries he (entryFile_eq_some.1 hfile).1
    obtain ⟨ns', hne', rfl : s = _⟩ := shown _ hmem
    rw [entryFile_archiveEntry lawful nonce hne'] at hfile
    cases hfile
    exact hmem
  · intro hmem
    obtain ⟨nonce, he⟩ := entry_of_mem hmem
    exact ⟨_, he, entryFile_archiveEntry lawful nonce ne data⟩

/-! ### Backing up and restoring -/

theorem lookup_of_mem {files : List (List Name × Bytes)} {ns : List Name} {data : Bytes} (h : (ns, data) ∈ files)
    (same : ∀ data', (ns, data') ∈ files → data' = data) : files.lookup ns = some data := by
  obtain ⟨data', hdata⟩ := Option.ne_none_iff_exists'.1 (Fs.lookup_ne_none h)
  rw [hdata, same data' (Fs.mem_of_lookup hdata)]

theorem restoreKey_written (lawful : env.Lawful) {a : Archive} (hm : m.encrypted = true) (nonce : Wal.Nonce) :
    restoreKey env ⟨path, a, some (writeKeySidecar env key master nonce draw.tsUnix)⟩ m (some master) = .ok (some key) := by
  rw [restoreKey, if_pos hm, readKeySidecar_written lawful]
  rfl

/-- A backup whose names are those of its files is restored into a fresh target. There are then its files and no others. -/
theorem backup_restored (master : Key) (draw : Draw) (path : Text) (force : Bool) (lawful : env.Lawful)
    (tree : Tree fs (.parse dataDir) D) (place : InPlace fs (.parse dataDir) D) (fresh : Fresh fs₂ target T made) :
    ∃ created fs', createBackupEncrypted env fs dataDir master draw = .ok created ∧
      restoreBackupEncrypted env fs₂ ⟨path, created.archive, created.sidecar⟩ target force master =
        (.ok created.manifest, fs') ∧
      ∀ ns data, fs'.fileAt (T ++ ns) = some data ↔ RestoredAt fs (.parse dataDir) D ns data := by
  obtain ⟨files, hgather, hmem⟩ := gather_spec tree
  simp only [backed_iff tree.leads place] at hmem
  let backupKey := deriveBackupKey env master draw.tsUnix
  let m := manifestOf env draw files
  let a := archiveOf env backupKey draw.nonces files m
  let written := (a.entries.filterMap (entryFile env true (some backupKey))).reverse
  have hshown : ∀ file ∈ files, ∃ ns, ns ≠ [] ∧ file.1 = Path.display ns := by
    intro file hfile
    obtain ⟨ns, hat, hs⟩ := (hmem file).1 hfile
    exact ⟨ns, hat.ne_nil, hs⟩
  have hnames : ∀ file ∈ files, ∃ ns, (Path.parse file.1).names = some ns ∧ RestoredAt fs (.parse dataDir) D ns file.2 := by
    intro file hfile
    obtain ⟨ns, hat, hs⟩ := (hmem file).1 hfile
    exact ⟨ns, by rw [hs, parse_display hat.ne_nil, Path.names_ofNames hat.ne_nil], hat⟩
  -- What the entries hold is what is to be restored.
  have hwritten (ns : List Name) (data : Bytes) : (ns, data) ∈ written ↔ RestoredAt fs (.parse dataDir) D ns data := by
    rw [mem_reverse]
    constructor
    · intro hw
      have hne : ns ≠ [] := by
        obtain ⟨e, -, hfile⟩ := mem_filterMap.1 hw
        exact (Path.names_eq_some.1 (entryFile_eq_some.1 hfile).2.1).2.2.2
      obtain ⟨ns', hns', hat⟩ := hnames _ ((mem_filterMap_entries lawful hshown hne).1 hw)
      rw [parse_display hne, Path.names_ofNames hne] at hns'
      rwa [Option.some.inj hns']
    · intro hat
      exact (mem_filterMap_entries lawful hshown hat.ne_nil).2 ((hmem _).2 ⟨ns, hat, rfl⟩)
  have hfit : AllFit written := by
    rw [allFit_iff]
    rintro ⟨ns, data⟩ hf ⟨ns', data'⟩ hg hpre
    exact (((hwritten ns data).1 hf).fit ((hwritten ns' data').1 hg) hpre).1
  have hentries : ∀ e ∈ a.entries, e.name ≠ manifestName → ∃ file, entryFile env true (some backupKey) e = some file := by
    intro e he hname
    obtain ⟨⟨s, data⟩, hfile, nonce, rfl⟩ := mem_entries he hname
    obtain ⟨ns, hne, rfl : s = _⟩ := hshown _ hfile
    exact ⟨_, entryFile_archiveEntry lawful nonce hne data⟩
  have hlookup {ns : List Name} {data : Bytes} (hat : RestoredAt fs (.parse dataDir) D ns data) :
      written.lookup ns = some data := by
    refine lookup_of_mem ((hwritten ns data).2 hat) fun data' hdata' => ?_
    exact (((hwritten ns data').1 hdata').fit hat prefix_rfl).2
  -- Files with one name have one content, so the manifest has the hash of each.
  have hsame : ∀ f ∈ files, ∀ g ∈ files, f.1 = g.1 → hashHex env f.2 = hashHex env g.2 := by
    intro f hf g hg heq
    obtain ⟨ns, hns, hat⟩ := hnames f hf
    obtain ⟨ns', hns', hat'⟩ := hnames g hg
    rw [heq, hns'] at hns
    cases hns
    rw [(hat.fit hat' prefix_rfl).2]
  have hlisted : ∀ file ∈ m.files.entries, ∃ ns data, (Path.parse file.1).names = some ns ∧
      written.lookup ns = some data ∧ hashHex env data = file.2 := by
    intro file hfile
    obtain ⟨f, hf, rfl⟩ := ((SortedMap.mem_foldl_insert hsame (by simp [SortedMap.empty])).1 hfile).resolve_left
      (by simp [SortedMap.empty])
    obtain ⟨ns, hns, hat⟩ := hnames f hf
    exact ⟨ns, f.2, hns, hlookup hat, rfl⟩
  obtain ⟨fs', hrestore, hholds⟩ := restore_ok force fresh
    (readManifest_archiveOf lawful fun file hfile => (hnames file hfile).imp fun _ h => h.1) (decide_eq_true rfl)
    (restoreKey_written lawful rfl _) rfl hentries rfl hfit hlisted
  refine ⟨_, fs', createBackup_eq tree.leads hgather, hrestore, fun ns data => ?_⟩
  rw [hholds.fileAt]
  exact ⟨fun hdata => (hwritten ns data).1 (Fs.mem_of_lookup hdata), hlookup⟩

/-- What is restored lies where the names in the archive lead. -/
theorem there_of_restored {fs' : Fs Bytes} {nonce : Wal.Nonce} (lawful : env.Lawful) (plain : Plain files) (hm : m.encrypted = true)
    (fresh : Fresh fs₂ target T made) (restored : restoreBackupEncrypted env fs₂ ⟨path, archiveOf env key nonces files m,
      some (writeKeySidecar env key master nonce draw.tsUnix)⟩ target force master = (.ok m, fs'))
    {file : Text × Bytes} {ns : List Name} (hfile : file ∈ files) (names : (Path.parse file.1).names = some ns) :
    fs'.fileAt (T ++ ns) ≠ none := by
  obtain ⟨-, -, key', hkey, hextract, -⟩ := (restore_fresh_iff fresh).1 restored
  cases (restoreKey_written lawful hm nonce).symm.trans hkey
  rw [hm] at hextract
  have hlogical {file : Text × Bytes} {ns : List Name} (hns : (Path.parse file.1).names = some ns) (nonce : Wal.Nonce) :
      (archiveEntry env (some key) nonce file).name ≠ manifestName ∧
        (Path.parse (logicalName true (archiveEntry env (some key) nonce file).name)).names = some ns := by
    obtain ⟨s, hs, hnames⟩ := storedName_enc hns
    simp only [archiveEntry, hs, logicalName_enc]
    exact ⟨enc_ne_manifest s, hnames⟩
  obtain ⟨-, hholds, -, -, hopened⟩ := holds_of_extractAll hextract (fun e he hname _ _ => by
    obtain ⟨file, hfile, nonce, rfl⟩ := mem_entries he hname
    obtain ⟨ns, hns⟩ := plain file hfile
    exact ⟨ns, (hlogical hns nonce).2⟩) fresh.empty fresh.leads List.Pairwise.nil
  obtain ⟨nonce, he⟩ : ∃ nonce, archiveEntry env (some key) nonce file ∈ (archiveOf env key nonces files m).entries :=
    entry_of_mem hfile
  obtain ⟨data, hdata⟩ := hopened _ he (hlogical names nonce).1 ns (hlogical names nonce).2
  rw [hholds.fileAt, append_nil]
  exact Fs.lookup_ne_none (mem_reverse.2 (mem_filterMap.2 ⟨_, he, hdata⟩))

/-- The four directories of a restored backup are those that were backed up exactly if the data directory was given by its
    canonical path, or there was nothing in them. -/
theorem round_trip_iff (lawful : env.Lawful) (tree : Tree fs (.parse dataDir) D) (fresh : Fresh fs₂ target T made) :
    (∃ created m fs', createBackupEncrypted env fs dataDir master draw = .ok created ∧
      restoreBackupEncrypted env fs₂ ⟨path, created.archive, created.sidecar⟩ target force master = (.ok m, fs') ∧
      ∀ d ∈ backupDirs, ∀ q, fs'.fileAt (T ++ d :: q) = fs.fileAt (D ++ d :: q)) ↔
    Canonical (.parse dataDir) D ∨ ∀ d ∈ backupDirs, ∀ q, fs.fileAt (D ++ d :: q) = none := by
  constructor
  · rintro ⟨created, m, fs', hcreate, hrestore, hsame⟩
    by_contra hcontra
    obtain ⟨hother, hsome⟩ := not_or.1 hcontra
    push Not at hsome
    obtain ⟨d, hd, q₀, hq₀⟩ := hsome
    obtain ⟨files, hgather, hmem⟩ := gather_spec tree
    cases (createBackup_eq tree.leads hgather).symm.trans hcreate
    have hplain := names_of_gather tree.leads.nonempty hgather
    obtain ⟨hmanifest, -⟩ := (restore_fresh_iff fresh).1 hrestore
    cases (readManifest_archiveOf lawful hplain).symm.trans hmanifest
    -- With a file there is a longer one, again and again.
    have hlonger : ∀ n, ∃ q, n ≤ q.length ∧ fs.fileAt (D ++ d :: q) ≠ none := by
      intro n
      induction n with
      | zero => exact ⟨q₀, Nat.zero_le _, hq₀⟩
      | succ n ih =>
        obtain ⟨q, hlen, hq⟩ := ih
        obtain ⟨data, hdata⟩ := Option.ne_none_iff_exists'.1 hq
        have hne : q ≠ [] := by
          rintro rfl
          exact hq (tree.dirs d hd)
        have hfile : (relativeName ((Path.parse dataDir).below [d]) d (D ++ d :: q), data) ∈ files :=
          (hmem _).2 (.inl ⟨d, hd, q, hne, hdata, rfl⟩)
        have hat := there_of_restored lawful hplain rfl fresh hrestore hfile
          (names_relativeName_other hother tree.leads (Fs.there_of_fileAt hdata))
        rw [hsame d hd] at hat
        refine ⟨D ++ d :: q, ?_, hat⟩
        rw [length_append, length_cons]
        omega
    obtain ⟨q, hlen, hq⟩ := hlonger (depth fs + 1)
    obtain ⟨data, hdata⟩ := Option.ne_none_iff_exists'.1 hq
    have := length_le_depth (q := D ++ d :: q) (Fs.there_of_fileAt hdata)
    rw [length_append, length_cons] at this
    omega
  · intro hplace
    obtain ⟨created, fs', hcreate, hrestore, hfiles⟩ := backup_restored master draw path force lawful tree hplace fresh
    refine ⟨created, _, fs', hcreate, hrestore, fun d hd q => Option.ext fun data => ?_⟩
    rw [hfiles]
    constructor
    · rintro (⟨d', hd', q', hq', hfile, heq⟩ | ⟨heq, -⟩)
      · obtain ⟨rfl, rfl⟩ := cons.inj heq
        exact hfile
      · exact absurd ((cons.inj heq).1 ▸ hd) keys_notMem
    · intro hfile
      refine .inl ⟨d, hd, q, ?_, hfile, rfl⟩
      rintro rfl
      rw [tree.dirs d hd] at hfile
      cases hfile

namespace Sample

/-! Manifests and key files are written as lists of numbers. -/

def writeNumber (n : Nat) : Bytes := replicate (n / 200) 1 ++ [UInt8.ofNat (n % 200 + 2)]

def write (ls : List (List Nat)) : Bytes := ls.flatMap fun ns => ns.flatMap writeNumber ++ [0]

def readByte (b : UInt8) (ls : List (List Nat)) : List (List Nat) :=
  if b = 0 then [] :: ls
  else if b = 1 then ls.modifyHead (·.modifyHead (· + 200))
  else ls.modifyHead ((b.toNat - 2) :: ·)

theorem foldr_writeNumber (n : Nat) (ns : List Nat) (ls : List (List Nat)) :
    (writeNumber n).foldr readByte (ns :: ls) = (n :: ns) :: ls := by
  have hones (k n : Nat) : (replicate k 1).foldr readByte ((n :: ns) :: ls) = ((n + 200 * k) :: ns) :: ls := by
    induction k with
    | zero => rfl
    | succ k ih => simp [replicate_succ, ih, readByte, Nat.mul_succ, Nat.add_assoc]
  have hbyte : ∀ k < 200, UInt8.ofNat (k + 2) ≠ 0 ∧ UInt8.ofNat (k + 2) ≠ 1 ∧ (UInt8.ofNat (k + 2)).toNat - 2 = k := by
    decide +kernel
  obtain ⟨hzero, hone, hlast⟩ := hbyte (n % 200) (Nat.mod_lt _ (by decide))
  rw [writeNumber, foldr_append, foldr_cons, readByte, if_neg hzero, if_neg hone, hlast]
  exact (hones _ _).trans (by rw [Nat.mod_add_div])

theorem foldr_write (ls : List (List Nat)) : (write ls).foldr readByte [] = ls := by
  have hnumbers (ns ms : List Nat) (ls : List (List Nat)) :
      (ns.flatMap writeNumber).foldr readByte (ms :: ls) = (ns ++ ms) :: ls := by
    induction ns with
    | nil => rfl
    | cons n ns ih => rw [flatMap_cons, foldr_append, ih, foldr_writeNumber, cons_append]
  induction ls with
  | nil => rfl
  | cons ns ls ih =>
    rw [write, flatMap_cons, foldr_append, ← write, ih, foldr_append, foldr_cons, foldr_nil, readByte, if_pos rfl, hnumbers,
      append_nil]

def numbers (s : String) : List Nat := s.toList.map Char.toNat

def text (ns : List Nat) : String := .ofList (ns.map Char.ofNat)

@[simp] theorem text_numbers (s : String) : text (numbers s) = s := by
  simp [text, numbers, Function.comp_def]

def filesOf : List (List Nat) → List (Text × String)
  | path :: hash :: ls => ((text path).toList, text hash) :: filesOf ls
  | _ => []

def fileNumbers (files : List (Text × String)) : List (List Nat) := files.flatMap fun f => [numbers (.ofList f.1), numbers f.2]

@[simp] theorem filesOf_fileNumbers (files : List (Text × String)) : filesOf (fileNumbers files) = files := by
  induction files with
  | nil => rfl
  | cons f files ih => simpa [fileNumbers, filesOf] using ih

def manifestOfNumbers : List (List Nat) → Option BackupManifest
  | version :: [unix] :: rfc :: hash :: [encrypted] :: files =>
    if h : (filesOf files).Pairwise fun a b => a.1 < b.1 then
      some ⟨text version, unix, text rfc, ⟨_, h⟩, text hash, encrypted = 1⟩
    else none
  | _ => none

def envOf (crypto : Wal.Crypto) (derive : Key → String → Key) : Env where
  crypto := crypto
  blake3 _ := zeroHash
  derive := derive
  manifestToJson m := write (numbers m.vledgerVersion :: [m.createdAtUnix] :: numbers m.createdAtRfc ::
    numbers m.manifestHash :: [m.encrypted.toNat] :: fileNumbers m.files.entries)
  manifestFromJson bs := manifestOfNumbers (bs.foldr readByte [])
  sidecarToJson s := write [numbers s.wrappedKeyHex, numbers s.kdfContext]
  sidecarFromJson bs :=
    match bs.foldr readByte [] with
    | [key, context] => some ⟨text key, text context⟩
    | _ => none

def tag (aad : Bytes) : Bytes := (List.range 16).map fun i => aad.getD i 0

/-- A cipher that leaves the text as it is, with the associated data behind it. -/
def crypto : Wal.Crypto where
  crc32 _ := 0
  deriveSegmentKey key _ := key
  encrypt _ _ aad msg := msg ++ tag aad
  decrypt _ _ aad ct := if ct.drop (ct.length - 16) = tag aad then some (ct.take (ct.length - 16)) else none

def plainEnv : Env := envOf crypto fun key _ => key

theorem lawful : plainEnv.Lawful where
  crypto := ⟨by simp [plainEnv, envOf, crypto, tag], by simp [plainEnv, envOf, crypto, tag]⟩
  manifest m := by
    obtain ⟨_, _, _, ⟨files, sorted⟩, _, _⟩ := m
    simp [plainEnv, envOf, foldr_write, manifestOfNumbers, sorted]
  sidecar s := by simp [plainEnv, envOf, foldr_write]

def d : Name := ⟨['d'], by decide⟩

def x : Name := ⟨['x'], by decide⟩

def r : Name := ⟨['r'], by decide⟩

def disk : Fs Bytes :=
  ((Fs.root.put [d] .dir (by decide)).put [d, wal] .dir (by decide)).put [d, wal, x] (.file [1]) (by decide)

def diskMade : Fs Bytes := disk.put [r] .dir (by decide)

theorem get_disk (q : List Name) : disk.get q =
    if q = [d, wal, x] then some (.file [1]) else if q = [d, wal] then some .dir else if q = [d] then some .dir
    else if q = [] then some .dir else none := by
  unfold disk
  rw [Fs.get_put, Fs.get_put, Fs.get_put]
  congr 3

theorem tree_disk {p : Path} (leads : disk.Leads p [d]) : Tree disk p [d] where
  leads := leads
  free dir hdir q t h := by
    rw [get_disk] at h
    split_ifs at h <;> cases h
  dirs := by decide
  key := by
    intro q hq
    obtain ⟨c, hc⟩ := Fs.canonicalize_init leads.nonempty [keys] pubkey hq
    rw [leads.missing_child (by rw [get_disk]; decide)] at hc
    cases hc

theorem fresh_disk : Fresh disk ['r'] [r] diskMade where
  missing := by decide
  creates := rfl
  canonical := rfl
  empty := by
    refine Fs.holds_nil rfl fun q hq => ?_
    rw [diskMade, Fs.get_put, if_neg (by simpa using hq), get_disk]
    simp [r, d]

end Sample

open Backup.Sample

/-- Given by its absolute path, the data directory comes back as it was. -/
theorem round_trip_absolute : ∃ env : Env, env.Lawful ∧ ∃ created m fs',
    createBackupEncrypted env disk ['/', 'd'] (Vector.replicate 32 0) ⟨0, "", fun _ => Vector.replicate 12 0⟩ =
      .ok created ∧
    restoreBackupEncrypted env disk ⟨['b'], created.archive, created.sidecar⟩ ['r'] false (Vector.replicate 32 0) =
      (.ok m, fs') ∧
    ∀ d ∈ backupDirs, ∀ q, fs'.fileAt ([Sample.r] ++ d :: q) = Sample.disk.fileAt ([Sample.d] ++ d :: q) :=
  ⟨plainEnv, lawful, (round_trip_iff lawful (tree_disk ⟨rfl, rfl, rfl⟩) fresh_disk).2 (.inl (by decide))⟩

/-- Given by a relative path, it cannot be restored: its file was encrypted for a name with two slashes, and tar has stored
    one of them. -/
theorem round_trip_relative : ∃ env : Env, env.Lawful ∧ disk.fileAt [d, wal, x] = some [1] ∧ ∃ created,
    createBackupEncrypted env disk ['d'] (Vector.replicate 32 0) ⟨0, "", fun _ => Vector.replicate 12 0⟩ = .ok created ∧
    ∃ failure, (restoreBackupEncrypted env disk ⟨['b'], created.archive, created.sidecar⟩ ['r'] false
        (Vector.replicate 32 0)).1 = .error failure ∧
      failure.context = "Decryption failed for 'wal/d/wal/x' — wrong key or corrupted archive" :=
  ⟨plainEnv, lawful, rfl, by decide +kernel⟩

end VectorLedger.Backup
