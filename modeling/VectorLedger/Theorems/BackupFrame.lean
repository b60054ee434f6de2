import VectorLedger.Theorems.BackupTamper

/-! What a restore changes. With names that the guard can judge, and with plain names where there are no links, no file
    outside the target changes. -/

namespace VectorLedger.Backup

open FileSystem

variable {env : Env} {fs fs' : Fs Bytes} {target : Text} {T q : List Name} {encrypted damaged : Bool} {backupKey : Option Key}
  {e : Entry} {es : List Entry} {f : ArchiveFile} {master : Option Key} {force : Bool}

def destOf (target : Text) (encrypted : Bool) (e : Entry) : Path :=
  (Path.parse target).join (.parse (logicalName encrypted e.name))

/-- An entry that goes where the guard has looked: what it names is there; or its directory is, and the name there is not
    that of a link; or it has a plain name, and there are no links in the target. -/
inductive Guarded (fs : Fs Bytes) (target : Text) (T : List Name) (encrypted : Bool) (e : Entry) : Prop where
  | manifest (name : e.name = manifestName)
  | present (q : List Name) (canonical : fs.canonicalize (destOf target encrypted e) = .ok q)
  | inside (parent : Path) (c : List Name) (n : Name) (above : (destOf target encrypted e).parent = some parent)
      (canonical : fs.canonicalize parent = .ok c) (name : (destOf target encrypted e).fileName = some n)
      (nolink : ∀ t, fs.get (c ++ [n]) ≠ some (.link t))
  | plain (ns : List Name) (names : (Path.parse (logicalName encrypted e.name)).names = some ns) (free : fs.LinkFree T)

/-! ### One entry -/

/-- Everything is still there, and nothing outside a directory has changed. -/
structure Within (fs fs' : Fs Bytes) (T : List Name) : Prop where
  ext : fs.Extends fs'
  outside : ∀ q, ¬T <+: q → fs'.get q = fs.get q

theorem Within.refl (fs : Fs Bytes) (T : List Name) : Within fs fs T := ⟨.refl fs, fun _ _ => rfl⟩

theorem Within.trans {fs'' : Fs Bytes} (h : Within fs fs' T) (h' : Within fs' fs'' T) : Within fs fs'' T :=
  ⟨h.ext.trans h'.ext, fun q hq => (h'.outside q hq).trans (h.outside q hq)⟩

theorem extractEntry_cases : (extractEntry env target T encrypted backupKey fs e).2 = fs ∨
    (escapes fs T (destOf target encrypted e) = false ∧
      ((extractEntry env target T encrypted backupKey fs e).2 = (createParents fs (destOf target encrypted e)).2 ∨
        ∃ plain, (createParents fs (destOf target encrypted e)).1 = .ok () ∧
          (createParents fs (destOf target encrypted e)).2.write (destOf target encrypted e) plain =
            .ok (extractEntry env target T encrypted backupKey fs e).2)) := by
  have hdest : (Path.parse target).join (.parse (logicalName encrypted e.name)) = destOf target encrypted e := rfl
  simp only [extractEntry, hdest]
  split
  · exact .inl rfl
  · split
    · exact .inl rfl
    · next hescapes =>
      refine .inr ⟨by simpa using hescapes, ?_⟩
      split
      · next hcreate => exact .inl (by rw [hcreate])
      · next fs₁ hcreate =>
        split
        · exact .inl (by rw [hcreate])
        · next plain hopen =>
          split
          · exact .inl (by rw [hcreate])
          · next fs₂ hwrite => exact .inr ⟨plain, by rw [hcreate], by rw [hcreate]; exact hwrite⟩

theorem extractEntry_within
    (parents : escapes fs T (destOf target encrypted e) = false →
      Within fs (createParents fs (destOf target encrypted e)).2 T)
    (place : escapes fs T (destOf target encrypted e) = false → (createParents fs (destOf target encrypted e)).1 = .ok () →
      ∀ q, (createParents fs (destOf target encrypted e)).2.locate (destOf target encrypted e) = .ok q → T <+: q) :
    Within fs (extractEntry env target T encrypted backupKey fs e).2 T := by
  rcases (extractEntry_cases : (extractEntry env target T encrypted backupKey fs e).2 = fs ∨ _) with
    hsame | ⟨hescapes, hmade | ⟨plain, hok, hwrite⟩⟩
  · rw [hsame]
    exact .refl fs T
  · rw [hmade]
    exact parents hescapes
  · refine (parents hescapes).trans ⟨Fs.extends_write hwrite, fun q hq => ?_⟩
    obtain ⟨q', hlocate, hframe⟩ := Fs.get_write hwrite
    exact hframe q fun heq => hq (heq ▸ place hescapes hok q' hlocate)

theorem createParents_of_canonicalize {dest : Path} (h : fs.canonicalize dest = .ok q) : (createParents fs dest).2 = fs := by
  unfold createParents
  split
  · next parent hparent => exact Fs.createDirAll_parent h hparent
  · rfl

theorem Guarded.within (h : Guarded fs target T encrypted e) (leads : fs.Leads (.parse target) T) :
    Within fs (extractEntry env target T encrypted backupKey fs e).2 T := by
  by_cases hthere : ∃ q, fs.canonicalize (destOf target encrypted e) = .ok q
  · obtain ⟨q, hq⟩ := hthere
    have hparents := createParents_of_canonicalize hq
    refine extractEntry_within (fun _ => by rw [hparents]; exact .refl fs T) fun hescapes _ q' hq' => ?_
    rw [hparents, Fs.locate_of_canonicalize hq] at hq'
    cases hq'
    rw [escapes, hq] at hescapes
    simpa using hescapes
  · cases h with
    | manifest name =>
      rw [extractEntry_manifest name]
      exact .refl fs T
    | present q canonical => exact absurd ⟨q, canonical⟩ hthere
    | inside parent c n above canonical name nolink =>
      have hparents : (createParents fs (destOf target encrypted e)).2 = fs := by
        rw [createParents, above]
        exact Fs.createDirAll_of_canonicalize canonical
      refine extractEntry_within (fun _ => by rw [hparents]; exact .refl fs T) fun hescapes _ q' hq' => ?_
      rw [hparents] at hq'
      rw [Fs.locate_of_parent above canonical name nolink hq']
      cases hdest : fs.canonicalize (destOf target encrypted e) with
      | ok q => exact absurd ⟨q, hdest⟩ hthere
      | error =>
        rw [escapes, hdest] at hescapes
        simpa [above, canonical, name] using hescapes
    | plain ns names free =>
      have hne := (Path.names_eq_some.1 names).2.2.2
      have hdest : destOf target encrypted e = (Path.parse target).below ns := Path.join_names leads.nonempty names
      obtain ⟨init, n, rfl⟩ := (List.eq_nil_or_concat ns).resolve_left hne
      rw [List.concat_eq_append] at hdest
      have hcreate : createParents fs (destOf target encrypted e) = fs.createDirAll ((Path.parse target).below init) := by
        rw [createParents, hdest, Fs.parent_below]
      by_cases hclear : fs.Clear T init
      · obtain ⟨fs₁, hdirs, hmade⟩ := Fs.createDirAll_below leads free hclear
        have hext := hmade.extends hclear free
        refine extractEntry_within (fun _ => ?_) fun _ _ q' hq' => ?_
        · rw [hcreate, hdirs]
          refine ⟨hext, fun q hq => hmade.frame q fun m _ heq => hq ?_⟩
          rw [heq]
          exact List.prefix_append T m
        · rw [hcreate, hdirs, hdest] at hq'
          rw [(leads.mono hext).locate_below (free.of_dirs hmade.new) (hmade.dirs init List.prefix_rfl)] at hq'
          cases hq'
          exact List.prefix_append T _
      · obtain ⟨err, hdirs⟩ := Fs.createDirAll_below_error leads free hclear
        refine extractEntry_within (fun _ => ?_) fun _ hok => ?_
        · rw [hcreate, hdirs]
          exact .refl fs T
        · rw [hcreate, hdirs] at hok
          cases hok

/-! ### A whole restore -/

/-- Each entry is guarded in the file system that it is extracted to. -/
def GuardedAll (env : Env) (target : Text) (T : List Name) (encrypted : Bool) (backupKey : Option Key) :
    Fs Bytes → List Entry → Prop
  | _, [] => True
  | fs, e :: es => Guarded fs target T encrypted e ∧
    ∀ fs', extractEntry env target T encrypted backupKey fs e = (.ok (), fs') →
      GuardedAll env target T encrypted backupKey fs' es

theorem extractAll_within (damaged : Bool) (guarded : GuardedAll env target T encrypted backupKey fs es)
    (leads : fs.Leads (.parse target) T) :
    Within fs (extractAll env target T encrypted backupKey damaged fs es).2 T := by
  induction es generalizing fs with
  | nil =>
    rw [extractAll]
    split
    · exact .refl fs T
    · exact .refl fs T
  | cons e es ih =>
    have hentry : Within fs (extractEntry env target T encrypted backupKey fs e).2 T := guarded.1.within leads
    rw [extractAll]
    split
    · next fs₁ hok =>
      rw [hok] at hentry
      exact hentry.trans (ih (guarded.2 fs₁ hok) (leads.mono hentry.ext))
    · exact hentry

/-- If every entry of an archive is guarded in the state that it meets, a restore changes no file outside the target, whether
    it succeeds or fails. -/
theorem restore_changes_no_file_outside
    (guarded : ∀ made T m backupKey, fs.createDirAll (.parse target) = (.ok (), made) →
      made.canonicalize (.parse target) = .ok T → readManifest env "Failed to parse MANIFEST.json" f.archive = .ok m →
      restoreKey env f m master = .ok backupKey → GuardedAll env target T m.encrypted backupKey made f.archive.entries)
    (outside : ∀ T, (fs.createDirAll (.parse target)).2.canonicalize (.parse target) = .ok T → ¬T <+: q) :
    (restoreBackupInner env fs f target force master).2.fileAt q = fs.fileAt q := by
  unfold restoreBackupInner
  split
  · rfl
  · split
    · rfl
    · next m hmanifest =>
      split
      · rfl
      · split
        · rfl
        · next backupKey hkey =>
          have hmade : (fs.createDirAll (.parse target)).2.fileAt q = fs.fileAt q := Fs.fileAt_makeDirs _ _ _ _
          unfold restoreInto
          cases hcreate : fs.createDirAll (.parse target) with
          | mk r made =>
            rw [hcreate] at hmade outside
            cases r with
            | error => exact hmade
            | ok =>
              simp only
              cases hcanonical : made.canonicalize (.parse target) with
              | error => exact hmade
              | ok T =>
                have hleads := Fs.leads_of_canonicalize hcanonical (Fs.dir_of_makeDirs hcreate hcanonical)
                have hwithin := extractAll_within f.archive.damaged
                  (guarded made T m backupKey hcreate hcanonical hmanifest hkey) hleads
                have hfile := Fs.fileAt_congr (hwithin.outside q (outside T hcanonical))
                simp only
                split
                · next hextract =>
                  rw [hextract] at hfile
                  exact hfile.trans hmade
                · next hextract =>
                  rw [hextract] at hfile
                  exact hfile.trans hmade

namespace Sample

def oneEntry (env : Env) (name : Text) : ArchiveFile := forgedFile env [⟨name, [9]⟩] [] false

def newX : Text := ['/', 'n', '/', 'x']

def n : Name := ⟨['n'], by decide⟩

end Sample

open Backup.Sample

/-- A file of the data directory stays as it is when an archive with a plain name is restored. -/
theorem restore_keeps_file_outside : ∃ env : Env,
    (restoreBackupInner env disk (oneEntry env walX) ['r'] false none).2.fileAt
      [d, wal, x] = some [1] := by
  obtain ⟨m, hread, hplain⟩ : ∃ m, readManifest plainEnv "Failed to parse MANIFEST.json" (oneEntry plainEnv walX).archive =
      .ok m ∧ m.encrypted = false := by decide +kernel
  refine ⟨plainEnv, (restore_changes_no_file_outside (fun made T _ backupKey hcreate hcanonical hm hkey => ?_) fun T hT => ?_).trans rfl⟩
  · obtain rfl : diskMade = made := (Prod.mk.inj (fresh_disk.creates.symm.trans hcreate)).2
    obtain rfl := Except.ok.inj (fresh_disk.canonical.symm.trans hcanonical)
    obtain rfl := Except.ok.inj (hread.symm.trans hm)
    exact ⟨.plain [wal, x] (by rw [hplain]; rfl) fresh_disk.empty.linkFree, fun fs' _ => ⟨.manifest rfl, fun _ _ => trivial⟩⟩
  · obtain rfl : [r] = T := Except.ok.inj hT
    decide

/-- An absolute name in a directory that is not there is written outside the target, and the restore succeeds. So is one
    that steps up. -/
theorem restore_writes_outside : ∃ env : Env, ∀ name ∈ [newX, '.' :: '.' :: newX], disk.fileAt [n, x] = none ∧
    ∃ m fs', restoreBackupInner env disk (oneEntry env name) ['r'] false none = (.ok m, fs') ∧
      fs'.fileAt [n, x] = some [9] :=
  ⟨plainEnv, by decide +kernel⟩

end VectorLedger.Backup
