import VectorLedger.Backup
import VectorLedger.Lib.Except
import VectorLedger.Lib.Directories

/-! Restoring into an empty directory: entries with plain names are put where their names say. -/

namespace VectorLedger.Backup

open List FileSystem

variable {env : Env} {target : Text} {T ns : List Name} {encrypted damaged : Bool} {backupKey : Option Key}
  {fs fs' : Fs Bytes} {e : Entry} {es : List Entry} {data : Bytes} {files : List (List Name × Bytes)}

/-! ### One entry -/

theorem escapes_below {p : Path} (leads : fs.Leads p T) (free : fs.LinkFree T) (ne : ns ≠ []) :
    escapes fs T (p.below ns) = false := by
  obtain ⟨init, n, rfl⟩ := (eq_nil_or_concat ns).resolve_left ne
  rw [concat_eq_append]
  unfold escapes
  by_cases hthere : fs.get (T ++ (init ++ [n])) = none
  · obtain ⟨e, he⟩ := leads.canonicalize_below_error free hthere
    rw [he, Fs.parent_below, Fs.fileName_below]
    by_cases habove : fs.get (T ++ init) = none
    · obtain ⟨e', he'⟩ := leads.canonicalize_below_error free habove
      simp [he']
    · simp [leads.canonicalize_below free habove]
  · simp [leads.canonicalize_below free hthere]

def entryFile (env : Env) (encrypted : Bool) (backupKey : Option Key) (e : Entry) : Option (List Name × Bytes) :=
  if e.name = manifestName then none
  else
    match (Path.parse (logicalName encrypted e.name)).names,
      openEntry env backupKey (logicalName encrypted e.name) e.data with
    | some ns, some data => some (ns, data)
    | _, _ => none

theorem entryFile_eq_some : entryFile env encrypted backupKey e = some (ns, data) ↔
    e.name ≠ manifestName ∧ (Path.parse (logicalName encrypted e.name)).names = some ns ∧
      openEntry env backupKey (logicalName encrypted e.name) e.data = some data := by
  unfold entryFile
  split
  · next h => simp [h]
  · next h =>
    cases (Path.parse (logicalName encrypted e.name)).names with
    | none => simp
    | some =>
      cases openEntry env backupKey (logicalName encrypted e.name) e.data with
      | none => simp
      | some => simp [h]

theorem extractEntry_manifest (h : e.name = manifestName) :
    extractEntry env target T encrypted backupKey fs e = (.ok (), fs) := by
  rw [extractEntry, if_pos h]

theorem extractEntry_closed (h : openEntry env backupKey (logicalName encrypted e.name) e.data = none) :
    extractEntry env target T encrypted backupKey fs e = (.ok (), fs) ∨
      ∃ f fs', extractEntry env target T encrypted backupKey fs e = (.error f, fs') := by
  unfold extractEntry
  split
  · exact .inl rfl
  · simp only
    split
    · exact .inl rfl
    · right
      split
      · exact ⟨_, _, rfl⟩
      · rw [h]
        exact ⟨_, _, rfl⟩

section
variable (holds : fs.Holds T files) (leads : fs.Leads (.parse target) T)
include holds leads

theorem extractEntry_closed_plain (hname : e.name ≠ manifestName)
    (names : (Path.parse (logicalName encrypted e.name)).names = some ns)
    (h : openEntry env backupKey (logicalName encrypted e.name) e.data = none) :
    ∃ f fs', extractEntry env target T encrypted backupKey fs e = (.error f, fs') := by
  have hdest := Path.join_names leads.nonempty names
  have hescapes := escapes_below leads holds.linkFree (Path.names_eq_some.1 names).2.2.2
  simp only [extractEntry, if_neg hname, hdest, hescapes, Bool.false_eq_true, if_false, h]
  split
  · exact ⟨_, _, rfl⟩
  · exact ⟨_, _, rfl⟩

theorem extractEntry_fits (h : entryFile env encrypted backupKey e = some (ns, data)) (fits : Fs.Fits files ns) :
    ∃ fs', extractEntry env target T encrypted backupKey fs e = (.ok (), fs') ∧ fs'.Holds T ((ns, data) :: files) ∧
      fs'.Leads (.parse target) T := by
  obtain ⟨hname, hnames, hopen⟩ := entryFile_eq_some.1 h
  have hne := (Path.names_eq_some.1 hnames).2.2.2
  have hdest := Path.join_names leads.nonempty hnames
  have hescapes := escapes_below leads holds.linkFree hne
  obtain ⟨init, n, rfl⟩ := (eq_nil_or_concat ns).resolve_left hne
  rw [concat_eq_append] at *
  obtain ⟨fs₁, fs₂, hdirs, hwrite, hholds, hleads⟩ := holds.place data leads fits
  refine ⟨fs₂, ?_, hholds, hleads⟩
  simp only [extractEntry, if_neg hname, hdest, hescapes, Bool.false_eq_true, if_false, createParents, Fs.parent_below, hdirs,
    hopen, hwrite]

theorem extractEntry_unfit (h : entryFile env encrypted backupKey e = some (ns, data)) (fits : ¬Fs.Fits files ns) :
    ∃ f fs', extractEntry env target T encrypted backupKey fs e = (.error f, fs') := by
  obtain ⟨hname, hnames, hopen⟩ := entryFile_eq_some.1 h
  have hne := (Path.names_eq_some.1 hnames).2.2.2
  have hdest := Path.join_names leads.nonempty hnames
  have hescapes := escapes_below leads holds.linkFree hne
  obtain ⟨init, n, rfl⟩ := (eq_nil_or_concat ns).resolve_left hne
  rw [concat_eq_append] at *
  simp only [extractEntry, if_neg hname, hdest, hescapes, Bool.false_eq_true, if_false, createParents, Fs.parent_below]
  rcases holds.place_error data leads fits with ⟨err, hdirs⟩ | ⟨fs₁, hdirs, hwrite⟩
  · exact ⟨_, _, by rw [hdirs]⟩
  · simp only [hdirs, hopen, hwrite]
    exact ⟨_, _, rfl⟩

end

/-! ### All entries -/

/-- Neither file stands where the other one needs a directory. -/
def Fit (f g : List Name × Bytes) : Prop := g.1 <+: f.1 ∨ f.1 <+: g.1 → g.1 = f.1

instance : Std.Symm Fit := ⟨fun _ _ hfg hpre => (hfg hpre.symm).symm⟩

/-- The files can stand side by side. -/
def AllFit (files : List (List Name × Bytes)) : Prop := files.Pairwise Fit

theorem allFit_iff : AllFit files ↔ ∀ f ∈ files, ∀ g ∈ files, f.1 <+: g.1 → f.1 = g.1 := by
  constructor
  · intro h f hf g hg hpre
    exact (List.Pairwise.forall_of_forall (fun _ _ _ => rfl) h hf hg (.inr hpre)).symm
  · intro h
    refine pairwise_of_forall_mem_list fun f hf g hg => ?_
    rintro (hpre | hpre)
    · exact h g hg f hf hpre
    · exact (h f hf g hg hpre).symm

/-- After entries that all came through, the files of those with plain names are there, and nothing else. -/
theorem holds_of_extractAll (ok : extractAll env target T encrypted backupKey damaged fs es = (.ok (), fs'))
    (plain : ∀ e ∈ es, e.name ≠ manifestName →
      ∀ data, openEntry env backupKey (logicalName encrypted e.name) e.data = some data →
        ∃ ns, (Path.parse (logicalName encrypted e.name)).names = some ns)
    (holds : fs.Holds T files) (leads : fs.Leads (.parse target) T) (fit : AllFit files) :
    damaged = false ∧ fs'.Holds T ((es.filterMap (entryFile env encrypted backupKey)).reverse ++ files) ∧
      fs'.Leads (.parse target) T ∧ AllFit ((es.filterMap (entryFile env encrypted backupKey)).reverse ++ files) ∧
      ∀ e ∈ es, e.name ≠ manifestName → ∀ ns, (Path.parse (logicalName encrypted e.name)).names = some ns →
        ∃ data, entryFile env encrypted backupKey e = some (ns, data) := by
  induction es generalizing fs files with
  | nil =>
    cases damaged with
    | true => cases ok
    | false =>
      obtain rfl := (Prod.mk.inj ok).2
      exact ⟨rfl, holds, leads, fit, by simp⟩
  | cons e es ih =>
    have hplain := fun e' he' => plain e' (mem_cons_of_mem e he')
    rw [extractAll] at ok
    cases hfile : entryFile env encrypted backupKey e with
    | none =>
      rw [filterMap_cons_none hfile]
      have hclosed : e.name ≠ manifestName → openEntry env backupKey (logicalName encrypted e.name) e.data = none := by
        intro hname
        by_contra hopen
        obtain ⟨data, hdata⟩ := Option.ne_none_iff_exists'.1 hopen
        obtain ⟨ns, hns⟩ := plain e mem_cons_self hname data hdata
        rw [entryFile_eq_some.2 ⟨hname, hns, hdata⟩] at hfile
        cases hfile
      -- The manifest, or an entry that is passed over.
      have hskip : extractEntry env target T encrypted backupKey fs e = (.ok (), fs) ∨
          ∃ f fs', extractEntry env target T encrypted backupKey fs e = (.error f, fs') := by
        by_cases hname : e.name = manifestName
        · exact .inl (extractEntry_manifest hname)
        · exact extractEntry_closed (hclosed hname)
      rcases hskip with hskip | ⟨f, fs₁, herror⟩
      · rw [hskip] at ok
        obtain ⟨hdamaged, hholds, hleads, hfit, hopened⟩ := ih ok hplain holds leads fit
        refine ⟨hdamaged, hholds, hleads, hfit, fun e' he' hname' ns hns => ?_⟩
        rcases mem_cons.1 he' with rfl | he'
        · obtain ⟨f, fs₁, herror⟩ := extractEntry_closed_plain holds leads hname' hns (hclosed hname')
          rw [hskip] at herror
          cases herror
        · exact hopened e' he' hname' ns hns
      · rw [herror] at ok
        cases ok
    | some file =>
      obtain ⟨ns, data⟩ := file
      rw [filterMap_cons_some hfile, reverse_cons, append_assoc, singleton_append]
      by_cases hfits : Fs.Fits files ns
      · obtain ⟨fs₁, hentry, hholds, hleads⟩ := extractEntry_fits holds leads hfile hfits
        rw [hentry] at ok
        obtain ⟨hdamaged, hholds', hleads', hfit, hopened⟩ := ih ok hplain hholds hleads (pairwise_cons.2 ⟨hfits, fit⟩)
        refine ⟨hdamaged, hholds', hleads', hfit, fun e' he' hname' ns' hns' => ?_⟩
        rcases mem_cons.1 he' with rfl | he'
        · obtain rfl := Option.some.inj ((entryFile_eq_some.1 hfile).2.1.symm.trans hns')
          exact ⟨data, hfile⟩
        · exact hopened e' he' hname' ns' hns'
      · obtain ⟨f, fs₁, herror⟩ := extractEntry_unfit holds leads hfile hfits
        rw [herror] at ok
        cases ok

theorem extractAll_ok (plain : ∀ e ∈ es, e.name ≠ manifestName → ∃ file, entryFile env encrypted backupKey e = some file)
    (holds : fs.Holds T files) (leads : fs.Leads (.parse target) T)
    (fit : AllFit ((es.filterMap (entryFile env encrypted backupKey)).reverse ++ files)) :
    ∃ fs', extractAll env target T encrypted backupKey false fs es = (.ok (), fs') := by
  induction es generalizing fs files with
  | nil => exact ⟨fs, rfl⟩
  | cons e es ih =>
    have hplain := fun e' he' => plain e' (mem_cons_of_mem e he')
    simp only [extractAll]
    by_cases hname : e.name = manifestName
    · have hfile : entryFile env encrypted backupKey e = none := by rw [entryFile, if_pos hname]
      rw [filterMap_cons_none hfile] at fit
      rw [extractEntry_manifest hname]
      exact ih hplain holds leads fit
    · obtain ⟨⟨ns, data⟩, hfile⟩ := plain e mem_cons_self hname
      rw [filterMap_cons_some hfile, reverse_cons, append_assoc, singleton_append] at fit
      have hfit : AllFit ((ns, data) :: files) := (pairwise_append.1 fit).2.1
      obtain ⟨fs₁, hentry, hholds, hleads⟩ := extractEntry_fits holds leads hfile (pairwise_cons.1 hfit).1
      rw [hentry]
      exact ih hplain hholds hleads fit

/-! ### The last pass -/

theorem checkFile_ok_iff {file : Text × String} (holds : fs.Holds T files) (leads : fs.Leads (.parse target) T)
    (names : (Path.parse file.1).names = some ns) :
    checkFile env fs target file = .ok [] ↔ ∃ data, files.lookup ns = some data ∧ hashHex env data = file.2 := by
  have hdest := Path.join_names leads.nonempty names
  have hfile := holds.fileAt ns
  unfold checkFile
  simp only [hdest, Fs.pathExists, Fs.read]
  cases hnode : fs.get (T ++ ns) with
  | none =>
    obtain ⟨e, he⟩ := leads.canonicalize_below_error holds.linkFree hnode
    have hnone : files.lookup ns = none := by rw [← hfile, Fs.fileAt_eq_none, hnode]; simp
    simp [he, hnone, Except.toOption]
  | some =>
    rw [leads.canonicalize_below holds.linkFree (Fs.get_ne_none hnode)]
    simp only [hfile, Except.toOption, Option.isSome_some, Bool.not_true, Bool.false_eq_true, if_false]
    cases files.lookup ns with
    | none => simp
    | some data => by_cases hhash : hashHex env data = file.2 <;> simp [hhash]

variable {m : BackupManifest} {made : Fs Bytes}

theorem checkRestored_ok_iff {m' : BackupManifest} : checkRestored env fs target m = .ok m' ↔
    m = m' ∧ ∀ file ∈ m.files.entries, checkFile env fs target file = .ok [] := by
  unfold checkRestored
  rw [Except.bind_eq_ok]
  constructor
  · rintro ⟨failures, hmap, hok⟩
    split at hok
    · cases hok
    · next hnil =>
      refine ⟨Except.ok.inj hok, fun file hfile => ?_⟩
      obtain ⟨found, hfound, hcheck⟩ := (Except.of_mapM_ok hmap).1 file hfile
      have : found = [] := flatten_eq_nil_iff.1 (not_not.1 hnil) found hfound
      rw [hcheck, this]
  · rintro ⟨rfl, hall⟩
    refine ⟨m.files.entries.map fun _ => [], Except.mapM_ok hall, ?_⟩
    rw [if_neg (not_not.2 (flatten_eq_nil_iff.2 (by simp)))]

/-! ### Fresh targets -/

/-- The target is not there. It can be made, and is then an empty directory. -/
structure Fresh (fs : Fs Bytes) (target : Text) (T : List Name) (made : Fs Bytes) : Prop where
  missing : fs.pathExists (.parse target) = false
  creates : fs.createDirAll (.parse target) = (.ok (), made)
  canonical : made.canonicalize (.parse target) = .ok T
  empty : made.Holds T []

theorem Fresh.leads (h : Fresh fs target T made) : made.Leads (.parse target) T :=
  Fs.leads_of_canonicalize h.canonical h.empty.root

theorem restore_fresh_iff {f : ArchiveFile} {force : Bool} {master : Option Key}
    (fresh : Fresh fs target T made) : restoreBackupInner env fs f target force master = (.ok m, fs') ↔
    readManifest env "Failed to parse MANIFEST.json" f.archive = .ok m ∧ m.verify env = true ∧
      ∃ backupKey, restoreKey env f m master = .ok backupKey ∧
        extractAll env target T m.encrypted backupKey f.archive.damaged made f.archive.entries = (.ok (), fs') ∧
        checkRestored env fs' target m = .ok m := by
  unfold restoreBackupInner
  rw [fresh.missing, Bool.false_and, if_neg Bool.false_ne_true]
  cases readManifest env "Failed to parse MANIFEST.json" f.archive with
  | error => simp
  | ok m' =>
    simp only [Except.ok.injEq]
    by_cases hverify : m'.verify env = true
    · simp only [hverify, Bool.not_true, Bool.false_eq_true, if_false]
      cases hkey : restoreKey env f m' master with
      | error =>
        refine iff_of_false (by simp) ?_
        rintro ⟨rfl, -, key, hok, -⟩
        rw [hkey] at hok
        cases hok
      | ok backupKey =>
        simp only [restoreInto, fresh.creates, fresh.canonical]
        cases hextract : extractAll env target T m'.encrypted backupKey f.archive.damaged made f.archive.entries with
        | mk r =>
          cases r with
          | error =>
            refine iff_of_false (by simp) ?_
            rintro ⟨rfl, -, key, hok, hall, -⟩
            obtain rfl := Except.ok.inj (hkey.symm.trans hok)
            rw [hextract] at hall
            cases hall
          | ok =>
            constructor
            · intro h
              obtain ⟨hcheck, rfl⟩ := Prod.mk.inj h
              obtain ⟨rfl, -⟩ := checkRestored_ok_iff.1 hcheck
              exact ⟨rfl, hverify, backupKey, hkey, hextract, hcheck⟩
            · rintro ⟨rfl, -, key, hok, hall, hcheck⟩
              obtain rfl := Except.ok.inj (hkey.symm.trans hok)
              rw [hextract] at hall
              obtain rfl := (Prod.mk.inj hall).2
              exact Prod.ext hcheck rfl
    · refine iff_of_false (by simp [hverify]) ?_
      rintro ⟨rfl, hok, -⟩
      exact hverify hok

theorem restore_ok {f : ArchiveFile} (force : Bool) {master : Option Key}
    (fresh : Fresh fs target T made) (manifest : readManifest env "Failed to parse MANIFEST.json" f.archive = .ok m)
    (hash : m.verify env = true) (key : restoreKey env f m master = .ok backupKey) (undamaged : f.archive.damaged = false)
    (plain : ∀ e ∈ f.archive.entries, e.name ≠ manifestName → ∃ file, entryFile env m.encrypted backupKey e = some file)
    (written : (f.archive.entries.filterMap (entryFile env m.encrypted backupKey)).reverse = files) (fit : AllFit files)
    (listed : ∀ file ∈ m.files.entries, ∃ ns data, (Path.parse file.1).names = some ns ∧ files.lookup ns = some data ∧
      hashHex env data = file.2) :
    ∃ fs', restoreBackupInner env fs f target force master = (.ok m, fs') ∧ fs'.Holds T files := by
  obtain ⟨fs', hextract⟩ := extractAll_ok plain fresh.empty fresh.leads (by rwa [written, append_nil])
  obtain ⟨-, hholds, hleads, -, -⟩ := holds_of_extractAll hextract (fun e he hname data hopen => by
    obtain ⟨⟨ns, data'⟩, hfile⟩ := plain e he hname
    exact ⟨ns, (entryFile_eq_some.1 hfile).2.1⟩) fresh.empty fresh.leads List.Pairwise.nil
  rw [written, append_nil] at hholds
  rw [← undamaged] at hextract
  refine ⟨fs', (restore_fresh_iff fresh).2 ⟨manifest, hash, backupKey, key, hextract, ?_⟩, hholds⟩
  refine checkRestored_ok_iff.2 ⟨rfl, fun file hfile => ?_⟩
  obtain ⟨ns, data, hns, hdata⟩ := listed file hfile
  exact (checkFile_ok_iff hholds hleads hns).2 ⟨data, hdata⟩

end VectorLedger.Backup
