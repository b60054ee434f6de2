import VectorLedger.Theorems.Extraction

/-! What a backup takes from a data directory without links in it: every file of the four directories. -/

namespace VectorLedger.Backup

open List FileSystem

variable {fs : Fs Bytes} {p : Path} {D E : List Name} {d : Name} {q : List Name} {data : Bytes}

/-! ### The walk -/

theorem length_le_depth (h : fs.get q ≠ none) : q.length ≤ depth fs := by
  unfold depth
  by_cases hnil : q = []
  · simp [hnil]
  · have hlookup : fs.nodes.lookup q ≠ none := by rwa [Fs.get, FileSystem.lookup, if_neg hnil] at h
    obtain ⟨x, hx⟩ := Option.ne_none_iff_exists'.1 hlookup
    obtain ⟨l, l', hnodes, -⟩ := lookup_eq_some_iff.1 hx
    have hmem : q.length ∈ fs.nodes.map fun x => x.1.length :=
      mem_map.2 ⟨(q, x), by rw [hnodes]; simp, rfl⟩
    generalize (fs.nodes.map fun x => x.1.length) = lengths at hmem
    induction lengths with
    | nil => cases hmem
    | cons k ks ih =>
      rw [foldr_cons]
      rcases mem_cons.1 hmem with rfl | hmem
      · exact le_max_left _ _
      · exact (ih hmem).trans (le_max_right _ _)

theorem dir_above_file (ne : q ≠ []) (h : fs.fileAt (D ++ d :: q) = some data) : fs.get (D ++ [d]) = some .dir := by
  rw [append_cons] at h
  exact Fs.dir_of_append ne (Fs.there_of_fileAt h)

/-- What a walk finds for one name. -/
def walkEntry (fs : Fs Bytes) (D : List Name) (fuel : Nat) (p : Path) (n : Name) : Except Errno (List (List Name)) :=
  match fs.canonicalize (p.join (.ofName n)) with
  | .error _ => .ok []
  | .ok resolved =>
    if !D.isPrefixOf resolved then .ok []
    else if fs.dirAt resolved then walkdirSafe fs D fuel (p.join (.ofName n))
    else .ok [resolved]

theorem walkdirSafe_spec (fuel : Nat) (leads : fs.Leads p E) (below : D <+: E) (free : fs.LinkFree E)
    (enough : depth fs < fuel + E.length) :
    ∃ found, walkdirSafe fs D fuel p = .ok found ∧ ∀ r, r ∈ found ↔ ∃ q data, r = E ++ q ∧ fs.fileAt r = some data := by
  induction fuel generalizing p E with
  | zero =>
    have := length_le_depth (q := E) (Fs.get_ne_none leads.dir)
    omega
  | succ fuel ih =>
    have hreadDir : fs.readDir p = .ok (fs.children E) := by
      rw [Fs.readDir, leads.canonicalize]
      exact if_pos (Fs.dirAt_iff.2 leads.dir)
    rw [walkdirSafe, hreadDir]
    -- One name: nothing but its own file, or the files below it.
    have hone : ∀ n ∈ fs.children E, ∃ found, walkEntry fs D fuel p n = .ok found ∧
        ∀ r, r ∈ found ↔ ∃ q data, r = E ++ n :: q ∧ fs.fileAt r = some data := by
      intro n hn
      unfold walkEntry
      have hthere : fs.get (E ++ [n]) ≠ none := Fs.mem_children.1 hn
      have hbelow : D <+: E ++ [n] := below.trans (prefix_append E [n])
      rw [Fs.join_ofName leads.nonempty, leads.canonicalize_below free hthere]
      simp only [ isPrefixOf_iff_prefix.2 hbelow, Bool.not_true, Bool.false_eq_true, if_false]
      by_cases hdir : fs.dirAt (E ++ [n]) = true
      · rw [if_pos hdir]
        obtain ⟨found, hwalk, hmem⟩ := ih (leads.child (Fs.dirAt_iff.1 hdir)) hbelow (free.child [n]) (by
          rw [length_append, length_singleton]
          omega)
        refine ⟨found, hwalk, fun r => ?_⟩
        rw [hmem]
        simp
      · rw [if_neg hdir]
        obtain ⟨x, hx⟩ := Option.ne_none_iff_exists'.1 hthere
        cases x with
        | dir => exact absurd (Fs.dirAt_iff.2 hx) hdir
        | link t => exact absurd hx (free [n] t)
        | file data =>
          refine ⟨_, rfl, fun r => ?_⟩
          rw [mem_singleton]
          constructor
          · rintro rfl
            exact ⟨[], data, rfl, Fs.fileAt_eq_some.2 hx⟩
          · rintro ⟨q, data', rfl, hfile⟩
            -- Nothing is below a file.
            by_cases hq : q = []
            · rw [hq]
            · rw [dir_above_file hq hfile] at hx
              cases hx
    obtain ⟨found, hmap, hmem⟩ := Except.mapM_flatten hone
    refine ⟨found.flatten, ?_, fun r => ?_⟩
    · exact Except.bind_eq_ok.2 ⟨_, rfl, Except.bind_eq_ok.2 ⟨found, hmap, rfl⟩⟩
    · rw [hmem]
      constructor
      · rintro ⟨n, -, q, data, rfl, hfile⟩
        exact ⟨n :: q, data, rfl, hfile⟩
      · rintro ⟨q, data, rfl, hfile⟩
        cases q with
        | nil =>
          rw [append_nil, Fs.fileAt_eq_some, leads.dir] at hfile
          cases hfile
        | cons n q =>
          refine ⟨n, Fs.mem_children.2 ?_, q, data, rfl, hfile⟩
          intro hnone
          by_cases hq : q = []
          · rw [hq, Fs.fileAt_eq_some, hnone] at hfile
            cases hfile
          · rw [dir_above_file hq hfile] at hnone
            cases hnone

/-! ### The names in the archive -/

/-- The path is the absolute path of this directory, without links or dots. -/
def Canonical (p : Path) (D : List Name) : Prop := p.absolute = true ∧ p.segs = D.map .name

instance : Decidable (Canonical p D) := by
  unfold Canonical
  infer_instance

/-- What lies behind a directory that is given by its canonical path, and nothing otherwise: directories are not links, so
    no other path of names leads to the same place. -/
theorem stripPrefix_below (leads : fs.Leads p D) (there : fs.get (D ++ d :: q) ≠ none) :
    Path.stripPrefix (D ++ d :: q) (p.below [d]) = if Canonical p D then some q else none := by
  unfold Path.stripPrefix
  by_cases hcanonical : Canonical p D
  · have hsegs : (p.below [d]).segs = (D ++ [d]).map .name := by simp [Path.below, hcanonical.2]
    have hpre : (p.below [d]).segs.isPrefixOf ((D ++ d :: q).map .name) = true := by
      rw [hsegs, isPrefixOf_iff_prefix, show D ++ d :: q = (D ++ [d]) ++ q by simp]
      exact (prefix_append (D ++ [d]) q).map Seg.name
    have habs : (p.below [d]).absolute = true := hcanonical.1
    rw [if_pos hcanonical, habs, hpre, Bool.and_self, if_pos rfl, hsegs, length_map,
      show D ++ d :: q = (D ++ [d]) ++ q by simp, drop_left]
  · rw [if_neg hcanonical, if_neg]
    intro h
    rw [Bool.and_eq_true, isPrefixOf_iff_prefix] at h
    obtain ⟨habs, hpre⟩ := h
    refine hcanonical ⟨habs, ?_⟩
    -- The steps are names of directories, so they lead to themselves.
    obtain ⟨rest, hrest⟩ := hpre
    rw [Path.below, map_singleton, append_assoc] at hrest
    obtain ⟨m, r, hm, hsegs, hr⟩ := append_eq_map_iff.1 hrest
    have hdir : fs.get m = some .dir := by
      refine Fs.dir_of_append (q := r) ?_ (by rw [← hm]; exact there)
      rintro rfl
      simp at hr
    have hwalk := leads.steps
    have hstart : fs.start p = [] := if_pos habs
    rw [hstart, ← hsegs, Fs.walk_dirs (by simpa using hdir), nil_append] at hwalk
    rw [← hsegs, Except.ok.inj hwalk]

/-- The name of a file behind a path that is not its own goes through the root once more. -/
theorem names_relativeName {dir : Path} {r : List Name} (ne : (Path.stripPrefix r dir).getD r ≠ []) :
    (Path.parse (relativeName dir d r)).names = some (d :: (Path.stripPrefix r dir).getD r) := by
  unfold relativeName
  cases hstrip : Path.stripPrefix r dir with
  | some rel =>
    rw [hstrip, Option.getD_some] at ne
    simp only [← display_cons ne]
    rw [parse_display (by simp)]
    exact Path.names_ofNames (by simp)
  | none =>
    rw [hstrip, Option.getD_none] at ne
    have htext : d.1 ++ '/' :: '/' :: Path.display r = ['/'].intercalate (d.1 :: [] :: r.map Subtype.val) := by
      cases r with
      | nil => exact absurd rfl ne
      | cons => simp [Path.display, intercalate]
    simp only [htext]
    refine names_parse_intercalate ne ?_ ?_ ?_
    · intro s hs
      rcases mem_cons.1 hs with rfl | hs
      · exact d.2.2.2.2
      · rcases mem_cons.1 hs with rfl | hs
        · simp
        · obtain ⟨n, -, rfl⟩ := mem_map.1 hs
          exact n.2.2.2.2
    · rw [filterMap_cons_none (by decide)]
      exact filterMap_segOf _
    · rw [getLast?_cons, getLast?_map, Option.getD_none]
      cases hlast : r.getLast? with
      | none => exact absurd (getLast?_eq_none_iff.1 hlast) ne
      | some => rfl

theorem relativeName_canonical (canonical : Canonical p D) (leads : fs.Leads p D) (there : fs.get (D ++ d :: q) ≠ none)
    (ne : q ≠ []) : relativeName (p.below [d]) d (D ++ d :: q) = Path.display (d :: q) := by
  rw [relativeName, stripPrefix_below leads there, if_pos canonical, display_cons ne]

theorem names_relativeName_other (other : ¬Canonical p D) (leads : fs.Leads p D) (there : fs.get (D ++ d :: q) ≠ none) :
    (Path.parse (relativeName (p.below [d]) d (D ++ d :: q))).names = some (d :: (D ++ d :: q)) := by
  have hstrip := stripPrefix_below leads there
  rw [if_neg other] at hstrip
  rw [names_relativeName (by simp [hstrip]), hstrip, Option.getD_none]

def enc (n : Name) : Name :=
  ⟨n.1 ++ encSuffix, by simp [encSuffix], fun h => by simpa [encSuffix] using congrArg length h,
    fun h => by simpa [encSuffix] using congrArg length h, by simpa [encSuffix] using n.2.2.2.2⟩

theorem display_enc (ns : List Name) (n : Name) : Path.display (ns ++ [n]) ++ encSuffix = Path.display (ns ++ [enc n]) := by
  induction ns with
  | nil => simp [Path.display, intercalate, enc]
  | cons m ns ih =>
    rw [cons_append, cons_append, display_cons (by simp), display_cons (by simp), ← ih, append_assoc, cons_append]

theorem storedName_display {ns : List Name} (ne : ns ≠ []) :
    storedName (Path.display ns ++ encSuffix) = Path.display ns ++ encSuffix := by
  obtain ⟨init, n, rfl⟩ := (eq_nil_or_concat ns).resolve_left ne
  rw [concat_eq_append, display_enc, storedName, parse_display (by simp), Path.names_ofNames (by simp)]
  exact ite_self _

/-- What tar stores leads to the same place. -/
theorem storedName_enc {s : Text} {ns : List Name} (names : (Path.parse s).names = some ns) :
    ∃ s', storedName (s ++ encSuffix) = s' ++ encSuffix ∧ (Path.parse s').names = some ns := by
  obtain ⟨init, n, rfl⟩ := (eq_nil_or_concat ns).resolve_left (Path.names_eq_some.1 names).2.2.2
  rw [concat_eq_append] at names ⊢
  have henc : (Path.parse (s ++ encSuffix)).names = some (init ++ [enc n]) := names_append names (by decide) _
  unfold storedName
  rw [henc]
  simp only
  split
  · exact ⟨_, (display_enc init n).symm, by rw [parse_display (by simp), Path.names_ofNames (by simp)]⟩
  · exact ⟨s, rfl, names⟩

/-! ### Everything that is backed up -/

def keyData (fs : Fs Bytes) (p : Path) (D : List Name) : Option Bytes :=
  match fs.canonicalize (p.below [keys, pubkey]) with
  | .ok r => if D.isPrefixOf r then fs.fileAt r else none
  | .error _ => none

/-- The data directory is there. What is to be backed up are directories without links in them, and the public key is no
    directory. -/
structure Tree (fs : Fs Bytes) (p : Path) (D : List Name) : Prop where
  leads : fs.Leads p D
  free : ∀ d ∈ backupDirs, fs.LinkFree (D ++ [d])
  dirs : ∀ d ∈ backupDirs, fs.fileAt (D ++ [d]) = none
  key : ∀ r, fs.canonicalize (p.below [keys, pubkey]) = .ok r → fs.get r ≠ some .dir

theorem archiveDir_spec (tree : Tree fs p D) (hd : d ∈ backupDirs) :
    ∃ files, archiveDir fs p D d = .ok files ∧ ∀ file, file ∈ files ↔
      ∃ q, q ≠ [] ∧ fs.fileAt (D ++ d :: q) = some file.2 ∧ file.1 = relativeName (p.below [d]) d (D ++ d :: q) := by
  unfold archiveDir
  simp only [Fs.join_ofName tree.leads.nonempty, Fs.pathExists]
  cases hthere : fs.get (D ++ [d]) with
  | none =>
    rw [tree.leads.missing_child hthere]
    refine ⟨[], rfl, fun file => iff_of_false (by simp) ?_⟩
    rintro ⟨q, hq, hfile, -⟩
    rw [dir_above_file hq hfile] at hthere
    cases hthere
  | some x =>
    have hdir : fs.get (D ++ [d]) = some .dir := by
      cases x with
      | dir => exact hthere
      | link t => exact absurd hthere (by simpa using tree.free d hd [] t)
      | file data => exact absurd hthere (Fs.fileAt_eq_none.1 (tree.dirs d hd) data)
    have hleads := tree.leads.child hdir
    have henough : depth fs < walkFuel fs + (D ++ [d]).length := by
      unfold walkFuel Fs.maxLinks
      omega
    obtain ⟨found, hwalk, hmem⟩ := walkdirSafe_spec (walkFuel fs) hleads (prefix_append D [d]) (tree.free d hd) henough
    have hread : ∀ r ∈ found, (do
        let bytes ← readResolved fs r
        return (relativeName (p.below [d]) d r, bytes) : Except Errno (Text × Bytes)) =
        .ok (relativeName (p.below [d]) d r, (fs.fileAt r).getD []) := by
      intro r hr
      obtain ⟨q, data, -, hfile⟩ := (hmem r).1 hr
      rw [readResolved, hfile]
      rfl
    have harchive : archiveDirSafe fs (p.below [d]) d D =
        .ok (found.map fun r => (relativeName (p.below [d]) d r, (fs.fileAt r).getD [])) :=
      Except.bind_eq_ok.2 ⟨found, hwalk, Except.mapM_ok hread⟩
    rw [hleads.canonicalize, harchive]
    refine ⟨_, rfl, fun file => ?_⟩
    rw [mem_map]
    constructor
    · rintro ⟨r, hr, rfl⟩
      obtain ⟨q, data, rfl, hfile⟩ := (hmem r).1 hr
      rw [append_assoc, singleton_append] at hfile ⊢
      refine ⟨q, ?_, by rw [hfile]; rfl, rfl⟩
      rintro rfl
      rw [tree.dirs d hd] at hfile
      cases hfile
    · rintro ⟨q, hq, hfile, hname⟩
      refine ⟨D ++ d :: q, (hmem _).2 ⟨q, file.2, by simp, hfile⟩, ?_⟩
      rw [hfile, ← hname]
      rfl

theorem archiveKey_spec (tree : Tree fs p D) : ∃ files, archiveKey fs p D pubkey = .ok files ∧ ∀ file, file ∈ files ↔
      file.1 = keys.1 ++ '/' :: pubkey.1 ∧ keyData fs p D = some file.2 := by
  unfold archiveKey keyData
  have hempty := Fs.isEmpty_below tree.leads.nonempty [keys]
  simp only [Fs.join_ofName tree.leads.nonempty, Fs.join_ofName hempty, Fs.below_below, singleton_append]
  cases hcanonical : fs.canonicalize (p.below [keys, pubkey]) with
  | error =>
    refine ⟨[], ?_, by simp⟩
    split <;> rfl
  | ok r =>
    obtain ⟨c, hc⟩ : ∃ c, fs.canonicalize (p.below [keys]) = .ok c :=
      Fs.canonicalize_init tree.leads.nonempty [keys] pubkey hcanonical
    have hexists : fs.pathExists (p.below [keys]) = true := by rw [Fs.pathExists, hc]; rfl
    simp only [hexists, Bool.not_true, Bool.false_eq_true, if_false]
    by_cases hbelow : D.isPrefixOf r = true
    · simp only [hbelow, Bool.not_true, Bool.false_eq_true, if_false, if_true]
      obtain ⟨data, hdata⟩ := (Fs.get_of_canonicalize hcanonical).resolve_left (tree.key r hcanonical)
      rw [readResolved, Fs.fileAt_eq_some.2 hdata]
      refine ⟨_, rfl, fun file => ?_⟩
      rw [mem_singleton, Prod.ext_iff]
      simp [eq_comm]
    · simp [hbelow]

/-- The file is backed up, under this name. -/
def Backed (fs : Fs Bytes) (p : Path) (D : List Name) (file : Text × Bytes) : Prop :=
  (∃ d ∈ backupDirs, ∃ q, q ≠ [] ∧ fs.fileAt (D ++ d :: q) = some file.2 ∧
    file.1 = relativeName (p.below [d]) d (D ++ d :: q)) ∨
  (file.1 = keys.1 ++ '/' :: pubkey.1 ∧ keyData fs p D = some file.2)

theorem gather_spec (tree : Tree fs p D) : ∃ files, gather fs p D = .ok files ∧ ∀ file, file ∈ files ↔ Backed fs p D file := by
  obtain ⟨dirs, hdirs, hmem⟩ := Except.mapM_flatten fun d hd => archiveDir_spec (d := d) tree hd
  obtain ⟨pubkeys, hpubkeys, hmem'⟩ := Except.mapM_flatten (f := archiveKey fs p D)
    (Q := fun _ file => file.1 = keys.1 ++ '/' :: pubkey.1 ∧ keyData fs p D = some file.2) fun k (hk : k ∈ keysWhitelist) => by
      obtain rfl := mem_singleton.1 hk
      exact archiveKey_spec tree
  refine ⟨dirs.flatten ++ pubkeys.flatten, ?_, fun file => ?_⟩
  · exact Except.bind_eq_ok.2 ⟨dirs, hdirs, Except.bind_eq_ok.2 ⟨pubkeys, hpubkeys, rfl⟩⟩
  · rw [mem_append, hmem, hmem', Backed]
    simp [keysWhitelist]

/-- The data directory is given by its canonical path, or has no files to back up. -/
def InPlace (fs : Fs Bytes) (p : Path) (D : List Name) : Prop :=
  Canonical p D ∨ ∀ d ∈ backupDirs, ∀ q, fs.fileAt (D ++ d :: q) = none

/-- The file is restored at its place. -/
def RestoredAt (fs : Fs Bytes) (p : Path) (D : List Name) (ns : List Name) (data : Bytes) : Prop :=
  (∃ d ∈ backupDirs, ∃ q, q ≠ [] ∧ fs.fileAt (D ++ d :: q) = some data ∧ ns = d :: q) ∨
  (ns = [keys, pubkey] ∧ keyData fs p D = some data)

theorem RestoredAt.ne_nil {ns : List Name} (h : RestoredAt fs p D ns data) : ns ≠ [] := by
  rcases h with ⟨d, -, q, -, -, rfl⟩ | ⟨rfl, -⟩ <;> simp

theorem backed_iff {file : Text × Bytes} (leads : fs.Leads p D) (place : InPlace fs p D) :
    Backed fs p D file ↔ ∃ ns, RestoredAt fs p D ns file.2 ∧ file.1 = Path.display ns := by
  have hname {d : Name} {q : List Name} (hd : d ∈ backupDirs) (hq : q ≠ []) (hfile : fs.fileAt (D ++ d :: q) = some file.2) :
      relativeName (p.below [d]) d (D ++ d :: q) = Path.display (d :: q) := by
    rcases place with hcanonical | hnone
    · exact relativeName_canonical hcanonical leads (Fs.there_of_fileAt hfile) hq
    · rw [hnone d hd q] at hfile
      cases hfile
  constructor
  · rintro (⟨d, hd, q, hq, hfile, hs⟩ | ⟨hs, hkey⟩)
    · exact ⟨d :: q, .inl ⟨d, hd, q, hq, hfile, rfl⟩, hs.trans (hname hd hq hfile)⟩
    · exact ⟨_, .inr ⟨rfl, hkey⟩, hs⟩
  · rintro ⟨ns, ⟨d, hd, q, hq, hfile, rfl⟩ | ⟨rfl, hkey⟩, hs⟩
    · exact .inl ⟨d, hd, q, hq, hfile, hs.trans (hname hd hq hfile).symm⟩
    · exact .inr ⟨hs, hkey⟩

theorem names_keys : (Path.parse (keys.1 ++ '/' :: pubkey.1)).names = some [keys, pubkey] := by
  have htext : keys.1 ++ '/' :: pubkey.1 = Path.display [keys, pubkey] := rfl
  rw [htext, parse_display (by simp)]
  exact Path.names_ofNames (by simp)

theorem keys_notMem : keys ∉ backupDirs := by decide

theorem RestoredAt.fit {ns ns' : List Name} {data' : Bytes} (h : RestoredAt fs p D ns data) (h' : RestoredAt fs p D ns' data')
    (hpre : ns <+: ns') : ns = ns' ∧ data = data' := by
  rcases h with ⟨d, hd, q, hq, hfile, rfl⟩ | ⟨rfl, hkey⟩ <;> rcases h' with ⟨d', hd', q', hq', hfile', rfl⟩ | ⟨rfl, hkey'⟩
  · obtain ⟨rfl, r, rfl⟩ := cons_prefix_cons.1 hpre
    by_cases hr : r = []
    · rw [hr, append_nil] at hfile' ⊢
      rw [hfile] at hfile'
      exact ⟨rfl, Option.some.inj hfile'⟩
    · have : fs.get (D ++ d :: q) = some .dir := by
        refine Fs.dir_of_append hr (q := r) ?_
        rw [append_assoc, cons_append]
        exact Fs.there_of_fileAt hfile'
      rw [Fs.fileAt_eq_some.1 hfile] at this
      cases this
  · exact absurd ((cons_prefix_cons.1 hpre).1 ▸ hd) keys_notMem
  · exact absurd ((cons_prefix_cons.1 hpre).1 ▸ hd') keys_notMem
  · rw [hkey] at hkey'
    exact ⟨rfl, Option.some.inj hkey'⟩

/-! ### Any data directory -/

theorem fileAt_of_walkdirSafe {fuel : Nat} {found : List (List Name)} (h : walkdirSafe fs D fuel p = .ok found) :
    ∀ r ∈ found, ∃ data, fs.fileAt r = some data := by
  induction fuel generalizing p found with
  | zero => cases h
  | succ fuel ih =>
    obtain ⟨names, -, h⟩ := Except.bind_eq_ok.1 h
    obtain ⟨lists, hlists, h⟩ := Except.bind_eq_ok.1 h
    cases h
    intro r hr
    obtain ⟨l, hl, hr⟩ := mem_flatten.1 hr
    obtain ⟨n, -, hn⟩ := (Except.of_mapM_ok hlists).2 l hl
    simp only at hn
    split at hn
    · cases hn
      cases hr
    · next resolved hresolved =>
      split at hn
      · cases hn
        cases hr
      · split at hn
        · exact ih hn r hr
        · next hdir =>
          cases hn
          obtain rfl := mem_singleton.1 hr
          obtain ⟨data, hdata⟩ := (Fs.get_of_canonicalize hresolved).resolve_left fun hd => hdir (Fs.dirAt_iff.2 hd)
          exact ⟨data, Fs.fileAt_eq_some.2 hdata⟩

theorem stripPrefix_ne_nil {dir : Path} {r c : List Name} (plain : dir.tail = .plain) (hc : fs.canonicalize dir = .ok c)
    (hdir : fs.get c = some .dir) (hr : fs.fileAt r = some data) : (Path.stripPrefix r dir).getD r ≠ [] := by
  have hne : r ≠ [] := by
    rintro rfl
    cases hr
  unfold Path.stripPrefix
  split
  · next h =>
    rw [Option.getD_some]
    intro hnil
    rw [Bool.and_eq_true, isPrefixOf_iff_prefix] at h
    have hsegs : dir.segs = r.map .name := by
      refine h.2.eq_of_length_le ?_
      rw [length_map]
      exact drop_eq_nil_iff.1 hnil
    -- The path would lead to the file itself.
    obtain ⟨init, n, rfl⟩ := (eq_nil_or_concat r).resolve_left hne
    rw [concat_eq_append] at *
    have hinit : fs.get ([] ++ init) = some .dir :=
      Fs.dir_of_child (n := n) (Fs.there_of_fileAt hr)
    have hwalk : Fs.walk false fs Fs.maxLinks (fs.start dir) dir.full = .ok (init ++ [n]) := by
      have hstart : fs.start dir = [] := if_pos h.1
      rw [hstart, Path.full, if_pos plain, hsegs, map_append]
      refine Fs.walk_append (Fs.walk_dirs hinit) hinit fun links => ?_
      rw [map_singleton, Fs.walk_cons_name, nil_append, Fs.fileAt_eq_some.1 hr]
      simp
    cases hwalk.symm.trans (Fs.canonicalize_ok hc).2
    rw [Fs.fileAt_eq_some.1 hr] at hdir
    cases hdir
  · exact hne

theorem names_of_gather {files : List (Text × Bytes)} (nonempty : p.isEmpty = false) (h : gather fs p D = .ok files) :
    ∀ file ∈ files, ∃ ns, (Path.parse file.1).names = some ns := by
  obtain ⟨dirs, hdirs, h⟩ := Except.bind_eq_ok.1 h
  obtain ⟨pubkeys, hpubkeys, h⟩ := Except.bind_eq_ok.1 h
  cases h
  intro file hfile
  rcases mem_append.1 hfile with hfile | hfile
  · obtain ⟨l, hl, hfile⟩ := mem_flatten.1 hfile
    obtain ⟨d, -, hd⟩ := (Except.of_mapM_ok hdirs).2 l hl
    unfold archiveDir at hd
    simp only [Fs.join_ofName nonempty] at hd
    split at hd
    · cases hd
      cases hfile
    · split at hd
      · cases hd
      · next files' harchive =>
        cases hd
        obtain ⟨found, hwalk, hmap⟩ := Except.bind_eq_ok.1 harchive
        obtain ⟨r, hr, hfile⟩ := (Except.of_mapM_ok hmap).2 file hfile
        obtain ⟨bytes, hbytes, hfile⟩ := Except.bind_eq_ok.1 hfile
        cases hfile
        obtain ⟨data, hdata⟩ := fileAt_of_walkdirSafe hwalk r hr
        -- The directory has been read, so it is one.
        obtain ⟨c, hc, hdir⟩ : ∃ c, fs.canonicalize (p.below [d]) = .ok c ∧ fs.get c = some .dir := by
          obtain ⟨fuel, hfuel⟩ : ∃ fuel, walkFuel fs = fuel + 1 := ⟨walkFuel fs - 1, by unfold walkFuel Fs.maxLinks; omega⟩
          rw [hfuel] at hwalk
          obtain ⟨names, hread, -⟩ := Except.bind_eq_ok.1 hwalk
          unfold Fs.readDir at hread
          split at hread
          · cases hread
          · next c hc =>
            split at hread
            · next hdir => exact ⟨c, hc, Fs.dirAt_iff.1 hdir⟩
            · cases hread
        exact ⟨_, names_relativeName (stripPrefix_ne_nil rfl hc hdir hdata)⟩
  · obtain ⟨l, hl, hfile⟩ := mem_flatten.1 hfile
    obtain ⟨k, hk, hkey⟩ := (Except.of_mapM_ok hpubkeys).2 l hl
    obtain rfl := mem_singleton.1 hk
    unfold archiveKey at hkey
    simp only at hkey
    split at hkey
    · cases hkey
      cases hfile
    · split at hkey
      · cases hkey
        cases hfile
      · split at hkey
        · cases hkey
          cases hfile
        · split at hkey
          · cases hkey
          · cases hkey
            obtain rfl := mem_singleton.1 hfile
            exact ⟨_, names_keys⟩

end VectorLedger.Backup
