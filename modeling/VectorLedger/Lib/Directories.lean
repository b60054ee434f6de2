import VectorLedger.Lib.Resolution

/-! Files and directories below a directory. Without links there, a path of names leads where it says, and what is written
    or made under it stays below. What is there after files are written one after another are the files, each with the
    contents it got last, and the directories that they need. -/

namespace FileSystem

section
open FileSystem.Path List

namespace Fs

variable {α : Type} {fs fs' : Fs α} {p : Path} {a T q : List Name} {n : Name} {ns : List Name} {create : Bool} {links : Nat}

/-! ### Paths that lead somewhere -/

structure Leads (fs : Fs α) (p : Path) (T : List Name) : Prop where
  nonempty : p.isEmpty = false
  steps : walk false fs maxLinks (fs.start p) p.segs = .ok T
  dir : fs.get T = some .dir

theorem canonicalize_eq (nonempty : p.isEmpty = false) : fs.canonicalize p = walk false fs maxLinks (fs.start p) p.full := by
  rw [canonicalize, nonempty, if_neg Bool.false_ne_true]

theorem Leads.canonicalize (h : fs.Leads p T) : fs.canonicalize p = .ok T := by
  rw [canonicalize_eq h.nonempty, full]
  split
  · exact h.steps
  · exact walk_append h.steps h.dir fun _ => by simp

theorem leads_of_canonicalize (h : fs.canonicalize p = .ok T) (dir : fs.get T = some .dir) : fs.Leads p T := by
  obtain ⟨hempty, h⟩ := canonicalize_ok h
  unfold full at h
  split at h
  · exact ⟨hempty, h, dir⟩
  · obtain ⟨c, links', hc, hlast⟩ := walk_append_ok (by simp) h
    rw [walk_here, walk_nil] at hlast
    exact ⟨hempty, Except.ok.inj hlast ▸ hc, dir⟩

theorem Leads.mono (h : fs.Leads p T) (ext : fs.Extends fs') : fs'.Leads p T := by
  refine ⟨h.nonempty, ?_, ext.dir h.dir⟩
  have hstart : fs'.start p = fs.start p := by rw [start, start, ext.1]
  rw [hstart]
  exact ext.walk h.steps

/-! ### Names below a path -/

@[simp] theorem isEmpty_below (h : p.isEmpty = false) (ns : List Name) : (p.below ns).isEmpty = false := by
  unfold Path.isEmpty Path.below at *
  by_cases hsegs : p.segs = []
  · simp only [hsegs, decide_true, Bool.and_true] at h
    exact (congrArg (· && _) h).trans (Bool.false_and _)
  · simp [hsegs]

theorem canonicalize_below (h : p.isEmpty = false) (ns : List Name) :
    fs.canonicalize (p.below ns) = walk false fs maxLinks (fs.start p) (p.segs ++ ns.map .name) :=
  canonicalize_eq (isEmpty_below h ns)

theorem dropLast_below (ns : List Name) (n : Name) : (p.below (ns ++ [n])).segs.dropLast = p.segs ++ ns.map .name := by
  rw [below, map_append, ← append_assoc]
  exact dropLast_concat

theorem parent_below (ns : List Name) (n : Name) : (p.below (ns ++ [n])).parent = some (p.below ns) := by
  rw [parent, if_pos (by simp [below]), dropLast_below]
  rfl

theorem fileName_below (ns : List Name) (n : Name) : (p.below (ns ++ [n])).fileName = some n := by
  simp [fileName, below]

def LinkFree (fs : Fs α) (T : List Name) : Prop := ∀ q t, fs.get (T ++ q) ≠ some (.link t)

theorem LinkFree.child (h : fs.LinkFree T) (q : List Name) : fs.LinkFree (T ++ q) :=
  fun r t => by rw [append_assoc]; exact h _ t

def Clear (fs : Fs α) (T ns : List Name) : Prop := ∀ m, m <+: ns → fs.fileAt (T ++ m) = none

/-- Above a node there are directories, so a path of names leads to it unless it is a link. -/
theorem walk_names {x : Node α} (there : fs.get (a ++ ns) = some x) (nolink : ∀ t, x ≠ .link t) :
    walk create fs links a (ns.map .name) = .ok (a ++ ns) := by
  induction ns generalizing a with
  | nil => rw [map_nil, walk_nil, append_nil]
  | cons n ns ih =>
    rw [append_cons] at there ⊢
    rw [map_cons, walk_cons_name]
    by_cases hns : ns = []
    · subst hns
      rw [append_nil] at there ⊢
      rw [there]
      cases x with
      | dir | file => simp
      | link t => exact absurd rfl (nolink t)
    · rw [dir_of_append hns (get_ne_none there)]
      exact ih there

theorem walk_dirs (dir : fs.get (a ++ ns) = some .dir) : walk create fs links a (ns.map .name) = .ok (a ++ ns) :=
  walk_names dir nofun

theorem walk_names_error (dir : fs.get T = some .dir) (free : fs.LinkFree T) (missing : fs.get (T ++ ns) = none) :
    ∃ e, (∀ links, walk false fs links T (ns.map .name) = .error e) ∧ (e = .noEnt ↔ fs.Clear T ns) := by
  induction ns generalizing T with
  | nil =>
    rw [append_nil, dir] at missing
    cases missing
  | cons n ns ih =>
    rw [append_cons] at missing
    have hT : fs.fileAt (T ++ []) = none := by rw [append_nil, fileAt_eq_none, dir]; simp
    have hbelow : fs.Clear T (n :: ns) ↔ fs.Clear (T ++ [n]) ns := by
      refine ⟨fun h m hm => ?_, fun h m hm => ?_⟩
      · rw [append_assoc]
        exact h (n :: m) (cons_prefix_cons.2 ⟨rfl, hm⟩)
      · cases m with
        | nil => exact hT
        | cons n' m =>
          obtain ⟨rfl, hrest⟩ := cons_prefix_cons.1 hm
          have := h m hrest
          rwa [append_assoc] at this
    simp only [hbelow, map_cons, walk_cons_name]
    cases hnode : fs.get (T ++ [n]) with
    | none =>
      refine ⟨.noEnt, fun _ => by simp, iff_of_true rfl fun m hm => ?_⟩
      rw [fileAt_eq_none]
      intro data hdata
      by_cases hnil : m = []
      · rw [hnil, append_nil, hnode] at hdata
        cases hdata
      · cases hnode.symm.trans (dir_of_append hnil (get_ne_none hdata))
    | some x =>
      cases x with
      | dir => exact ih hnode (free.child [n]) missing
      | file data =>
        have hns : ns ≠ [] := by
          rintro rfl
          rw [append_nil, hnode] at missing
          cases missing
        refine ⟨.notDir, fun _ => by simp [hns], iff_of_false (by simp) fun h => ?_⟩
        have := h [] nil_prefix
        rw [append_nil, fileAt_eq_none] at this
        exact this data hnode
      | link t => exact absurd hnode (free [n] t)

section
variable (h : fs.Leads p T) (free : fs.LinkFree T) {r : Path}
include h free

theorem Leads.below (there : fs.get (T ++ ns) ≠ none) :
    walk create fs maxLinks (fs.start p) (p.segs ++ ns.map .name) = .ok (T ++ ns) := by
  obtain ⟨x, hx⟩ := Option.ne_none_iff_exists'.1 there
  exact walk_append h.steps h.dir fun _ => walk_names hx fun t ht => free ns t (ht ▸ hx)

theorem Leads.canonicalize_below (there : fs.get (T ++ ns) ≠ none) : fs.canonicalize (p.below ns) = .ok (T ++ ns) :=
  (Fs.canonicalize_below h.nonempty ns).trans (h.below free there)

theorem Leads.below_error (missing : fs.get (T ++ ns) = none) :
    ∃ e, walk false fs maxLinks (fs.start p) (p.segs ++ ns.map .name) = .error e ∧ (e = .noEnt ↔ fs.Clear T ns) := by
  obtain ⟨e, he, hiff⟩ := walk_names_error h.dir free missing
  exact ⟨e, walk_append h.steps h.dir he, hiff⟩

theorem Leads.canonicalize_below_error (missing : fs.get (T ++ ns) = none) :
    ∃ e, fs.canonicalize (p.below ns) = .error e := by
  obtain ⟨e, he, -⟩ := h.below_error free missing
  exact ⟨e, (Fs.canonicalize_below h.nonempty ns).trans he⟩

end

theorem join_ofName (nonempty : p.isEmpty = false) (n : Name) : p.join (.ofName n) = p.below [n] :=
  join_names nonempty (names_eq_some.2 ⟨rfl, rfl, rfl, cons_ne_nil n []⟩)

theorem below_below (ns ms : List Name) : (p.below ns).below ms = p.below (ns ++ ms) := by
  simp [below]

theorem Leads.child (h : fs.Leads p T) (dir : fs.get (T ++ ns) = some .dir) : fs.Leads (p.below ns) (T ++ ns) :=
  ⟨isEmpty_below h.nonempty ns, walk_append h.steps h.dir fun _ => walk_dirs dir, dir⟩

theorem Leads.missing_child (h : fs.Leads p T) (missing : fs.get (T ++ [n]) = none) :
    fs.canonicalize (p.below [n]) = .error .noEnt := by
  rw [Fs.canonicalize_below h.nonempty]
  refine walk_append h.steps h.dir fun links => ?_
  rw [map_singleton, walk_cons_name, missing]
  simp

theorem canonicalize_init (nonempty : p.isEmpty = false) (ns : List Name) (n : Name)
    (h : fs.canonicalize (p.below (ns ++ [n])) = .ok q) :
    ∃ c, fs.canonicalize (p.below ns) = .ok c := by
  rw [canonicalize_below nonempty, map_append, ← append_assoc] at h
  obtain ⟨c, -, hc, -⟩ := walk_append_ok (by simp) h
  exact ⟨c, (canonicalize_below nonempty ns).trans hc⟩

/-! ### Last steps -/

theorem start_parent (h : p.parent = some r) (ne : p.segs ≠ []) :
    r.full = p.segs.dropLast ∧ fs.start r = fs.start p := by
  rw [parent, if_pos ne] at h
  cases h
  exact ⟨rfl, rfl⟩

theorem full_eq_append (ne : p.segs ≠ []) :
    ∃ rest, (rest = [] ∨ rest = [.here]) ∧ p.full = p.segs.dropLast ++ (p.segs.getLast ne :: rest) := by
  have hsplit : p.segs = p.segs.dropLast ++ [p.segs.getLast ne] := (dropLast_concat_getLast ne).symm
  unfold full
  split
  · exact ⟨[], .inl rfl, hsplit⟩
  · refine ⟨[.here], .inr rfl, ?_⟩
    nth_rewrite 1 [hsplit]
    rw [append_assoc, singleton_append]

theorem full_of_fileName (h : p.fileName = some n) : ∃ ne : p.segs ≠ [], ∃ rest, (rest = [] ∨ rest = [.here]) ∧
    p.full = p.segs.dropLast ++ (.name n :: rest) ∧ p.segs.getLast ne = .name n := by
  have hsegs : p.segs ≠ [] := by
    rintro hnil
    simp [fileName, hnil] at h
  have hlast : p.segs.getLast hsegs = .name n := by
    rw [fileName, getLast?_eq_some_getLast hsegs] at h
    split at h
    · next m heq => rw [Option.some.inj heq, Option.some.inj h]
    · cases h
  obtain ⟨rest, hrest, hfull⟩ := full_eq_append hsegs
  exact ⟨hsegs, rest, hrest, hlast ▸ hfull, hlast⟩

/-! ### Making directories -/

theorem mkdir_of_canonicalize (h : fs.canonicalize p = .ok a) : fs.mkdir p = .error .present := by
  obtain ⟨hempty, hwalk⟩ := canonicalize_ok h
  unfold mkdir
  rw [hempty, if_neg Bool.false_ne_true]
  cases hname : p.fileName with
  | none => simp [h]
  | some n =>
    simp only
    split
    · simp [h]
    · -- The last name is found in the directory that the steps before it lead to.
      obtain ⟨-, rest, -, hfull, -⟩ := full_of_fileName hname
      rw [hfull] at hwalk
      obtain ⟨c, links', hc, hlast⟩ := walk_append_ok (by simp) hwalk
      rw [walk_cons_name] at hlast
      rw [hc]
      cases hthere : fs.get (c ++ [n]) with
      | none => simp [hthere] at hlast
      | some => simp [hthere]

theorem makeDirs_of_canonicalize (fuel : Nat) (h : fs.canonicalize p = .ok a) :
    (makeDirs fuel fs p).2 = fs ∧ ((makeDirs fuel fs p).1 = .ok () ↔ fs.get a = some .dir) := by
  unfold makeDirs
  simp only [(canonicalize_ok h).1, Bool.false_eq_true, if_false, mkdir_of_canonicalize h, reduceCtorEq, isDir, h]
  by_cases hdir : fs.get a = some .dir
  · simp [dirAt_iff.2 hdir, hdir]
  · have : fs.dirAt a = false := by
      rw [← Bool.not_eq_true, dirAt_iff]
      exact hdir
    simp [this, hdir]

theorem createDirAll_of_canonicalize (h : fs.canonicalize p = .ok a) : (fs.createDirAll p).2 = fs :=
  (makeDirs_of_canonicalize _ h).1

theorem createDirAll_parent (h : fs.canonicalize p = .ok a) (parent : p.parent = some r) :
    (fs.createDirAll r).2 = fs := by
  by_cases hempty : r.isEmpty = true
  · unfold createDirAll makeDirs
    rw [if_pos hempty]
  · have hsegs : p.segs ≠ [] := by
      intro hnil
      rw [Path.parent, hnil, if_neg (by simp)] at parent
      split at parent
      · cases parent
        exact hempty rfl
      · cases parent
    obtain ⟨hfull, hstart⟩ := start_parent parent hsegs
    obtain ⟨rest, -, hpath⟩ := full_eq_append hsegs
    have hwalk := (canonicalize_ok h).2
    rw [hpath] at hwalk
    obtain ⟨c, -, hc, -⟩ := walk_append_ok (by simp) hwalk
    refine createDirAll_of_canonicalize (a := c) ?_
    rw [canonicalize, if_neg hempty, hfull, hstart]
    exact hc

theorem locate_of_canonicalize (h : fs.canonicalize p = .ok a) : fs.locate p = .ok a := by
  obtain ⟨hempty, h⟩ := canonicalize_ok h
  rw [locate, hempty]
  exact (Extends.refl fs).walk h

theorem locate_of_parent {c : List Name} (parent : p.parent = some r) (hc : fs.canonicalize r = .ok c)
    (name : p.fileName = some n) (nolink : ∀ t, fs.get (c ++ [n]) ≠ some (.link t)) (h : fs.locate p = .ok a) :
    a = c ++ [n] := by
  obtain ⟨hsegs, rest, hrest, hpath, -⟩ := full_of_fileName name
  obtain ⟨hfull, hstart⟩ := start_parent parent hsegs
  have hwalk := (canonicalize_ok hc).2
  unfold locate at h
  split at h
  · cases h
  · rw [hfull, hstart] at hwalk
    rw [hpath] at h
    obtain ⟨c', links', hc', hlast⟩ := walk_append_ok (by simp) h
    obtain rfl := Except.ok.inj (hwalk.symm.trans hc')
    rw [walk_cons_name] at hlast
    cases hnode : fs.get (c ++ [n]) with
    | none => rcases hrest with rfl | rfl <;> simp_all
    | some x =>
      cases x with
      | dir | file => rcases hrest with rfl | rfl <;> simp_all
      | link t => exact absurd hnode (nolink t)

theorem put_of_mkdir (h : fs.mkdir p = .ok fs') : ∃ a n, ∃ hcan : fs.CanPut (a ++ [n]), p.fileName = some n ∧
    walk false fs maxLinks (fs.start p) p.segs.dropLast = .ok a ∧ fs.get (a ++ [n]) = none ∧
    fs' = fs.put (a ++ [n]) .dir hcan := by
  unfold mkdir at h
  split at h
  · cases h
  · cases hname : p.fileName with
    | none =>
      cases hpath : fs.canonicalize p with
      | ok | error => simp [hname, hpath] at h
    | some n =>
      simp only [hname] at h
      split at h
      · cases hpath : fs.canonicalize p with
        | ok | error => simp [hpath] at h
      · cases hwalk : walk false fs maxLinks (fs.start p) p.segs.dropLast with
        | error => simp [hwalk] at h
        | ok a =>
          simp only [hwalk] at h
          cases hnode : fs.get (a ++ [n]) with
          | some => simp [hnode] at h
          | none =>
            simp only [hnode, Bool.false_eq_true, if_false] at h
            by_cases hcan : fs.CanPut (a ++ [n])
            · rw [dif_pos hcan] at h
              exact ⟨a, n, hcan, rfl, rfl, hnode, (Except.ok.inj h).symm⟩
            · rw [dif_neg hcan] at h
              cases h

theorem fileAt_mkdir (h : fs.mkdir p = .ok fs') (q : List Name) : fs'.fileAt q = fs.fileAt q := by
  obtain ⟨a, n, hcan, -, -, hnone, rfl⟩ := put_of_mkdir h
  unfold fileAt
  rw [get_put]
  by_cases heq : q = a ++ [n]
  · rw [if_pos heq, heq, hnone]
  · rw [if_neg heq]

/-- A rule for what making directories does, as it goes up the path and comes down again. -/
theorem makeDirs_induction {P : Path → Except Errno Unit × Fs α → Prop}
    (empty : ∀ p, p.isEmpty = true → P p (.ok (), fs))
    (made : ∀ p fs', fs.mkdir p = .ok fs' → P p (.ok (), fs'))
    (present : ∀ p, fs.isDir p = true → P p (.ok (), fs))
    (failed : ∀ p e, P p (.error e, fs))
    (madeLast : ∀ p r fs' fs'', P r (.ok (), fs') → fs'.mkdir p = .ok fs'' → P p (.ok (), fs''))
    (presentLast : ∀ p r fs', P r (.ok (), fs') → fs'.isDir p = true → P p (.ok (), fs'))
    (failedLast : ∀ p r result fs' e, P r (result, fs') → P p (.error e, fs')) (fuel : Nat) (p : Path) :
    P p (makeDirs fuel fs p) := by
  induction fuel generalizing p with
  | zero =>
    unfold makeDirs
    split
    · next hempty => exact empty p hempty
    · split
      · next fs' hmk => exact made p fs' hmk
      · split
        · exact failed p _
        · split
          · next hdir => exact present p hdir
          · exact failed p _
  | succ fuel ih =>
    unfold makeDirs
    split
    · next hempty => exact empty p hempty
    · split
      · next fs' hmk => exact made p fs' hmk
      · split
        · cases hparent : p.parent with
          | none => exact failed p _
          | some r =>
            have hr := ih r
            simp only
            split
            · next herr => exact failedLast p r _ _ _ (herr ▸ hr)
            · next fs' hok =>
              rw [hok] at hr
              split
              · next fs'' hmk => exact madeLast p r fs' fs'' hr hmk
              · split
                · next hdir => exact presentLast p r fs' hr hdir
                · exact failedLast p r _ fs' _ hr
        · split
          · next hdir => exact present p hdir
          · exact failed p _

theorem fileAt_makeDirs (fuel : Nat) (fs : Fs α) (p : Path) (q : List Name) :
    (makeDirs fuel fs p).2.fileAt q = fs.fileAt q := by
  refine makeDirs_induction (P := fun _ r => r.2.fileAt q = fs.fileAt q) ?_ ?_ ?_ ?_ ?_ ?_ ?_ fuel p
  · exact fun _ _ => rfl
  · exact fun _ _ hmk => fileAt_mkdir hmk q
  · exact fun _ _ => rfl
  · exact fun _ _ => rfl
  · exact fun _ _ _ _ h hmk => (fileAt_mkdir hmk q).trans h
  · exact fun _ _ _ h _ => h
  · exact fun _ _ _ _ _ h => h

theorem dir_of_mkdir (h : fs.mkdir p = .ok fs') (there : fs'.canonicalize p = .ok T) : fs'.get T = some .dir := by
  obtain ⟨a, n, hcan, hname, hwalk, hnone, rfl⟩ := put_of_mkdir h
  have hnew : (fs.put (a ++ [n]) .dir hcan).get (a ++ [n]) = some .dir := by rw [get_put, if_pos rfl]
  have hext : fs.Extends (fs.put (a ++ [n]) .dir hcan) := by
    refine extends_of_get rfl fun q x hq => .inl ?_
    rw [get_put, if_neg, hq]
    rintro rfl
    rw [hnone] at hq
    cases hq
  obtain ⟨-, rest, hrest, hpath, -⟩ := full_of_fileName hname
  have hdir : (fs.put (a ++ [n]) .dir hcan).get a = some .dir := dir_of_child (get_ne_none hnew)
  have hfull : walk false (fs.put (a ++ [n]) .dir hcan) maxLinks (fs.start p) p.full = .ok (a ++ [n]) := by
    rw [hpath]
    refine walk_append (hext.walk hwalk) hdir fun links => ?_
    rw [walk_cons_name, hnew]
    rcases hrest with rfl | rfl <;> simp
  obtain rfl := Except.ok.inj (hfull.symm.trans (canonicalize_ok there).2)
  exact hnew

theorem dir_of_isDir (h : fs.isDir p = true) (there : fs.canonicalize p = .ok T) : fs.get T = some .dir := by
  rw [isDir, there] at h
  exact dirAt_iff.1 h

theorem dir_of_makeDirs {fuel : Nat} (h : makeDirs fuel fs p = (.ok (), fs')) (there : fs'.canonicalize p = .ok T) :
    fs'.get T = some .dir := by
  have hdirs : (makeDirs fuel fs p).1 = .ok () → ∀ T, (makeDirs fuel fs p).2.canonicalize p = .ok T →
      (makeDirs fuel fs p).2.get T = some .dir := by
    refine makeDirs_induction
      (P := fun p r => r.1 = .ok () → ∀ T, r.2.canonicalize p = .ok T → r.2.get T = some .dir) ?_ ?_ ?_ ?_ ?_ ?_ ?_ fuel p
    · intro p hempty _ T there
      rw [(canonicalize_ok there).1] at hempty
      cases hempty
    · exact fun _ _ hmk _ _ => dir_of_mkdir hmk
    · exact fun _ hdir _ _ => dir_of_isDir hdir
    · intro p e h
      cases h
    · exact fun _ _ _ _ _ hmk _ _ => dir_of_mkdir hmk
    · exact fun _ _ _ _ hdir _ _ => dir_of_isDir hdir
    · intro p r result fs' e _ h
      cases h
  rw [h] at hdirs
  exact hdirs rfl T there

/-- The directories on the way to names are there, and nothing else has changed. -/
structure Made (fs fs' : Fs α) (T ns : List Name) : Prop where
  cwd : fs'.cwd = fs.cwd
  dirs : ∀ m, m <+: ns → fs'.get (T ++ m) = some .dir
  frame : ∀ q, (∀ m, m <+: ns → q ≠ T ++ m) → fs'.get q = fs.get q

theorem Made.refl (h : fs.get (T ++ ns) = some .dir) : Made fs fs T ns := by
  refine ⟨rfl, fun m hm => ?_, fun _ _ => rfl⟩
  obtain ⟨r, rfl⟩ := hm
  by_cases hr : r = []
  · rwa [hr, append_nil] at h
  · rw [← append_assoc] at h
    exact dir_of_append hr (get_ne_none h)

theorem Clear.init (h : fs.Clear T (ns ++ [n])) : fs.Clear T ns :=
  fun m hm => h m (hm.trans (prefix_append ns [n]))

theorem Clear.concat (h : fs.Clear T ns) (missing : fs.get (T ++ (ns ++ [n])) = none) : fs.Clear T (ns ++ [n]) := by
  intro m hm
  rcases prefix_concat_iff.1 hm with rfl | hm
  · rw [fileAt_eq_none, missing]
    simp
  · exact h m hm

theorem clear_of_dir (h : fs.get (T ++ ns) = some .dir) : fs.Clear T ns := by
  intro m hm
  rw [fileAt_eq_none, (Made.refl h).dirs m hm]
  simp

theorem Clear.node (h : fs.Clear T ns) (free : fs.LinkFree T) {m : List Name} (hm : m <+: ns) :
    fs.get (T ++ m) = none ∨ fs.get (T ++ m) = some .dir := by
  cases hnode : fs.get (T ++ m) with
  | none => exact .inl rfl
  | some x =>
    cases x with
    | dir => exact .inr rfl
    | file data => exact absurd hnode (fileAt_eq_none.1 (h m hm) data)
    | link t => exact absurd hnode (free m t)

theorem Made.keep (h : Made fs fs' T ns) (clear : fs.Clear T ns) (free : fs.LinkFree T) {x : Node α}
    (hq : fs.get q = some x) : fs'.get q = some x := by
  by_cases hm : ∃ m, m <+: ns ∧ q = T ++ m
  · obtain ⟨m, hm, rfl⟩ := hm
    rcases clear.node free hm with hnone | hdir
    · rw [hnone] at hq
      cases hq
    · rw [h.dirs m hm, ← hq, hdir]
  · rw [h.frame q fun m hmp heq => hm ⟨m, hmp, heq⟩, hq]

theorem Made.extends (h : Made fs fs' T ns) (clear : fs.Clear T ns) (free : fs.LinkFree T) : fs.Extends fs' :=
  extends_of_get h.cwd fun _ _ hq => .inl (h.keep clear free hq)

theorem mkdir_below_eq (nonempty : p.isEmpty = false) : fs.mkdir (p.below (ns ++ [n])) =
    match walk false fs maxLinks (fs.start p) (p.segs ++ ns.map .name) with
    | .error e => .error e
    | .ok a =>
      if fs.get (a ++ [n]) matches some _ then .error .present
      else if h : fs.CanPut (a ++ [n]) then .ok (fs.put (a ++ [n]) .dir h)
      else .error .notDir := by
  unfold mkdir
  rw [isEmpty_below nonempty, fileName_below, dropLast_below]
  rfl

theorem LinkFree.of_dirs (h : fs.LinkFree T) (new : ∀ q, fs'.get q = fs.get q ∨ fs'.get q = some .dir) : fs'.LinkFree T := by
  intro q t hq
  rcases new (T ++ q) with heq | hdir
  · exact h q t (heq ▸ hq)
  · rw [hdir] at hq
    cases hq

theorem Made.new (h : Made fs fs' T ns) (q : List Name) : fs'.get q = fs.get q ∨ fs'.get q = some .dir := by
  by_cases hm : ∃ m, m <+: ns ∧ q = T ++ m
  · obtain ⟨m, hm, rfl⟩ := hm
    exact .inr (h.dirs m hm)
  · exact .inl (h.frame q fun m hmp heq => hm ⟨m, hmp, heq⟩)

theorem makeDirs_of_mkdir (fuel : Nat) (nonempty : p.isEmpty = false) (h : fs.mkdir p = .ok fs') :
    makeDirs fuel fs p = (.ok (), fs') := by
  unfold makeDirs
  simp only [nonempty, Bool.false_eq_true, if_false, h]

theorem makeDirs_error (fuel : Nat) {e : Errno} (nonempty : p.isEmpty = false) (h : fs.mkdir p = .error e)
    (he : e ≠ .noEnt) (hdir : fs.isDir p = false) : makeDirs fuel fs p = (.error e, fs) := by
  unfold makeDirs
  simp only [nonempty, Bool.false_eq_true, if_false, h, he, hdir]

theorem makeDirs_parent {fuel : Nat} {fs'' : Fs α} (nonempty : p.isEmpty = false)
    (h : fs.mkdir p = .error .noEnt) (parent : p.parent = some r) (above : makeDirs fuel fs r = (.ok (), fs'))
    (last : fs'.mkdir p = .ok fs'') : makeDirs (fuel + 1) fs p = (.ok (), fs'') := by
  unfold makeDirs
  simp only [nonempty, Bool.false_eq_true, if_false, h, if_true, parent, above, last]

theorem Made.child (h : Made fs fs' T ns) {fs'' : Fs α} (cwd : fs''.cwd = fs'.cwd)
    (get : ∀ q, fs''.get q = if q = T ++ (ns ++ [n]) then some .dir else fs'.get q) : Made fs fs'' T (ns ++ [n]) := by
  refine ⟨cwd.trans h.cwd, fun m hm => ?_, fun q hq => ?_⟩
  · rw [get]
    split
    · rfl
    · next hne =>
      rcases prefix_concat_iff.1 hm with rfl | hm
      · exact absurd rfl hne
      · exact h.dirs m hm
  · rw [get, if_neg (hq _ prefix_rfl)]
    exact h.frame q fun m hm => hq m (hm.trans (prefix_append ns [n]))

section
variable (h : fs.Leads p T) (free : fs.LinkFree T)
include h free

theorem mkdir_below (dir : fs.get (T ++ ns) = some .dir)
    (missing : fs.get (T ++ (ns ++ [n])) = none) :
    ∃ fs', fs.mkdir (p.below (ns ++ [n])) = .ok fs' ∧ fs'.cwd = fs.cwd ∧
      ∀ q, fs'.get q = if q = T ++ (ns ++ [n]) then some .dir else fs.get q := by
  rw [← append_assoc] at missing ⊢
  have hput : fs.CanPut ((T ++ ns) ++ [n]) := by
    refine ⟨by simp, by rw [dropLast_concat]; exact dir, ?_⟩
    rw [missing]
    simp
  refine ⟨fs.put _ .dir hput, ?_, rfl, get_put hput⟩
  rw [mkdir_below_eq h.nonempty, h.below free (get_ne_none dir)]
  simp only [missing, Bool.false_eq_true, if_false, dif_pos hput]

theorem mkdir_below_missing (missing : fs.get (T ++ ns) = none) :
    ∃ e, fs.mkdir (p.below (ns ++ [n])) = .error e ∧ (e = .noEnt ↔ fs.Clear T ns) := by
  obtain ⟨e, he, hiff⟩ := h.below_error free missing
  exact ⟨e, by rw [mkdir_below_eq h.nonempty, he], hiff⟩

theorem Leads.isDir_below (hdir : fs.get (T ++ ns) ≠ some .dir) :
    fs.isDir (p.below ns) = false := by
  unfold isDir
  cases hthere : fs.get (T ++ ns) with
  | none =>
    obtain ⟨e, he⟩ := h.canonicalize_below_error free hthere
    rw [he]
  | some =>
    rw [h.canonicalize_below free (get_ne_none hthere), ← Bool.not_eq_true, dirAt_iff]
    exact hdir

theorem mkdir_below_file {data : α} (file : fs.get (T ++ ns) = some (.file data)) : fs.mkdir (p.below (ns ++ [n])) = .error .notDir := by
  have hnone : fs.get ((T ++ ns) ++ [n]) = none := by
    by_contra hthere
    rw [dir_of_child hthere] at file
    cases file
  have hput : ¬fs.CanPut ((T ++ ns) ++ [n]) := by
    intro hput
    have := hput.2.1
    rw [dropLast_concat, file] at this
    cases this
  rw [mkdir_below_eq h.nonempty, h.below free (get_ne_none file)]
  simp only [hnone, Bool.false_eq_true, if_false, dif_neg hput]

/-- Below a directory without links the directories on the way to names can be made if no file is in the way. -/
theorem makeDirs_below (fuel : Nat) (enough : ns.length ≤ fuel) (clear : fs.Clear T ns) :
    ∃ fs', makeDirs fuel fs (p.below ns) = (.ok (), fs') ∧ Made fs fs' T ns := by
  induction ns using reverseRecOn generalizing fuel with
  | nil =>
    have hdir : fs.get (T ++ []) = some .dir := by rw [append_nil]; exact h.dir
    have hthere := h.canonicalize_below free (get_ne_none hdir)
    obtain ⟨hfs, hok⟩ := makeDirs_of_canonicalize fuel hthere
    exact ⟨fs, Prod.ext (hok.2 hdir) hfs, .refl hdir⟩
  | append_singleton ns n ih =>
    cases hthere : fs.get (T ++ (ns ++ [n])) with
    | some x =>
      cases x with
      | dir =>
        obtain ⟨hfs, hok⟩ := makeDirs_of_canonicalize fuel
          (h.canonicalize_below free (get_ne_none hthere))
        exact ⟨fs, Prod.ext (hok.2 hthere) hfs, .refl hthere⟩
      | file data => exact absurd hthere (fileAt_eq_none.1 (clear _ prefix_rfl) data)
      | link t => exact absurd hthere (free _ t)
    | none =>
      cases habove : fs.get (T ++ ns) with
      | some x =>
        cases x with
        | dir =>
          obtain ⟨fs', hmk, hcwd, hget⟩ := mkdir_below h free habove hthere
          exact ⟨fs', makeDirs_of_mkdir fuel (isEmpty_below h.nonempty _) hmk, (Made.refl habove).child hcwd hget⟩
        | file data => exact absurd habove (fileAt_eq_none.1 (clear.init _ prefix_rfl) data)
        | link t => exact absurd habove (free _ t)
      | none =>
        obtain ⟨e, hmk, he⟩ := mkdir_below_missing (n := n) h free habove
        obtain rfl := he.2 clear.init
        cases fuel with
        | zero => simp at enough
        | succ fuel =>
          have hfuel : ns.length ≤ fuel := by simpa using enough
          obtain ⟨fs', habove', hmade⟩ := ih fuel hfuel clear.init
          have hleads := h.mono (hmade.extends clear.init free)
          have hmissing : fs'.get (T ++ (ns ++ [n])) = none := by
            rw [hmade.frame, hthere]
            intro m hm heq
            have := hm.length_le
            rw [← append_cancel_left heq, length_append, length_singleton] at this
            omega
          obtain ⟨fs'', hmk', hcwd, hget⟩ :=
            mkdir_below hleads (free.of_dirs hmade.new) (hmade.dirs ns prefix_rfl) hmissing
          exact ⟨fs'', makeDirs_parent (isEmpty_below h.nonempty _) hmk (parent_below ns n) habove' hmk',
            hmade.child hcwd hget⟩

theorem makeDirs_below_error (fuel : Nat) (clear : ¬fs.Clear T ns) :
    ∃ e, makeDirs fuel fs (p.below ns) = (.error e, fs) := by
  have hdir : fs.get (T ++ ns) ≠ some .dir := fun hdir => clear (clear_of_dir hdir)
  have hisDir := h.isDir_below free hdir
  cases hthere : fs.get (T ++ ns) with
  | some =>
    obtain ⟨hfs, hok⟩ := makeDirs_of_canonicalize fuel
      (h.canonicalize_below free (get_ne_none hthere))
    cases hr : (makeDirs fuel fs (p.below ns)).1 with
    | ok => exact absurd (hok.1 hr) hdir
    | error e => exact ⟨e, Prod.ext hr hfs⟩
  | none =>
    rcases eq_nil_or_concat ns with rfl | ⟨ns, n, rfl⟩
    · rw [append_nil, h.dir] at hthere
      cases hthere
    · rw [concat_eq_append] at *
      cases habove : fs.get (T ++ ns) with
      | some x =>
        cases x with
        | dir => exact absurd ((clear_of_dir habove).concat hthere) clear
        | file =>
          exact ⟨_, makeDirs_error fuel (isEmpty_below h.nonempty _) (mkdir_below_file h free habove) (by simp) hisDir⟩
        | link t => exact absurd habove (free _ t)
      | none =>
        obtain ⟨e, hmk, he⟩ := mkdir_below_missing (n := n) h free habove
        have hnoEnt : e ≠ .noEnt := fun hnoEnt => clear (Clear.concat (he.1 hnoEnt) hthere)
        exact ⟨e, makeDirs_error fuel (isEmpty_below h.nonempty _) hmk hnoEnt hisDir⟩

theorem createDirAll_below (clear : fs.Clear T ns) :
    ∃ fs', fs.createDirAll (p.below ns) = (.ok (), fs') ∧ Made fs fs' T ns := by
  refine makeDirs_below h free _ ?_ clear
  simp only [below, length_append, length_map]
  omega

theorem createDirAll_below_error (clear : ¬fs.Clear T ns) : ∃ e, fs.createDirAll (p.below ns) = (.error e, fs) :=
  makeDirs_below_error h free _ clear

/-! ### Writing files -/

theorem Leads.locate_below (dir : fs.get (T ++ ns) = some .dir) :
    fs.locate (p.below (ns ++ [n])) = .ok (T ++ (ns ++ [n])) := by
  rw [locate, isEmpty_below h.nonempty, if_neg Bool.false_ne_true]
  refine walk_append h.steps h.dir fun links => ?_
  rw [map_append]
  refine walk_append (walk_dirs dir) dir fun links' => ?_
  rw [map_singleton, walk_cons_name, ← append_assoc]
  cases hnode : fs.get ((T ++ ns) ++ [n]) with
  | none => simp
  | some x =>
    cases x with
    | dir => exact walk_nil
    | file => simp
    | link t =>
      rw [append_assoc] at hnode
      exact absurd hnode (free _ t)

theorem write_below (data : α) (dir : fs.get (T ++ ns) = some .dir)
    (there : fs.get (T ++ (ns ++ [n])) ≠ some .dir) :
    ∃ fs', fs.write (p.below (ns ++ [n])) data = .ok fs' ∧ fs'.cwd = fs.cwd ∧
      ∀ q, fs'.get q = if q = T ++ (ns ++ [n]) then some (.file data) else fs.get q := by
  have hput : fs.CanPut (T ++ (ns ++ [n])) := by
    refine ⟨by simp, ?_, there⟩
    rw [← append_assoc, dropLast_concat]
    exact dir
  refine ⟨fs.put _ (.file data) hput, ?_, rfl, fun q => get_put hput q⟩
  rw [write, h.locate_below free dir]
  exact dif_pos hput

theorem write_below_error {data : α} (there : fs.get (T ++ (ns ++ [n])) = some .dir) :
    fs.write (p.below (ns ++ [n])) data = .error .isDir := by
  have hdir : fs.get (T ++ ns) = some .dir := by
    rw [← append_assoc] at there
    exact dir_of_child (get_ne_none there)
  rw [write, h.locate_below free hdir]
  exact dif_neg fun hput => hput.2.2 there

end

end Fs

end

open List

namespace Fs

variable {α : Type} {fs fs' : Fs α} {p : Path} {T : List Name} {n : Name} {ns : List Name} {data : α}
  {files : List (List Name × α)}

/-- The node that files need at a path, the last one written first. -/
def nodeOf (files : List (List Name × α)) (q : List Name) : Option (Node α) :=
  match files.lookup q with
  | some data => some (.file data)
  | none => if files.any fun f => q.isPrefixOf f.1 then some .dir else none

structure Holds (fs : Fs α) (T : List Name) (files : List (List Name × α)) : Prop where
  root : fs.get T = some .dir
  named : ∀ f ∈ files, f.1 ≠ []
  node : ∀ q, q ≠ [] → fs.get (T ++ q) = nodeOf files q

/-- None of the names is that of a directory for another one. -/
def Fits (files : List (List Name × α)) (ns : List Name) : Prop :=
  ∀ f ∈ files, f.1 <+: ns ∨ ns <+: f.1 → f.1 = ns

variable {q : List Name}

theorem nodeOf_eq_file : nodeOf files q = some (.file data) ↔ files.lookup q = some data := by
  unfold nodeOf
  cases files.lookup q with
  | some => simp
  | none =>
    simp only [reduceCtorEq]
    split <;> simp

theorem nodeOf_eq_dir : nodeOf files q = some .dir ↔ files.lookup q = none ∧ ∃ f ∈ files, q <+: f.1 := by
  unfold nodeOf
  cases files.lookup q with
  | some | none => simp

theorem nodeOf_ne_link {t : Path} : nodeOf files q ≠ some (.link t) := by
  unfold nodeOf
  split
  · simp
  · split <;> simp

theorem lookup_ne_none {f : List Name × α} (h : f ∈ files) : files.lookup f.1 ≠ none := by
  rw [ne_eq, lookup_eq_none_iff]
  exact fun hnone => by simpa using hnone f h

theorem mem_of_lookup (h : files.lookup q = some data) : (q, data) ∈ files := by
  obtain ⟨l, l', rfl, -⟩ := lookup_eq_some_iff.1 h
  exact mem_append_right l mem_cons_self

theorem Holds.linkFree (h : fs.Holds T files) : fs.LinkFree T := by
  intro q t hq
  by_cases hnil : q = []
  · rw [hnil, append_nil, h.root] at hq
    cases hq
  · rw [h.node q hnil] at hq
    exact nodeOf_ne_link hq

theorem Holds.fileAt (h : fs.Holds T files) (q : List Name) : fs.fileAt (T ++ q) = files.lookup q := by
  by_cases hnil : q = []
  · have hnone : files.lookup q = none := by
      cases hlookup : files.lookup q with
      | none => rfl
      | some => exact absurd hnil (h.named _ (mem_of_lookup hlookup))
    rw [hnone, fileAt_eq_none, hnil, append_nil, h.root]
    simp
  · unfold Fs.fileAt
    rw [h.node q hnil]
    unfold nodeOf
    cases files.lookup q with
    | some => rfl
    | none =>
      simp only
      split <;> simp_all

theorem holds_nil (root : fs.get T = some .dir) (empty : ∀ q, q ≠ [] → fs.get (T ++ q) = none) : fs.Holds T [] :=
  ⟨root, by simp, fun q hq => by rw [empty q hq]; rfl⟩

theorem Holds.clear (h : fs.Holds T files) (fits : Fits files (ns ++ [n])) : fs.Clear T ns := by
  intro m hm
  rw [h.fileAt]
  cases hlookup : files.lookup m with
  | none => rfl
  | some =>
    have heq := fits _ (mem_of_lookup hlookup) (.inl (hm.trans (prefix_append ns [n])))
    have hlen := hm.length_le
    simp only at heq
    rw [heq, length_append, length_singleton] at hlen
    omega

theorem not_prefix_init (h : q <+: ns) : q ≠ ns ++ [n] := by
  rintro rfl
  have := h.length_le
  rw [length_append, length_singleton] at this
  omega

theorem Holds.written {fs₁ fs₂ : Fs α} (h : fs.Holds T files) (fits : Fits files (ns ++ [n])) (made : Made fs fs₁ T ns)
    (get : ∀ q, fs₂.get q = if q = T ++ (ns ++ [n]) then some (.file data) else fs₁.get q) :
    fs₂.Holds T ((ns ++ [n], data) :: files) := by
  have hne (q : List Name) (hq : q ≠ ns ++ [n]) : fs₂.get (T ++ q) = fs₁.get (T ++ q) := by
    rw [get, if_neg fun heq => hq (append_cancel_left heq)]
  refine ⟨?_, ?_, fun q hq => ?_⟩
  · have := hne [] (by simp)
    rw [append_nil] at this
    rw [this]
    have := made.dirs [] (by simp)
    rwa [append_nil] at this
  · intro f hf
    rcases mem_cons.1 hf with rfl | hf
    · simp
    · exact h.named f hf
  · by_cases heq : q = ns ++ [n]
    · rw [heq, get, if_pos rfl]
      symm
      rw [nodeOf_eq_file]
      simp
    · rw [hne q heq]
      have hkey : (q == ns ++ [n]) = false := by simpa using heq
      have hlookup : List.lookup q ((ns ++ [n], data) :: files) = files.lookup q := by rw [List.lookup_cons, hkey]
      by_cases hbelow : q <+: ns
      · -- A directory above the file, new or not.
        rw [made.dirs q hbelow]
        symm
        rw [nodeOf_eq_dir, hlookup]
        refine ⟨?_, _, mem_cons_self, hbelow.trans (prefix_append ns [n])⟩
        rw [← h.fileAt]
        exact h.clear fits q hbelow
      · have hapart : ¬q <+: ns ++ [n] := by
          intro hpre
          rcases prefix_concat_iff.1 hpre with heq' | hpre
          · exact heq heq'
          · exact hbelow hpre
        have hframe : fs₁.get (T ++ q) = fs.get (T ++ q) :=
          made.frame _ fun m hm heq' => hbelow (append_cancel_left heq' ▸ hm)
        have hany : (any ((ns ++ [n], data) :: files) fun f => q.isPrefixOf f.1) = files.any fun f => q.isPrefixOf f.1 := by
          rw [any_cons]
          have : q.isPrefixOf (ns ++ [n]) = false := by rwa [← Bool.not_eq_true, isPrefixOf_iff_prefix]
          rw [this, Bool.false_or]
        rw [hframe, h.node q hq, nodeOf, nodeOf, hlookup, hany]

/-- A file whose name fits to the others is written, with the directories that it needs. Nothing changes outside. -/
theorem Holds.place (h : fs.Holds T files) (data : α) (leads : fs.Leads p T) (fits : Fits files (ns ++ [n])) :
    ∃ fs₁ fs₂, fs.createDirAll (p.below ns) = (.ok (), fs₁) ∧ fs₁.write (p.below (ns ++ [n])) data = .ok fs₂ ∧
      fs₂.Holds T ((ns ++ [n], data) :: files) ∧ fs₂.Leads p T := by
  have hfree := h.linkFree
  obtain ⟨fs₁, hdirs, hmade⟩ := createDirAll_below leads hfree (h.clear fits)
  have hleads := leads.mono (hmade.extends (h.clear fits) hfree)
  have hfree₁ := hfree.of_dirs hmade.new
  have hlast : fs₁.get (T ++ (ns ++ [n])) ≠ some .dir := by
    rw [hmade.frame _ fun m hm heq => not_prefix_init hm (append_cancel_left heq).symm, h.node _ (by simp)]
    intro hdir
    obtain ⟨hnone, f, hf, hpre⟩ := nodeOf_eq_dir.1 hdir
    have heq := fits f hf (.inr hpre)
    exact lookup_ne_none hf (heq ▸ hnone)
  obtain ⟨fs₂, hwrite, -, hget⟩ := write_below hleads hfree₁ data (hmade.dirs ns prefix_rfl) hlast
  exact ⟨fs₁, fs₂, hdirs, hwrite, h.written fits hmade hget, hleads.mono (extends_write hwrite)⟩

theorem Holds.place_error (h : fs.Holds T files) (data : α) (leads : fs.Leads p T) (fits : ¬Fits files (ns ++ [n])) :
    (∃ e, fs.createDirAll (p.below ns) = (.error e, fs)) ∨
      ∃ fs₁, fs.createDirAll (p.below ns) = (.ok (), fs₁) ∧ fs₁.write (p.below (ns ++ [n])) data = .error .isDir := by
  have hfree := h.linkFree
  by_cases hclear : fs.Clear T ns
  · obtain ⟨fs₁, hdirs, hmade⟩ := createDirAll_below leads hfree hclear
    refine .inr ⟨fs₁, hdirs, ?_⟩
    simp only [Fits, not_forall] at fits
    obtain ⟨f, hf, hpre, hne⟩ := fits
    obtain ⟨data', hdata⟩ := Option.ne_none_iff_exists'.1 (lookup_ne_none hf)
    have hfile : fs.fileAt (T ++ f.1) = some data' := by rw [h.fileAt, hdata]
    -- The other name is not above this one, since no file is in the way.
    have habove : ¬f.1 <+: ns := by
      intro hm
      rw [hclear _ hm] at hfile
      cases hfile
    obtain ⟨r, hr⟩ : ns ++ [n] <+: f.1 := by
      refine hpre.resolve_left fun hpre => ?_
      exact (prefix_concat_iff.1 hpre).elim hne habove
    have hdir : fs.get (T ++ (ns ++ [n])) = some .dir := by
      refine dir_of_append (q := r) (fun hnil => hne ?_) ?_
      · rw [← hr, hnil, append_nil]
      · rw [append_assoc, hr]
        exact there_of_fileAt hfile
    exact write_below_error (leads.mono (hmade.extends hclear hfree)) (hfree.of_dirs hmade.new)
      (hmade.keep hclear hfree hdir)
  · exact .inl (createDirAll_below_error leads hfree hclear)

end Fs

end FileSystem
