import Mathlib.Data.List.Basic
import Mathlib.Data.List.Dedup
import Mathlib.Data.List.Infix

/-! A file system with directories, files and symbolic links, as a process with a working directory sees it. The text of a
    path is taken apart at the slashes; paths are resolved step by step, through links; writing a file and making a
    directory go where the resolution leads. -/

namespace FileSystem

section
open List

def Valid (s : List Char) : Prop := s ≠ [] ∧ s ≠ ['.'] ∧ s ≠ ['.', '.'] ∧ '/' ∉ s

instance (s : List Char) : Decidable (Valid s) := by
  unfold Valid
  infer_instance

abbrev Name := { s : List Char // Valid s }

/-- A step of a path. `here` stands at the end of a path to a directory. -/
inductive Seg where
  | here
  | up
  | name (n : Name)
  deriving DecidableEq

/-- The end of a text: a name or `..`, a slash, or a dot behind a slash. -/
inductive Tail where
  | plain
  | slash
  | dot
  deriving DecidableEq

structure Path where
  absolute : Bool
  /-- A relative path that begins with a dot. -/
  lead : Bool
  segs : List Seg
  tail : Tail
  deriving DecidableEq

/-- A part between slashes. Empty parts and dots are no steps. -/
def segOf (s : List Char) : Option Seg :=
  if s = ['.', '.'] then some .up
  else if h : Valid s then some (.name ⟨s, h⟩)
  else none

namespace Path

def tailOf (parts : List (List Char)) : Tail :=
  if parts.length ≤ 1 then .plain
  else if parts.getLast? = some [] then .slash
  else if parts.getLast? = some ['.'] then .dot
  else .plain

def parse (s : List Char) : Path where
  absolute := s.head? = some '/'
  lead := (s.splitOn '/').head? = some ['.']
  segs := (s.splitOn '/').filterMap segOf
  tail := tailOf (s.splitOn '/')

def isEmpty (p : Path) : Bool := !p.absolute && !p.lead && p.segs = []

/-- The steps to what the path names, which is a directory if the text does not end with a name. -/
def full (p : Path) : List Seg := if p.tail = .plain then p.segs else p.segs ++ [.here]

def parent (p : Path) : Option Path :=
  if p.segs ≠ [] then some { p with segs := p.segs.dropLast, tail := .plain }
  else if p.lead then some ⟨false, false, [], .plain⟩
  else none

def fileName (p : Path) : Option Name :=
  match p.segs.getLast? with
  | some (.name n) => some n
  | _ => none

/-- An absolute path replaces the one it is joined to. -/
def join (p q : Path) : Path :=
  if q.absolute then q
  else if p.isEmpty then q
  else
    { p with
      segs := p.segs ++ q.segs
      tail := if q.isEmpty then .slash else if q.segs = [] then .dot else q.tail }

def ofName (n : Name) : Path := ⟨false, false, [.name n], .plain⟩

def below (p : Path) (ns : List Name) : Path := { p with segs := p.segs ++ ns.map .name, tail := .plain }

def stripPrefix (q : List Name) (p : Path) : Option (List Name) :=
  if p.absolute && p.segs.isPrefixOf (q.map .name) then some (q.drop p.segs.length) else none

def display (ns : List Name) : List Char := ['/'].intercalate (ns.map Subtype.val)

end Path

/-! ### Texts of names -/

theorem segOf_name (n : Name) : segOf n.1 = some (.name n) := by
  rw [segOf, if_neg n.2.2.2.1, dif_pos n.2]

theorem filterMap_segOf (ns : List Name) : (ns.map Subtype.val).filterMap segOf = ns.map .name := by
  rw [filterMap_map]
  induction ns with
  | nil => rfl
  | cons n ns ih => rw [filterMap_cons_some (by exact segOf_name n), ih, map_cons]

variable {ns : List Name}

theorem splitOn_display (ne : ns ≠ []) : (Path.display ns).splitOn '/' = ns.map Subtype.val := by
  refine splitOn_intercalate '/' ?_ fun h => ne (map_eq_nil_iff.1 h)
  intro s hs
  obtain ⟨n, -, rfl⟩ := mem_map.1 hs
  exact n.2.2.2.2

def Path.ofNames (ns : List Name) : Path := ⟨false, false, ns.map .name, .plain⟩

theorem tailOf_names (ns : List Name) : Path.tailOf (ns.map Subtype.val) = .plain := by
  unfold Path.tailOf
  rw [getLast?_map]
  cases hlast : ns.getLast? with
  | none => simp
  | some n =>
    have hempty : n.1 ≠ [] := n.2.1
    have hdot : n.1 ≠ ['.'] := n.2.2.1
    simp [hempty, hdot]

theorem head?_intercalate (s : List Char) (ss : List (List Char)) (h : s ≠ []) :
    (['/'].intercalate (s :: ss)).head? = s.head? := by
  cases s with
  | nil => exact absurd rfl h
  | cons => cases ss <;> rfl

theorem parse_display (ne : ns ≠ []) : Path.parse (Path.display ns) = Path.ofNames ns := by
  cases ns with
  | nil => exact absurd rfl ne
  | cons n ns =>
    have hslash : n.1.head? ≠ some '/' := fun h => n.2.2.2.2 (mem_of_mem_head? h)
    have hhead : (Path.display (n :: ns)).head? = n.1.head? := head?_intercalate n.1 (ns.map Subtype.val) n.2.1
    have hdot : n.1 ≠ ['.'] := n.2.2.1
    simp only [Path.parse, splitOn_display ne, filterMap_segOf, tailOf_names, hhead, Path.ofNames]
    simp [hslash, hdot]

/-! ### Relative paths of names -/

def Seg.name? : Seg → Option Name
  | .name n => some n
  | _ => none

def Path.names (p : Path) : Option (List Name) :=
  if p.absolute = false ∧ p.tail = .plain ∧ p.segs ≠ [] then p.segs.mapM Seg.name? else none

theorem mapM_name?_eq_some {segs : List Seg} : segs.mapM Seg.name? = some ns ↔ segs = ns.map .name := by
  induction segs generalizing ns with
  | nil => cases ns <;> simp
  | cons c segs ih =>
    cases c with
    | name => cases ns <;> simp [Seg.name?, Option.bind_eq_some_iff, ih, and_comm]
    | here | up => cases ns <;> simp [Seg.name?]

theorem Path.names_eq_some {p : Path} :
    p.names = some ns ↔ p.absolute = false ∧ p.tail = .plain ∧ p.segs = ns.map .name ∧ ns ≠ [] := by
  unfold Path.names
  split
  · next h =>
    rw [mapM_name?_eq_some]
    refine ⟨fun hsegs => ⟨h.1, h.2.1, hsegs, ?_⟩, fun hp => hp.2.2.1⟩
    rintro rfl
    exact h.2.2 hsegs
  · next h =>
    refine iff_of_false (by simp) fun hp => h ⟨hp.1, hp.2.1, ?_⟩
    rw [hp.2.2.1]
    simpa using hp.2.2.2

theorem Path.join_names {p q : Path} (nonempty : p.isEmpty = false) (h : q.names = some ns) : p.join q = p.below ns := by
  obtain ⟨habs, htail, hsegs, hne⟩ := Path.names_eq_some.1 h
  have hsegsNe : q.segs ≠ [] := by rw [hsegs]; simpa using hne
  have hempty : q.isEmpty = false := by simp [Path.isEmpty, hsegsNe]
  rw [Path.join, habs, nonempty, hempty]
  simp [hne, htail, hsegs, Path.below]

theorem Path.names_ofNames (ne : ns ≠ []) : (Path.ofNames ns).names = some ns :=
  Path.names_eq_some.2 ⟨rfl, rfl, rfl, ne⟩

theorem names_parse_intercalate {parts : List (List Char)} {n : Name} (ne : ns ≠ [])
    (slash : ∀ s ∈ n.1 :: parts, '/' ∉ s) (named : parts.filterMap segOf = ns.map .name)
    (last : parts.getLast? = ns.getLast?.map Subtype.val) :
    (Path.parse (['/'].intercalate (n.1 :: parts))).names = some (n :: ns) := by
  have hsplit : (['/'].intercalate (n.1 :: parts)).splitOn '/' = n.1 :: parts :=
    splitOn_intercalate '/' slash (by simp)
  have hhead : (['/'].intercalate (n.1 :: parts)).head? = n.1.head? := head?_intercalate n.1 parts n.2.1
  have hslash : n.1.head? ≠ some '/' := fun h => n.2.2.2.2 (mem_of_mem_head? h)
  obtain ⟨m, hm⟩ : ∃ m, ns.getLast? = some m := ⟨_, getLast?_eq_some_getLast ne⟩
  refine Path.names_eq_some.2 ⟨?_, ?_, ?_, by simp⟩
  · simp [Path.parse, hhead, hslash]
  · have hlast : (n.1 :: parts).getLast? = some m.1 := by
      rw [getLast?_cons, last, hm]
      rfl
    have hempty : m.1 ≠ [] := m.2.1
    have hdot : m.1 ≠ ['.'] := m.2.2.1
    simp [Path.parse, hsplit, Path.tailOf, hlast, hempty, hdot]
  · simp only [Path.parse, hsplit]
    rw [filterMap_cons_some (segOf_name n), named, map_cons]

theorem display_cons {n : Name} (ne : ns ≠ []) : Path.display (n :: ns) = n.1 ++ '/' :: Path.display ns := by
  cases ns with
  | nil => exact absurd rfl ne
  | cons => simp [Path.display, intercalate]

theorem splitOn_append {t : List Char} (slash : '/' ∉ t) (s : List Char) : ∃ init last, '/' ∉ last ∧
    s.splitOn '/' = init ++ [last] ∧ (s ++ t).splitOn '/' = init ++ [last ++ t] := by
  induction s with
  | nil =>
    have hpart : ∀ part ∈ [t], '/' ∉ part := by simpa using slash
    exact ⟨[], [], by simp, rfl, by simpa using splitOn_intercalate '/' hpart (by simp)⟩
  | cons c s ih =>
    obtain ⟨init, last, hlast, hs, hst⟩ := ih
    unfold splitOn at hs hst ⊢
    rw [cons_append, splitOnP_cons_eq_if_modifyHead, splitOnP_cons_eq_if_modifyHead, hs, hst]
    by_cases hc : c = '/'
    · exact ⟨[] :: init, last, hlast, by simp [hc], by simp [hc]⟩
    · cases init with
      | nil => exact ⟨[], c :: last, by simp [hlast, Ne.symm hc], by simp [hc], by simp [hc]⟩
      | cons part init => exact ⟨(c :: part) :: init, last, hlast, by simp [hc], by simp [hc]⟩

theorem segOf_eq_name {s : List Char} {n : Name} (h : segOf s = some (.name n)) : s = n.1 := by
  unfold segOf at h
  split_ifs at h
  · cases h
  · cases h
    rfl

/-- A suffix of a text of names is one of the last name. -/
theorem names_append {s t : List Char} {n : Name} (h : (Path.parse s).names = some (ns ++ [n])) (slash : '/' ∉ t)
    (valid : Valid (n.1 ++ t)) : (Path.parse (s ++ t)).names = some (ns ++ [⟨n.1 ++ t, valid⟩]) := by
  obtain ⟨init, last, hlast, hs, hst⟩ := splitOn_append slash s
  obtain ⟨habs, htail, hsegs, -⟩ := Path.names_eq_some.1 h
  simp only [Path.parse, hs, filterMap_append, map_append] at htail hsegs
  -- The last part is a step: it is not empty and no dot.
  have hsome : segOf last ≠ none := by
    intro hnone
    have hdots : last = [] ∨ last = ['.'] := by
      unfold segOf at hnone
      split_ifs at hnone with hup hvalid
      simpa [Valid, hup, hlast, or_iff_not_imp_left] using hvalid
    have hinit : init ≠ [] := by
      rintro rfl
      simp [hnone] at hsegs
    rcases hdots with rfl | rfl <;> simp [Path.tailOf, hinit] at htail
  obtain ⟨seg, hseg⟩ := Option.ne_none_iff_exists'.1 hsome
  rw [filterMap_cons_some hseg] at hsegs
  obtain ⟨hinit, hname⟩ := append_inj' hsegs rfl
  obtain rfl : seg = .name n := by simpa using hname
  obtain rfl := segOf_eq_name hseg
  refine Path.names_eq_some.2 ⟨?_, ?_, ?_, by simp⟩
  · have hhead : (s ++ t).head? = s.head? := by
      cases s with
      | nil => cases init <;> simp [n.2.1] at hs
      | cons => rfl
    simpa [Path.parse, hhead] using habs
  · have hempty : n.1 ++ t ≠ [] := valid.1
    have hdot : n.1 ++ t ≠ ['.'] := valid.2.1
    simp [Path.parse, hst, Path.tailOf, hempty, hdot]
  · have hlast : segOf (n.1 ++ t) = some (.name ⟨n.1 ++ t, valid⟩) := segOf_name ⟨_, valid⟩
    simp [Path.parse, hst, hinit, hlast]

end

variable {α : Type}

inductive Node (α : Type) where
  | file (data : α)
  | dir
  | link (target : Path)

inductive Errno where
  | noEnt
  | notDir
  | isDir
  | present
  | loop
  deriving DecidableEq

/-- The nodes by their canonical paths. The first one for a path counts. -/
def lookup (nodes : List (List Name × Node α)) (p : List Name) : Option (Node α) :=
  if p = [] then some .dir else nodes.lookup p

structure Fs (α : Type) where
  nodes : List (List Name × Node α)
  cwd : List Name
  closed : ∀ p n, lookup nodes (p ++ [n]) ≠ none → lookup nodes p = some .dir
  cwdDir : lookup nodes cwd = some .dir

namespace Fs

def get (fs : Fs α) (p : List Name) : Option (Node α) := lookup fs.nodes p

def CanPut (fs : Fs α) (p : List Name) : Prop := p ≠ [] ∧ fs.get p.dropLast = some .dir ∧ fs.get p ≠ some .dir

theorem lookup_cons (nodes : List (List Name × Node α)) (p q : List Name) (x : Node α) (hp : p ≠ []) :
    lookup ((p, x) :: nodes) q = if q = p then some x else lookup nodes q := by
  unfold lookup
  by_cases hq : q = p
  · subst hq
    simp [hp]
  · have hne : (q == p) = false := by simpa using hq
    rw [List.lookup_cons, hne, if_neg hq]

/-- A node in place of another one that is no directory, or where there was none. -/
def put (fs : Fs α) (p : List Name) (x : Node α) (h : fs.CanPut p) : Fs α where
  nodes := (p, x) :: fs.nodes
  cwd := fs.cwd
  closed := by
    intro q n hq
    rw [lookup_cons _ _ _ _ h.1] at hq ⊢
    have hqdir : fs.get q = some .dir := by
      by_cases heq : q ++ [n] = p
      · have := h.2.1
        rwa [← heq, List.dropLast_concat] at this
      · rw [if_neg heq] at hq
        exact fs.closed q n hq
    have hne : q ≠ p := fun heq => h.2.2 (heq ▸ hqdir)
    rw [if_neg hne]
    exact hqdir
  cwdDir := by
    have hne : fs.cwd ≠ p := fun heq => h.2.2 (heq ▸ fs.cwdDir)
    rw [lookup_cons _ _ _ _ h.1, if_neg hne]
    exact fs.cwdDir

def root : Fs α where
  nodes := []
  cwd := []
  closed := by
    intro p n h
    exact absurd (if_neg (by simp)) h
  cwdDir := rfl

def children (fs : Fs α) (p : List Name) : List Name :=
  ((fs.nodes.map Prod.fst).dedup.filter fun q => q ≠ [] ∧ q.dropLast = p).filterMap List.getLast?

/-! ### Resolution -/

/-- Follow steps from a directory. With `create` the last name need not be there. -/
def walkWith (create : Bool) (follow : List Name → List Seg → Except Errno (List Name)) (fs : Fs α) :
    List Name → List Seg → Except Errno (List Name)
  | a, [] => .ok a
  | a, .here :: cs => walkWith create follow fs a cs
  | a, .up :: cs => walkWith create follow fs a.dropLast cs
  | a, .name n :: cs =>
    match fs.get (a ++ [n]) with
    | some .dir => walkWith create follow fs (a ++ [n]) cs
    | some (.file _) => if cs = [] then .ok (a ++ [n]) else .error .notDir
    | some (.link t) => follow (if t.absolute then [] else a) (t.full ++ cs)
    | none => if create && cs = [] then .ok (a ++ [n]) else .error .noEnt

def walk (create : Bool) (fs : Fs α) : Nat → List Name → List Seg → Except Errno (List Name)
  | 0 => walkWith create (fun _ _ => .error .loop) fs
  | links + 1 => walkWith create (walk create fs links) fs

def maxLinks : Nat := 40

def start (fs : Fs α) (p : Path) : List Name := if p.absolute then [] else fs.cwd

def canonicalize (fs : Fs α) (p : Path) : Except Errno (List Name) :=
  if p.isEmpty then .error .noEnt else walk false fs maxLinks (fs.start p) p.full

def locate (fs : Fs α) (p : Path) : Except Errno (List Name) :=
  if p.isEmpty then .error .noEnt else walk true fs maxLinks (fs.start p) p.full

def pathExists (fs : Fs α) (p : Path) : Bool := (fs.canonicalize p).toOption.isSome

def dirAt (fs : Fs α) (q : List Name) : Bool :=
  match fs.get q with
  | some .dir => true
  | _ => false

def isDir (fs : Fs α) (p : Path) : Bool :=
  match fs.canonicalize p with
  | .ok q => fs.dirAt q
  | .error _ => false

def fileAt (fs : Fs α) (q : List Name) : Option α :=
  match fs.get q with
  | some (.file data) => some data
  | _ => none

/-! ### Reading and writing -/

def read (fs : Fs α) (p : Path) : Except Errno α :=
  match fs.canonicalize p with
  | .error e => .error e
  | .ok q =>
    match fs.fileAt q with
    | some data => .ok data
    | none => .error .isDir

def readDir (fs : Fs α) (p : Path) : Except Errno (List Name) :=
  match fs.canonicalize p with
  | .error e => .error e
  | .ok q => if fs.dirAt q then .ok (fs.children q) else .error .notDir

instance (fs : Fs α) (p : List Name) : Decidable (fs.CanPut p) :=
  decidable_of_iff (p ≠ [] ∧ fs.dirAt p.dropLast = true ∧ fs.dirAt p = false) (by
    unfold CanPut dirAt
    refine and_congr_right fun _ => and_congr ?_ ?_
    · rcases fs.get p.dropLast with _ | _ | _ | _ <;> simp
    · rcases fs.get p with _ | _ | _ | _ <;> simp)

def write (fs : Fs α) (p : Path) (data : α) : Except Errno (Fs α) :=
  match fs.locate p with
  | .error e => .error e
  | .ok q => if h : fs.CanPut q then .ok (fs.put q (.file data) h) else .error .isDir

def mkdir (fs : Fs α) (p : Path) : Except Errno (Fs α) :=
  if p.isEmpty then .error .noEnt
  else
    match p.fileName with
    | some n =>
      if p.tail = .dot then
        match fs.canonicalize p with
        | .ok _ => .error .present
        | .error e => .error e
      else
        match walk false fs maxLinks (fs.start p) p.segs.dropLast with
        | .error e => .error e
        | .ok a =>
          if fs.get (a ++ [n]) matches some _ then .error .present
          else if h : fs.CanPut (a ++ [n]) then .ok (fs.put (a ++ [n]) .dir h)
          else .error .notDir
    | none =>
      match fs.canonicalize p with
      | .ok _ => .error .present
      | .error e => .error e

def makeDirs : Nat → Fs α → Path → Except Errno Unit × Fs α
  | fuel, fs, p =>
    if p.isEmpty then (.ok (), fs)
    else
      match fs.mkdir p with
      | .ok fs' => (.ok (), fs')
      | .error e =>
        if e = .noEnt then
          match fuel, p.parent with
          | fuel + 1, some q =>
            match makeDirs fuel fs q with
            | (.error e, fs') => (.error e, fs')
            | (.ok (), fs') =>
              match fs'.mkdir p with
              | .ok fs'' => (.ok (), fs'')
              | .error e => if fs'.isDir p then (.ok (), fs') else (.error e, fs')
          | _, _ => (.error .noEnt, fs)
        else if fs.isDir p then (.ok (), fs)
        else (.error e, fs)

def createDirAll (fs : Fs α) (p : Path) : Except Errno Unit × Fs α := makeDirs (p.segs.length + 1) fs p

end Fs

end FileSystem
