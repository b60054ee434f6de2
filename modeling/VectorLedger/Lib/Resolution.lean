import VectorLedger.Lib.FileSystem

/-! How paths are resolved: in parts, in a file system that has grown, and below a directory without links. -/

namespace FileSystem

open List

namespace Fs

variable {α : Type} {fs fs' : Fs α} {a b p q : List Name} {n : Name} {x : Node α} {create : Bool} {links : Nat}
  {cs cs' : List Seg} {data : α}

/-! ### Nodes -/

@[simp] theorem get_nil : fs.get [] = some .dir := rfl

theorem get_put (h : fs.CanPut p) (q : List Name) : (fs.put p x h).get q = if q = p then some x else fs.get q :=
  lookup_cons _ _ _ _ h.1

theorem get_ne_none (h : fs.get p = some x) : fs.get p ≠ none := by simp [h]

theorem dir_of_child (h : fs.get (p ++ [n]) ≠ none) : fs.get p = some .dir := fs.closed p n h

theorem dir_dropLast (h : fs.get a ≠ none) : fs.get a.dropLast = some .dir := by
  rcases eq_nil_or_concat a with rfl | ⟨p, n, rfl⟩
  · rfl
  · rw [concat_eq_append] at h ⊢
    rw [dropLast_concat]
    exact dir_of_child h

theorem dir_of_append (hq : q ≠ []) (h : fs.get (p ++ q) ≠ none) : fs.get p = some .dir := by
  induction q using reverseRecOn with
  | nil => exact absurd rfl hq
  | append_singleton q n ih =>
    rw [← append_assoc] at h
    have hdir := dir_of_child h
    by_cases hnil : q = []
    · rwa [hnil, append_nil] at hdir
    · exact ih hnil (get_ne_none hdir)

theorem dirAt_iff : fs.dirAt p = true ↔ fs.get p = some .dir := by
  unfold dirAt
  rcases fs.get p with _ | _ | _ | _ <;> simp

theorem fileAt_eq_some : fs.fileAt p = some data ↔ fs.get p = some (.file data) := by
  unfold fileAt
  rcases fs.get p with _ | _ | _ | _ <;> simp

theorem fileAt_eq_none : fs.fileAt p = none ↔ ∀ data, fs.get p ≠ some (.file data) := by
  unfold fileAt
  rcases fs.get p with _ | _ | _ | _ <;> simp

theorem there_of_fileAt (h : fs.fileAt p = some data) : fs.get p ≠ none := get_ne_none (fileAt_eq_some.1 h)

theorem fileAt_congr (h : fs'.get p = fs.get p) : fs'.fileAt p = fs.fileAt p := by
  unfold fileAt
  rw [h]

theorem mem_children : n ∈ fs.children p ↔ fs.get (p ++ [n]) ≠ none := by
  have hkey (q : List Name) : q ∈ fs.nodes.map Prod.fst ↔ fs.nodes.lookup q ≠ none := by
    rw [ne_eq, lookup_eq_none_iff]
    simp only [mem_map, not_forall, bne_iff_ne, ne_eq, not_not, exists_prop]
    exact ⟨fun ⟨x, hx, heq⟩ => ⟨x, hx, by simp [heq]⟩, fun ⟨x, hx, heq⟩ => ⟨x, hx, by simpa [eq_comm] using heq⟩⟩
  have hget : fs.get (p ++ [n]) = fs.nodes.lookup (p ++ [n]) := if_neg (by simp)
  rw [hget, ← hkey, children, mem_filterMap]
  constructor
  · rintro ⟨q, hq, hlast⟩
    obtain ⟨hmem, hq⟩ := mem_filter.1 hq
    obtain ⟨hne, rfl⟩ := of_decide_eq_true hq
    rw [getLast?_eq_some_getLast hne] at hlast
    cases hlast
    rw [dropLast_concat_getLast]
    exact mem_dedup.1 hmem
  · intro h
    exact ⟨p ++ [n], mem_filter.2 ⟨mem_dedup.2 h, by simp⟩, by simp⟩

/-! ### Resolution in parts -/

theorem start_dir (p : Path) : fs.get (fs.start p) = some .dir := by
  unfold start
  split
  · rfl
  · exact fs.cwdDir

theorem walk_cons_name : walk create fs links a (.name n :: cs) =
    match fs.get (a ++ [n]) with
    | some .dir => walk create fs links (a ++ [n]) cs
    | some (.file _) => if cs = [] then .ok (a ++ [n]) else .error .notDir
    | some (.link t) =>
      match links with
      | 0 => .error .loop
      | links + 1 => walk create fs links (if t.absolute then [] else a) (t.full ++ cs)
    | none => if create && cs = [] then .ok (a ++ [n]) else .error .noEnt := by
  cases links <;> rfl

@[simp] theorem walk_nil : walk create fs links a [] = .ok a := by cases links <;> rfl

@[simp] theorem walk_here : walk create fs links a (.here :: cs) = walk create fs links a cs := by cases links <;> rfl

@[simp] theorem walk_up : walk create fs links a (.up :: cs) = walk create fs links a.dropLast cs := by
  cases links <;> rfl

/-- A rule for facts about resolutions: induction on the links that are left, and then on the steps. -/
theorem walk_induction (fs : Fs α) {P : Nat → List Name → List Seg → Prop} (nil : ∀ links a, P links a [])
    (here : ∀ links a cs, P links a cs → P links a (.here :: cs))
    (up : ∀ links a cs, P links a.dropLast cs → P links a (.up :: cs))
    (dir : ∀ links a n cs, fs.get (a ++ [n]) = some .dir → P links (a ++ [n]) cs → P links a (.name n :: cs))
    (link : ∀ links a n t cs, fs.get (a ++ [n]) = some (.link t) → (∀ a ds, P links a ds) → P (links + 1) a (.name n :: cs))
    (loop : ∀ a n t cs, fs.get (a ++ [n]) = some (.link t) → P 0 a (.name n :: cs))
    (file : ∀ links a n data cs, fs.get (a ++ [n]) = some (.file data) → P links a (.name n :: cs))
    (missing : ∀ links a n cs, fs.get (a ++ [n]) = none → P links a (.name n :: cs)) (links : Nat) (a : List Name)
    (cs : List Seg) : P links a cs := by
  induction links using Nat.strong_induction_on generalizing a cs with
  | _ links ihl =>
    induction cs generalizing a with
    | nil => exact nil links a
    | cons c cs ih =>
      rcases c with _ | _ | n
      · exact here links a cs (ih a)
      · exact up links a cs (ih _)
      rcases hnode : fs.get (a ++ [n]) with _ | data | _ | t
      · exact missing links a n cs hnode
      · exact file links a n data cs hnode
      · exact dir links a n cs hnode (ih _)
      cases links with
      | zero => exact loop a n t cs hnode
      | succ links => exact link links a n t cs hnode (ihl links (Nat.lt_succ_self _))

theorem dir_up (dir : fs.get a = some .dir) : fs.get a.dropLast = some .dir :=
  dir_dropLast (get_ne_none dir)

theorem dir_link (dir : fs.get a = some .dir) (t : Path) : fs.get (if t.absolute then [] else a) = some .dir := by
  split
  · rfl
  · exact dir

theorem node_of_walk (dir : fs.get a = some .dir) (h : walk create fs links a cs = .ok b) :
    fs.get b = some .dir ∨ (∃ data, fs.get b = some (.file data)) ∨ (create = true ∧ fs.get b = none) := by
  revert dir h
  induction links, a, cs using walk_induction fs with
  | nil links a =>
    intro dir h
    rw [walk_nil] at h
    cases h
    exact .inl dir
  | here links a cs ih => rwa [walk_here]
  | up links a cs ih =>
    rw [walk_up]
    exact fun dir => ih (dir_up dir)
  | dir links a n cs node ih =>
    simp only [walk_cons_name, node]
    exact fun _ => ih node
  | link links a n t cs node ih =>
    simp only [walk_cons_name, node]
    exact fun dir => ih _ _ (dir_link dir t)
  | loop a n t cs node => simp [walk_cons_name, node]
  | file links a n data cs node =>
    simp only [walk_cons_name, node]
    rintro - h
    split at h <;> cases h
    exact .inr (.inl ⟨data, node⟩)
  | missing links a n cs node =>
    simp only [walk_cons_name, node]
    rintro - h
    split at h <;> cases h
    exact .inr (.inr ⟨(Bool.and_eq_true_iff.1 ‹_›).1, node⟩)

theorem canonicalize_ok {p : Path} (h : fs.canonicalize p = .ok b) :
    p.isEmpty = false ∧ walk false fs maxLinks (fs.start p) p.full = .ok b := by
  unfold canonicalize at h
  split at h
  · cases h
  · next hne => exact ⟨by simpa using hne, h⟩

theorem get_of_canonicalize {p : Path} (h : fs.canonicalize p = .ok b) :
    fs.get b = some .dir ∨ ∃ data, fs.get b = some (.file data) := by
  simpa using node_of_walk (start_dir p) (canonicalize_ok h).2

theorem walk_append_ok (ne : cs' ≠ []) (h : walk create fs links a (cs ++ cs') = .ok b) :
    ∃ c links', walk false fs links a cs = .ok c ∧ walk create fs links' c cs' = .ok b := by
  revert h
  induction links, a, cs using walk_induction fs with
  | nil links a => exact fun h => ⟨a, links, walk_nil, h⟩
  | here links a cs ih => rwa [cons_append, walk_here, walk_here]
  | up links a cs ih => rwa [cons_append, walk_up, walk_up]
  | dir links a n cs node ih => simpa only [cons_append, walk_cons_name, node] using ih
  | link links a n t cs node ih =>
    simp only [cons_append, walk_cons_name, node, ← append_assoc]
    exact ih _ _
  | loop a n t cs node => simp [walk_cons_name, node]
  | file links a n data cs node => simp [walk_cons_name, node, ne]
  | missing links a n cs node => simp [walk_cons_name, node, ne]

theorem walk_append {c : List Name} {r : Except Errno (List Name)} (h : walk false fs links a cs = .ok c)
    (hc : fs.get c = some .dir) (rest : ∀ links', walk create fs links' c cs' = r) : walk create fs links a (cs ++ cs') = r := by
  revert h
  induction links, a, cs using walk_induction fs with
  | nil links a =>
    intro h
    rw [walk_nil] at h
    cases h
    exact rest links
  | here links a cs ih => rwa [cons_append, walk_here, walk_here]
  | up links a cs ih => rwa [cons_append, walk_up, walk_up]
  | dir links a n cs node ih => simpa only [cons_append, walk_cons_name, node] using ih
  | link links a n t cs node ih =>
    simp only [cons_append, walk_cons_name, node, ← append_assoc]
    exact ih _ _
  | loop a n t cs node => simp [walk_cons_name, node]
  | file links a n data cs node =>
    simp only [walk_cons_name, node]
    intro h
    split at h <;> cases h
    cases node.symm.trans hc
  | missing links a n cs node => simp [walk_cons_name, node]

/-! ### A file system that has grown -/

/-- Directories and links are still there, and files are still files. -/
def Extends (fs fs' : Fs α) : Prop :=
  fs'.cwd = fs.cwd ∧ ∀ p x, fs.get p = some x →
    match x with
    | .file _ => ∃ data, fs'.get p = some (.file data)
    | x => fs'.get p = some x

theorem Extends.refl (fs : Fs α) : fs.Extends fs := by
  refine ⟨rfl, fun p x h => ?_⟩
  cases x with
  | file data => exact ⟨data, h⟩
  | _ => exact h

theorem Extends.dir (h : fs.Extends fs') (hp : fs.get p = some .dir) : fs'.get p = some .dir := h.2 p _ hp

theorem Extends.trans {fs'' : Fs α} (h : fs.Extends fs') (h' : fs'.Extends fs'') : fs.Extends fs'' := by
  refine ⟨h'.1.trans h.1, fun p x hx => ?_⟩
  cases x with
  | file =>
    obtain ⟨data', hdata⟩ := h.2 p _ hx
    exact h'.2 p _ hdata
  | dir | link => exact h'.2 p _ (h.2 p _ hx)

theorem Extends.walk (h : fs.Extends fs') (hw : walk false fs links a cs = .ok b) : walk create fs' links a cs = .ok b := by
  revert hw
  induction links, a, cs using walk_induction fs with
  | nil => simp
  | here links a cs ih => rwa [walk_here, walk_here]
  | up links a cs ih => rwa [walk_up, walk_up]
  | dir links a n cs node ih => simpa only [walk_cons_name, node, h.dir node] using ih
  | link links a n t cs node ih =>
    have hnode : fs'.get (a ++ [n]) = some (.link t) := h.2 _ _ node
    simp only [walk_cons_name, node, hnode]
    exact ih _ _
  | loop a n t cs node => simp [walk_cons_name, node]
  | file links a n data cs node =>
    obtain ⟨data', hnode⟩ := h.2 _ _ node
    simp [walk_cons_name, node, hnode]
  | missing links a n cs node => simp [walk_cons_name, node]

theorem extends_of_get (cwd : fs'.cwd = fs.cwd) (h : ∀ q x, fs.get q = some x →
    fs'.get q = some x ∨ ∃ old data, x = .file old ∧ fs'.get q = some (.file data)) : fs.Extends fs' := by
  refine ⟨cwd, fun q x hq => ?_⟩
  rcases h q x hq with hsame | ⟨old, data, rfl, hdata⟩
  · cases x with
    | file old => exact ⟨old, hsame⟩
    | _ => exact hsame
  · exact ⟨data, hdata⟩

theorem extends_put_file (h : fs.CanPut p) (hp : ∀ t, fs.get p ≠ some (.link t)) :
    fs.Extends (fs.put p (.file data) h) := by
  refine extends_of_get rfl fun q x hq => ?_
  rw [get_put]
  by_cases heq : q = p
  · subst heq
    cases x with
    | file old => exact .inr ⟨old, data, rfl, if_pos rfl⟩
    | dir => exact absurd hq h.2.2
    | link t => exact absurd hq (hp t)
  · exact .inl (by rw [if_neg heq, hq])

section
variable {path : Path} {data : α} (h : fs.write path data = .ok fs')
include h

theorem put_of_write : ∃ q, fs.locate path = .ok q ∧ ∃ hput : fs.CanPut q, fs' = fs.put q (.file data) hput := by
  unfold write at h
  split at h
  · cases h
  · next q hq =>
    split at h
    · next hput => exact ⟨q, hq, hput, (Except.ok.inj h).symm⟩
    · cases h

theorem extends_write : fs.Extends fs' := by
  obtain ⟨q, hq, hput, rfl⟩ := put_of_write h
  refine extends_put_file hput fun t ht => ?_
  unfold locate at hq
  split at hq
  · cases hq
  · rcases node_of_walk (start_dir path) hq with hnode | ⟨data, hnode⟩ | ⟨-, hnode⟩ <;> rw [ht] at hnode <;> cases hnode

theorem get_write : ∃ q, fs.locate path = .ok q ∧ ∀ r, r ≠ q → fs'.get r = fs.get r := by
  obtain ⟨q, hq, hput, rfl⟩ := put_of_write h
  exact ⟨q, hq, fun r hr => by rw [get_put, if_neg hr]⟩

end

end Fs

end FileSystem
