import Mathlib.Algebra.Group.Nat.Defs
import Mathlib.Data.List.GetD

/-! Merkle trees over lists of any length. A layer is paired up from the left, the last node of an odd layer with itself,
    and the nodes made of the pairs are the layer above. -/

namespace MerkleTree

open List

variable {η : Type}

/-- The neighbours in a layer. The last node of an odd layer is its own neighbour. -/
def pairs : List η → List (η × η)
  | [] => []
  | [h] => [(h, h)]
  | l :: r :: hs => (l, r) :: pairs hs

variable (node : η → η → η)

def up (layer : List η) : List η := (pairs layer).map fun p => node p.1 p.2

def root (empty : η) : Nat → List η → η
  | _, [] => empty
  | _, [h] => h
  | 0, h :: _ => h
  | fuel + 1, layer => root empty fuel (up node layer)

def combined : Nat → List η → List (η × η)
  | fuel + 1, l :: r :: hs => pairs (l :: r :: hs) ++ combined fuel (up node (l :: r :: hs))
  | _, _ => []

def nodes (fuel : Nat) (layer : List η) : List η :=
  layer ++ (combined node fuel layer).map fun p => node p.1 p.2

/-! ### Proof paths -/

structure Step (η : Type) where
  sibling : η
  siblingIsLeft : Bool
  deriving DecidableEq, Repr

def Step.pair (s : Step η) (h : η) : η × η := if s.siblingIsLeft then (s.sibling, h) else (h, s.sibling)

def Step.apply (h : η) (s : Step η) : η := node (s.pair h).1 (s.pair h).2

def follow (h : η) (steps : List (Step η)) : η := steps.foldl (Step.apply node) h

def along : η → List (Step η) → List (η × η)
  | _, [] => []
  | h, s :: steps => s.pair h :: along (s.apply node h) steps

def siblingIndex (n index : Nat) : Nat := if index % 2 = 0 then min (index + 1) (n - 1) else index - 1

def path : Nat → List η → Nat → List (Step η)
  | fuel + 1, l :: r :: hs, index =>
    let sibling := siblingIndex (hs.length + 2) index
    ⟨(l :: r :: hs).getD sibling l, sibling < index⟩ :: path fuel (up node (l :: r :: hs)) (index / 2)
  | _, _, _ => []

/-! ### Layers -/

section Layers

theorem getElem?_pairs (layer : List η) (k : Nat) :
    (pairs layer)[k]? = layer[2 * k]?.map fun l => (l, layer.getD (2 * k + 1) l) := by
  induction layer using pairs.induct generalizing k with
  | case1 => simp [pairs]
  | case2 => cases k <;> simp [pairs]
  | case3 l r hs ih =>
    cases k with
    | zero => simp [pairs]
    | succ k => simpa [pairs, Nat.mul_add] using ih k

@[simp] theorem length_up (layer : List η) : (up node layer).length = (layer.length + 1) / 2 := by
  rw [up, length_map]
  induction layer using pairs.induct with
  | case1 | case2 => simp [pairs]
  | case3 =>
    rw [pairs, length_cons, length_cons, length_cons]
    omega

theorem mem_of_mem_pairs {layer : List η} {p : η × η} (h : p ∈ pairs layer) : p.1 ∈ layer ∧ p.2 ∈ layer := by
  induction layer using pairs.induct with
  | case1 => cases h
  | case2 =>
    obtain rfl := mem_singleton.1 h
    simp
  | case3 l r hs ih =>
    rcases mem_cons.1 h with rfl | h
    · simp
    · exact ⟨by simp [(ih h).1], by simp [(ih h).2]⟩

theorem pairs_inj {a b : List η} (len : a.length = b.length) (h : pairs a = pairs b) : a = b := by
  induction a using pairs.induct generalizing b with
  | case1 => exact (length_eq_zero_iff.1 len.symm).symm
  | case2 =>
    obtain ⟨y, rfl⟩ := length_eq_one_iff.1 len.symm
    simpa [pairs] using h
  | case3 l r hs ih =>
    match b, len with
    | l' :: r' :: hs', len =>
      simp only [pairs, cons.injEq, Prod.mk.injEq] at h
      rw [h.1.1, h.1.2, ih (by simpa using len) h.2]

variable {node} {empty : η} {fuel : Nat} {layer : List η}

section
variable (len : 1 < layer.length)
include len

theorem root_up : root node empty (fuel + 1) layer = root node empty fuel (up node layer) := by
  match layer, len with
  | _ :: _ :: _, _ => rfl

theorem combined_up : combined node (fuel + 1) layer = pairs layer ++ combined node fuel (up node layer) := by
  match layer, len with
  | _ :: _ :: _, _ => rfl

theorem nodes_up : nodes node (fuel + 1) layer = layer ++ nodes node fuel (up node layer) := by
  rw [nodes, combined_up len, map_append]
  rfl

theorem up_ne_nil : up node layer ≠ [] := by
  intro hnil
  have := congrArg length hnil
  rw [length_up, length_nil] at this
  omega

end

theorem layer_cases (layer : List η) : layer = [] ∨ (∃ h, layer = [h]) ∨ 1 < layer.length := by
  match layer with
  | [] => exact .inl rfl
  | [h] => exact .inr (.inl ⟨h, rfl⟩)
  | _ :: _ :: _ => exact .inr (.inr (by simp))

end Layers

/-! ### Every position has a path -/

section Complete
variable {node} {empty h : η} {layer : List η} {fuel index : Nat}

theorem getElem?_up (len : 1 < layer.length) (d : η) (found : layer[index]? = some h) : (up node layer)[index / 2]? =
      some (Step.apply node h ⟨layer.getD (siblingIndex layer.length index) d,
        siblingIndex layer.length index < index⟩) := by
  obtain ⟨hlt, rfl⟩ := List.getElem?_eq_some_iff.1 found
  rw [up, getElem?_map, getElem?_pairs]
  rcases Nat.mod_two_eq_zero_or_one index with heven | hodd
  · have hindex : 2 * (index / 2) = index := by omega
    have hright : ¬ siblingIndex layer.length index < index := by
      rw [siblingIndex, if_pos heven]
      omega
    rw [hindex, found]
    simp only [hright, Option.map_some, Step.apply, Step.pair, decide_false, Bool.false_eq_true, if_false]
    by_cases hnext : index + 1 < layer.length
    · have hsibling : siblingIndex layer.length index = index + 1 := by
        rw [siblingIndex, if_pos heven]
        omega
      rw [hsibling, getD_eq_getElem _ _ hnext, getD_eq_getElem _ _ hnext]
    · have hsibling : siblingIndex layer.length index = index := by
        rw [siblingIndex, if_pos heven]
        omega
      rw [hsibling, getD_eq_default _ _ (by omega), getD_eq_getElem _ _ hlt]
  · have hsibling : siblingIndex layer.length index = index - 1 := by rw [siblingIndex, if_neg (by omega)]
    have hbefore : 2 * (index / 2) = index - 1 := by omega
    have hleft : index - 1 < index := by omega
    have hself : index - 1 + 1 = index := by omega
    have hlt' : index - 1 < layer.length := by omega
    rw [hsibling, hbefore, getElem?_eq_getElem hlt', Option.map_some, hself,
      getD_eq_getElem _ _ hlt, getD_eq_getElem _ _ hlt']
    simp [Step.apply, Step.pair, hleft]

theorem follow_path (enough : layer.length ≤ fuel + 1) (found : layer[index]? = some h) :
    follow node h (path node fuel layer index) = root node empty fuel layer := by
  induction fuel generalizing layer index h with
  | zero =>
    match layer, enough, found with
    | [x], _, found =>
      obtain ⟨hlt, rfl⟩ := List.getElem?_eq_some_iff.1 found
      simp [path, follow, root]
  | succ fuel ih =>
    match layer, found with
    | [x], found =>
      obtain ⟨hlt, rfl⟩ := List.getElem?_eq_some_iff.1 found
      simp [path, follow, root]
    | l :: r :: hs, found =>
      have hlen : 1 < (l :: r :: hs).length := by simp
      rw [root_up hlen]
      refine ih ?_ (getElem?_up hlen l found)
      rw [length_up]
      omega

end Complete

/-! ### A path starts at a node -/

section Sound
variable {node} {empty h : η} {layer : List η} {fuel : Nat} {steps : List (Step η)}

theorem root_mem_nodes (ne : layer ≠ []) : root node empty fuel layer ∈ nodes node fuel layer := by
  induction fuel generalizing layer with
  | zero =>
    match layer, ne with
    | [h], _ => simp [root, nodes]
    | h :: _ :: _, _ => simp [root, nodes]
  | succ fuel ih =>
    rcases layer_cases layer with rfl | ⟨h, rfl⟩ | hlen
    · exact absurd rfl ne
    · simp [root, nodes]
    · rw [root_up hlen, nodes_up hlen]
      exact mem_append_right _ (ih (up_ne_nil hlen))

theorem mem_nodes_of_combined {p : η × η} (hp : p ∈ combined node fuel layer) :
    p.1 ∈ nodes node fuel layer ∧ p.2 ∈ nodes node fuel layer := by
  induction fuel generalizing layer with
  | zero => cases layer <;> cases hp
  | succ fuel ih =>
    rcases layer_cases layer with rfl | ⟨h, rfl⟩ | hlen
    · cases hp
    · cases hp
    · rw [combined_up hlen] at hp
      rw [nodes_up hlen]
      rcases mem_append.1 hp with hp | hp
      · have := mem_of_mem_pairs hp
        exact ⟨mem_append_left _ this.1, mem_append_left _ this.2⟩
      · have := ih hp
        exact ⟨mem_append_right _ this.1, mem_append_right _ this.2⟩

/-- A path to the root starts at a node, if the pairs along it collide with no pair that was combined and make no node of
    the lowest layer. -/
theorem mem_nodes_of_follow (ne : layer ≠ [])
    (free : ∀ p ∈ combined node fuel layer, ∀ q ∈ along node h steps, node p.1 p.2 = node q.1 q.2 → p = q)
    (apart : ∀ x ∈ layer, ∀ q ∈ along node h steps, x ≠ node q.1 q.2)
    (arrives : follow node h steps = root node empty fuel layer) : h ∈ nodes node fuel layer := by
  induction steps generalizing h with
  | nil => exact (show h = _ from arrives) ▸ root_mem_nodes ne
  | cons s steps ih =>
    have habove : s.apply node h ∈ nodes node fuel layer :=
      ih (fun p hp q hq => free p hp q (mem_cons_of_mem _ hq)) (fun x hx q hq => apart x hx q (mem_cons_of_mem _ hq))
        arrives
    have hfirst : s.pair h ∈ along node h (s :: steps) := mem_cons_self
    rcases mem_append.1 habove with hleaf | hnode
    · exact absurd rfl (apart _ hleaf _ hfirst)
    · obtain ⟨p, hp, heq⟩ := mem_map.1 hnode
      have hpair : s.pair h ∈ combined node fuel layer := free p hp _ hfirst heq ▸ hp
      have hmem := mem_nodes_of_combined hpair
      unfold Step.pair at hmem
      split at hmem
      · exact hmem.2
      · exact hmem.1

end Sound

/-! ### The root determines a layer of known length -/

section Injective
variable {node} {empty : η} {a b : List η} {fuel : Nat}

theorem up_inj (len : a.length = b.length)
    (free : ∀ p ∈ pairs a, ∀ q ∈ pairs b, node p.1 p.2 = node q.1 q.2 → p = q) (h : up node a = up node b) : a = b := by
  refine pairs_inj len ?_
  have hlen : (pairs a).length = (pairs b).length := by simpa [up] using congrArg length h
  refine ext_getElem hlen fun i hi hi' => ?_
  have hnode := getElem_of_eq h (show i < (up node a).length by simpa [up] using hi)
  simp only [up, getElem_map] at hnode
  exact free _ (getElem_mem hi) _ (getElem_mem hi') hnode

theorem eq_of_root_eq (len : a.length = b.length) (enough : a.length ≤ fuel + 1)
    (free : ∀ p ∈ combined node fuel a, ∀ q ∈ combined node fuel b, node p.1 p.2 = node q.1 q.2 → p = q)
    (h : root node empty fuel a = root node empty fuel b) : a = b := by
  induction fuel generalizing a b with
  | zero =>
    match a, b, len, enough, h with
    | [], [], _, _, _ => rfl
    | [x], [y], _, _, h => simpa [root] using h
  | succ fuel ih =>
    rcases layer_cases a with rfl | ⟨x, rfl⟩ | hlen
    · exact (length_eq_zero_iff.1 len.symm).symm
    · obtain ⟨y, rfl⟩ := length_eq_one_iff.1 len.symm
      simpa [root] using h
    · rw [combined_up hlen, combined_up (len ▸ hlen)] at free
      rw [root_up hlen, root_up (len ▸ hlen)] at h
      have hup : up node a = up node b := by
        refine ih (by simp [len]) ?_ ?_ h
        · rw [length_up]
          omega
        · exact fun p hp q hq => free p (mem_append_right _ hp) q (mem_append_right _ hq)
      exact up_inj len (fun p hp q hq => free p (mem_append_left _ hp) q (mem_append_left _ hq)) hup

end Injective

/-! ### Trees without hashes -/

inductive Tree (α : Type) where
  | empty
  | leaf (a : α)
  | node (left right : Tree α)

section Trees
variable {α η' : Type} {node} {node' : η' → η' → η'} {f : η → η'} {layer : List η}

theorem map_up (hf : ∀ x y, f (node x y) = node' (f x) (f y)) : (up node layer).map f = up node' (layer.map f) := by
  induction layer using pairs.induct with
  | case1 => rfl
  | case2 => simp [up, pairs, hf]
  | case3 l r hs ih =>
    simp only [up, pairs, map_cons, hf]
    exact congrArg _ ih

theorem map_root (hf : ∀ x y, f (node x y) = node' (f x) (f y)) (empty : η) (fuel : Nat) (layer : List η) :
    f (root node empty fuel layer) = root node' (f empty) fuel (layer.map f) := by
  induction fuel generalizing layer with
  | zero => rcases layer with _ | ⟨x, _ | ⟨y, l⟩⟩ <;> rfl
  | succ fuel ih =>
    rcases layer_cases layer with rfl | ⟨h, rfl⟩ | hlen
    · rfl
    · rfl
    · rw [root_up hlen, root_up (by simpa using hlen), ih, map_up hf]

namespace Tree

def of (items : List α) : Tree α := root .node .empty items.length (items.map .leaf)

def leaves : Tree α → List α
  | .empty => []
  | .leaf a => [a]
  | .node l r => l.leaves ++ r.leaves

def Perfect : Nat → Tree α → Prop
  | 0, .leaf _ => True
  | k + 1, .node l r => Perfect k l ∧ Perfect k r
  | _, _ => False

theorem perfect_root {k fuel : Nat} {layer : List (Tree α)} (ne : layer ≠ []) (h : ∀ t ∈ layer, Perfect k t) :
    ∃ k, Perfect k (root .node .empty fuel layer) := by
  induction fuel generalizing layer k with
  | zero =>
    match layer, ne with
    | [t], _ => exact ⟨k, h t mem_cons_self⟩
    | t :: _ :: _, _ => exact ⟨k, h t mem_cons_self⟩
  | succ fuel ih =>
    rcases layer_cases layer with rfl | ⟨t, rfl⟩ | hlen
    · exact absurd rfl ne
    · exact ⟨k, h t mem_cons_self⟩
    · rw [root_up hlen]
      refine ih (k := k + 1) (up_ne_nil hlen) fun t ht => ?_
      obtain ⟨p, hp, rfl⟩ := mem_map.1 ht
      have hmem := mem_of_mem_pairs hp
      exact ⟨h _ hmem.1, h _ hmem.2⟩

theorem Perfect.length_leaves {k : Nat} {t : Tree α} (h : Perfect k t) : t.leaves.length = 2 ^ k := by
  induction t generalizing k with
  | empty => cases k <;> cases h
  | leaf =>
    cases k with
    | zero => rfl
    | succ => cases h
  | node l r ihl ihr =>
    cases k with
    | zero => cases h
    | succ => rw [leaves, length_append, ihl h.1, ihr h.2, Nat.pow_succ, Nat.mul_two]

theorem Perfect.eq_of_leaves {k : Nat} {s t : Tree α} (hs : Perfect k s) (ht : Perfect k t) (h : s.leaves = t.leaves) :
    s = t := by
  induction s generalizing k t with
  | empty => cases k <;> cases hs
  | leaf =>
    match k, t, hs, ht with
    | 0, .leaf b, _, _ => rw [(cons.inj h).1]
  | node l r ihl ihr =>
    match k, t, hs, ht with
    | k + 1, .node l' r', hs, ht =>
      obtain ⟨hl, hr⟩ := append_inj h (by rw [hs.1.length_leaves, ht.1.length_leaves])
      rw [ihl hs.1 ht.1 hl, ihr hs.2 ht.2 hr]

theorem of_eq_iff {a b : List α} : of a = of b ↔ (of a).leaves = (of b).leaves := by
  refine ⟨congrArg leaves, fun h => ?_⟩
  have hperfect : ∀ {xs : List α}, xs ≠ [] → ∃ k, Perfect k (of xs) := fun hne =>
    perfect_root (k := 0) (by simpa using hne) (by simp [Perfect])
  have hlength := congrArg length h
  by_cases ha : a = [] <;> by_cases hb : b = []
  · rw [ha, hb]
  · obtain ⟨k, hk⟩ := hperfect hb
    rw [hk.length_leaves, ha] at hlength
    exact absurd hlength (Nat.ne_of_lt (Nat.two_pow_pos k))
  · obtain ⟨k, hk⟩ := hperfect ha
    rw [hk.length_leaves, hb] at hlength
    exact absurd hlength (Nat.ne_of_gt (Nat.two_pow_pos k))
  · obtain ⟨j, hj⟩ := hperfect ha
    obtain ⟨k, hk⟩ := hperfect hb
    rw [hj.length_leaves, hk.length_leaves] at hlength
    obtain rfl := (Nat.pow_right_inj (by decide : 1 < 2)).1 hlength
    exact hj.eq_of_leaves hk h

end Tree

end Trees

end MerkleTree
