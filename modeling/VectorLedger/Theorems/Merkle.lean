import Mathlib.Data.List.Dedup
import VectorLedger.Merkle

/-! The Merkle tree of the ledger: proofs lead to the root, and under a hash without collisions a root stands for its
    items. -/

namespace VectorLedger

open MerkleTree List

theorem CollisionFree.of_nodup {blake3 : List UInt8 → Hash} {strings : List (List UInt8)}
    (h : (strings.dedup.map blake3).Nodup) : CollisionFree blake3 strings :=
  fun _ ha _ hb => inj_on_of_nodup_map h (mem_dedup.2 ha) (mem_dedup.2 hb)

namespace Merkle

variable {blake3 : List UInt8 → Hash} {items a b : List (List UInt8)} {data : List UInt8} {path : List ProofStep}

theorem nextLayer_eq (layer : List Hash) : nextLayer blake3 layer = up (hashNode blake3) layer := by
  rw [up]
  induction layer using pairs.induct with
  | case1 | case2 => simp [nextLayer, pairs]
  | case3 l r hs ih => rw [nextLayer, pairs, map_cons, ih]

theorem climb_eq (fuel : Nat) (layer : List Hash) :
    climb blake3 fuel layer = root (hashNode blake3) zeroHash fuel layer := by
  induction fuel generalizing layer with
  | zero => rcases layer with _ | ⟨l, _ | ⟨r, hs⟩⟩ <;> rfl
  | succ fuel ih =>
    rcases layer with _ | ⟨l, _ | ⟨r, hs⟩⟩
    · rfl
    · rfl
    · rw [root_up (by simp), ← nextLayer_eq]
      exact ih _

theorem merkleRoot_eq (items : List (List UInt8)) : merkleRoot blake3 items =
      root (hashNode blake3) zeroHash items.length (items.map (hashLeaf blake3)) :=
  climb_eq _ _

/-! ### Every item has a proof -/

/-- The proof of an item: it starts at the leaf of the item and leads to the root. -/
structure Proves (blake3 : List UInt8 → Hash) (items : List (List UInt8)) (p : MerkleProof) : Prop where
  leaf : ∃ item, items[p.leafIndex]? = some item ∧ p.leafHash = hashLeaf blake3 item
  root : p.root = merkleRoot blake3 items
  path : MerkleTree.follow (hashNode blake3) p.leafHash p.path = p.root

theorem merkleProof_proves {i : Nat} {p : MerkleProof} (h : merkleProof blake3 items i = some p) :
    Proves blake3 items p := by
  obtain ⟨item, hitem, rfl⟩ := Option.map_eq_some_iff.1 h
  refine ⟨⟨item, hitem, rfl⟩, rfl, ?_⟩
  rw [merkleRoot_eq]
  refine follow_path (by simp) ?_
  rw [getElem?_map, hitem, Option.map_some]

theorem merkleProof_some (blake3 : List UInt8 → Hash) {i : Nat} (h : i < items.length) : ∃ p, merkleProof blake3 items i = some p := by
  rw [merkleProof, getElem?_eq_getElem h]
  exact ⟨_, rfl⟩

theorem mapM_merkleProof_proves {is : List Nat} {proofs : List MerkleProof}
    (h : is.mapM (merkleProof blake3 items) = some proofs) : ∀ p ∈ proofs, Proves blake3 items p := by
  induction is generalizing proofs with
  | nil =>
    obtain rfl : [] = proofs := Option.some.inj h
    simp
  | cons i is ih =>
    rw [mapM_cons] at h
    obtain ⟨p, hp, h⟩ := Option.bind_eq_some_iff.1 h
    obtain ⟨ps, hps, h⟩ := Option.bind_eq_some_iff.1 h
    obtain rfl : p :: ps = proofs := Option.some.inj h
    exact forall_mem_cons.2 ⟨merkleProof_proves hp, ih hps⟩

theorem verify_ok_iff {p : MerkleProof} :
    p.verify blake3 = .ok () ↔ follow (hashNode blake3) p.leafHash p.path = p.root := by
  have hfold : p.path.foldl (fun current step => if step.siblingIsLeft then hashNode blake3 step.sibling current
      else hashNode blake3 current step.sibling) p.leafHash = follow (hashNode blake3) p.leafHash p.path := by
    refine congrArg (foldl · p.leafHash p.path) (funext fun current => funext fun step => ?_)
    unfold MerkleTree.Step.apply MerkleTree.Step.pair
    split <;> rfl
  simp only [MerkleProof.verify, hfold]
  split <;> simp_all

theorem merkleProof_verifies (blake3 : List UInt8 → Hash) (items : List (List UInt8)) (i : Nat) (h : i < items.length) :
    ∃ p, merkleProof blake3 items i = some p ∧ p.root = merkleRoot blake3 items ∧
      p.leafHash = hashLeaf blake3 items[i] ∧ p.verify blake3 = .ok () := by
  obtain ⟨p, hp⟩ := merkleProof_some blake3 h
  have proves := merkleProof_proves hp
  refine ⟨p, hp, proves.root, ?_, verify_ok_iff.2 proves.path⟩
  rw [merkleProof, getElem?_eq_getElem h] at hp
  cases hp
  rfl

/-- The last of three items, which is its own sibling. -/
theorem merkleProof_verifies_last : ∃ p, merkleProof (fun _ => zeroHash) [[1], [2], [3]] 2 = some p ∧
    p.path.length = 2 ∧ p.verify (fun _ => zeroHash) = .ok () := by
  obtain ⟨p, hp, -, -, hverify⟩ := merkleProof_verifies (fun _ => zeroHash) [[1], [2], [3]] 2 (by decide)
  refine ⟨p, hp, ?_, hverify⟩
  cases hp
  rfl

/-! ### A proof starts at an item -/

def pathStrings (blake3 : List UInt8 → Hash) (leaf : Hash) (path : List ProofStep) : List (List UInt8) :=
  (MerkleTree.along (hashNode blake3) leaf path).map fun p => 1 :: p.1.toList ++ p.2.toList

theorem nodeString_inj {p q : Hash × Hash} (h : (1 :: p.1.toList ++ p.2.toList : List UInt8) = 1 :: q.1.toList ++ q.2.toList) :
    p = q := by
  obtain ⟨hleft, hright⟩ := append_inj (cons.inj h).2 (by simp)
  exact Prod.ext (Vector.toList_inj.1 hleft) (Vector.toList_inj.1 hright)

theorem leaf_mem_strings (h : data ∈ items) : 0 :: data ∈ strings blake3 items :=
  mem_append_left _ (mem_map_of_mem h)

theorem node_mem_strings {p : Hash × Hash}
    (h : p ∈ combined (hashNode blake3) items.length (items.map (hashLeaf blake3))) :
    1 :: p.1.toList ++ p.2.toList ∈ strings blake3 items :=
  mem_append_right _ (mem_map.2 ⟨p, h, rfl⟩)

theorem mem_of_follow (ne : items ≠ [])
    (free : CollisionFree blake3 (strings blake3 items ++ (0 :: data) :: pathStrings blake3 (hashLeaf blake3 data) path))
    (h : follow (hashNode blake3) (hashLeaf blake3 data) path = merkleRoot blake3 items) : data ∈ items := by
  have hpath {q : Hash × Hash} (hq : q ∈ along (hashNode blake3) (hashLeaf blake3 data) path) :
      1 :: q.1.toList ++ q.2.toList ∈
        strings blake3 items ++ (0 :: data) :: pathStrings blake3 (hashLeaf blake3 data) path :=
    mem_append_right _ (mem_cons_of_mem _ (mem_map.2 ⟨q, hq, rfl⟩))
  have hdata : 0 :: data ∈ strings blake3 items ++ (0 :: data) :: pathStrings blake3 (hashLeaf blake3 data) path :=
    mem_append_right _ mem_cons_self
  rw [merkleRoot_eq] at h
  have hnode := mem_nodes_of_follow (by simpa using ne)
    (fun p hp q hq heq => nodeString_inj (free _ (mem_append_left _ (node_mem_strings hp)) _ (hpath hq) heq))
    (fun x hx q hq heq => by
      obtain ⟨item, hitem, rfl⟩ := mem_map.1 hx
      exact absurd (cons.inj (free _ (mem_append_left _ (leaf_mem_strings hitem)) _ (hpath hq) heq)).1 (by decide)) h
  rcases mem_append.1 hnode with hleaf | hinner
  · obtain ⟨item, hitem, heq⟩ := mem_map.1 hleaf
    have hsame := free _ (mem_append_left _ (leaf_mem_strings hitem)) _ hdata heq
    exact (cons.inj hsame).2 ▸ hitem
  · -- The leaf of the data is no inner node: the two are hashed under different first bytes.
    obtain ⟨p, hp, heq⟩ := mem_map.1 hinner
    have hsame := free _ (mem_append_left _ (node_mem_strings hp)) _ hdata heq
    exact absurd (cons.inj hsame).1 (by decide)

theorem exists_string_of_follow (leaf : Hash) (path : List ProofStep) : follow (hashNode blake3) leaf path = leaf ∨
      ∃ s ∈ pathStrings blake3 leaf path, follow (hashNode blake3) leaf path = blake3 s := by
  induction path generalizing leaf with
  | nil => exact .inl rfl
  | cons step path ih =>
    refine .inr ?_
    rcases ih (step.apply (hashNode blake3) leaf) with hstop | ⟨s, hs, hlast⟩
    · exact ⟨_, mem_cons_self, hstop⟩
    · exact ⟨s, mem_cons_of_mem _ hs, hlast⟩

theorem mem_of_verify (blake3 : List UInt8 → Hash) (items : List (List UInt8)) (data : List UInt8) (p : MerkleProof)
    (free : CollisionFree blake3 (strings blake3 items ++ (0 :: data) :: pathStrings blake3 (hashLeaf blake3 data) p.path))
    (nonzero : ∀ s ∈ (0 :: data) :: pathStrings blake3 (hashLeaf blake3 data) p.path, blake3 s ≠ zeroHash)
    (leaf : p.leafHash = hashLeaf blake3 data) (root : p.root = merkleRoot blake3 items)
    (verified : p.verify blake3 = .ok ()) : data ∈ items := by
  rw [verify_ok_iff, leaf, root] at verified
  by_cases ne : items = []
  · -- The root of no items is zero, and no hash is.
    rw [forall_mem_cons] at nonzero
    subst ne
    obtain hleaf | ⟨s, hs, hlast⟩ : _ ∨ ∃ s ∈ pathStrings blake3 _ _, _ := exists_string_of_follow _ p.path
    · exact absurd (hleaf.symm.trans verified) nonzero.1
    · exact absurd (hlast.symm.trans verified) (nonzero.2 s hs)
  · exact mem_of_follow ne free verified

/-! ### The root determines its items, if it is known how many they are -/

theorem eq_of_merkleRoot_eq (len : a.length = b.length) (free : CollisionFree blake3 (strings blake3 a ++ strings blake3 b))
    (h : merkleRoot blake3 a = merkleRoot blake3 b) : a = b := by
  rw [merkleRoot_eq, merkleRoot_eq, ← len] at h
  have hleaves : a.map (hashLeaf blake3) = b.map (hashLeaf blake3) := by
    refine eq_of_root_eq (by simp [len]) (by simp) (fun p hp q hq heq => ?_) h
    rw [len] at hq
    exact nodeString_inj
      (free _ (mem_append_left _ (node_mem_strings hp)) _ (mem_append_right _ (node_mem_strings hq)) heq)
  refine ext_getElem len fun i hi hi' => ?_
  have hleaf := getElem_of_eq hleaves (show i < (a.map (hashLeaf blake3)).length by simpa using hi)
  rw [getElem_map, getElem_map] at hleaf
  have hsame := free _ (mem_append_left _ (leaf_mem_strings (getElem_mem hi))) _
    (mem_append_right _ (leaf_mem_strings (getElem_mem hi'))) hleaf
  exact (cons.inj hsame).2

/-! ### The root determines the tree -/

def treeHash (blake3 : List UInt8 → Hash) : MerkleTree.Tree (List UInt8) → Hash
  | .empty => zeroHash
  | .leaf data => hashLeaf blake3 data
  | .node l r => hashNode blake3 (treeHash blake3 l) (treeHash blake3 r)

def treeStrings (blake3 : List UInt8 → Hash) : MerkleTree.Tree (List UInt8) → List (List UInt8)
  | .empty => []
  | .leaf data => [0 :: data]
  | .node l r => (1 :: (treeHash blake3 l).toList ++ (treeHash blake3 r).toList) ::
    (treeStrings blake3 l ++ treeStrings blake3 r)

/-- The items, and those that are repeated to fill up the layers of the tree. -/
def filled (items : List (List UInt8)) : List (List UInt8) := (MerkleTree.Tree.of items).leaves

theorem merkleRoot_eq_treeHash (items : List (List UInt8)) : merkleRoot blake3 items = treeHash blake3 (.of items) := by
  have hleaves : (items.map .leaf).map (treeHash blake3) = items.map (hashLeaf blake3) := map_map
  rw [merkleRoot_eq, ← hleaves]
  refine Eq.symm (map_root ?_ _ _ _)
  exact fun _ _ => rfl

theorem treeHash_inj {s t : MerkleTree.Tree (List UInt8)}
    (free : ∀ x ∈ treeStrings blake3 s, ∀ y ∈ treeStrings blake3 t, blake3 x = blake3 y → x = y)
    (nonzero : ∀ x ∈ treeStrings blake3 s ++ treeStrings blake3 t, blake3 x ≠ zeroHash)
    (h : treeHash blake3 s = treeHash blake3 t) : s = t := by
  induction s generalizing t with
  | empty =>
    cases t with
    | empty => rfl
    | leaf => exact absurd h.symm (nonzero _ (by simp [treeStrings]))
    | node => exact absurd h.symm (nonzero _ mem_cons_self)
  | leaf =>
    cases t with
    | empty => exact absurd h (nonzero _ mem_cons_self)
    | leaf => rw [(cons.inj (free _ mem_cons_self _ mem_cons_self h)).2]
    | node => exact absurd (cons.inj (free _ mem_cons_self _ mem_cons_self h)).1 (by decide)
  | node l r ihl ihr =>
    cases t with
    | empty => exact absurd h (nonzero _ mem_cons_self)
    | leaf => exact absurd (cons.inj (free _ mem_cons_self _ mem_cons_self h)).1 (by decide)
    | node =>
      have hpair := nodeString_inj (p := (_, _)) (q := (_, _)) (free _ mem_cons_self _ mem_cons_self h)
      simp only [treeStrings, forall_mem_cons, forall_mem_append] at free nonzero
      obtain ⟨hl, hr⟩ := Prod.mk.inj hpair
      have hfree := free.2
      rw [ihl (fun x hx y hy => (hfree.1 x hx).2.1 y hy) (forall_mem_append.2 ⟨nonzero.1.2.1, nonzero.2.2.1⟩) hl,
        ihr (fun x hx y hy => (hfree.2 x hx).2.2 y hy) (forall_mem_append.2 ⟨nonzero.1.2.2, nonzero.2.2.2⟩) hr]

/-- The root stands for the list of items if and only if the repeated items do not make another list of it. -/
theorem same_root_same_items_iff (blake3 : List UInt8 → Hash) (a b : List (List UInt8))
    (free : CollisionFree blake3 (treeStrings blake3 (.of a) ++ treeStrings blake3 (.of b)))
    (nonzero : ∀ s ∈ treeStrings blake3 (.of a) ++ treeStrings blake3 (.of b), blake3 s ≠ zeroHash) :
    (merkleRoot blake3 a = merkleRoot blake3 b → a = b) ↔ (filled a = filled b → a = b) := by
  have hroot : merkleRoot blake3 a = merkleRoot blake3 b ↔ filled a = filled b := by
    rw [merkleRoot_eq_treeHash, merkleRoot_eq_treeHash, filled, filled, ← MerkleTree.Tree.of_eq_iff]
    refine ⟨treeHash_inj (fun x hx y hy => ?_) nonzero, congrArg _⟩
    exact free x (mem_append_left _ hx) y (mem_append_right _ hy)
  rw [hroot]

namespace Sample

def padHash (s : List UInt8) : Hash := .ofFn fun i => s.getD (31 - i) 255

def padProof : MerkleProof := ⟨0, padHash [0, 7], [⟨padHash [0, 8], false⟩], merkleRoot padHash [[7], [8]]⟩

end Sample

theorem mem_of_verify_two : Sample.padProof.verify Sample.padHash = .ok () ∧ [7] ∈ ([[7], [8]] : List (List UInt8)) :=
  ⟨by decide +kernel, mem_of_verify Sample.padHash [[7], [8]] [7] Sample.padProof (by decide +kernel)
    (by decide +kernel) rfl rfl (by decide +kernel)⟩

theorem same_root_same_items_three : let a : List (List UInt8) := [[7], [8], [9]]; let b := [[7], [8]]
    filled a ≠ filled b ∧ (merkleRoot Sample.padHash a = merkleRoot Sample.padHash b → a = b) :=
  ⟨by decide +kernel, (same_root_same_items_iff Sample.padHash [[7], [8], [9]] [[7], [8]] (by decide +kernel)
    (by decide +kernel)).2 (by decide +kernel)⟩

/-- An item at the end of an odd list can be listed once more. -/
theorem same_root_item_repeated : let a := [[7], [8], [9]]; let b := [[7], [8], [9], [9]]
    CollisionFree Sample.padHash (treeStrings Sample.padHash (.of a) ++ treeStrings Sample.padHash (.of b)) ∧
    (∀ s ∈ treeStrings Sample.padHash (.of a) ++ treeStrings Sample.padHash (.of b), Sample.padHash s ≠ zeroHash) ∧
    merkleRoot Sample.padHash a = merkleRoot Sample.padHash b ∧ a ≠ b := by
  decide +kernel

end Merkle

end VectorLedger
