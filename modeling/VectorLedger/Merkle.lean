import VectorLedger.Lib.Merkle
import VectorLedger.Types

/-! The Merkle tree of the ledger: leaves and nodes are hashed under different first bytes. -/

namespace VectorLedger.Merkle

def hashLeaf (blake3 : List UInt8 → Hash) (data : List UInt8) : Hash := blake3 (0 :: data)

def hashNode (blake3 : List UInt8 → Hash) (left right : Hash) : Hash := blake3 (1 :: left.toList ++ right.toList)

/-- One level up. The last node of an odd layer is its own sibling. -/
def nextLayer (blake3 : List UInt8 → Hash) : List Hash → List Hash
  | [] => []
  | [h] => [hashNode blake3 h h]
  | left :: right :: hs => hashNode blake3 left right :: nextLayer blake3 hs

/-- Go up until one hash is left. A layer gets shorter at each level. -/
def climb (blake3 : List UInt8 → Hash) : Nat → List Hash → Hash
  | _, [] => zeroHash
  | _, [h] => h
  | 0, h :: _ => h
  | fuel + 1, layer => climb blake3 fuel (nextLayer blake3 layer)

def merkleRoot (blake3 : List UInt8 → Hash) (items : List (List UInt8)) : Hash :=
  climb blake3 items.length (items.map (hashLeaf blake3))

/-! ### Proofs -/

abbrev ProofStep := MerkleTree.Step Hash

structure MerkleProof where
  leafIndex : Nat
  leafHash : Hash
  path : List ProofStep
  root : Hash

inductive ProofError where
  | merkleProofInvalid
  deriving DecidableEq

def MerkleProof.verify (blake3 : List UInt8 → Hash) (p : MerkleProof) : Except ProofError Unit :=
  let current := p.path.foldl (fun current step =>
    if step.siblingIsLeft then hashNode blake3 step.sibling current else hashNode blake3 current step.sibling) p.leafHash
  if current = p.root then .ok () else .error .merkleProofInvalid

def merkleProof (blake3 : List UInt8 → Hash) (items : List (List UInt8)) (leafIndex : Nat) : Option MerkleProof :=
  items[leafIndex]?.map fun item =>
    ⟨leafIndex, hashLeaf blake3 item,
      MerkleTree.path (hashNode blake3) items.length (items.map (hashLeaf blake3)) leafIndex,
      merkleRoot blake3 items⟩

def strings (blake3 : List UInt8 → Hash) (items : List (List UInt8)) : List (List UInt8) :=
  items.map (0 :: ·) ++
    (MerkleTree.combined (hashNode blake3) items.length (items.map (hashLeaf blake3))).map
      fun p => 1 :: p.1.toList ++ p.2.toList

end VectorLedger.Merkle
