/-
The parts of the multisig every party computes alike (`msig_core`): member
leaves, vote nullifiers, the fixed-depth member tree, the instruction set, and
the two account layouts. The tree instantiates the library's hash tree with
`hash_pair`.
-/
import Lez.Core.Identity
import Lez.Lib.HashTree

namespace Lez.Msig

/-- The leaf index and the siblings, bottom up. -/
abbrev MerkleProof := UInt32 × List Bytes32

/-- `TREE_DEPTH`. -/
def treeDepth : Nat := 5

/-- `EMPTY_LEAF`. -/
def emptyLeaf : Bytes32 := ByteVec.fill 32 0

/-- `LEAF_DOMAIN`. -/
def leafDomain : Bytes := ascii "/lp0002/leaf/" ++ [0]

/-- `NULL_DOMAIN`. -/
def nullDomain : Bytes := ascii "/lp0002/null/" ++ [0]

/-- `PROPOSAL_HEADER_LEN`. -/
def proposalHeaderLen : Nat := 68

/-- `REGISTRY_HEADER_LEN`. -/
def registryHeaderLen : Nat := 36

inductive MsigInstruction
  | createProposal (memberRoot proposalId : Bytes32)
  | approve (secret : Bytes32) (merklePath : MerkleProof) (proposalId : Bytes32)
  | enroll (leaf : Bytes32)
  | initTreasury (seed : PdaSeed) (transferProgramId : ProgramId)
  | execute (threshold : UInt32) (seed : PdaSeed)
deriving DecidableEq

/-- The registry's bytes: root, count, leaves. -/
def registryBytes (root : Bytes32) (leaves : List Bytes32) : Bytes :=
  root.toList ++ toLe 4 leaves.length ++ flatten leaves

/-- A proposal's bytes: root, id, count, nullifiers. -/
def proposalBytes (root id : Bytes32) (count : Nat) (nullifiers : List Bytes32) : Bytes :=
  root.toList ++ id.toList ++ toLe 4 count ++ flatten nullifiers

section
variable (sha256 : Bytes → Bytes32)

/-- `hash_pair`. -/
def hashPair (left right : Bytes32) : Bytes32 := sha256 (left.toList ++ right.toList)

/-- `member_leaf`. -/
def memberLeaf (secret : Bytes32) : Bytes32 := sha256 (leafDomain ++ secret.toList)

/-- `vote_nullifier`. -/
def voteNullifier (secret proposalId : Bytes32) : Bytes32 :=
  sha256 (nullDomain ++ secret.toList ++ proposalId.toList)

/-- `Vec::resize` to `2 ^ TREE_DEPTH` slots: it pads a short list and cuts a long one. -/
def resized (leaves : List Bytes32) : List Bytes32 :=
  leaves.take (2 ^ treeDepth) ++ List.replicate (2 ^ treeDepth - leaves.length) emptyLeaf

/-- `merkle_root`. The last level has one node (`merkleRoot_level`), so the default is never read. -/
def merkleRoot (leaves : List Bytes32) : Bytes32 :=
  (HashTree.level (hashPair sha256) treeDepth (resized leaves)).headD emptyLeaf

/-- `merkle_path`; `none` is the panic of an index off the tree. -/
def merklePath (leaves : List Bytes32) (index : Nat) : Option MerkleProof :=
  (HashTree.siblings (hashPair sha256) treeDepth (resized leaves) index).map fun p => (UInt32.ofNat index, p)

/-- `root_from_path`. -/
def rootFromPath (leaf : Bytes32) (proof : MerkleProof) : Bytes32 :=
  HashTree.climb (hashPair sha256) proof.1.toNat proof.2 leaf

end

/-! ## The padded leaves -/

@[simp] theorem resized_length (leaves : List Bytes32) : (resized leaves).length = 2 ^ treeDepth := by
  simp only [resized, List.length_append, List.length_take, List.length_replicate]
  omega

/-- A slot holds the leaf enrolled there or is empty. -/
theorem resized_getElem?_some {leaves : List Bytes32} {i : Nat} {v : Bytes32} (h : (resized leaves)[i]? = .some v) :
    leaves[i]? = .some v ∨ v = emptyLeaf := by
  rw [resized, List.getElem?_append] at h
  split at h
  next hi =>
    rw [List.getElem?_take] at h
    split at h
    · exact .inl h
    · cases h
  next hi => exact .inr (List.eq_of_mem_replicate (List.mem_of_getElem? h))

/-- The first `2 ^ TREE_DEPTH` leaves have their slot. -/
theorem resized_getElem? {leaves : List Bytes32} {i : Nat} {v : Bytes32} (hi : i < 2 ^ treeDepth)
    (h : leaves[i]? = .some v) : (resized leaves)[i]? = .some v := by
  have hlen : i < leaves.length := (List.getElem?_eq_some_iff.mp h).1
  rw [resized, List.getElem?_append_left (by simp; omega), List.getElem?_take, if_pos hi]
  exact h

theorem merkleRoot_level (sha256 : Bytes → Bytes32) (leaves : List Bytes32) :
    HashTree.level (hashPair sha256) treeDepth (resized leaves) = [merkleRoot sha256 leaves] := by
  have hlen : (HashTree.level (hashPair sha256) treeDepth (resized leaves)).length = 1 := by
    rw [HashTree.level_length, resized_length]; decide
  obtain ⟨r, hr⟩ := List.length_eq_one_iff.mp hlen
  rw [merkleRoot, hr, List.headD_cons]

/-! ## Layouts -/

theorem proposalBytes_length (root id : Bytes32) (count : Nat) (ns : List Bytes32) :
    (proposalBytes root id count ns).length = proposalHeaderLen + 32 * ns.length := by
  simp [proposalBytes, proposalHeaderLen]
  omega

theorem registryBytes_length (root : Bytes32) (leaves : List Bytes32) :
    (registryBytes root leaves).length = registryHeaderLen + 32 * leaves.length := by
  simp [registryBytes, registryHeaderLen]
  omega

end Lez.Msig
