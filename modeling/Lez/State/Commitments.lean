/-
The private half of the ledger: the Merkle tree of commitments
(`merkle_tree`), the commitment set over it with every root it has had, and
the set of nullifiers seen. The tree is one array of nodes, root first, whose
lower levels double when it is full; a slice or index out of range is a panic
of the source and answers `none` here.
-/
import Lez.Core.Identity
import Lez.Lib.Table

namespace Lez

/-- A 32-byte array from its digits, most significant first. -/
def bytes32OfNat (n : Nat) : Bytes32 := ⟨(toLe 32 n).reverse, by simp⟩

/-- `DEFAULT_VALUES`: the roots of empty trees, by height. -/
def defaultValues : List Bytes32 :=
  [0x0000000000000000000000000000000000000000000000000000000000000000,
   0xf5a5fd42d16a20302798ef6ed309979b43003d2320d9f0e8ea9831a92759fb4b,
   0xdb56114e00fdd4c1f85c892bf35ac9a89289aaecb1ebd0a96cde606a748b5d71,
   0xc78009fdf07fc56a11f122370658a353aaa542ed63e44c4bc15ff4cd105ab33c,
   0x536d98837f2dd165a55d5eeae91485954472d56f246df256bf3cae19352a123c,
   0x9efde052aa15429fae05bad4d0b1d7c64da64d03d7a1854a588c2cb8430c0d30,
   0xd88ddfeed400a8755596b21942c1497e114c302e6118290f91e6772976041fa1,
   0x87eb0ddba57e35f6d286673802a4af5975e22506c7cf4c64bb6be5ee11527f2c,
   0x26846476fd5fc54a5d43385167c95144f2643f533cc85bb9d16b782f8d7db193,
   0x506d86582d252405b840018792cad2bf1259f1ef5aa5f887e13cb2f0094f51e1,
   0xffff0ad7e659772f9534c195c815efc4014ef1e1daed4404c06385d11192e92b,
   0x6cf04127db05441cd833107a52be852868890e4317e6a02ab47683aa75964220,
   0xb7d05f875f140027ef5118a2247bbb84ce8f2f0f1123623085daf7960c329f5f,
   0xdf6af5f5bbdb6be9ef8aa618e4bf8073960867171e29676f8b284dea6a08a85e,
   0xb58d900f5e182e3c50ef74969ea16c7726c549757cc23523c369587da7293784,
   0xd49a7502ffcfb0340b1d7885688500ca308161a7f96b62df9d083b71fcc8f2bb,
   0x8fe6b1689256c0d385f42f5bbe2027a22c1996e110ba97c171d3e5948de92beb,
   0x8d0d63c39ebade8509e0ae3c9c3876fb5fa112be18f905ecacfecb92057603ab,
   0x95eec8b2e541cad4e91de38385f2e046619f54496c2382cb6cacd5b98c26f5a4,
   0xf893e908917775b62bff23294dbbe3a1cd8e6cc1c35b4801887b646a6f81f17f,
   0xcddba7b592e3133393c16194fac7431abf2f5485ed711db282183c819e08ebaa,
   0x8a8d7fe3af8caa085a7639a832001457dfb9128a8061142ad0335629ff23ff9c,
   0xfeb3c337d7a51a6fbf00b9e34c52e1c9195c969bd4e7a0bfd51d5c5bed9c1167,
   0xe71f0aa83cc32edfbefa9f4d3e0174ca85182eec9f3a09f6a6c0df6377a510d7,
   0x31206fa80a50bb6abe29085058f16212212a60eec8f049fecb92d8c8e0a84bc0,
   0x21352bfecbeddde993839f614c3dac0a3ee37543f9b412b16199dc158e23b544,
   0x619e312724bb6d7c3153ed9de791d764a366b389af13c58bf8a8d90481a46765,
   0x7cdd2986268250628d0c10e385c58c6191e6fbe05191bcc04f133f2cea72c1c4,
   0x848930bd7ba8cac54661072113fb278869e07bb8587f91392933374d017bcbe1,
   0x8869ff2c22b28cc10510d9853292803328be4fb0e80495e8bb8d271f5b889636,
   0xb5fe28e79f1b850f8658246ce9b6a1e7b49fc06db7143e8fe0b4f2b0c5523a5c,
   0x985e929f70af28d0bdd1a90a808f977f597c7c778c489e98d3bd8910d31ac0f7].map bytes32OfNat

/-- `usize::next_power_of_two`. -/
def nextPowerOfTwo (n : Nat) : Nat := if n ≤ 1 then 1 else 2 ^ ((n - 1).log2 + 1)

/-- `prev_power_of_two`. -/
def prevPowerOfTwo (x : Nat) : Nat := if x = 0 then 0 else 2 ^ x.log2

structure MerkleTree where
  nodes : List Bytes32
  capacity : Nat
  length : Nat
deriving DecidableEq

namespace MerkleTree

def withCapacity (capacity : Nat) : Option MerkleTree :=
  let capacity := nextPowerOfTwo capacity
  let totalDepth := capacity.log2
  if totalDepth < defaultValues.length then
    .some ⟨((defaultValues.take (totalDepth + 1)).reverse.mapIdx fun level v =>
      List.replicate (2 ^ level) v).flatten, capacity, 0⟩
  else .none

/-- Number of levels required to hold all nodes. -/
def depth (t : MerkleTree) : Nat := (nextPowerOfTwo t.length).log2

def rootIndex (t : MerkleTree) : Nat :=
  if t.depth = t.capacity.log2 then 0 else 2 ^ (t.capacity.log2 - t.depth) - 1

def root (t : MerkleTree) : Option Bytes32 := t.nodes[t.rootIndex]?

def setNode (t : MerkleTree) (index : Nat) (node : Bytes32) : Option MerkleTree :=
  if index < t.nodes.length then .some { t with nodes := t.nodes.set index node } else .none

/-- The current tree becomes a subtree of one twice as wide. -/
def reallocateToDoubleCapacity (t : MerkleTree) : Option MerkleTree := do
  let fresh ← withCapacity (2 * t.capacity)
  let filled ← t.nodes.zipIdx.foldlM
    (fun this vi => this.setNode (vi.2 + prevPowerOfTwo (vi.2 + 1)) vi.1) fresh
  pure { filled with length := t.length }

/-- The `while` loop of `get_authentication_path_for`. The index shrinks with every round, so `fuel` above
the first one is enough. -/
def authenticationPath (t : MerkleTree) (rootIndex : Nat) : Nat → Nat → Option (List Bytes32)
  | 0, _ => .none
  | fuel + 1, nodeIndex =>
    if nodeIndex = rootIndex then .some []
    else if nodeIndex = 0 then .none -- `node_index - 1` underflows
    else do
      let parent := (nodeIndex - 1) / 2
      -- Left children have odd indices, and right children have even indices
      let sibling ← t.nodes[if nodeIndex % 2 = 1 then nodeIndex + 1 else nodeIndex - 1]?
      let path ← authenticationPath t rootIndex fuel parent
      return sibling :: path

def getAuthenticationPathFor (t : MerkleTree) (index : Nat) : Option (List Bytes32) :=
  if t.length ≤ index then .none
  else t.authenticationPath t.rootIndex (t.capacity + index) (t.capacity + index - 1)

section
variable (sha256 : Bytes → Bytes32)

/-- `hash_two`. -/
def hashTwo (left right : Bytes32) : Bytes32 := sha256 (left.toList ++ right.toList)

/-- The loop of `insert` over the levels above the new node. -/
def rehash : Nat → Nat → MerkleTree → Option MerkleTree
  | 0, _, t => .some t
  | levels + 1, nodeIndex, t => do
    let parent := (nodeIndex - 1) / 2
    let left ← t.nodes[2 * parent + 1]?
    let right ← t.nodes[2 * parent + 2]?
    rehash levels parent (← t.setNode parent (hashTwo sha256 left right))

def insert (t : MerkleTree) (value : Bytes32) : Option (Nat × MerkleTree) := do
  let t ← if t.length = t.capacity then t.reallocateToDoubleCapacity else .some t
  let nodeIndex := t.length + t.capacity - 1
  let placed ← t.setNode nodeIndex (sha256 value.toList)
  let grown := { placed with length := placed.length + 1 }
  let done ← rehash sha256 grown.depth nodeIndex grown
  pure (t.length, done)

end

end MerkleTree

structure CommitmentSet where
  merkleTree : MerkleTree
  commitments : Table Commitment Nat
  rootHistory : Finset CommitmentSetDigest

namespace CommitmentSet

def withCapacity (capacity : Nat) : Option CommitmentSet :=
  (MerkleTree.withCapacity capacity).map fun t => ⟨t, ∅, ∅⟩

def digest (s : CommitmentSet) : Option CommitmentSetDigest := s.merkleTree.root

def getProofFor (s : CommitmentSet) (c : Commitment) : Option MembershipProof := do
  let index ← s.commitments.lookup c
  let path ← s.merkleTree.getAuthenticationPathFor index
  pure (index, path)

def contains (s : CommitmentSet) (c : Commitment) : Bool := (s.commitments.lookup c).isSome

def insertOne (sha256 : Bytes → Bytes32) (s : CommitmentSet) (c : Commitment) : Option CommitmentSet := do
  let (index, tree) ← s.merkleTree.insert sha256 c
  pure { s with merkleTree := tree, commitments := s.commitments.insert c index }

/-- Every commitment goes into the tree; the root after the last one joins the history. -/
def extend (sha256 : Bytes → Bytes32) (s : CommitmentSet) (cs : List Commitment) : Option CommitmentSet := do
  let s ← cs.foldlM (insertOne sha256) s
  let digest ← s.merkleTree.root
  pure { s with rootHistory := insert digest s.rootHistory }

end CommitmentSet

/-- `DUMMY_COMMITMENT`. -/
def dummyCommitment : Commitment :=
  bytes32OfNat 0x37e4d7cf70ddef31ee4f47879b0fb82d684a33d3ee2aa0f30f7cfd3e03e55a1b

/-- `DUMMY_COMMITMENT_HASH`. -/
def dummyCommitmentHash : Bytes32 :=
  bytes32OfNat 0xfaedc0719b65771eebb714541a20c4e59a4afef981f1762729fd8dabb8470829

end Lez
