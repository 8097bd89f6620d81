/-
The keys of a wallet (`key_management`): secret spending keys and what is
produced from them, key chains, the key holder of a group, and the tree of
private keys by chain index. HMAC-SHA-512 and the ML-KEM-768 key pair are the
host's. Every node of a tree holds the keys that the path to it derives from
the root.
-/
import Lez.Wallet.Notes

namespace Lez.Wallet

/-- The seed of an ML-KEM-768 decapsulation key, in its two halves. -/
structure ViewingSecretKey where
  d : Bytes32
  z : Bytes32
deriving DecidableEq

structure PrivateKeyHolder where
  nullifierSecretKey : NullifierSecretKey
  viewingSecretKey : ViewingSecretKey
deriving DecidableEq

structure KeyChain where
  secretSpendingKey : Bytes32
  privateKeyHolder : PrivateKeyHolder
  nullifierPublicKey : NullifierPublicKey
  viewingPublicKey : Bytes
deriving DecidableEq

structure WalletHost extends Host where
  /-- `HMAC::mac(input, key)`. -/
  hmacSha512 : Bytes → Bytes → ByteVec 64
  /-- `ViewingPublicKey::from`: the encapsulation key. -/
  viewingPublicKey : ViewingSecretKey → Bytes
  /-- `SharedSecretKey::decapsulate`; a ciphertext of another size than ML-KEM-768's is refused. -/
  decapsulate : Bytes → ViewingSecretKey → Option Bytes32

/-- `first_chunk::<32>` and `last_chunk::<32>` of 64 bytes. -/
def halves (v : ByteVec 64) : Bytes32 × Bytes32 := (⟨v.toList.take 32, by simp⟩, ⟨v.toList.drop 32, by simp⟩)

def toBe (w n : Nat) : Bytes := (toLe w n).reverse

section
variable (H : WalletHost)

/-! ## Secret spending keys -/

def keyInput (suffix : UInt8) (ssk : Bytes32) (index : Option UInt32) : Bytes :=
  ascii "LEE/keys" ++ ssk.toList ++ [suffix] ++ toBe 4 (index.getD 0).toNat ++ List.replicate 19 0

def generateNullifierSecretKey (ssk : Bytes32) (index : Option UInt32) : NullifierSecretKey :=
  H.sha256 (keyInput 1 ssk index)

def generateViewingSecretSeedKey (ssk : Bytes32) (index : Option UInt32) : ViewingSecretKey :=
  let (d, z) := halves (H.hmacSha512 (keyInput 2 ssk index) (ascii "LEE_viewing_seed"))
  ⟨d, z⟩

def producePrivateKeyHolder (ssk : Bytes32) (index : Option UInt32) : PrivateKeyHolder :=
  ⟨generateNullifierSecretKey H ssk index, generateViewingSecretSeedKey H ssk index⟩

def PrivateKeyHolder.generateNullifierPublicKey (keys : PrivateKeyHolder) : NullifierPublicKey :=
  nullifierPublicKey H.sha256 keys.nullifierSecretKey

def PrivateKeyHolder.generateViewingPublicKey (keys : PrivateKeyHolder) : Bytes :=
  H.viewingPublicKey keys.viewingSecretKey

def KeyChain.calculateSharedSecretReceiver (keyChain : KeyChain) (epk : Bytes) : Option Bytes32 :=
  H.decapsulate epk keyChain.privateKeyHolder.viewingSecretKey

/-- `EncryptedAccountData::compute_view_tag`. -/
def computeViewTag (npk : NullifierPublicKey) (vpk : Bytes) : UInt8 :=
  (H.sha256 (ascii "/LEE/v0.3/ViewTag/" ++ npk.toList ++ vpk)).head

/-! ## Groups -/

structure GroupKeyHolder where
  gms : Bytes32
deriving DecidableEq

namespace GroupKeyHolder

def secretSpendingKeyForPda (holder : GroupKeyHolder) (programId : ProgramId) (pdaSeed : PdaSeed) : Bytes32 :=
  H.sha256 (ascii "/LEE/v0.3/GroupKeyDerivation/SSK" ++ holder.gms.toList ++ programId.toBytes ++ pdaSeed.toList)

def deriveKeysForPda (holder : GroupKeyHolder) (programId : ProgramId) (pdaSeed : PdaSeed) : PrivateKeyHolder :=
  producePrivateKeyHolder H (holder.secretSpendingKeyForPda H programId pdaSeed) .none

def deriveKeysForSharedAccount (holder : GroupKeyHolder) (derivationSeed : Bytes32) : PrivateKeyHolder :=
  producePrivateKeyHolder H
    (H.sha256 (ascii "/LEE/v0.3/GroupKeyDerivation/SHA" ++ holder.gms.toList ++ derivationSeed.toList)) .none

end GroupKeyHolder

/-- The derivation seed of a shared account that is not a PDA. -/
def sharedAccountTag (identifier : Identifier) : Bytes32 :=
  H.sha256 (ascii "/LEE/v0.3/SharedAccountTag/" ++ List.replicate 5 0 ++ toLe 16 identifier.toNat)

/-! ## Nodes of the tree -/

structure ChildKeysPrivate where
  keyChain : KeyChain
  accounts : Table PrivateAccountKind Account
  ccc : Bytes32
  cci : Option UInt32

namespace ChildKeysPrivate

/-- The node whose spending key and chain code are the halves of a MAC; it starts with one account. -/
def ofMac (hashValue : ByteVec 64) (cci : Option UInt32) : ChildKeysPrivate :=
  let (ssk, ccc) := halves hashValue
  let keys := producePrivateKeyHolder H ssk cci
  ⟨⟨ssk, keys, keys.generateNullifierPublicKey H, keys.generateViewingPublicKey H⟩,
    (∅ : Table PrivateAccountKind Account).insert (.regular 0) Account.default, ccc, cci⟩

def root (seed : ByteVec 64) : ChildKeysPrivate :=
  ofMac H (H.hmacSha512 seed.toList (ascii "LEE_master_priv")) .none

def nthChild (node : ChildKeysPrivate) (cci : UInt32) : ChildKeysPrivate :=
  let keys := node.keyChain.privateKeyHolder
  let parentPt := H.sha256 (ascii "LEE/keys" ++ keys.nullifierSecretKey.toList ++ keys.viewingSecretKey.d.toList ++
    keys.viewingSecretKey.z.toList)
  ofMac H (H.hmacSha512 (ascii "LEE_seed_priv" ++ parentPt.toList ++ toBe 4 cci.toNat) node.ccc.toList) (.some cci)

def npk (node : ChildKeysPrivate) : NullifierPublicKey := node.keyChain.nullifierPublicKey

def accountIds (node : ChildKeysPrivate) : List AccountId :=
  node.accounts.keys.map (forPrivateAccount H.sha256 node.npk)

end ChildKeysPrivate

/-! ## The tree -/

/-- From the root down. -/
abbrev ChainIndex := List UInt32

structure KeyTree where
  keyMap : Table ChainIndex ChildKeysPrivate
  accountIdMap : Table AccountId ChainIndex

namespace KeyTree

def newFromRoot (root : ChildKeysPrivate) : KeyTree :=
  ⟨(∅ : Table ChainIndex ChildKeysPrivate).insert [] root,
    (∅ : Table AccountId ChainIndex).writeAll ((root.accountIds H).map fun id => (id, []))⟩

def new (seed : ByteVec 64) : KeyTree := newFromRoot H (.root H seed)

def insertNode (tree : KeyTree) (chainIndex : ChainIndex) (node : ChildKeysPrivate) : KeyTree :=
  ⟨tree.keyMap.insert chainIndex node,
    tree.accountIdMap.writeAll ((node.accountIds H).map fun id => (id, chainIndex))⟩

/-- `fill_node`; `generate_new_node` fills the next free child of its parent. -/
def fillNode (tree : KeyTree) (chainIndex : ChainIndex) : Option KeyTree := do
  let childId ← chainIndex.getLast?
  let parentKeys ← tree.keyMap.lookup chainIndex.dropLast
  return tree.insertNode H chainIndex (parentKeys.nthChild H childId)

/-- `register_identifier_on_node`: the id is registered, the node gets no account for it. -/
def registerIdentifierOnNode (tree : KeyTree) (cci : ChainIndex) (identifier : Identifier) : Option KeyTree := do
  let node ← tree.keyMap.lookup cci
  let accountId := forRegularPrivateAccount H.sha256 node.npk identifier
  if accountId ∈ tree.accountIdMap then .none
  else .some { tree with accountIdMap := tree.accountIdMap.insert accountId cci }

/-- One node of `cleanup_tree_remove_uninit_layered`: it goes when its accounts are all default, and the ids of
those accounts with it. -/
def removeUninit (tree : KeyTree) (cci : ChainIndex) : Option KeyTree := do
  let node ← tree.keyMap.lookup cci
  if node.accounts.toPairs.all fun p => p.2 = Account.default then
    .some ⟨tree.keyMap.erase cci, (node.accountIds H).foldl (fun ids id => ids.erase id) tree.accountIdMap⟩
  else .none

/-- The private accounts written to the storage file and read back: ids without a node are dropped, and so are
nodes without an id. -/
def reload (tree : KeyTree) : Option KeyTree := do
  let saved := tree.accountIdMap.toPairs.filterMap fun (accountId, chainIndex) =>
    (tree.keyMap.lookup chainIndex).map fun node => (accountId, chainIndex, node)
  let (_, _, root) ← saved.find? fun data => data.2.1 = []
  return saved.foldl (fun t (accountId, chainIndex, node) =>
    ⟨t.keyMap.insert chainIndex node, t.accountIdMap.insert accountId chainIndex⟩) (newFromRoot H root)

end KeyTree

end

end Lez.Wallet
