/-
The key chains a wallet can come to by its own operations, and when it can
read a transaction. The tree stays in order: a node has the keys that its
chain index derives from the seed, and a registered id is derived from the key
at the chain index it is registered for, whether the node is still there or
not. `known` lists the accounts registered so far, by chain index and kind.
-/
import Lez.Ledger.MembershipProofs
import Lez.Ledger.PrivateAuthorization
import Lez.Wallet.Placement

namespace Lez.Wallet

section
variable (H : WalletHost) (seed : ByteVec 64)

/-- The keys that a chain index derives. -/
def childAt (ci : ChainIndex) : ChildKeysPrivate := ci.foldl (fun node cci => node.nthChild H cci) (.root H seed)

def npkAt (ci : ChainIndex) : NullifierPublicKey := (childAt H seed ci).npk

/-- The operations of the wallet on its private accounts. Which free slot a new key gets is left open. -/
inductive Reachable : List (ChainIndex × PrivateAccountKind) → UserKeyChain → Prop
  | new : Reachable [([], .regular 0)] (.newWithAccounts (.new H seed))
  | fillNode {known : List (ChainIndex × PrivateAccountKind)} {kc : UserKeyChain} {ci : ChainIndex} {tree : KeyTree} :
      Reachable known kc → kc.privateKeyTree.fillNode H ci = .some tree →
      Reachable (known ++ [(ci, .regular 0)]) { kc with privateKeyTree := tree }
  | registerIdentifier {known : List (ChainIndex × PrivateAccountKind)} {kc : UserKeyChain} {ci : ChainIndex}
      {identifier : Identifier} {tree : KeyTree} :
      Reachable known kc → kc.privateKeyTree.registerIdentifierOnNode H ci identifier = .some tree →
      Reachable (known ++ [(ci, .regular identifier)]) { kc with privateKeyTree := tree }
  | removeUninit {known : List (ChainIndex × PrivateAccountKind)} {kc : UserKeyChain} {ci : ChainIndex} {tree : KeyTree} :
      Reachable known kc → kc.privateKeyTree.removeUninit H ci = .some tree →
      Reachable known { kc with privateKeyTree := tree }
  | addImported {known : List (ChainIndex × PrivateAccountKind)} {kc : UserKeyChain} (keyChain : KeyChain)
      (chainIndex : Option ChainIndex) (identifier : Identifier) (account : Account) :
      Reachable known kc → Reachable known (kc.addImportedPrivateAccount keyChain chainIndex identifier account)
  | insertShared {known : List (ChainIndex × PrivateAccountKind)} {kc : UserKeyChain} (accountId : AccountId)
      (entry : SharedAccountEntry) :
      Reachable known kc → Reachable known (kc.insertSharedPrivateAccount accountId entry)
  | updateShared {known : List (ChainIndex × PrivateAccountKind)} {kc : UserKeyChain} (accountId : AccountId)
      (account : Account) :
      Reachable known kc → Reachable known (kc.updateSharedPrivateAccountState accountId account)
  | insertGroup {known : List (ChainIndex × PrivateAccountKind)} {kc : UserKeyChain} (label : Label)
      (holder : GroupKeyHolder) : Reachable known kc → Reachable known (kc.insertGroupKeyHolder label holder)
  | removeGroup {known : List (ChainIndex × PrivateAccountKind)} {kc : UserKeyChain} (label : Label) :
      Reachable known kc → Reachable known (kc.removeGroupKeyHolder label)
  | insertPrivateAccount {known : List (ChainIndex × PrivateAccountKind)} {kc kc' : UserKeyChain} {id : AccountId}
      {kind : PrivateAccountKind} {account : Account} :
      Reachable known kc → kc.insertPrivateAccount H id kind account = .ok kc' →
      Reachable (known ++ kc.privateKeyTree.keyMap.keys.map fun ci => (ci, kind)) kc'
  | reload {known : List (ChainIndex × PrivateAccountKind)} {kc kc' : UserKeyChain} :
      Reachable known kc → kc.reload H = .some kc' → Reachable known kc'

structure Registry (known : List (ChainIndex × PrivateAccountKind)) (tree : KeyTree) : Prop where
  keys : ∀ ci node, tree.keyMap.lookup ci = .some node →
    node.keyChain = (childAt H seed ci).keyChain ∧ node.ccc = (childAt H seed ci).ccc
  kinds : ∀ ci node kind, tree.keyMap.lookup ci = .some node → kind ∈ node.accounts → (ci, kind) ∈ known
  nodes : ∀ ci ∈ tree.keyMap, ∃ kind, (ci, kind) ∈ known
  ids : ∀ id ci, tree.accountIdMap.lookup id = .some ci →
    ∃ kind, (ci, kind) ∈ known ∧ id = forPrivateAccount H.sha256 (npkAt H seed ci) kind

end

section
variable {H : WalletHost} {seed : ByteVec 64} {known known' : List (ChainIndex × PrivateAccountKind)} {tree tree' : KeyTree}

theorem childAt_snoc (ci : ChainIndex) (cci : UInt32) :
    childAt H seed (ci ++ [cci]) = (childAt H seed ci).nthChild H cci := by
  rw [childAt, List.foldl_append]
  rfl

/-- A child depends on the keys and the chain code of its parent, not on its accounts. -/
theorem nthChild_congr {a b : ChildKeysPrivate} (hkeys : a.keyChain = b.keyChain) (hccc : a.ccc = b.ccc) (cci : UInt32) :
    a.nthChild H cci = b.nthChild H cci := by
  simp only [ChildKeysPrivate.nthChild, hkeys, hccc]

theorem ofMac_mem_accounts {mac : ByteVec 64} {cci : Option UInt32} {kind : PrivateAccountKind} :
    kind ∈ (ChildKeysPrivate.ofMac H mac cci).accounts ↔ kind = .regular 0 := by
  refine (AList.mem_insert _).trans ?_
  simp

/-! ## Each operation keeps the tree in order -/

theorem Registry.mono (h : Registry H seed known tree) (hsub : known ⊆ known') : Registry H seed known' tree where
  keys := h.keys
  kinds := fun ci node kind hnode hkind => hsub (h.kinds ci node kind hnode hkind)
  nodes := fun ci hci => (h.nodes ci hci).imp fun _ hkind => hsub hkind
  ids := fun id ci hid => (h.ids id ci hid).imp fun _ hkind => ⟨hsub hkind.1, hkind.2⟩

/-- Less in the maps is still in order. -/
theorem Registry.sub (h : Registry H seed known tree)
    (hnodes : ∀ ci node, tree'.keyMap.lookup ci = .some node → tree.keyMap.lookup ci = .some node)
    (hids : ∀ id ci, tree'.accountIdMap.lookup id = .some ci → tree.accountIdMap.lookup id = .some ci) :
    Registry H seed known tree' where
  keys := fun ci node hnode => h.keys ci node (hnodes ci node hnode)
  kinds := fun ci node kind hnode => h.kinds ci node kind (hnodes ci node hnode)
  nodes := by
    intro ci hci
    obtain ⟨node, hnode⟩ := Option.isSome_iff_exists.mp (AList.lookup_isSome.mpr hci)
    refine h.nodes ci (AList.lookup_isSome.mp ?_)
    rw [hnodes ci node hnode]
    rfl
  ids := fun id ci hid => h.ids id ci (hids id ci hid)

theorem Registry.empty : Registry H seed known ⟨∅, ∅⟩ where
  keys := fun _ _ h => by cases h
  kinds := fun _ _ _ h => by cases h
  nodes := fun _ h => by cases h
  ids := fun _ _ h => by cases h

/-- A node of derived keys, and ids of kinds that are known at it. -/
theorem Registry.insert (h : Registry H seed known tree) {ci : ChainIndex} {node : ChildKeysPrivate}
    {ids : List AccountId} (hkeys : node.keyChain = (childAt H seed ci).keyChain ∧ node.ccc = (childAt H seed ci).ccc)
    (hkinds : ∀ kind ∈ node.accounts, (ci, kind) ∈ known) (hknown : ∃ kind, (ci, kind) ∈ known)
    (hids : ∀ id ∈ ids, ∃ kind, (ci, kind) ∈ known ∧ id = forPrivateAccount H.sha256 (npkAt H seed ci) kind) :
    Registry H seed known
      ⟨tree.keyMap.insert ci node, tree.accountIdMap.writeAll (ids.map fun id => (id, ci))⟩ := by
  have hlookup : ∀ ci' node', (tree.keyMap.insert ci node).lookup ci' = .some node' →
      (ci' = ci ∧ node' = node) ∨ tree.keyMap.lookup ci' = .some node' := by
    intro ci' node' hnode'
    by_cases hci : ci' = ci
    · subst hci
      rw [AList.lookup_insert, Option.some.injEq] at hnode'
      exact .inl ⟨rfl, hnode'.symm⟩
    · rw [AList.lookup_insert_ne hci] at hnode'
      exact .inr hnode'
  refine ⟨?_, ?_, ?_, ?_⟩
  · intro ci' node' hnode'
    rcases hlookup ci' node' hnode' with ⟨rfl, rfl⟩ | hold
    · exact hkeys
    · exact h.keys ci' node' hold
  · intro ci' node' kind hnode' hkind
    rcases hlookup ci' node' hnode' with ⟨rfl, rfl⟩ | hold
    · exact hkinds kind hkind
    · exact h.kinds ci' node' kind hold hkind
  · intro ci' hci'
    rcases (AList.mem_insert _).mp hci' with rfl | hold
    · exact hknown
    · exact h.nodes ci' hold
  · intro id ci' hid
    rcases Table.lookup_writeAll_some hid with hmem | hold
    · obtain ⟨id', hid', heq⟩ := List.mem_map.mp hmem
      cases heq
      exact hids id hid'
    · exact h.ids id ci' hold

/-- A node as it is made has one account, known at its place. -/
theorem Registry.insertNode (h : Registry H seed known tree) {ci : ChainIndex} {mac : ByteVec 64} {cci : Option UInt32}
    (hnode : ChildKeysPrivate.ofMac H mac cci = childAt H seed ci) :
    Registry H seed (known ++ [(ci, .regular 0)]) (tree.insertNode H ci (.ofMac H mac cci)) := by
  have hkinds : ∀ kind ∈ (ChildKeysPrivate.ofMac H mac cci).accounts, (ci, kind) ∈ known ++ [(ci, .regular 0)] := by
    intro kind hkind
    rw [ofMac_mem_accounts.mp hkind]
    simp
  refine (h.mono (List.subset_append_left _ _)).insert ?_ hkinds ⟨.regular 0, by simp⟩ ?_
  · rw [hnode]
    exact ⟨rfl, rfl⟩
  · intro id hid
    obtain ⟨kind, hkind, rfl⟩ := List.mem_map.mp hid
    refine ⟨kind, hkinds kind (AList.mem_keys.mpr hkind), ?_⟩
    rw [npkAt, ← hnode]

theorem Registry.fillNode (h : Registry H seed known tree) {ci : ChainIndex} (hfill : tree.fillNode H ci = .some tree') :
    Registry H seed (known ++ [(ci, .regular 0)]) tree' := by
  simp only [KeyTree.fillNode, Option.bind_eq_bind, Option.bind_eq_some_iff] at hfill
  obtain ⟨cci, hlast, parent, hparent, htree⟩ := hfill
  cases htree
  have hci : ci.dropLast ++ [cci] = ci := List.dropLast_append_getLast? cci hlast
  obtain ⟨hkeys, hccc⟩ := h.keys _ parent hparent
  refine h.insertNode ?_
  calc parent.nthChild H cci = (childAt H seed ci.dropLast).nthChild H cci := nthChild_congr hkeys hccc cci
    _ = childAt H seed (ci.dropLast ++ [cci]) := (childAt_snoc _ _).symm
    _ = childAt H seed ci := by rw [hci]

theorem Registry.registerIdentifier (h : Registry H seed known tree) {ci : ChainIndex} {identifier : Identifier}
    (hregister : tree.registerIdentifierOnNode H ci identifier = .some tree') :
    Registry H seed (known ++ [(ci, .regular identifier)]) tree' := by
  simp only [KeyTree.registerIdentifierOnNode, Option.bind_eq_bind, Option.bind_eq_some_iff] at hregister
  obtain ⟨node, hnode, hregister⟩ := hregister
  split at hregister
  next => cases hregister
  next =>
    cases hregister
    have hold := h.mono (List.subset_append_left known [(ci, .regular identifier)])
    refine ⟨hold.keys, hold.kinds, hold.nodes, ?_⟩
    intro id ci' hid
    by_cases heq : id = forRegularPrivateAccount H.sha256 node.npk identifier
    · subst heq
      rw [AList.lookup_insert, Option.some.injEq] at hid
      subst hid
      refine ⟨.regular identifier, by simp, ?_⟩
      rw [npkAt, ChildKeysPrivate.npk, ChildKeysPrivate.npk, (h.keys ci node hnode).1]
      rfl
    · rw [AList.lookup_insert_ne heq] at hid
      exact hold.ids id ci' hid

theorem lookup_foldl_erase {ids : List AccountId} : ∀ {t : Table AccountId ChainIndex} {id : AccountId} {ci : ChainIndex},
    (ids.foldl (fun t id => t.erase id) t).lookup id = .some ci → t.lookup id = .some ci := by
  induction ids with
  | nil => exact fun h => h
  | cons a ids ih =>
    intro t id ci h
    have hrest := ih h
    by_cases hid : id = a
    · subst hid
      rw [AList.lookup_erase] at hrest
      cases hrest
    · rwa [AList.lookup_erase_ne hid] at hrest

theorem Registry.removeUninit (h : Registry H seed known tree) {ci : ChainIndex}
    (hremove : tree.removeUninit H ci = .some tree') : Registry H seed known tree' := by
  simp only [KeyTree.removeUninit, Option.bind_eq_bind, Option.bind_eq_some_iff] at hremove
  obtain ⟨node, -, hremove⟩ := hremove
  split at hremove
  next =>
    cases hremove
    refine h.sub ?_ fun id ci' hid => lookup_foldl_erase hid
    intro ci' node' hnode'
    by_cases hci : ci' = ci
    · subst hci
      rw [AList.lookup_erase] at hnode'
      cases hnode'
    · rwa [AList.lookup_erase_ne hci] at hnode'
  next => cases hremove

/-- What the storage file holds is part of the tree, and the root's ids. -/
theorem Registry.reload (h : Registry H seed known tree) (hreload : tree.reload H = .some tree') :
    Registry H seed known tree' := by
  simp only [KeyTree.reload, Option.bind_eq_bind, Option.bind_eq_some_iff] at hreload
  obtain ⟨⟨rootId, rootIndex, root⟩, hfind, htree⟩ := hreload
  cases htree
  generalize hlist : tree.accountIdMap.toPairs.filterMap _ = saved at hfind ⊢
  have hsaved : ∀ data ∈ saved,
      tree.accountIdMap.lookup data.1 = .some data.2.1 ∧ tree.keyMap.lookup data.2.1 = .some data.2.2 := by
    intro data hdata
    rw [← hlist] at hdata
    obtain ⟨⟨id, ci⟩, hmem, hmap⟩ := List.mem_filterMap.mp hdata
    obtain ⟨node, hnode, rfl⟩ := Option.map_eq_some_iff.mp hmap
    exact ⟨Table.mem_toPairs.mp hmem, hnode⟩
  have hroot := hsaved _ (List.mem_of_find?_eq_some hfind)
  have hindex : rootIndex = [] := by
    have hfound := List.find?_some hfind
    exact of_decide_eq_true hfound
  subst hindex
  have hstart : Registry H seed known (KeyTree.newFromRoot H root) := by
    refine Registry.empty.insert (h.keys _ _ hroot.2) (fun kind => h.kinds _ _ kind hroot.2) ?_ ?_
    · obtain ⟨kind, hkind, -⟩ := h.ids _ _ hroot.1
      exact ⟨kind, hkind⟩
    · intro id hid
      obtain ⟨kind, hkind, rfl⟩ := List.mem_map.mp hid
      refine ⟨kind, h.kinds _ _ kind hroot.2 (AList.mem_keys.mpr hkind), ?_⟩
      rw [npkAt, ChildKeysPrivate.npk, ChildKeysPrivate.npk, (h.keys _ _ hroot.2).1]
  -- each entry read back is a node of the tree with one of its ids
  clear hfind hlist
  generalize KeyTree.newFromRoot H root = start at hstart
  induction saved generalizing start with
  | nil => exact hstart
  | cons data saved ih =>
    obtain ⟨hid, hnode⟩ := hsaved data (by simp)
    have hids : ∀ id ∈ [data.1], ∃ kind, (data.2.1, kind) ∈ known ∧
        id = forPrivateAccount H.sha256 (npkAt H seed data.2.1) kind := by
      intro id hmem
      cases List.mem_singleton.mp hmem
      exact h.ids _ _ hid
    have hknown : ∃ kind, (data.2.1, kind) ∈ known := (h.ids _ _ hid).imp fun _ hkind => hkind.1
    refine ih (fun d hd => hsaved d (by simp [hd])) _ ?_
    exact hstart.insert (h.keys _ _ hnode) (fun kind => h.kinds _ _ kind hnode) hknown hids

theorem Registry.stored {kc kc' : UserKeyChain} (h : Registry H seed known kc.privateKeyTree) {id : AccountId}
    {kind : PrivateAccountKind} {account : Account} (hstored : Stored H kc id kind account kc') :
    Registry H seed (known ++ kc.privateKeyTree.keyMap.keys.map fun ci => (ci, kind)) kc'.privateKeyTree := by
  have hold := h.mono (List.subset_append_left known (kc.privateKeyTree.keyMap.keys.map fun ci => (ci, kind)))
  have hnew : ∀ ci ∈ kc.privateKeyTree.keyMap,
      (ci, kind) ∈ known ++ kc.privateKeyTree.keyMap.keys.map fun ci => (ci, kind) := fun ci hci =>
    List.mem_append_right _ (List.mem_map_of_mem (AList.mem_keys.mp hci))
  have hkeys : ∀ ci node, kc'.privateKeyTree.keyMap.lookup ci = .some node →
      node.keyChain = (childAt H seed ci).keyChain ∧ node.ccc = (childAt H seed ci).ccc := by
    intro ci node hnode
    obtain ⟨node₀, hnode₀, hkeyChain, hccc⟩ := hstored.sameKeys.node hnode
    rw [hkeyChain, hccc]
    exact h.keys ci node₀ hnode₀
  have hnodes : ∀ ci ∈ kc'.privateKeyTree.keyMap,
      ∃ kind', (ci, kind') ∈ known ++ kc.privateKeyTree.keyMap.keys.map fun ci => (ci, kind) := fun ci hci =>
    ⟨kind, hnew ci ((hstored.sameKeys.mem_keyMap ci).mp hci)⟩
  refine ⟨hkeys, ?_, hnodes, ?_⟩
  · intro ci node kind' hnode hkind'
    have hci : ci ∈ kc.privateKeyTree.keyMap := by
      refine (hstored.sameKeys.mem_keyMap ci).mp ?_
      rw [← AList.lookup_isSome, hnode]
      rfl
    by_cases hk : kind' = kind
    · exact hk ▸ hnew ci hci
    · obtain ⟨node₀, hnode₀, hmem⟩ := hstored.kinds hnode hkind' hk
      exact hold.kinds ci node₀ kind' hnode₀ hmem
  · intro id' ci hid'
    rcases hstored.accountIdMap id' with hsame | ⟨rfl, -, ci', node, hnode, hderives, hregistered⟩
    · exact hold.ids id' ci (hsame ▸ hid')
    · rw [hregistered, Option.some.injEq] at hid'
      subst hid'
      refine ⟨kind, hnew ci' (by rw [← AList.lookup_isSome, hnode]; rfl), ?_⟩
      rw [← hderives, npkAt, ChildKeysPrivate.npk, ChildKeysPrivate.npk, (h.keys ci' node hnode).1]

theorem Reachable.registry {kc : UserKeyChain} (h : Reachable H seed known kc) : Registry H seed known kc.privateKeyTree := by
  induction h with
  | new =>
    have hempty : Registry H seed [] ⟨∅, ∅⟩ := .empty
    exact hempty.insertNode rfl
  | fillNode _ hfill ih => exact ih.fillNode hfill
  | registerIdentifier _ hregister ih => exact ih.registerIdentifier hregister
  | removeUninit _ hremove ih => exact ih.removeUninit hremove
  | addImported _ _ _ _ _ ih => exact ih
  | insertShared _ _ _ ih => exact ih
  | updateShared _ _ _ ih => exact ih
  | insertGroup _ _ _ ih => exact ih
  | removeGroup _ _ ih => exact ih
  | insertPrivateAccount _ hinsert ih => exact ih.stored (insertPrivateAccount_stored hinsert)
  | reload _ hreload ih =>
    simp only [UserKeyChain.reload, Option.bind_eq_bind, Option.bind_eq_some_iff] at hreload
    obtain ⟨tree, htree, hkc⟩ := hreload
    cases hkc
    exact ih.reload htree

theorem Reachable.storeAll : ∀ {as : List Affected} {known : List (ChainIndex × PrivateAccountKind)}
    {kc kc' : UserKeyChain}, Reachable H seed known kc → as.foldlM (storeAffected H) kc = .ok kc' →
    ∃ known', Reachable H seed known' kc'
  | [], known, kc, kc', h, hfold => by
    cases hfold
    exact ⟨known, h⟩
  | a :: as, known, kc, kc', h, hfold => by
    rw [List.foldlM_cons, bind_ok_iff] at hfold
    obtain ⟨kc₁, hstore, hfold⟩ := hfold
    exact Reachable.storeAll (.insertPrivateAccount h (storeAffected_ok_iff.mp hstore)) hfold

theorem Reachable.updateAll : ∀ {us : List (AccountId × Account)} {kc : UserKeyChain}, Reachable H seed known kc →
    Reachable H seed known (us.foldl storeUpdate kc)
  | [], _, h => h
  | u :: us, kc, h => by
    rw [List.foldl_cons]
    exact Reachable.updateAll (.updateShared u.1 u.2 h)

/-- Reading a transaction is one more of the wallet's operations. -/
theorem Reachable.sync {kc kc' : UserKeyChain} {tx : PrivacyPreservingTransaction} (h : Reachable H seed known kc)
    (hsized : Sized tx.message) (hsync : syncPrivateAccountsWithTx H kc (.privacyPreserving tx) = .ok kc') :
    ∃ known', Reachable H seed known' kc' := by
  obtain ⟨kc₁, hfold, rfl⟩ := (sync_ok_iff hsized).mp hsync
  obtain ⟨known', hreach⟩ := h.storeAll hfold
  exact ⟨known', hreach.updateAll⟩

end

/-! ## Reading a transaction -/

section
variable (H : WalletHost) (seed : ByteVec 64) (known : List (ChainIndex × PrivateAccountKind)) (kc : UserKeyChain)
  (tx : LeeTransaction)

/-- The notes of a transaction that open for a viewer. -/
def openedBy (v : Viewer) : List (PrivateAccountKind × Account) :=
  match tx with
  | .privacyPreserving tx => opened H tx.message v
  | _ => []

/-- Every account that an imported key chain opens has a place. -/
def ImportedHavePlace : Prop :=
  ∀ p ∈ kc.importedAccounts, ∀ o ∈ openedBy H tx p.1.keyChain.viewer,
    HasPlace H kc (forPrivateAccount H.sha256 p.1.keyChain.nullifierPublicKey o.1) o.1

/-- What the account ids of the tree and of the opened notes are hashes of. -/
def accountStrings : List Bytes :=
  (known.map fun p => accountPreimage (npkAt H seed p.1) p.2) ++
    kc.privateAccountKeyChains.flatMap fun keyChain =>
      (openedBy H tx keyChain.viewer).map fun o => accountPreimage keyChain.nullifierPublicKey o.1

end

section
variable {H : WalletHost} {seed : ByteVec 64} {known : List (ChainIndex × PrivateAccountKind)} {kc : UserKeyChain}
  {tx : LeeTransaction}

theorem mem_privateAccountKeyChains {keyChain : KeyChain} (h : keyChain ∈ kc.privateAccountKeyChains) :
    (∃ p ∈ kc.importedAccounts, p.1.keyChain = keyChain) ∨
      ∃ ci node, kc.privateKeyTree.keyMap.lookup ci = .some node ∧ node.keyChain = keyChain := by
  rcases List.mem_append.mp h with himported | htree
  · exact .inl (List.mem_map.mp himported)
  · obtain ⟨⟨ci, node⟩, hmem, hkey⟩ := List.mem_flatMap.mp htree
    obtain ⟨-, -, hkeyChain⟩ := List.mem_map.mp hkey
    exact .inr ⟨ci, node, Table.mem_toPairs.mp hmem, hkeyChain⟩

theorem mem_insertions {message : PrivacyPreservingTransaction.Message} {a : Affected} :
    a ∈ insertions H message kc ↔ ∃ keyChain ∈ kc.privateAccountKeyChains, ∃ o ∈ opened H message keyChain.viewer,
      a = ⟨forPrivateAccount H.sha256 keyChain.nullifierPublicKey o.1, o.1, o.2⟩ := by
  simp only [insertions, affectedFor, List.mem_flatMap, List.mem_map, eq_comm]

/-- A key of the tree has a place for every kind: what is registered for the id is the node itself. -/
theorem Registry.hasPlace {S : Set Bytes} (h : Registry H seed known kc.privateKeyTree) (hinj : Set.InjOn H.sha256 S)
    (hknown : ∀ p ∈ known, accountPreimage (npkAt H seed p.1) p.2 ∈ S)
    (hkeys : ∀ p ∈ known, ∀ q ∈ known, npkAt H seed p.1 = npkAt H seed q.1 → p.1 = q.1) {ci : ChainIndex}
    {node : ChildKeysPrivate} (hnode : kc.privateKeyTree.keyMap.lookup ci = .some node) {kind : PrivateAccountKind}
    (hS : accountPreimage node.npk kind ∈ S) : HasPlace H kc (forPrivateAccount H.sha256 node.npk kind) kind := by
  have hci : ci ∈ kc.privateKeyTree.keyMap := by rw [← AList.lookup_isSome, hnode]; rfl
  have hnpk : node.npk = npkAt H seed ci := by
    rw [npkAt, ChildKeysPrivate.npk, ChildKeysPrivate.npk, (h.keys ci node hnode).1]
  cases hlookup : kc.privateKeyTree.accountIdMap.lookup (forPrivateAccount H.sha256 node.npk kind) with
  | none => exact .inr (.inr (.inr ⟨hlookup, ci, node, hnode, rfl⟩))
  | some ci' =>
    obtain ⟨kind', hkind', hid⟩ := h.ids _ _ hlookup
    obtain ⟨kind₀, hkind₀⟩ := h.nodes ci hci
    rw [forPrivateAccount_eq, forPrivateAccount_eq] at hid
    have hsame := (accountPreimage_inj (hinj hS (hknown _ hkind') hid)).1
    have hindex : ci' = ci := hkeys _ hkind' _ hkind₀ (hsame.symm.trans hnpk)
    exact .inr (.inr (.inl ⟨ci', hindex ▸ hci, hlookup⟩))

/-- **A wallet reads a transaction without aborting exactly when its imported
key chains open nothing new.** For a key chain the wallet can come to and a
transaction the ledger accepts: notes to keys of the tree and to shared
accounts never stop it, whatever kind the sender chose; a note to an imported
key chain stops it unless its account has a place. -/
theorem sync_succeeds_iff {s s' : V03State} {blockId : BlockId} {timestamp : Timestamp}
    (hreach : Reachable H seed known kc) (hsound : ProofsSound H.toHost)
    (haccepted : s.transition H.toHost tx blockId timestamp = .some s')
    (hids : Set.InjOn H.sha256 {q | q ∈ accountStrings H seed known kc tx})
    (hkeys : ∀ p ∈ known, ∀ q ∈ known, npkAt H seed p.1 = npkAt H seed q.1 → p.1 = q.1) :
    (∃ kc', syncPrivateAccountsWithTx H kc tx = .ok kc') ↔ ImportedHavePlace H kc tx := by
  cases tx with
  | publicTx tx => exact ⟨fun _ _ _ _ ho => absurd ho List.not_mem_nil, fun _ => ⟨kc, rfl⟩⟩
  | programDeployment bytecode => exact ⟨fun _ _ _ _ ho => absurd ho List.not_mem_nil, fun _ => ⟨kc, rfl⟩⟩
  | privacyPreserving tx =>
    have hopened : ∀ keyChain ∈ kc.privateAccountKeyChains, ∀ o ∈ opened H tx.message keyChain.viewer,
        accountPreimage keyChain.nullifierPublicKey o.1 ∈ accountStrings H seed known kc (.privacyPreserving tx) :=
      fun keyChain hkeyChain o ho =>
        List.mem_append_right _ (List.mem_flatMap.mpr ⟨keyChain, hkeyChain, List.mem_map_of_mem ho⟩)
    -- an id tells the kind
    have hkinds : ∀ a ∈ insertions H tx.message kc, ∀ b ∈ insertions H tx.message kc,
        a.accountId = b.accountId → a.kind = b.kind := by
      intro a ha b hb hab
      obtain ⟨k, hk, o, ho, rfl⟩ := mem_insertions.mp ha
      obtain ⟨k', hk', o', ho', rfl⟩ := mem_insertions.mp hb
      dsimp only at hab ⊢
      rw [forPrivateAccount_eq, forPrivateAccount_eq] at hab
      exact (accountPreimage_inj (hids (hopened k hk o ho) (hopened k' hk' o' ho') hab)).2
    rw [sync_succeeds_iff_insertions (sized_of_transition hsound haccepted), storeAll_ok_iff hkinds]
    constructor
    · intro hall p hp o ho
      have hmem : p.1.keyChain ∈ kc.privateAccountKeyChains :=
        List.mem_append_left _ (List.mem_map_of_mem hp)
      exact hall ⟨_, o.1, o.2⟩ (mem_insertions.mpr ⟨_, hmem, o, ho, rfl⟩)
    · intro himported a ha
      obtain ⟨k, hk, o, ho, rfl⟩ := mem_insertions.mp ha
      have hS := hopened k hk o ho
      rcases mem_privateAccountKeyChains hk with ⟨p, hp, rfl⟩ | ⟨ci, node, hnode, rfl⟩
      · exact himported p hp o ho
      · have hknown : ∀ p ∈ known, accountPreimage (npkAt H seed p.1) p.2 ∈
            accountStrings H seed known kc (.privacyPreserving tx) := fun p hp =>
          List.mem_append_left _ (List.mem_map_of_mem hp)
        exact hreach.registry.hasPlace hids hknown hkeys hnode hS

end

section
open Reference Circuit

namespace Sample

/-- A polynomial in the bytes of a string, as 32 bytes. -/
def polynomial (start : Nat) (b : Bytes) : Bytes32 :=
  ⟨toLe 32 (b.foldl (fun h x => (h * 257 + x.toNat + 1) % 2 ^ 256) start), toLe_length _ _⟩

/-- A host with a MAC of the right size and a key encapsulation that the receiver undoes. -/
def walletHost (script : Script) : WalletHost where
  toHost := (host script).toHost
  hmacSha512 := fun input key => ⟨(polynomial 1 (key ++ input)).toList ++ (polynomial 2 (key ++ input)).toList, by simp⟩
  viewingPublicKey := fun vsk => vsk.d.toList ++ vsk.z.toList
  decapsulate := fun epk vsk =>
    if epk.length = 1088 then .some (polynomial 3 (epk.take 32 ++ (vsk.d.toList ++ vsk.z.toList))) else .none

/-- The same host on the packed hash. -/
def packedWallet (script : Script) : WalletHost := { walletHost script with toHost := packedHost script }

theorem walletHost_packed (script : Script) : walletHost script = packedWallet script := by
  unfold packedWallet
  rw [← host_packed]
  rfl

def walletSeed : ByteVec 64 := ByteVec.fill 64 7

/-- Keys made elsewhere. -/
def otherKeys : KeyChain :=
  ⟨ByteVec.fill 32 6, ⟨ByteVec.fill 32 3, ⟨ByteVec.fill 32 4, ByteVec.fill 32 5⟩⟩,
    nullifierPublicKey Sha256.hash (ByteVec.fill 32 3), (ByteVec.fill 32 4).toList ++ (ByteVec.fill 32 5).toList⟩

/-- A wallet that has imported one account of them. -/
def otherWallet (H : WalletHost) (identifier : Identifier) : UserKeyChain :=
  (UserKeyChain.newWithAccounts (.new H walletSeed)).addImportedPrivateAccount otherKeys .none identifier Account.default

/-- A new private account for a key, with its note addressed to a viewer. -/
def parcel (npk : NullifierPublicKey) (identifier : Identifier) (v : Viewer) : PrivacyPreservingCircuitInput where
  programOutputs := (idle (programId 100) .none
    [⟨Account.default, false, forRegularPrivateAccount Sha256.hash npk identifier⟩] []).toOption.toList
  accountIdentities := [.privateUnauthorized (List.replicate 1088 1) (computeViewTag (walletHost {}) v.npk v.vpk) npk
    (polynomial 3 (List.replicate 32 1 ++ v.vpk)) identifier]
  programId := programId 100

def parcelHost (i : PrivacyPreservingCircuitInput) : WalletHost :=
  walletHost { programs := fun _ => idle, proven := [([], i)] }

/-- A sixth account for the imported keys. -/
def sixth : PrivacyPreservingCircuitInput := parcel otherKeys.nullifierPublicKey 5 otherKeys.viewer

/-- The ledger accepts it, and the keys open its note. -/
theorem sixth_run :
    ∃ tx s, proved (parcelHost sixth).toHost sixth = .some tx ∧
      committedLedger.transition (parcelHost sixth).toHost (.privacyPreserving tx) 0 0 = .some s ∧
      circuit (parcelHost sixth).toHost sixth = .ok (expectedCircuitOutput (parcelHost sixth).toHost tx committedLedger) ∧
      (syncPrivateAccountsWithTx (parcelHost sixth) (otherWallet (parcelHost sixth) 0) (.privacyPreserving tx)).map
          (fun _ => ()) =
        .error (.accountIdShouldExist (forPrivateAccount Sha256.hash otherKeys.nullifierPublicKey (.regular 5))) ∧
      (openedBy (parcelHost sixth) (.privacyPreserving tx) otherKeys.viewer).map (·.1) = [.regular 5] ∧
      ((accountStrings (parcelHost sixth) walletSeed [([], .regular 0)] (otherWallet (parcelHost sixth) 5)
        (.privacyPreserving tx)).dedup.map Sha256.hash).Nodup := by
  have hrun : (proved (parcelHost sixth).toHost sixth).any (fun tx =>
      (committedLedger.transition (parcelHost sixth).toHost (.privacyPreserving tx) 0 0).any fun _ =>
        decide (circuit (parcelHost sixth).toHost sixth =
            .ok (expectedCircuitOutput (parcelHost sixth).toHost tx committedLedger) ∧
          (syncPrivateAccountsWithTx (parcelHost sixth) (otherWallet (parcelHost sixth) 0) (.privacyPreserving tx)).map
              (fun _ => ()) =
            .error (.accountIdShouldExist (forPrivateAccount Sha256.hash otherKeys.nullifierPublicKey (.regular 5))) ∧
          (openedBy (parcelHost sixth) (.privacyPreserving tx) otherKeys.viewer).map (·.1) = [.regular 5] ∧
          ((accountStrings (parcelHost sixth) walletSeed [([], .regular 0)] (otherWallet (parcelHost sixth) 5)
            (.privacyPreserving tx)).dedup.map Sha256.hash).Nodup)) = true := by
    simp only [parcelHost, walletHost_packed, sixth, parcel, otherKeys, Sha256.hash_eq_packed]
    decide +kernel
  obtain ⟨tx, htx, h⟩ := (Option.any_eq_true _ _).mp hrun
  obtain ⟨s, hs, h⟩ := (Option.any_eq_true _ _).mp h
  exact ⟨tx, s, htx, hs, of_decide_eq_true h⟩

theorem parcelHost_proofsSound (i : PrivacyPreservingCircuitInput) : ProofsSound (parcelHost i).toHost :=
  (host { programs := fun _ => idle, proven := [([], i)] }).proof_sound

theorem otherWallet_reachable (H : WalletHost) (identifier : Identifier) :
    Reachable H walletSeed [([], .regular 0)] (otherWallet H identifier) :=
  .addImported otherKeys .none identifier Account.default .new

end Sample

open Wallet.Sample

theorem imported_key_stops_sync :
    ∃ tx s, committedLedger.transition (parcelHost sixth).toHost (.privacyPreserving tx) 0 0 = .some s ∧
      Reachable (parcelHost sixth) walletSeed [([], .regular 0)] (otherWallet (parcelHost sixth) 0) ∧
      syncPrivateAccountsWithTx (parcelHost sixth) (otherWallet (parcelHost sixth) 0) (.privacyPreserving tx) =
        .error (.accountIdShouldExist (forPrivateAccount Sha256.hash otherKeys.nullifierPublicKey (.regular 5))) := by
  obtain ⟨tx, s, -, hs, -, hpanic, -⟩ := sixth_run
  exact ⟨tx, s, hs, otherWallet_reachable _ 0, map_error_iff.mp hpanic⟩

theorem imported_kind_syncs :
    ∃ tx s, committedLedger.transition (parcelHost sixth).toHost (.privacyPreserving tx) 0 0 = .some s ∧
      (openedBy (parcelHost sixth) (.privacyPreserving tx) otherKeys.viewer).map (·.1) = [.regular 5] ∧
      ∃ kc', syncPrivateAccountsWithTx (parcelHost sixth) (otherWallet (parcelHost sixth) 5) (.privacyPreserving tx) =
        .ok kc' := by
  obtain ⟨tx, s, -, hs, -, -, hopened, hdigests⟩ := sixth_run
  have himported : (otherWallet (parcelHost sixth) 5).importedAccounts = [(⟨otherKeys, .none⟩, .regular 5)] := by
    decide +kernel
  refine ⟨tx, s, hs, hopened, ?_⟩
  refine (sync_succeeds_iff (otherWallet_reachable _ 5) (parcelHost_proofsSound sixth) hs ?_ ?_).mpr ?_
  · intro q hq q' hq' heq
    exact List.inj_on_of_nodup_map hdigests (List.mem_dedup.mpr hq) (List.mem_dedup.mpr hq') heq
  · intro p hp q hq _
    rw [List.mem_singleton.mp hp, List.mem_singleton.mp hq]
  · intro p hp o ho
    have hp' := hp
    rw [himported, List.mem_singleton] at hp
    subst hp
    have hkind : o.1 = .regular 5 := by
      have hmem := List.mem_map_of_mem (f := (·.1)) ho
      rw [hopened] at hmem
      exact List.mem_singleton.mp hmem
    rw [hkind]
    exact .inr (.inl ⟨_, hp', rfl⟩)

end

end Lez.Wallet
