/-
Where a wallet can store an account that a note brings. `HasPlace` is what
`insert_private_account` needs; storing other accounts first neither gives
nor takes a place, so a whole transaction is stored when each of its accounts
has a place before it. Every account that opens under a key of the tree has
one: a registered id leads to the node whose key it is derived from. An
imported key chain gives a place to the kinds imported with it and to no
other.
-/
import Lez.Wallet.Sync

namespace Lez.Wallet

section
variable (H : WalletHost)

/-- The wallet can store an account with this id and kind. -/
def HasPlace (kc : UserKeyChain) (id : AccountId) (kind : PrivateAccountKind) : Prop :=
  id ∈ kc.sharedPrivateAccounts ∨
  (∃ p ∈ kc.importedAccounts, forPrivateAccount H.sha256 p.1.keyChain.nullifierPublicKey p.2 = id) ∨
  (∃ ci ∈ kc.privateKeyTree.keyMap, kc.privateKeyTree.accountIdMap.lookup id = .some ci) ∨
  (kc.privateKeyTree.accountIdMap.lookup id = .none ∧
    ∃ ci node, kc.privateKeyTree.keyMap.lookup ci = .some node ∧ forPrivateAccount H.sha256 node.npk kind = id)

/-- What a shared account is known by, its state apart. -/
def SharedAccountEntry.origin (entry : SharedAccountEntry) : Label × Identifier × Option PdaSeed × Option ProgramId :=
  (entry.groupLabel, entry.identifier, entry.pdaSeed, entry.authorityProgramId)

/-- What storing one account leaves as it was: the keys and their places. -/
structure SameKeys (kc kc' : UserKeyChain) : Prop where
  groups : kc'.groupKeyHolders = kc.groupKeyHolders
  shared : ∀ id, (kc'.sharedPrivateAccounts.lookup id).map SharedAccountEntry.origin =
    (kc.sharedPrivateAccounts.lookup id).map SharedAccountEntry.origin
  imported : ∀ p, p ∈ kc'.importedAccounts ↔ p ∈ kc.importedAccounts
  nodes : ∀ ci, (kc'.privateKeyTree.keyMap.lookup ci).map (fun node => (node.keyChain, node.ccc)) =
    (kc.privateKeyTree.keyMap.lookup ci).map fun node => (node.keyChain, node.ccc)

end

section
variable {H : WalletHost} {kc kc' : UserKeyChain} {id : AccountId} {kind : PrivateAccountKind} {account : Account}

theorem mem_importedAccounts {p : ImportedPrivateAccountKey × PrivateAccountKind} :
    p ∈ kc.importedAccounts ↔ ∃ accounts, kc.importedPrivateAccounts.lookup p.1 = .some accounts ∧ p.2 ∈ accounts := by
  obtain ⟨key, kind⟩ := p
  simp only [UserKeyChain.importedAccounts, List.mem_flatMap, List.mem_map, Prod.exists, Prod.mk.injEq, AList.mem_keys]
  constructor
  · rintro ⟨key', accounts, hmem, kind', hkind, rfl, rfl⟩
    exact ⟨accounts, Table.mem_toPairs.mp hmem, hkind⟩
  · rintro ⟨accounts, hlookup, hkind⟩
    exact ⟨key, accounts, Table.mem_toPairs.mpr hlookup, kind, hkind, rfl, rfl⟩

theorem findImported_some {p : ImportedPrivateAccountKey × PrivateAccountKind} (h : kc.findImported H id = .some p) :
    p ∈ kc.importedAccounts ∧ forPrivateAccount H.sha256 p.1.keyChain.nullifierPublicKey p.2 = id := by
  have hid := List.find?_some h
  exact ⟨List.mem_of_find?_eq_some h, of_decide_eq_true hid⟩

theorem findImported_none (h : kc.findImported H id = .none) :
    ¬∃ p ∈ kc.importedAccounts, forPrivateAccount H.sha256 p.1.keyChain.nullifierPublicKey p.2 = id := by
  rintro ⟨p, hp, hid⟩
  have := List.find?_eq_none.mp h p hp
  simp [hid] at this

theorem findNode_some {ci : ChainIndex} (h : kc.findNode H id kind = .some ci) :
    ∃ node, kc.privateKeyTree.keyMap.lookup ci = .some node ∧ forPrivateAccount H.sha256 node.npk kind = id := by
  obtain ⟨⟨ci', node⟩, hfind, rfl⟩ := Option.map_eq_some_iff.mp h
  have hid := List.find?_some hfind
  exact ⟨node, Table.mem_toPairs.mp (List.mem_of_find?_eq_some hfind), of_decide_eq_true hid⟩

theorem findNode_none (h : kc.findNode H id kind = .none) :
    ¬∃ ci node, kc.privateKeyTree.keyMap.lookup ci = .some node ∧ forPrivateAccount H.sha256 node.npk kind = id := by
  rintro ⟨ci, node, hlookup, hid⟩
  have := List.find?_eq_none.mp (Option.map_eq_none_iff.mp h) (ci, node) (Table.mem_toPairs.mpr hlookup)
  simp [hid] at this

/-- The four ways an account is stored. -/
inductive Stored (H : WalletHost) (kc : UserKeyChain) (id : AccountId) (kind : PrivateAccountKind) (account : Account) :
    UserKeyChain → Prop
  | shared : id ∈ kc.sharedPrivateAccounts → Stored H kc id kind account (kc.updateSharedPrivateAccountState id account)
  | imported {key : ImportedPrivateAccountKey} {own : PrivateAccountKind} : (key, own) ∈ kc.importedAccounts →
      forPrivateAccount H.sha256 key.keyChain.nullifierPublicKey own = id →
      Stored H kc id kind account { kc with
        importedPrivateAccounts := kc.importedPrivateAccounts.modify key fun accounts => accounts.insert own account }
  | registered {ci : ChainIndex} : ci ∈ kc.privateKeyTree.keyMap → kc.privateKeyTree.accountIdMap.lookup id = .some ci →
      Stored H kc id kind account { kc with privateKeyTree := kc.insertOnNode ci kind account }
  | fresh {ci : ChainIndex} {node : ChildKeysPrivate} : kc.privateKeyTree.accountIdMap.lookup id = .none →
      kc.privateKeyTree.keyMap.lookup ci = .some node → forPrivateAccount H.sha256 node.npk kind = id →
      Stored H kc id kind account { kc with privateKeyTree := { kc.insertOnNode ci kind account with
        accountIdMap := kc.privateKeyTree.accountIdMap.insert id ci } }

theorem insertPrivateAccount_stored (h : kc.insertPrivateAccount H id kind account = .ok kc') :
    Stored H kc id kind account kc' := by
  unfold UserKeyChain.insertPrivateAccount at h
  split at h
  next hshared =>
    cases h
    exact .shared hshared
  next =>
  split at h
  next key own hfind =>
    cases h
    obtain ⟨hmem, hid⟩ := findImported_some hfind
    exact .imported hmem hid
  next =>
  split at h
  next ci hci =>
    split at h
    next hmem =>
      cases h
      exact .registered hmem hci
    next => cases h
  next hnone =>
  split at h
  next ci hfind =>
    cases h
    obtain ⟨node, hnode, hid⟩ := findNode_some hfind
    exact .fresh hnone hnode hid
  next => cases h

/-- **An account is stored exactly where there is a place for it.** -/
theorem insertPrivateAccount_ok_iff :
    (∃ kc', kc.insertPrivateAccount H id kind account = .ok kc') ↔ HasPlace H kc id kind := by
  constructor
  · rintro ⟨kc', h⟩
    cases insertPrivateAccount_stored h with
    | shared hmem => exact .inl hmem
    | imported hmem hid => exact .inr (.inl ⟨_, hmem, hid⟩)
    | registered hmem hci => exact .inr (.inr (.inl ⟨_, hmem, hci⟩))
    | fresh hnone hnode hid => exact .inr (.inr (.inr ⟨hnone, _, _, hnode, hid⟩))
  · intro h
    unfold UserKeyChain.insertPrivateAccount
    split
    next => exact ⟨_, rfl⟩
    next hshared =>
    split
    next => exact ⟨_, rfl⟩
    next hfind =>
    split
    next ci hci =>
      have hmem : ci ∈ kc.privateKeyTree.keyMap := by
        rcases h with h | h | ⟨ci', hmem, hci'⟩ | ⟨hnone, -⟩
        · exact absurd h hshared
        · exact absurd h (findImported_none hfind)
        · rw [hci, Option.some.injEq] at hci'
          exact hci' ▸ hmem
        · rw [hci] at hnone
          cases hnone
      exact ⟨_, if_pos hmem⟩
    next hnone =>
    split
    next => exact ⟨_, rfl⟩
    next hnode =>
      rcases h with h | h | ⟨ci, -, hci⟩ | ⟨-, h⟩
      · exact absurd h hshared
      · exact absurd h (findImported_none hfind)
      · rw [hnone] at hci
        cases hci
      · exact absurd h (findNode_none hnode)

/-! ## Storing one account after another -/

theorem insertOnNode_lookup (ci ci' : ChainIndex) :
    (kc.insertOnNode ci kind account).keyMap.lookup ci' =
      if ci' = ci then
        (kc.privateKeyTree.keyMap.lookup ci').map fun node => { node with accounts := node.accounts.insert kind account }
      else kc.privateKeyTree.keyMap.lookup ci' :=
  Table.lookup_modify _ _ _ _

theorem insertOnNode_nodes (ci ci' : ChainIndex) :
    ((kc.insertOnNode ci kind account).keyMap.lookup ci').map (fun node => (node.keyChain, node.ccc)) =
      (kc.privateKeyTree.keyMap.lookup ci').map fun node => (node.keyChain, node.ccc) := by
  rw [insertOnNode_lookup]
  split
  · rw [Option.map_map]
    rfl
  · rfl

theorem mem_importedAccounts_modify {key : ImportedPrivateAccountKey} {own : PrivateAccountKind}
    (hown : (key, own) ∈ kc.importedAccounts) (p : ImportedPrivateAccountKey × PrivateAccountKind) :
    p ∈ UserKeyChain.importedAccounts { kc with
        importedPrivateAccounts := kc.importedPrivateAccounts.modify key fun accounts => accounts.insert own account } ↔
      p ∈ kc.importedAccounts := by
  rw [mem_importedAccounts, mem_importedAccounts]
  dsimp only
  rw [Table.lookup_modify]
  obtain ⟨accounts, haccounts, hmem⟩ := mem_importedAccounts.mp hown
  by_cases hkey : p.1 = key
  · rw [if_pos hkey, hkey, haccounts]
    simp only [Option.map_some, Option.some.injEq, exists_eq_left', AList.mem_insert]
    constructor
    · rintro (hp | hp)
      · exact hp ▸ hmem
      · exact hp
    · exact .inr
  · rw [if_neg hkey]

theorem updateShared_origin (id' : AccountId) :
    ((kc.updateSharedPrivateAccountState id account).sharedPrivateAccounts.lookup id').map SharedAccountEntry.origin =
      (kc.sharedPrivateAccounts.lookup id').map SharedAccountEntry.origin := by
  rw [UserKeyChain.updateSharedPrivateAccountState, Table.lookup_modify]
  split
  · rw [Option.map_map]
    rfl
  · rfl

theorem Stored.sameKeys (h : Stored H kc id kind account kc') : SameKeys kc kc' := by
  cases h with
  | shared => exact ⟨rfl, updateShared_origin, fun _ => Iff.rfl, fun _ => rfl⟩
  | imported hown => exact ⟨rfl, fun _ => rfl, mem_importedAccounts_modify hown, fun _ => rfl⟩
  | registered => exact ⟨rfl, fun _ => rfl, fun _ => Iff.rfl, insertOnNode_nodes _⟩
  | fresh => exact ⟨rfl, fun _ => rfl, fun _ => Iff.rfl, insertOnNode_nodes _⟩

/-- An id is registered at most for the account that was stored, at a node that derives it. -/
theorem Stored.accountIdMap (h : Stored H kc id kind account kc') (id' : AccountId) :
    kc'.privateKeyTree.accountIdMap.lookup id' = kc.privateKeyTree.accountIdMap.lookup id' ∨
    (id' = id ∧ kc.privateKeyTree.accountIdMap.lookup id = .none ∧
      ∃ ci node, kc.privateKeyTree.keyMap.lookup ci = .some node ∧ forPrivateAccount H.sha256 node.npk kind = id ∧
        kc'.privateKeyTree.accountIdMap.lookup id = .some ci) := by
  cases h with
  | shared => exact .inl rfl
  | imported => exact .inl rfl
  | registered => exact .inl rfl
  | @fresh ci node hnone hnode hid =>
    by_cases hid' : id' = id
    · exact .inr ⟨hid', hnone, ci, node, hnode, hid, AList.lookup_insert _⟩
    · exact .inl (AList.lookup_insert_ne hid')

/-- A node gets no other kind than the one that was stored. -/
theorem Stored.kinds (h : Stored H kc id kind account kc') {ci : ChainIndex} {node' : ChildKeysPrivate}
    (hnode : kc'.privateKeyTree.keyMap.lookup ci = .some node') {kind' : PrivateAccountKind}
    (hmem : kind' ∈ node'.accounts) (hne : kind' ≠ kind) :
    ∃ node, kc.privateKeyTree.keyMap.lookup ci = .some node ∧ kind' ∈ node.accounts := by
  have hinsert : ∀ ci', (kc.insertOnNode ci' kind account).keyMap.lookup ci = .some node' →
      ∃ node, kc.privateKeyTree.keyMap.lookup ci = .some node ∧ kind' ∈ node.accounts := by
    intro ci' hlookup
    rw [insertOnNode_lookup] at hlookup
    split at hlookup
    · obtain ⟨node, hold, rfl⟩ := Option.map_eq_some_iff.mp hlookup
      exact ⟨node, hold, ((AList.mem_insert _).mp hmem).resolve_left hne⟩
    · exact ⟨node', hlookup, hmem⟩
  cases h with
  | shared => exact ⟨node', hnode, hmem⟩
  | imported => exact ⟨node', hnode, hmem⟩
  | registered => exact hinsert _ hnode
  | fresh => exact hinsert _ hnode

theorem SameKeys.mem_shared (h : SameKeys kc kc') (id : AccountId) :
    id ∈ kc'.sharedPrivateAccounts ↔ id ∈ kc.sharedPrivateAccounts := by
  have hsome := congrArg Option.isSome (h.shared id)
  rw [Option.isSome_map, Option.isSome_map] at hsome
  rw [← AList.lookup_isSome, ← AList.lookup_isSome, hsome]

theorem SameKeys.mem_keyMap (h : SameKeys kc kc') (ci : ChainIndex) :
    ci ∈ kc'.privateKeyTree.keyMap ↔ ci ∈ kc.privateKeyTree.keyMap := by
  have hsome := congrArg Option.isSome (h.nodes ci)
  rw [Option.isSome_map, Option.isSome_map] at hsome
  rw [← AList.lookup_isSome, ← AList.lookup_isSome, hsome]

theorem SameKeys.node (h : SameKeys kc kc') {ci : ChainIndex} {node' : ChildKeysPrivate}
    (hnode : kc'.privateKeyTree.keyMap.lookup ci = .some node') :
    ∃ node, kc.privateKeyTree.keyMap.lookup ci = .some node ∧ node'.keyChain = node.keyChain ∧ node'.ccc = node.ccc := by
  have hci := h.nodes ci
  rw [hnode, Option.map_some] at hci
  obtain ⟨node, hlookup, heq⟩ := Option.map_eq_some_iff.mp hci.symm
  rw [Prod.mk.injEq] at heq
  exact ⟨node, hlookup, heq.1.symm, heq.2.symm⟩

theorem SameKeys.symm (h : SameKeys kc kc') : SameKeys kc' kc :=
  ⟨h.groups.symm, fun id => (h.shared id).symm, fun p => (h.imported p).symm, fun ci => (h.nodes ci).symm⟩

theorem SameKeys.refl (kc : UserKeyChain) : SameKeys kc kc := ⟨rfl, fun _ => rfl, fun _ => Iff.rfl, fun _ => rfl⟩

theorem SameKeys.trans {kc'' : UserKeyChain} (h : SameKeys kc kc') (h' : SameKeys kc' kc'') : SameKeys kc kc'' :=
  ⟨h'.groups.trans h.groups, fun id => (h'.shared id).trans (h.shared id),
    fun p => (h'.imported p).trans (h.imported p), fun ci => (h'.nodes ci).trans (h.nodes ci)⟩

theorem mem_sharedKeys {keys : PrivateKeyHolder} :
    (id, keys) ∈ sharedKeys H kc ↔
      ∃ entry, kc.sharedPrivateAccounts.lookup id = .some entry ∧ sharedKeysOf H kc entry = .some keys := by
  simp only [sharedKeys, List.mem_filterMap, Option.map_eq_some_iff, Prod.exists, Prod.mk.injEq]
  constructor
  · rintro ⟨id', entry, hmem, keys', hkeys, rfl, rfl⟩
    exact ⟨entry, Table.mem_toPairs.mp hmem, hkeys⟩
  · rintro ⟨entry, hlookup, hkeys⟩
    exact ⟨id, entry, Table.mem_toPairs.mpr hlookup, keys, hkeys, rfl, rfl⟩

/-- The keys of a shared account depend on its origin and its group alone. -/
theorem sharedKeysOf_congr (hgroups : kc'.groupKeyHolders = kc.groupKeyHolders) {entry entry' : SharedAccountEntry}
    (horigin : entry'.origin = entry.origin) : sharedKeysOf H kc' entry' = sharedKeysOf H kc entry := by
  obtain ⟨label, identifier, seed, program, account⟩ := entry
  obtain ⟨label', identifier', seed', program', account'⟩ := entry'
  cases horigin
  rw [sharedKeysOf, sharedKeysOf, hgroups]

theorem SameKeys.mem_sharedKeys (h : SameKeys kc kc') {keys : PrivateKeyHolder} (hmem : (id, keys) ∈ sharedKeys H kc') :
    (id, keys) ∈ sharedKeys H kc := by
  obtain ⟨entry', hlookup', hkeys⟩ := Wallet.mem_sharedKeys.mp hmem
  have horigin := h.shared id
  rw [hlookup', Option.map_some] at horigin
  obtain ⟨entry, hlookup, heq⟩ := Option.map_eq_some_iff.mp horigin.symm
  exact Wallet.mem_sharedKeys.mpr ⟨entry, hlookup, sharedKeysOf_congr h.groups heq.symm ▸ hkeys⟩

/-- With the same keys and the same entry for an id there is a place for it in both or in neither. -/
theorem SameKeys.hasPlace (h : SameKeys kc kc')
    (hid : kc'.privateKeyTree.accountIdMap.lookup id = kc.privateKeyTree.accountIdMap.lookup id)
    (hplace : HasPlace H kc id kind) : HasPlace H kc' id kind := by
  rcases hplace with hshared | ⟨p, hp, hpid⟩ | ⟨ci, hci, hlookup⟩ | ⟨hnone, ci, node, hnode, hderives⟩
  · exact .inl ((h.mem_shared id).mpr hshared)
  · exact .inr (.inl ⟨p, (h.imported p).mpr hp, hpid⟩)
  · exact .inr (.inr (.inl ⟨ci, (h.mem_keyMap ci).mpr hci, hid.trans hlookup⟩))
  · obtain ⟨node', hnode', hkeys, -⟩ := h.symm.node hnode
    refine .inr (.inr (.inr ⟨hid.trans hnone, ci, node', hnode', ?_⟩))
    rwa [ChildKeysPrivate.npk, ← hkeys]

/-- Storing an account gives no other one a place and takes none away. -/
theorem Stored.hasPlace (h : Stored H kc id kind account kc') {id₂ : AccountId} {kind₂ : PrivateAccountKind}
    (hkind : id₂ = id → kind₂ = kind) : HasPlace H kc' id₂ kind₂ ↔ HasPlace H kc id₂ kind₂ := by
  rcases h.accountIdMap id₂ with hsame | ⟨rfl, hnone, ci, node, hnode, hderives, hregistered⟩
  · exact ⟨h.sameKeys.symm.hasPlace hsame.symm, h.sameKeys.hasPlace hsame⟩
  · cases hkind rfl
    have hci : ci ∈ kc.privateKeyTree.keyMap := by rw [← AList.lookup_isSome, hnode]; rfl
    constructor
    · intro _
      exact .inr (.inr (.inr ⟨hnone, ci, node, hnode, hderives⟩))
    · intro _
      exact .inr (.inr (.inl ⟨ci, (h.sameKeys.mem_keyMap ci).mpr hci, hregistered⟩))

theorem storeAffected_ok_iff {a : Affected} :
    storeAffected H kc a = .ok kc' ↔ kc.insertPrivateAccount H a.accountId a.kind a.account = .ok kc' :=
  mapError_ok_iff

theorem storeAll_sameKeys : ∀ {as : List Affected} {kc kc' : UserKeyChain},
    as.foldlM (storeAffected H) kc = .ok kc' → SameKeys kc kc'
  | [], kc, kc', h => by
    cases h
    exact .refl kc
  | a :: as, kc, kc', h => by
    rw [List.foldlM_cons, bind_ok_iff] at h
    obtain ⟨kc₁, hstore, h⟩ := h
    exact (insertPrivateAccount_stored (storeAffected_ok_iff.mp hstore)).sameKeys.trans (storeAll_sameKeys h)

/-- **All is stored when each has its place before any is.** -/
theorem storeAll_ok_iff : ∀ {as : List Affected} {kc : UserKeyChain},
    (∀ a ∈ as, ∀ b ∈ as, a.accountId = b.accountId → a.kind = b.kind) →
    ((∃ kc', as.foldlM (storeAffected H) kc = .ok kc') ↔ ∀ a ∈ as, HasPlace H kc a.accountId a.kind)
  | [], kc, _ => by simp [pure, Except.pure]
  | a :: as, kc, hkinds => by
    have hrest : ∀ kc₁, storeAffected H kc a = .ok kc₁ →
        ((∃ kc', as.foldlM (storeAffected H) kc₁ = .ok kc') ↔ ∀ b ∈ as, HasPlace H kc b.accountId b.kind) := by
      intro kc₁ hstore
      have hstored := insertPrivateAccount_stored (storeAffected_ok_iff.mp hstore)
      rw [storeAll_ok_iff fun b hb c hc => hkinds b (by simp [hb]) c (by simp [hc])]
      refine forall₂_congr fun b hb => ?_
      exact hstored.hasPlace fun hid => hkinds b (by simp [hb]) a (by simp) hid
    simp only [List.foldlM_cons, bind_ok_iff, List.forall_mem_cons]
    constructor
    · rintro ⟨kc', kc₁, hstore, hfold⟩
      exact ⟨insertPrivateAccount_ok_iff.mp ⟨kc₁, storeAffected_ok_iff.mp hstore⟩, (hrest kc₁ hstore).mp ⟨kc', hfold⟩⟩
    · rintro ⟨hplace, hall⟩
      obtain ⟨kc₁, hinsert⟩ := insertPrivateAccount_ok_iff.mpr hplace
      have hstore := storeAffected_ok_iff.mpr hinsert
      obtain ⟨kc', hfold⟩ := (hrest kc₁ hstore).mpr hall
      exact ⟨kc', kc₁, hstore, hfold⟩

end

end Lez.Wallet
