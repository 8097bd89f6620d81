/-
The wallet reads a transaction (`sync_private_accounts_with_tx`): every key
chain it has tries every note with its view tag, what opens is stored account
by account, and then the shared accounts are gone through with the keys of
their groups. For a message with a commitment for each note the reading
cannot fail, so the outcome is one list of insertions and one of updates
(`sync_ok_iff`); a message the ledger accepts is such a message.
-/
import Lez.Trace.Chain
import Lez.Trace.Emission
import Lez.Wallet.KeyChain

namespace Lez.Wallet

open Circuit

inductive WalletPanic
  /-- `new_commitments[ciph_id]`. -/
  | noCommitment (ciphId : Nat)
  /-- "Ciphertext ID is expected to fit in u32". -/
  | ciphertextId (ciphId : Nat)
  /-- "Account Id should exist". -/
  | accountIdShouldExist (accountId : AccountId)
  /-- "Node must be present in a tree". -/
  | nodeMustBePresent (chainIndex : ChainIndex)
deriving DecidableEq

/-- `.expect("Account Id should exist")`; a panic inside passes through. -/
def InsertError.toPanic : InsertError → WalletPanic
  | .notFound accountId => .accountIdShouldExist accountId
  | .nodeNotPresent chainIndex => .nodeMustBePresent chainIndex

structure Affected where
  accountId : AccountId
  kind : PrivateAccountKind
  account : Account
deriving DecidableEq

section
variable (H : WalletHost) (message : PrivacyPreservingTransaction.Message)

/-- One note under one key chain. -/
def tryNote (keyChain : KeyChain) :
    EncryptedAccountData × Nat → Except WalletPanic (Option (PrivateAccountKind × Account))
  | (data, ciphId) =>
    if data.viewTag = computeViewTag H keyChain.nullifierPublicKey keyChain.viewingPublicKey then do
      let commitment ← expect (.noCommitment ciphId) message.newCommitments[ciphId]?
      match keyChain.calculateSharedSecretReceiver H data.epk with
      | .none => pure .none
      | .some secret => do
        ensure (ciphId < 2 ^ 32) (.ciphertextId ciphId)
        pure (decrypt H.toHost data.ciphertext secret commitment ciphId)
    else pure .none

def affectedBy (keyChain : KeyChain) : Except WalletPanic (List Affected) := do
  let opened ← message.encryptedPrivatePostStates.zipIdx.mapM (tryNote H message keyChain)
  return opened.filterMap fun o => o.map fun (kind, account) =>
    ⟨forPrivateAccount H.sha256 keyChain.nullifierPublicKey kind, kind, account⟩

def affectedAccounts (kc : UserKeyChain) : Except WalletPanic (List Affected) := do
  let lists ← kc.privateAccountKeyChains.mapM (affectedBy H message)
  return lists.flatten

/-- The keys of a shared account, if the wallet has its group. -/
def sharedKeysOf (kc : UserKeyChain) (entry : SharedAccountEntry) : Option PrivateKeyHolder := do
  let holder ← kc.groupKeyHolders.lookup entry.groupLabel
  match entry.pdaSeed, entry.authorityProgramId with
  | .some pdaSeed, .some programId => .some (holder.deriveKeysForPda H programId pdaSeed)
  | .some _, .none => .none
  | .none, _ => .some (holder.deriveKeysForSharedAccount H (sharedAccountTag H entry.identifier))

def sharedKeys (kc : UserKeyChain) : List (AccountId × PrivateKeyHolder) :=
  kc.sharedPrivateAccounts.toPairs.filterMap fun (accountId, entry) =>
    (sharedKeysOf H kc entry).map fun keys => (accountId, keys)

/-- One note under the keys of a shared account. -/
def trySharedNote (keys : PrivateKeyHolder) :
    EncryptedAccountData × Nat → Except WalletPanic (Option (PrivateAccountKind × Account))
  | (data, ciphId) =>
    if data.viewTag = computeViewTag H (keys.generateNullifierPublicKey H) (keys.generateViewingPublicKey H) then
      match H.decapsulate data.epk keys.viewingSecretKey with
      | .none => pure .none
      | .some secret => do
        let commitment ← expect (.noCommitment ciphId) message.newCommitments[ciphId]?
        ensure (ciphId < 2 ^ 32) (.ciphertextId ciphId)
        pure (decrypt H.toHost data.ciphertext secret commitment ciphId)
    else pure .none

/-- `sync_shared_private_accounts_with_tx`: the kind of an opened note is not looked at. -/
def syncSharedPrivateAccountsWithTx (kc : UserKeyChain) : Except WalletPanic UserKeyChain :=
  (sharedKeys H kc).foldlM (fun kc (accountId, keys) =>
    message.encryptedPrivatePostStates.zipIdx.foldlM (fun kc note => do
      match ← trySharedNote H message keys note with
      | .some (_, account) => pure (kc.updateSharedPrivateAccountState accountId account)
      | .none => pure kc) kc) kc

def storeAffected (kc : UserKeyChain) (a : Affected) : Except WalletPanic UserKeyChain :=
  (kc.insertPrivateAccount H a.accountId a.kind a.account).mapError InsertError.toPanic

end

def syncPrivateAccountsWithTx (H : WalletHost) (kc : UserKeyChain) : LeeTransaction → Except WalletPanic UserKeyChain
  | .privacyPreserving tx => do
    let affected ← affectedAccounts H tx.message kc
    let kc ← affected.foldlM (storeAffected H) kc
    syncSharedPrivateAccountsWithTx H tx.message kc
  | _ => pure kc

/-! ## What opens -/

/-- The keys a note is tried with. -/
structure Viewer where
  npk : NullifierPublicKey
  vpk : Bytes
  vsk : ViewingSecretKey

def KeyChain.viewer (keyChain : KeyChain) : Viewer :=
  ⟨keyChain.nullifierPublicKey, keyChain.viewingPublicKey, keyChain.privateKeyHolder.viewingSecretKey⟩

section
variable (H : WalletHost) (message : PrivacyPreservingTransaction.Message)

def PrivateKeyHolder.viewer (keys : PrivateKeyHolder) : Viewer :=
  ⟨keys.generateNullifierPublicKey H, keys.generateViewingPublicKey H, keys.viewingSecretKey⟩

/-- What a note holds for a viewer. -/
def openNote (v : Viewer) (data : EncryptedAccountData) (ciphId : Nat) : Option (PrivateAccountKind × Account) :=
  if data.viewTag = computeViewTag H v.npk v.vpk then do
    let secret ← H.decapsulate data.epk v.vsk
    let commitment ← message.newCommitments[ciphId]?
    decrypt H.toHost data.ciphertext secret commitment ciphId
  else .none

/-- The notes of a message that open for a viewer. -/
def opened (v : Viewer) : List (PrivateAccountKind × Account) :=
  message.encryptedPrivatePostStates.zipIdx.filterMap fun (data, ciphId) => openNote H message v data ciphId

def affectedFor (keyChain : KeyChain) : List Affected :=
  (opened H message keyChain.viewer).map fun (kind, account) =>
    ⟨forPrivateAccount H.sha256 keyChain.nullifierPublicKey kind, kind, account⟩

/-- What the first loop stores. -/
def insertions (kc : UserKeyChain) : List Affected := kc.privateAccountKeyChains.flatMap (affectedFor H message)

/-- What the second loop stores. -/
def updates (kc : UserKeyChain) : List (AccountId × Account) :=
  (sharedKeys H kc).flatMap fun (accountId, keys) =>
    (opened H message (keys.viewer H)).map fun (_, account) => (accountId, account)

end

def storeUpdate (kc : UserKeyChain) (u : AccountId × Account) : UserKeyChain :=
  kc.updateSharedPrivateAccountState u.1 u.2

/-- A commitment for each note, and indices that fit. -/
structure Sized (message : PrivacyPreservingTransaction.Message) : Prop where
  commitments : message.encryptedPrivatePostStates.length = message.newCommitments.length
  fits : message.encryptedPrivatePostStates.length < 2 ^ 32

section
variable {H : WalletHost} {message : PrivacyPreservingTransaction.Message}

theorem Sized.at (h : Sized message) {data : EncryptedAccountData} {k : Nat}
    (hmem : (data, k) ∈ message.encryptedPrivatePostStates.zipIdx) :
    k < 2 ^ 32 ∧ ∃ c, message.newCommitments[k]? = .some c := by
  have hget := List.mem_zipIdx_iff_getElem?.mp hmem
  have hk : k < message.encryptedPrivatePostStates.length := (List.getElem?_eq_some_iff.mp hget).1
  have hc : k < message.newCommitments.length := h.commitments ▸ hk
  exact ⟨hk.trans h.fits, _, List.getElem?_eq_getElem hc⟩

theorem tryNote_eq (h : Sized message) (keyChain : KeyChain) {note : EncryptedAccountData × Nat}
    (hmem : note ∈ message.encryptedPrivatePostStates.zipIdx) :
    tryNote H message keyChain note = .ok (openNote H message keyChain.viewer note.1 note.2) := by
  obtain ⟨data, k⟩ := note
  obtain ⟨hk, c, hc⟩ := h.at hmem
  simp only [tryNote, openNote, KeyChain.viewer, KeyChain.calculateSharedSecretReceiver, hc, expect, ensure, hk, if_true]
  split
  · cases H.decapsulate data.epk keyChain.privateKeyHolder.viewingSecretKey <;> rfl
  · rfl

theorem trySharedNote_eq (h : Sized message) (keys : PrivateKeyHolder) {note : EncryptedAccountData × Nat}
    (hmem : note ∈ message.encryptedPrivatePostStates.zipIdx) :
    trySharedNote H message keys note = .ok (openNote H message (keys.viewer H) note.1 note.2) := by
  obtain ⟨data, k⟩ := note
  obtain ⟨hk, c, hc⟩ := h.at hmem
  simp only [trySharedNote, openNote, PrivateKeyHolder.viewer, hc, expect, ensure, hk, if_true]
  split
  · cases H.decapsulate data.epk keys.viewingSecretKey <;> rfl
  · rfl

theorem affectedBy_eq (h : Sized message) (keyChain : KeyChain) :
    affectedBy H message keyChain = .ok (affectedFor H message keyChain) := by
  rw [affectedBy, mapM_ok_of_forall fun note hnote => tryNote_eq h keyChain hnote]
  refine congrArg Except.ok ?_
  rw [affectedFor, opened, List.filterMap_map, List.map_filterMap]
  rfl

theorem affectedAccounts_eq (h : Sized message) (kc : UserKeyChain) :
    affectedAccounts H message kc = .ok (insertions H message kc) := by
  rw [affectedAccounts, mapM_ok_of_forall fun keyChain _ => affectedBy_eq h keyChain]
  rfl

theorem syncShared_eq (h : Sized message) (kc : UserKeyChain) :
    syncSharedPrivateAccountsWithTx H message kc = .ok ((updates H message kc).foldl storeUpdate kc) := by
  -- the notes under the keys of one account
  have hone : ∀ (accountId : AccountId) (keys : PrivateKeyHolder) (kc : UserKeyChain),
      message.encryptedPrivatePostStates.zipIdx.foldlM (fun kc note => do
        match ← trySharedNote H message keys note with
        | .some (_, account) => pure (kc.updateSharedPrivateAccountState accountId account)
        | .none => pure kc) kc =
      .ok (((opened H message (keys.viewer H)).map fun p => (accountId, p.2)).foldl storeUpdate kc) := by
    intro accountId keys kc
    rw [foldlM_ok_of_forall (g := fun kc note =>
      match openNote H message (keys.viewer H) note.1 note.2 with
      | .some (_, account) => kc.updateSharedPrivateAccountState accountId account
      | .none => kc)]
    · rw [opened, List.map_filterMap, List.foldl_filterMap]
      refine congrArg (fun f => Except.ok (List.foldl f kc _)) ?_
      funext kc note
      obtain ⟨data, k⟩ := note
      dsimp only
      cases openNote H message (keys.viewer H) data k <;> rfl
    · intro kc note hnote
      rw [trySharedNote_eq h keys hnote]
      cases openNote H message (keys.viewer H) note.1 note.2 <;> rfl
  rw [syncSharedPrivateAccountsWithTx, updates, List.foldl_flatMap]
  exact foldlM_ok_of_forall fun kc p _ => hone p.1 p.2 kc

/-- **A sync is its insertions and its updates.** -/
theorem sync_ok_iff {tx : PrivacyPreservingTransaction} (h : Sized tx.message) {kc kc' : UserKeyChain} :
    syncPrivateAccountsWithTx H kc (.privacyPreserving tx) = .ok kc' ↔
      ∃ kc₁, (insertions H tx.message kc).foldlM (storeAffected H) kc = .ok kc₁ ∧
        (updates H tx.message kc₁).foldl storeUpdate kc₁ = kc' := by
  simp only [syncPrivateAccountsWithTx, affectedAccounts_eq h, bind_ok_iff, syncShared_eq h, Except.ok.injEq,
    exists_eq_left']

theorem sync_succeeds_iff_insertions {tx : PrivacyPreservingTransaction} (h : Sized tx.message) {kc : UserKeyChain} :
    (∃ kc', syncPrivateAccountsWithTx H kc (.privacyPreserving tx) = .ok kc') ↔
      ∃ kc₁, (insertions H tx.message kc).foldlM (storeAffected H) kc = .ok kc₁ := by
  constructor
  · rintro ⟨kc', hsync⟩
    obtain ⟨kc₁, hfold, -⟩ := (sync_ok_iff h).mp hsync
    exact ⟨kc₁, hfold⟩
  · rintro ⟨kc₁, hfold⟩
    exact ⟨_, (sync_ok_iff h).mpr ⟨kc₁, hfold, rfl⟩⟩

/-- What the circuit puts out has a commitment for each note. -/
theorem sized_of_circuit {H : Host} {s : V03State} {tx : PrivacyPreservingTransaction} {i : PrivacyPreservingCircuitInput}
    (h : circuit H i = .ok (expectedCircuitOutput H tx s)) : Sized tx.message := by
  obtain ⟨st, -, hes⟩ := circuit_emissions h
  have hnotes : tx.message.encryptedPrivatePostStates = (emissionsOf H i).mapIdx fun k e => e.note H k := hes.notes
  have hcommitments : tx.message.newCommitments = (emissionsOf H i).map (Emission.commitment H) := hes.commitments
  exact ⟨by rw [hnotes, hcommitments, List.length_mapIdx, List.length_map],
    by rw [hnotes, List.length_mapIdx]; exact hes.fits⟩

/-- The ledger accepts only such messages. -/
theorem sized_of_transition {H : Host} (hsound : ProofsSound H) {s s' : V03State} {tx : PrivacyPreservingTransaction}
    {blockId : BlockId} {timestamp : Timestamp}
    (hstep : s.transition H (.privacyPreserving tx) blockId timestamp = .some s') : Sized tx.message := by
  obtain ⟨diff, hok, -⟩ := V03State.settle_eq_some.mp hstep
  obtain ⟨i, hi⟩ := hsound _ _ (fromPrivacyPreservingTransaction_ok hok).2
  exact sized_of_circuit hi

end

end Lez.Wallet
