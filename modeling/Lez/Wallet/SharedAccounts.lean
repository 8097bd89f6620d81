/-
Shared accounts and a transaction that updates one of them. The keys of a
shared PDA come from the group, the program and the seed, not from the
identifier, and the second loop of a sync does not look at the kind of what
it opens: the new state is written to every shared account that has the keys.
It stays with the account it is for exactly when no other account with the
same keys would change.
-/
import Lez.Wallet.Provenance

namespace Lez.Wallet

open Circuit

section
variable (H : WalletHost)

/-- A transaction, as its sender has it, that updates the shared account `target` and no other: its note is made
for the keys of the account, and under shared keys of the wallet it opens for these only and no other note opens. -/
structure UpdatesShared (kc : UserKeyChain) (tx : PrivacyPreservingTransaction) (i : PrivacyPreservingCircuitInput)
    (target : AccountId) (keys : PrivateKeyHolder) (e : Emission) (k : Nat) : Prop where
  entry : (target, keys) ∈ sharedKeys H kc
  emission : (emissionsOf H.toHost i)[k]? = .some e
  account : e.id = target
  viewTag : e.output.viewTag = computeViewTag H (keys.viewer H).npk (keys.viewer H).vpk
  secret : H.decapsulate e.output.epk (keys.viewer H).vsk = .some e.output.ssk
  only : ∀ shared ∈ sharedKeys H kc,
    (openNote H tx.message (shared.2.viewer H) (e.note H.toHost k) k).isSome → shared.2 = keys
  others : ∀ shared ∈ sharedKeys H kc, ∀ p ∈ (emissionsOf H.toHost i).zipIdx, p.2 ≠ k →
    openNote H tx.message (shared.2.viewer H) (p.1.note H.toHost p.2) p.2 = .none

/-- The wallet reads the transaction for its shared accounts, and only the cached state of `target` changes, to
`account`. -/
def ChangesOnly (kc : UserKeyChain) (tx : PrivacyPreservingTransaction) (target : AccountId) (account : Account) : Prop :=
  ∃ kc', syncSharedPrivateAccountsWithTx H tx.message kc = .ok kc' ∧
    ∀ id, kc'.sharedPrivateAccounts.lookup id =
      if id = target then (kc.sharedPrivateAccounts.lookup id).map fun entry => { entry with account }
      else kc.sharedPrivateAccounts.lookup id

end

section
variable {H : WalletHost} {kc : UserKeyChain} {tx : PrivacyPreservingTransaction} {i : PrivacyPreservingCircuitInput}
  {target : AccountId} {keys : PrivateKeyHolder} {e : Emission} {k : Nat} {s : V03State}

/-- Updates with one state reach every account they name. -/
theorem storeUpdates_lookup {account : Account} {id : AccountId} : ∀ {us : List (AccountId × Account)} {kc : UserKeyChain},
    (∀ u ∈ us, u.2 = account) →
    (us.foldl storeUpdate kc).sharedPrivateAccounts.lookup id =
      if id ∈ us.map (·.1) then (kc.sharedPrivateAccounts.lookup id).map fun entry => { entry with account }
      else kc.sharedPrivateAccounts.lookup id
  | [], kc, _ => by simp
  | u :: us, kc, h => by
    have hu : u.2 = account := h u (by simp)
    rw [List.foldl_cons, storeUpdates_lookup fun u' hu' => h u' (by simp [hu'])]
    have hone : (storeUpdate kc u).sharedPrivateAccounts.lookup id =
        if id = u.1 then (kc.sharedPrivateAccounts.lookup id).map fun entry => { entry with account }
        else kc.sharedPrivateAccounts.lookup id := by
      rw [storeUpdate, UserKeyChain.updateSharedPrivateAccountState, Table.lookup_modify, hu]
    rw [hone, List.map_cons]
    by_cases hid : id = u.1
    · rw [if_pos hid, if_pos (List.mem_cons.mpr (.inl hid)), Option.map_map]
      split <;> rfl
    · have hmem : id ∈ u.1 :: us.map (·.1) ↔ id ∈ us.map (·.1) := by simp [hid]
      simp only [if_neg hid, hmem]

/-- What opens under shared keys is the new state, and it opens under the keys of the account. -/
theorem UpdatesShared.opened (hcipher : ∀ key m, H.chacha20 key (H.chacha20 key m) = m)
    (hcircuit : circuit H.toHost i = .ok (expectedCircuitOutput H.toHost tx s))
    (h : UpdatesShared H kc tx i target keys e k) :
    (∀ shared ∈ sharedKeys H kc, ∀ o ∈ opened H tx.message (shared.2.viewer H), o.2 = e.account ∧ shared.2 = keys) ∧
      ∃ o, o ∈ opened H tx.message (keys.viewer H) := by
  obtain ⟨st, -, hes⟩ := circuit_emissions hcircuit
  have hnotes : tx.message.encryptedPrivatePostStates = (emissionsOf H.toHost i).mapIdx fun k e => e.note H.toHost k :=
    hes.notes
  have hcommitment : tx.message.newCommitments[k]? = .some (e.commitment H.toHost) := by
    have hcommitments : tx.message.newCommitments = (emissionsOf H.toHost i).map (Emission.commitment H.toHost) :=
      hes.commitments
    rw [hcommitments, List.getElem?_map, h.emission, Option.map_some]
  refine ⟨?_, ?_⟩
  · intro shared hshared o ho
    obtain ⟨k', e', he', hopen⟩ := opened_emission hnotes ho
    have hk : k' = k := by
      by_contra hne
      have hnone := h.others shared hshared (e', k') (List.mem_zipIdx_iff_getElem?.mpr he') hne
      rw [hopen] at hnone
      cases hnone
    subst hk
    obtain rfl : e' = e := Option.some.inj (he'.symm.trans h.emission)
    have hkeys : shared.2 = keys := h.only shared hshared (by rw [hopen]; rfl)
    rw [hkeys] at hopen
    rw [openNote_eq hcipher hcommitment h.secret hopen]
    exact ⟨rfl, hkeys⟩
  · refine ⟨(e.output.kind, e.account), List.mem_filterMap.mpr ⟨(e.note H.toHost k, k), ?_, ?_⟩⟩
    · rw [List.mem_zipIdx_iff_getElem?]
      dsimp only
      rw [hnotes, List.getElem?_mapIdx, h.emission, Option.map_some]
    · dsimp only [openNote, Emission.note]
      rw [if_pos h.viewTag, h.secret, Option.bind_eq_bind, Option.bind_some, hcommitment, Option.bind_some,
        decrypt_encrypt hcipher]

/-- The accounts that are written are those with the keys. -/
theorem UpdatesShared.updates (hcipher : ∀ key m, H.chacha20 key (H.chacha20 key m) = m)
    (hcircuit : circuit H.toHost i = .ok (expectedCircuitOutput H.toHost tx s))
    (h : UpdatesShared H kc tx i target keys e k) :
    (∀ u ∈ updates H tx.message kc, u.2 = e.account) ∧
      ∀ id, id ∈ (updates H tx.message kc).map (·.1) ↔ (id, keys) ∈ sharedKeys H kc := by
  obtain ⟨hall, o, ho⟩ := h.opened hcipher hcircuit
  refine ⟨?_, ?_⟩
  · intro u hu
    obtain ⟨shared, hshared, hmem⟩ := List.mem_flatMap.mp hu
    obtain ⟨o', ho', rfl⟩ := List.mem_map.mp hmem
    exact (hall shared hshared o' ho').1
  · intro id
    constructor
    · intro hid
      obtain ⟨u, hu, rfl⟩ := List.mem_map.mp hid
      obtain ⟨shared, hshared, hmem⟩ := List.mem_flatMap.mp hu
      obtain ⟨o', ho', rfl⟩ := List.mem_map.mp hmem
      rw [← (hall shared hshared o' ho').2]
      exact hshared
    · intro hid
      refine List.mem_map.mpr ⟨(id, o.2), List.mem_flatMap.mpr ⟨(id, keys), hid, ?_⟩, rfl⟩
      exact List.mem_map.mpr ⟨o, ho, rfl⟩

/-- The new state goes to every account with the keys. -/
theorem UpdatesShared.stored (hcipher : ∀ key m, H.chacha20 key (H.chacha20 key m) = m)
    (hcircuit : circuit H.toHost i = .ok (expectedCircuitOutput H.toHost tx s))
    (h : UpdatesShared H kc tx i target keys e k) :
    ∃ kc', syncSharedPrivateAccountsWithTx H tx.message kc = .ok kc' ∧
      ∀ id, kc'.sharedPrivateAccounts.lookup id =
        if (id, keys) ∈ sharedKeys H kc then
          (kc.sharedPrivateAccounts.lookup id).map fun entry => { entry with account := e.account }
        else kc.sharedPrivateAccounts.lookup id := by
  obtain ⟨hsame, hids⟩ := h.updates hcipher hcircuit
  refine ⟨_, syncShared_eq (sized_of_circuit hcircuit) kc, fun id => ?_⟩
  rw [storeUpdates_lookup hsame]
  simp only [hids]

/-- So it changes another account that has them and another state. -/
theorem UpdatesShared.same_state (hcipher : ∀ key m, H.chacha20 key (H.chacha20 key m) = m)
    (hcircuit : circuit H.toHost i = .ok (expectedCircuitOutput H.toHost tx s))
    (h : UpdatesShared H kc tx i target keys e k) (honly : ChangesOnly H kc tx target e.account) {id : AccountId}
    {entry : SharedAccountEntry} (hentry : kc.sharedPrivateAccounts.lookup id = .some entry) (hne : id ≠ target)
    (hkeys : sharedKeysOf H kc entry = .some keys) : entry.account = e.account := by
  obtain ⟨kc', hsync, hstored⟩ := h.stored hcipher hcircuit
  obtain ⟨kc'', hsync', hchanged⟩ := honly
  cases hsync.symm.trans hsync'
  have hid := (hstored id).symm.trans (hchanged id)
  rw [if_pos (mem_sharedKeys.mpr ⟨entry, hentry, hkeys⟩), if_neg hne, hentry, Option.map_some,
    Option.some.injEq] at hid
  rw [← hid]

end

section
open Reference

namespace Sample

def group : GroupKeyHolder := ⟨ByteVec.fill 32 2⟩

/-- The keys of the group for a PDA of a program. -/
def groupKeys (H : WalletHost) (pdaSeed : PdaSeed) : PrivateKeyHolder := group.deriveKeysForPda H (programId 100) pdaSeed

def groupPda (H : WalletHost) (pdaSeed : PdaSeed) (identifier : Identifier) : AccountId :=
  forPrivatePda Sha256.hash (programId 100) pdaSeed ((groupKeys H pdaSeed).generateNullifierPublicKey H) identifier

/-- `create_shared_pda_account`. -/
def withPda (H : WalletHost) (kc : UserKeyChain) (pdaSeed : PdaSeed) (identifier : Identifier) : UserKeyChain :=
  kc.insertSharedPrivateAccount (groupPda H pdaSeed identifier)
    ⟨"group", identifier, .some pdaSeed, .some (programId 100), Account.default⟩

/-- A member of the group who follows two of its PDAs. -/
def memberWallet (H : WalletHost) (pdaSeed : PdaSeed) (identifier : Identifier) : UserKeyChain :=
  withPda H (withPda H ((UserKeyChain.newWithAccounts (.new H walletSeed)).insertGroupKeyHolder "group" group) seed 0)
    pdaSeed identifier

/-- Another member creates the first PDA, its note made for the group's keys. -/
def founding : PrivacyPreservingCircuitInput where
  programOutputs := (idle (programId 100) .none
    [⟨Account.default, false, groupPda (walletHost {}) seed 0⟩] []).toOption.toList
  accountIdentities := [.privatePdaInit (List.replicate 1088 1)
    (computeViewTag (walletHost {}) ((groupKeys (walletHost {}) seed).viewer (walletHost {})).npk
      ((groupKeys (walletHost {}) seed).viewer (walletHost {})).vpk)
    ((groupKeys (walletHost {}) seed).generateNullifierPublicKey (walletHost {}))
    (polynomial 3 (List.replicate 32 1 ++ ((groupKeys (walletHost {}) seed).viewer (walletHost {})).vpk)) 0
    (.some (seed, programId 100))]
  programId := programId 100

/-- The first PDA is the one updated, for a wallet of the group. -/
def foundsFirst (kc : UserKeyChain) (tx : PrivacyPreservingTransaction) (e : Emission) : Prop :=
  let H := parcelHost founding
  let keys := groupKeys H seed
  (groupPda H seed 0, keys) ∈ sharedKeys H kc ∧ e.id = groupPda H seed 0 ∧
  e.output.viewTag = computeViewTag H (keys.viewer H).npk (keys.viewer H).vpk ∧
  H.decapsulate e.output.epk (keys.viewer H).vsk = .some e.output.ssk ∧
  ∀ shared ∈ sharedKeys H kc,
    (openNote H tx.message (shared.2.viewer H) (e.note H.toHost 0) 0).isSome → shared.2 = keys

instance (kc : UserKeyChain) (tx : PrivacyPreservingTransaction) (e : Emission) : Decidable (foundsFirst kc tx e) := by
  delta foundsFirst
  infer_instance

theorem foundsFirst.updatesShared {kc : UserKeyChain} {tx : PrivacyPreservingTransaction} {e : Emission}
    (h : foundsFirst kc tx e) (hes : emissionsOf (parcelHost founding).toHost founding = [e]) :
    UpdatesShared (parcelHost founding) kc tx founding (groupPda (parcelHost founding) seed 0)
      (groupKeys (parcelHost founding) seed) e 0 where
  entry := h.1
  emission := by rw [hes]; rfl
  account := h.2.1
  viewTag := h.2.2.1
  secret := h.2.2.2.1
  only := h.2.2.2.2
  others := by
    intro shared _ p hp hne
    rw [hes] at hp
    cases List.mem_singleton.mp hp
    exact absurd rfl hne

theorem founding_run :
    ∃ tx e, circuit (parcelHost founding).toHost founding =
        .ok (expectedCircuitOutput (parcelHost founding).toHost tx committedLedger) ∧
      emissionsOf (parcelHost founding).toHost founding = [e] ∧ e.account ≠ Account.default ∧
      foundsFirst (memberWallet (parcelHost founding) seed 1) tx e ∧
      foundsFirst (memberWallet (parcelHost founding) (ByteVec.fill 32 8) 0) tx e ∧
      (∃ kc', syncPrivateAccountsWithTx (parcelHost founding) (memberWallet (parcelHost founding) seed 1)
          (.privacyPreserving tx) = .ok kc' ∧
        (kc'.sharedPrivateAccounts.lookup (groupPda (parcelHost founding) seed 1)).map (·.account) = .some e.account) ∧
      groupPda (parcelHost founding) seed 1 ≠ groupPda (parcelHost founding) seed 0 ∧
      groupKeys (parcelHost founding) (ByteVec.fill 32 8) ≠ groupKeys (parcelHost founding) seed := by
  have hrun : (proved (parcelHost founding).toHost founding).any (fun tx =>
        (emissionsOf (parcelHost founding).toHost founding).head?.any fun e =>
          decide (circuit (parcelHost founding).toHost founding =
              .ok (expectedCircuitOutput (parcelHost founding).toHost tx committedLedger) ∧
            (emissionsOf (parcelHost founding).toHost founding).length = 1 ∧ e.account ≠ Account.default ∧
            foundsFirst (memberWallet (parcelHost founding) seed 1) tx e ∧
            foundsFirst (memberWallet (parcelHost founding) (ByteVec.fill 32 8) 0) tx e) &&
          (syncPrivateAccountsWithTx (parcelHost founding) (memberWallet (parcelHost founding) seed 1)
            (.privacyPreserving tx)).toOption.any fun kc' =>
              decide ((kc'.sharedPrivateAccounts.lookup (groupPda (parcelHost founding) seed 1)).map (·.account) =
                .some e.account)) = true := by
    simp only [parcelHost, walletHost_packed, founding]
    decide +kernel
  have hother : groupPda (parcelHost founding) seed 1 ≠ groupPda (parcelHost founding) seed 0 ∧
      groupKeys (parcelHost founding) (ByteVec.fill 32 8) ≠ groupKeys (parcelHost founding) seed := by
    rw [parcelHost, walletHost_packed]
    decide +kernel
  obtain ⟨tx, -, h⟩ := (Option.any_eq_true _ _).mp hrun
  obtain ⟨e, he, h⟩ := (Option.any_eq_true _ _).mp h
  obtain ⟨h, hsync⟩ := Bool.and_eq_true_iff.mp h
  obtain ⟨kc', hkc', hcached⟩ := (Option.any_eq_true _ _).mp hsync
  obtain ⟨hcircuit, hone, hnew, hfirst, hsecond⟩ := of_decide_eq_true h
  have hes : emissionsOf (parcelHost founding).toHost founding = [e] := by
    obtain ⟨e', he'⟩ := List.length_eq_one_iff.mp hone
    rw [he', List.head?_cons, Option.some.injEq] at he
    rw [he', he]
  exact ⟨tx, e, hcircuit, hes, hnew, hfirst, hsecond,
    ⟨kc', toOption_eq_some.mp hkc', of_decide_eq_true hcached⟩, hother⟩

end Sample

open Wallet.Sample

end

end Lez.Wallet
