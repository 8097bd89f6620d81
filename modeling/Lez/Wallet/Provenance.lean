/-
What a wallet writes while it follows the ledger, and whether the ledger has
it. The circuit encrypts a note under a secret of the sender's choice and
commits to the account under its own id; the wallet rebuilds the id from the
key that opened the note and never compares it with the commitment. So a
written state is a committed one when the notes that open were made for the
key they open under (`Addressed`), and need not be otherwise: a note of the
sender's own account under the secret of another's key lands in the other's
account.
-/
import Lez.Wallet.Reachable

namespace Lez.Wallet

open Circuit

section
variable (H : WalletHost)

/-- The states that reading a message stores, by account id: the insertions of the first loop and the updates of
the second. -/
def writes (kc : UserKeyChain) (message : PrivacyPreservingTransaction.Message) : List (AccountId × Account) :=
  ((insertions H message kc).map fun a => (a.accountId, a.account)) ++
    match (insertions H message kc).foldlM (storeAffected H) kc with
    | .ok kc₁ => updates H message kc₁
    | .error _ => []

/-- Every note that opens under a key of the wallet was encrypted under the secret that the key decapsulates, for
an account of that key, or for the shared account itself. -/
def Addressed (kc : UserKeyChain) (tx : PrivacyPreservingTransaction) (i : PrivacyPreservingCircuitInput) : Prop :=
  ∀ p ∈ (emissionsOf H.toHost i).zipIdx,
    (∀ keyChain ∈ kc.privateAccountKeyChains,
      (openNote H tx.message keyChain.viewer (p.1.note H.toHost p.2) p.2).isSome →
      H.decapsulate p.1.output.epk keyChain.viewer.vsk = .some p.1.output.ssk ∧
        p.1.identity.npk H.sha256 = .some keyChain.nullifierPublicKey) ∧
    ∀ shared ∈ sharedKeys H kc,
      (openNote H tx.message (shared.2.viewer H) (p.1.note H.toHost p.2) p.2).isSome →
      H.decapsulate p.1.output.epk (shared.2.viewer H).vsk = .some p.1.output.ssk ∧ p.1.id = shared.1

instance (kc : UserKeyChain) (tx : PrivacyPreservingTransaction) (i : PrivacyPreservingCircuitInput) :
    Decidable (Addressed H kc tx i) := by
  delta Addressed
  infer_instance

/-- A ledger and a wallet that reads every transaction it accepts. -/
inductive Follows : V03State → UserKeyChain → List LeeTransaction → V03State → UserKeyChain → Prop
  | nil (s : V03State) (kc : UserKeyChain) : Follows s kc [] s kc
  | cons {s s' s'' : V03State} {kc kc' kc'' : UserKeyChain} {tx : LeeTransaction} {txs : List LeeTransaction}
      {blockId : BlockId} {timestamp : Timestamp} :
      s.transition H.toHost tx blockId timestamp = .some s' → syncPrivateAccountsWithTx H kc tx = .ok kc' →
      Follows s' kc' txs s'' kc'' → Follows s kc (tx :: txs) s'' kc''

/-- The same run with the circuit inputs behind it, which all meet `P`, and with all that was written. -/
inductive Followed (P : UserKeyChain → PrivacyPreservingTransaction → PrivacyPreservingCircuitInput → Prop) :
    V03State → UserKeyChain → List LeeTransaction → List (AccountId × Account) → V03State → UserKeyChain → Prop
  | nil (s : V03State) (kc : UserKeyChain) : Followed P s kc [] [] s kc
  | plain {s s' s'' : V03State} {kc kc'' : UserKeyChain} {tx : LeeTransaction} {txs : List LeeTransaction}
      {ws : List (AccountId × Account)} {blockId : BlockId} {timestamp : Timestamp} :
      s.transition H.toHost tx blockId timestamp = .some s' → (∀ p, tx ≠ .privacyPreserving p) →
      Followed P s' kc txs ws s'' kc'' → Followed P s kc (tx :: txs) ws s'' kc''
  | hidden {s s' s'' : V03State} {kc kc' kc'' : UserKeyChain} {tx : PrivacyPreservingTransaction}
      {i : PrivacyPreservingCircuitInput} {txs : List LeeTransaction} {ws : List (AccountId × Account)}
      {blockId : BlockId} {timestamp : Timestamp} :
      s.transition H.toHost (.privacyPreserving tx) blockId timestamp = .some s' →
      circuit H.toHost i = .ok (expectedCircuitOutput H.toHost tx s) → P kc tx i →
      syncPrivateAccountsWithTx H kc (.privacyPreserving tx) = .ok kc' → Followed P s' kc' txs ws s'' kc'' →
      Followed P s kc (.privacyPreserving tx :: txs) (writes H kc tx.message ++ ws) s'' kc''

end

section
variable {H : WalletHost} {message : PrivacyPreservingTransaction.Message} {es : List Emission} {v : Viewer}

/-- What opens is the note of an emission. -/
theorem opened_emission (hnotes : message.encryptedPrivatePostStates = es.mapIdx fun k e => e.note H.toHost k)
    {o : PrivateAccountKind × Account} (ho : o ∈ opened H message v) :
    ∃ k e, es[k]? = .some e ∧ openNote H message v (e.note H.toHost k) k = .some o := by
  obtain ⟨⟨data, k⟩, hmem, hopen⟩ := List.mem_filterMap.mp ho
  have hget := List.mem_zipIdx_iff_getElem?.mp hmem
  dsimp only at hget
  rw [hnotes, List.getElem?_mapIdx] at hget
  obtain ⟨e, he, rfl⟩ := Option.map_eq_some_iff.mp hget
  exact ⟨k, e, he, hopen⟩

/-- Under the secret it was encrypted with, a note opens to its account. -/
theorem openNote_eq (hcipher : ∀ key m, H.chacha20 key (H.chacha20 key m) = m) {e : Emission} {k : Nat}
    (hcommitment : message.newCommitments[k]? = .some (e.commitment H.toHost))
    (hsecret : H.decapsulate e.output.epk v.vsk = .some e.output.ssk) {o : PrivateAccountKind × Account}
    (ho : openNote H message v (e.note H.toHost k) k = .some o) : o = (e.output.kind, e.account) := by
  unfold openNote at ho
  split at ho
  · dsimp only [Emission.note] at ho
    rw [hsecret, Option.bind_eq_bind, Option.bind_some, hcommitment, Option.bind_some, decrypt_encrypt hcipher] at ho
    exact (Option.some.inj ho).symm
  · cases ho

/-- **One transaction.** What is written was committed to in it. -/
theorem writes_committed (hcipher : ∀ key m, H.chacha20 key (H.chacha20 key m) = m) {s : V03State}
    {tx : PrivacyPreservingTransaction} {i : PrivacyPreservingCircuitInput} {kc : UserKeyChain}
    (hcircuit : circuit H.toHost i = .ok (expectedCircuitOutput H.toHost tx s)) (haddressed : Addressed H kc tx i)
    {w : AccountId × Account} (hw : w ∈ writes H kc tx.message) :
    commitmentNew H.sha256 w.1 w.2 ∈ tx.message.newCommitments := by
  obtain ⟨st, hparts, hes⟩ := circuit_emissions hcircuit
  have hnotes : tx.message.encryptedPrivatePostStates = (emissionsOf H.toHost i).mapIdx fun k e => e.note H.toHost k :=
    hes.notes
  have hcommitments : tx.message.newCommitments = (emissionsOf H.toHost i).map (Emission.commitment H.toHost) :=
    hes.commitments
  have hat : ∀ {k : Nat} {e : Emission}, (emissionsOf H.toHost i)[k]? = .some e →
      tx.message.newCommitments[k]? = .some (e.commitment H.toHost) ∧ (e, k) ∈ (emissionsOf H.toHost i).zipIdx ∧
        e ∈ emissionsOf H.toHost i := by
    intro k e he
    refine ⟨?_, List.mem_zipIdx_iff_getElem?.mpr he, List.mem_of_getElem? he⟩
    rw [hcommitments, List.getElem?_map, he, Option.map_some]
  rcases List.mem_append.mp hw with hinsertion | hupdate
  · obtain ⟨a, ha, rfl⟩ := List.mem_map.mp hinsertion
    obtain ⟨keyChain, hkeyChain, o, ho, rfl⟩ := mem_insertions.mp ha
    obtain ⟨k, e, he, hopen⟩ := opened_emission hnotes ho
    obtain ⟨hcommitment, hzip, hmem⟩ := hat he
    obtain ⟨hsecret, hnpk⟩ := (haddressed _ hzip).1 keyChain hkeyChain (by rw [hopen]; rfl)
    obtain rfl := openNote_eq hcipher hcommitment hsecret hopen
    -- the id rebuilt from the key is the id committed to
    obtain ⟨npk, hnpk', hid⟩ := (hes.sound hparts hmem).derived
    rw [hnpk, Option.some.injEq] at hnpk'
    subst hnpk'
    dsimp only
    rw [← hid]
    exact List.mem_of_getElem? hcommitment
  · split at hupdate
    next kc₁ hstore =>
      obtain ⟨⟨id, keys⟩, hshared, hopened⟩ := List.mem_flatMap.mp hupdate
      obtain ⟨o, ho, rfl⟩ := List.mem_map.mp hopened
      obtain ⟨k, e, he, hopen⟩ := opened_emission hnotes ho
      obtain ⟨hcommitment, hzip, -⟩ := hat he
      have hkeys := (storeAll_sameKeys hstore).mem_sharedKeys hshared
      obtain ⟨hsecret, hid⟩ := (haddressed _ hzip).2 _ hkeys (by rw [hopen]; rfl)
      obtain rfl := openNote_eq hcipher hcommitment hsecret hopen
      dsimp only at hid ⊢
      rw [← hid]
      exact List.mem_of_getElem? hcommitment
    next => cases hupdate

/-- Sound proofs have inputs behind them. -/
theorem Follows.followed (hsound : ProofsSound H.toHost) {s s' : V03State} {kc kc' : UserKeyChain}
    {txs : List LeeTransaction} (h : Follows H s kc txs s' kc') :
    ∃ ws, Followed H (fun _ _ _ => True) s kc txs ws s' kc' := by
  induction h with
  | nil s kc => exact ⟨[], .nil s kc⟩
  | @cons s s₁ s₂ kc kc₁ kc₂ tx txs blockId timestamp hstep hsync _ ih =>
    obtain ⟨ws, ih⟩ := ih
    cases tx with
    | publicTx tx =>
      cases hsync
      exact ⟨ws, .plain hstep (fun _ h => by cases h) ih⟩
    | programDeployment bytecode =>
      cases hsync
      exact ⟨ws, .plain hstep (fun _ h => by cases h) ih⟩
    | privacyPreserving tx =>
      obtain ⟨diff, hok, -⟩ := V03State.settle_eq_some.mp hstep
      obtain ⟨i, hi⟩ := hsound _ _ (fromPrivacyPreservingTransaction_ok hok).2
      exact ⟨_, .hidden hstep hi trivial hsync ih⟩

theorem Followed.chain {P : UserKeyChain → PrivacyPreservingTransaction → PrivacyPreservingCircuitInput → Prop}
    {s s' : V03State} {kc kc' : UserKeyChain} {txs : List LeeTransaction} {ws : List (AccountId × Account)}
    (h : Followed H P s kc txs ws s' kc') : Chain H.toHost s txs s' := by
  induction h with
  | nil s kc => exact .nil s
  | plain hstep _ _ ih => exact .cons hstep ih
  | hidden hstep _ _ _ _ ih => exact .cons hstep ih

/-- **What a wallet writes the ledger has, when its notes are addressed to
it.** Every run of a wallet beside the ledger has circuit inputs behind it;
in one whose notes each open only under keys they were made for, every state
written, for an own, an imported or a shared account, is committed to under
the id it is written for. -/
theorem written_states_committed (hsound : ProofsSound H.toHost)
    (hcipher : ∀ key m, H.chacha20 key (H.chacha20 key m) = m) {s s' : V03State} {kc kc' : UserKeyChain}
    {txs : List LeeTransaction} (hrun : Follows H s kc txs s' kc') :
    (∃ ws, Followed H (fun _ _ _ => True) s kc txs ws s' kc') ∧
    ∀ ws, Followed H (Addressed H) s kc txs ws s' kc' →
      ∀ w ∈ ws, s'.commitmentSet.contains (commitmentNew H.sha256 w.1 w.2) := by
  refine ⟨hrun.followed hsound, ?_⟩
  intro ws hfollowed
  clear hrun
  induction hfollowed with
  | nil => exact fun w hw => absurd hw List.not_mem_nil
  | plain _ _ _ ih => exact ih
  | @hidden s s₁ s₂ kc kc₁ kc₂ tx i txs ws blockId timestamp hstep hcircuit haddressed hsync hrest ih =>
    intro w hw
    rcases List.mem_append.mp hw with hhere | hlater
    · have hnew := writes_committed hcipher hcircuit haddressed hhere
      have hadded : s₁.commitmentSet.contains (commitmentNew H.sha256 w.1 w.2) :=
        (CommitmentSet.extend_contains (transition_private hstep).1).mpr (.inr hnew)
      exact hrest.chain.grows.commitments _ hadded
    · exact ih w hlater

end

section
open Reference

open Wallet.Sample

theorem own_note_committed :
    ∃ tx s kc', ∃ ws : List (AccountId × Account),
      Follows (parcelHost sixth) committedLedger (otherWallet (parcelHost sixth) 5) [.privacyPreserving tx] s kc' ∧
      ws.map (·.1) = [forPrivateAccount Sha256.hash otherKeys.nullifierPublicKey (.regular 5)] ∧
      ∀ w ∈ ws, s.commitmentSet.contains (commitmentNew Sha256.hash w.1 w.2) := by
  have hread : (proved (parcelHost sixth).toHost sixth).any (fun tx =>
      (syncPrivateAccountsWithTx (parcelHost sixth) (otherWallet (parcelHost sixth) 5)
          (.privacyPreserving tx)).toOption.any fun _ =>
        decide (Addressed (parcelHost sixth) (otherWallet (parcelHost sixth) 5) tx sixth ∧
          (writes (parcelHost sixth) (otherWallet (parcelHost sixth) 5) tx.message).map (·.1) =
            [forPrivateAccount Sha256.hash otherKeys.nullifierPublicKey (.regular 5)])) = true := by
    simp only [parcelHost, walletHost_packed, sixth, parcel, otherKeys, Sha256.hash_eq_packed]
    decide +kernel
  obtain ⟨tx, s, htx, hs, hcircuit, -⟩ := sixth_run
  obtain ⟨tx', htx', h⟩ := (Option.any_eq_true _ _).mp hread
  cases htx.symm.trans htx'
  obtain ⟨kc', hkc', h⟩ := (Option.any_eq_true _ _).mp h
  obtain ⟨haddressed, hids⟩ := of_decide_eq_true h
  have hsync := toOption_eq_some.mp hkc'
  have hrun : Follows (parcelHost sixth) committedLedger (otherWallet (parcelHost sixth) 5) [.privacyPreserving tx] s kc' :=
    .cons hs hsync (.nil s kc')
  refine ⟨tx, s, kc', _, hrun, hids, ?_⟩
  refine (written_states_committed (parcelHost_proofsSound sixth) ?_ hrun).2 _ ?_
  · exact fun key m => ChaCha20.applyKeystream_involutive _ _ m
  · have hfollowed := Followed.hidden hs hcircuit haddressed hsync (.nil s kc')
    rwa [List.append_nil] at hfollowed

namespace Sample

/-- A stranger's own new account, its note addressed to another's key. -/
def decoy : PrivacyPreservingCircuitInput := parcel (ByteVec.fill 32 9) 0 otherKeys.viewer

end Sample

theorem stranger_overwrites_account :
    ∃ tx s kc' ws a,
      Follows (parcelHost decoy) committedLedger (otherWallet (parcelHost decoy) 0) [.privacyPreserving tx] s kc' ∧
      Followed (parcelHost decoy) (fun _ _ _ => True) committedLedger (otherWallet (parcelHost decoy) 0)
        [.privacyPreserving tx] ws s kc' ∧
      ((kc'.importedPrivateAccounts.lookup ⟨otherKeys, .none⟩).bind fun accounts => accounts.lookup (.regular 0)) = .some a ∧
      a ≠ Account.default ∧ (forPrivateAccount Sha256.hash otherKeys.nullifierPublicKey (.regular 0), a) ∈ ws ∧
      s.commitmentSet.contains
        (commitmentNew Sha256.hash (forPrivateAccount Sha256.hash otherKeys.nullifierPublicKey (.regular 0)) a) = false := by
  have hrun : (proved (parcelHost decoy).toHost decoy).any (fun tx =>
      (committedLedger.transition (parcelHost decoy).toHost (.privacyPreserving tx) 0 0).any fun s =>
        (syncPrivateAccountsWithTx (parcelHost decoy) (otherWallet (parcelHost decoy) 0)
            (.privacyPreserving tx)).toOption.any fun kc' =>
          ((kc'.importedPrivateAccounts.lookup ⟨otherKeys, .none⟩).bind fun accounts => accounts.lookup (.regular 0)).any
            fun a => decide (circuit (parcelHost decoy).toHost decoy =
                .ok (expectedCircuitOutput (parcelHost decoy).toHost tx committedLedger) ∧ a ≠ Account.default ∧
              (forPrivateAccount Sha256.hash otherKeys.nullifierPublicKey (.regular 0), a) ∈
                writes (parcelHost decoy) (otherWallet (parcelHost decoy) 0) tx.message ∧
              s.commitmentSet.contains (commitmentNew Sha256.hash
                (forPrivateAccount Sha256.hash otherKeys.nullifierPublicKey (.regular 0)) a) = false)) = true := by
    simp only [parcelHost, walletHost_packed, decoy, parcel, otherKeys, Sha256.hash_eq_packed]
    decide +kernel
  obtain ⟨tx, -, h⟩ := (Option.any_eq_true _ _).mp hrun
  obtain ⟨s, hs, h⟩ := (Option.any_eq_true _ _).mp h
  obtain ⟨kc', hkc', h⟩ := (Option.any_eq_true _ _).mp h
  obtain ⟨a, ha, h⟩ := (Option.any_eq_true _ _).mp h
  obtain ⟨hcircuit, hnew, hwrite, habsent⟩ := of_decide_eq_true h
  have hsync := toOption_eq_some.mp hkc'
  exact ⟨tx, s, kc', _, a, .cons hs hsync (.nil s kc'), .hidden hs hcircuit trivial hsync (.nil s kc'), ha, hnew,
    List.mem_append_left _ hwrite, habsent⟩

end

end Lez.Wallet
