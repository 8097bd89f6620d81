/-
Membership proofs stay valid. The commitment set of every state a chain
reaches from genesis came about by the insertions of the chain in order
(`Chain.remembers`), so each of its commitments has a path to the current digest,
and the digests a proof may be made against are those the set has had.
-/
import Lez.Programs.MsigHost
import Lez.Trace.Chain

namespace Lez

/-- Every commitment inserted from genesis on, in order. -/
def insertions (initialPrivate : List (Commitment × Nullifier)) (txs : List LeeTransaction) : List Commitment :=
  dummyCommitment :: initialPrivate.map (·.1) ++ txs.flatMap LeeTransaction.newCommitments

section
variable {H : Host} {initialData : List (AccountId × U128)} {initialPrivate : List (Commitment × Nullifier)}
  {genesis : Timestamp} {s s' : V03State} {txs : List LeeTransaction}

theorem fromPublicTransaction_private {tx : PublicTransaction} {blockId : BlockId} {timestamp : Timestamp}
    {diff : StateDiff} (h : fromPublicTransaction H tx s blockId timestamp = .ok diff) :
    diff.newCommitments = [] ∧ diff.newNullifiers = [] := by
  simp only [fromPublicTransaction, bind_ok_iff, ensure_ok_iff, pure_ok_iff] at h
  obtain ⟨-, -, -, -, -, -, -, -, _, -, -, -, rfl⟩ := h
  exact ⟨rfl, rfl⟩

/-- The private half of a transition. -/
theorem transition_private {tx : LeeTransaction} {blockId : BlockId} {timestamp : Timestamp}
    (h : s.transition H tx blockId timestamp = .some s') :
    s.commitmentSet.extend H.sha256 tx.newCommitments = .some s'.commitmentSet ∧
      s'.nullifierSet = s.nullifierSet ∪ tx.newNullifiers.toFinset := by
  obtain ⟨diff, hok, happly⟩ := V03State.settle_eq_some.mp h
  have happlied := applyStateDiff_applied happly
  have hdiff : diff.newCommitments = tx.newCommitments ∧ diff.newNullifiers = tx.newNullifiers := by
    cases tx with
    | publicTx tx => exact fromPublicTransaction_private hok
    | privacyPreserving tx =>
      have hchecks := fromPrivacyPreservingTransaction_checks hok
      exact ⟨hchecks.commitments, hchecks.nullifiers⟩
    | programDeployment bytecode =>
      obtain ⟨p, rfl, -⟩ := fromProgramDeploymentTransaction_ok hok
      exact ⟨rfl, rfl⟩
  rw [← hdiff.1, ← hdiff.2]
  exact ⟨happlied.commitments, happlied.nullifiers⟩

/-- The set came about by these insertions, and its digest is one it remembers. -/
structure Remembers (H : Host) (inserted : List Commitment) (s : V03State) : Prop where
  inserts : s.commitmentSet.Over H.sha256 inserted
  digest : ∃ d, s.commitmentSet.digest = .some d ∧ d ∈ s.commitmentSet.rootHistory

theorem genesis_private (h : newWithGenesisAccounts H initialData initialPrivate genesis = .some s) :
    Remembers H (insertions initialPrivate []) s ∧ s.nullifierSet = (initialPrivate.map (·.2)).toFinset := by
  simp only [newWithGenesisAccounts, Option.bind_eq_bind, Option.bind_eq_some_iff] at h
  obtain ⟨empty, hempty, withDummy, hdummy, full, hfull, h⟩ := h
  cases h
  obtain ⟨hover, -⟩ := (CommitmentSet.withCapacity_over hempty).extend hdummy (by simp)
  obtain ⟨hover', hdigest⟩ := hover.extend hfull (by simp)
  have hinserted : insertions initialPrivate [] = [] ++ [dummyCommitment] ++ initialPrivate.map (·.1) := by
    simp [insertions]
  exact ⟨⟨hinserted ▸ hover', hdigest⟩, rfl⟩

theorem Chain.remembers (h : Chain H s txs s') {inserted : List Commitment} (hs : Remembers H inserted s) :
    Remembers H (inserted ++ txs.flatMap LeeTransaction.newCommitments) s' := by
  induction h generalizing inserted with
  | nil => simpa using hs
  | cons hstep _ ih =>
    obtain ⟨hextend, -⟩ := transition_private hstep
    have hne : inserted ≠ [] := by
      rintro rfl
      obtain ⟨d, -, hd⟩ := hs.digest
      obtain ⟨earlier, hearlier, hprefix, -⟩ := hs.inserts.roots d hd
      exact hearlier (List.prefix_nil.mp hprefix)
    obtain ⟨hover, hdigest⟩ := hs.inserts.extend hextend (by simp [hne])
    have := ih ⟨hover, hdigest⟩
    rwa [List.append_assoc, ← List.flatMap_cons] at this

/-- **Membership proofs stay valid.** After any accepted transactions from
genesis, every commitment in the set has a proof whose digest is the current
one, the current digest is in the history, and every digest of the history is
the one the set had after some of the insertions. -/
theorem membership_proofs_valid (hgenesis : newWithGenesisAccounts H initialData initialPrivate genesis = .some s)
    (hchain : Chain H s txs s') :
    (∀ c, s'.commitmentSet.contains c → ∃ proof, s'.commitmentSet.getProofFor c = .some proof ∧
      s'.commitmentSet.digest = .some (computeDigestForPath H.sha256 c proof)) ∧
    (∃ d, s'.commitmentSet.digest = .some d ∧ d ∈ s'.commitmentSet.rootHistory) ∧
    ∀ r ∈ s'.commitmentSet.rootHistory, ∃ earlier, earlier ≠ [] ∧ earlier <+: insertions initialPrivate txs ∧
      CommitmentSet.digestOver H.sha256 earlier = .some r := by
  obtain ⟨hover, hdigest⟩ := hchain.remembers (genesis_private hgenesis).1
  refine ⟨fun c hc => hover.getProofFor hc, hdigest, ?_⟩
  simpa [insertions] using hover.roots

end

section
open Reference Circuit

namespace Sample

def holderNsk : NullifierSecretKey := ByteVec.fill 32 3

/-- The owner of a private account of genesis. -/
def holder : AccountId := forRegularPrivateAccount Sha256.hash (nullifierPublicKey Sha256.hash holderNsk) 0

def genesisPrivate : List (Commitment × Nullifier) :=
  [(commitmentNew Sha256.hash holder (funded 9), nullifierForAccountInitialization Sha256.hash holder)]

def doneeNpk : NullifierPublicKey := ByteVec.fill 32 9

def donee : AccountId := forRegularPrivateAccount Sha256.hash doneeNpk 0

/-- Five from the holder to a new private account. The tree of genesis has the dummy commitment beside the
holder's. -/
def gift : PrivacyPreservingCircuitInput where
  programOutputs := (AuthenticatedTransfer.main Serde.transferCodec transferId .none
    [⟨funded 9, true, holder⟩, ⟨Account.default, false, donee⟩] (Serde.writeTransfer (.transfer 5))).toOption.toList
  accountIdentities :=
    [.privateAuthorizedUpdate [] 0 (ByteVec.fill 32 1) holderNsk (1, [dummyCommitmentHash]) 0,
      .privateUnauthorized [] 0 doneeNpk (ByteVec.fill 32 1) 0]
  programId := transferId

def giftHost : MsigHost := host { proven := [([], gift)] }

/-- The gift is accepted from genesis. -/
theorem gift_run :
    ∃ tx s₀ s, newWithGenesisAccounts giftHost.toHost [] genesisPrivate 0 = .some s₀ ∧
      s₀.transition giftHost.toHost (.privacyPreserving tx) 0 0 = .some s ∧
      circuit giftHost.toHost gift = .ok (expectedCircuitOutput giftHost.toHost tx s₀) ∧
      tx.message.newCommitments.length = 2 ∧ ∀ c ∈ tx.message.newCommitments, s.commitmentSet.contains c := by
  have hrun : (proved giftHost.toHost gift).any (fun tx =>
      (newWithGenesisAccounts giftHost.toHost [] genesisPrivate 0).any fun s₀ =>
        (s₀.transition giftHost.toHost (.privacyPreserving tx) 0 0).any fun s =>
          decide (circuit giftHost.toHost gift = .ok (expectedCircuitOutput giftHost.toHost tx s₀) ∧
            tx.message.newCommitments.length = 2 ∧
            ∀ c ∈ tx.message.newCommitments, s.commitmentSet.contains c)) = true := by
    simp only [giftHost, host_packed, gift, genesisPrivate, holder, donee, Sha256.hash_eq_packed]
    decide +kernel
  obtain ⟨tx, -, h⟩ := (Option.any_eq_true _ _).mp hrun
  obtain ⟨s₀, hs₀, h⟩ := (Option.any_eq_true _ _).mp h
  obtain ⟨s, hs, h⟩ := (Option.any_eq_true _ _).mp h
  exact ⟨tx, s₀, s, hs₀, hs, of_decide_eq_true h⟩

end Sample

open Sample

theorem gift_keeps_proofs :
    ∃ tx s₀ s, newWithGenesisAccounts giftHost.toHost [] genesisPrivate 0 = .some s₀ ∧
      Chain giftHost.toHost s₀ [.privacyPreserving tx] s ∧ tx.message.newCommitments.length = 2 ∧
      ∀ c ∈ tx.message.newCommitments, ∃ proof, s.commitmentSet.getProofFor c = .some proof ∧
        s.commitmentSet.digest = .some (computeDigestForPath Sha256.hash c proof) := by
  obtain ⟨tx, s₀, s, hs₀, hs, -, htwo, hcontains⟩ := gift_run
  have hchain : Chain giftHost.toHost s₀ [.privacyPreserving tx] s := .cons hs (.nil s)
  refine ⟨tx, s₀, s, hs₀, hchain, htwo, ?_⟩
  intro c hc
  exact (membership_proofs_valid hs₀ hchain).1 c (hcontains c hc)

end

end Lez
