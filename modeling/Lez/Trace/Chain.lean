/-
Transactions of the three kinds as the sequencer orders them (`LeeTransaction`),
and chains of accepted ones. What a transition does outside the public
accounts is said here once: the commitment set is extended, nullifiers are
added, and the nonce of an account moves by the number of its signatures.
-/
import Lez.State.CommitmentFacts
import Lez.Trace.Private

namespace Lez

open Circuit

inductive LeeTransaction
  | publicTx (tx : PublicTransaction)
  | privacyPreserving (tx : PrivacyPreservingTransaction)
  | programDeployment (bytecode : Bytes)
deriving DecidableEq

namespace LeeTransaction

/-- The accounts whose signatures it carries. -/
def signers (H : Host) : LeeTransaction → List AccountId
  | publicTx tx => signerAccountIds H tx.signaturesAndPublicKeys
  | privacyPreserving tx => signerAccountIds H tx.signaturesAndPublicKeys
  | programDeployment _ => []

/-- The commitments a transaction adds. -/
def newCommitments : LeeTransaction → List Commitment
  | privacyPreserving tx => tx.message.newCommitments
  | _ => []

/-- The nullifiers a transaction publishes. -/
def newNullifiers : LeeTransaction → List Nullifier
  | privacyPreserving tx => tx.message.newNullifiers.map (·.1)
  | _ => []

/-- `validate_on_state`, before the restrictions of the sequencer. -/
def validate (H : Host) (s : V03State) (blockId : BlockId) (timestamp : Timestamp) :
    LeeTransaction → Except LeeError StateDiff
  | publicTx tx => fromPublicTransaction H tx s blockId timestamp
  | privacyPreserving tx => fromPrivacyPreservingTransaction H tx s blockId timestamp
  | programDeployment bytecode => fromProgramDeploymentTransaction H bytecode s

end LeeTransaction

def V03State.transition (H : Host) (s : V03State) (tx : LeeTransaction) (blockId : BlockId) (timestamp : Timestamp) :
    Option V03State :=
  s.settle H (tx.validate H s blockId timestamp)

/-- Accepted transactions one after the other, at any blocks and times. -/
inductive Chain (H : Host) : V03State → List LeeTransaction → V03State → Prop
  | nil (s : V03State) : Chain H s [] s
  | cons {s s' s'' : V03State} {tx : LeeTransaction} {txs : List LeeTransaction} {blockId : BlockId}
      {timestamp : Timestamp} :
      s.transition H tx blockId timestamp = .some s' → Chain H s' txs s'' → Chain H s (tx :: txs) s''

/-- A valid proof has a circuit input behind it. -/
def ProofsSound (H : Host) : Prop :=
  ∀ proof out, H.proofValid proof out = true → ∃ i, circuit H i = .ok out

section
variable {H : Host} {s s' s'' : V03State} {txs later : List LeeTransaction} {tx : LeeTransaction}

/-- The states on either side of a transaction of a chain. -/
theorem Chain.split : ∀ {before : List LeeTransaction} {s : V03State}, Chain H s (before ++ tx :: later) s'' →
    ∃ u v blockId timestamp, Chain H s before u ∧ u.transition H tx blockId timestamp = .some v ∧ Chain H v later s''
  | [], s, h => by
    cases h with
    | cons hstep hrest => exact ⟨s, _, _, _, .nil s, hstep, hrest⟩
  | b :: before, s, h => by
    cases h with
    | cons hstep hrest =>
      obtain ⟨u, v, blockId, timestamp, hbefore, htx, hlater⟩ := Chain.split hrest
      exact ⟨u, v, blockId, timestamp, .cons hstep hbefore, htx, hlater⟩

/-- What every transition keeps a chain keeps. -/
theorem Chain.invariant {P : V03State → Prop} (h : Chain H s txs s')
    (hstep : ∀ s tx blockId timestamp s', P s → s.transition H tx blockId timestamp = .some s' → P s') (hs : P s) :
    P s' := by
  induction h with
  | nil => exact hs
  | cons htx _ ih => exact ih (hstep _ _ _ _ _ hs htx)

end

/-! ## Nonces -/

section
variable {H : Host} {s s' : V03State} {diff : StateDiff}

theorem incrementNonce_nonce {t t' : Table AccountId Account} {signer : AccountId}
    (h : incrementNonce t signer = .some t') (id : AccountId) :
    (t'.getD id Account.default).nonce.toNat =
      (t.getD id Account.default).nonce.toNat + if signer = id then 1 else 0 := by
  unfold incrementNonce at h
  dsimp only at h
  split at h
  next hfits =>
    cases h
    by_cases hid : signer = id
    · subst hid
      have hone : (1 : U128).toNat = 1 := rfl
      rw [Table.getD, AList.lookup_insert, Option.getD_some, if_pos rfl, BitVec.toNat_add, hone, Nat.mod_eq_of_lt hfits]
    · rw [Table.getD, AList.lookup_insert_ne (Ne.symm hid), if_neg hid]
      rfl
  next => cases h

theorem incrementNonces_nonce : ∀ {signers : List AccountId} {t t' : Table AccountId Account},
    signers.foldlM incrementNonce t = .some t' → ∀ id,
      (t'.getD id Account.default).nonce.toNat = (t.getD id Account.default).nonce.toNat + signers.count id
  | [], t, t', h, id => by
    cases h
    simp
  | signer :: signers, t, t', h, id => by
    rw [List.foldlM_cons, Option.bind_eq_bind, Option.bind_eq_some_iff] at h
    obtain ⟨u, hu, h⟩ := h
    rw [incrementNonces_nonce h id, incrementNonce_nonce hu id, List.count_cons]
    simp only [beq_iff_eq]
    omega

/-- What applying a diff does to an account's nonce and to the private half. -/
structure Applied (H : Host) (s : V03State) (diff : StateDiff) (s' : V03State) : Prop where
  nonce : ∀ id, (s'.getAccountById id).nonce.toNat =
    (viewOf s diff.publicDiff id).nonce.toNat + diff.signerAccountIds.count id
  commitments : s.commitmentSet.extend H.sha256 diff.newCommitments = .some s'.commitmentSet
  nullifiers : s'.nullifierSet = s.nullifierSet ∪ diff.newNullifiers.toFinset
  programs : ∀ id, (s.programs.lookup id).isSome → (s'.programs.lookup id).isSome
  deployed : ∀ p, diff.program = .some p → (s'.programs.lookup p.id).isSome

theorem applyStateDiff_applied (h : s.applyStateDiff H diff = .some s') : Applied H s diff s' := by
  simp only [V03State.applyStateDiff, Option.bind_eq_bind, Option.bind_eq_some_iff] at h
  obtain ⟨t, ht, c, hc, hs'⟩ := h
  cases hs'
  have hnonce : ∀ id, (t.getD id Account.default).nonce.toNat =
      (viewOf s diff.publicDiff id).nonce.toNat + diff.signerAccountIds.count id := by
    intro id
    rw [incrementNonces_nonce ht id, Table.getD_writeAll_toPairs]
    rfl
  cases hprogram : diff.program with
  | none => exact ⟨hnonce, hc, rfl, fun _ hid => hid, by simp [hprogram]⟩
  | some p =>
    refine ⟨hnonce, hc, rfl, ?_, ?_⟩
    · intro id hid
      by_cases hp : id = p.id
      · subst hp
        simp [V03State.insertProgram]
      · simpa [V03State.insertProgram, AList.lookup_insert_ne hp] using hid
    · intro q hq
      rw [hprogram, Option.some.injEq] at hq
      subst hq
      simp [V03State.insertProgram]

/-- Calls leave every nonce, so the diff of an accepted transaction has the nonces of the ledger. -/
theorem Effects.nonce {isPublic : AccountId → Prop} {es : List Executed} {σ σ' : View}
    (h : Effects isPublic es σ σ') (id : AccountId) : (σ' id).nonce = (σ id).nonce := by
  induction h with
  | nil => rfl
  | cons heff _ ih => rw [ih, heff.nonce id]

theorem fromProgramDeploymentTransaction_ok {bytecode : Bytes}
    (h : fromProgramDeploymentTransaction H bytecode s = .ok diff) :
    ∃ p, diff = ⟨[], ∅, [], [], .some p⟩ ∧ s.programs.lookup p.id = .none := by
  simp only [fromProgramDeploymentTransaction, bind_ok_iff, ensure_ok_iff, pure_ok_iff] at h
  obtain ⟨p, -, _, hnew, rfl⟩ := h
  exact ⟨p, rfl, Option.isNone_iff_eq_none.mp hnew⟩

/-- The nonces that move are those of the signers. -/
theorem LeeTransaction.validate_signers {tx : LeeTransaction} {blockId : BlockId} {timestamp : Timestamp}
    (h : tx.validate H s blockId timestamp = .ok diff) : diff.signerAccountIds = tx.signers H := by
  cases tx with
  | publicTx tx => exact (fromPublicTransaction_ok h).signers
  | privacyPreserving tx => exact (fromPrivacyPreservingTransaction_ok h).1.signers
  | programDeployment bytecode =>
    obtain ⟨p, rfl, -⟩ := fromProgramDeploymentTransaction_ok h
    rfl

theorem publicTx_nonce {tx : PublicTransaction} {blockId : BlockId} {timestamp : Timestamp}
    (h : s.transition H (.publicTx tx) blockId timestamp = .some s') (id : AccountId) :
    (s'.getAccountById id).nonce.toNat =
      (s.getAccountById id).nonce.toNat + (signerAccountIds H tx.signaturesAndPublicKeys).count id := by
  obtain ⟨diff, hok, happly⟩ := V03State.settle_eq_some.mp h
  have hacc := fromPublicTransaction_ok hok
  rw [(applyStateDiff_applied happly).nonce id, hacc.exec.effects.nonce id, hacc.signers, viewOf_empty]

/-- **Only signatures move nonces.** -/
theorem transition_nonce (hsound : ProofsSound H) {tx : LeeTransaction} {blockId : BlockId} {timestamp : Timestamp}
    (h : s.transition H tx blockId timestamp = .some s') (id : AccountId) :
    (s'.getAccountById id).nonce.toNat = (s.getAccountById id).nonce.toNat + (tx.signers H).count id := by
  cases tx with
  | publicTx tx => exact publicTx_nonce h id
  | privacyPreserving tx =>
    obtain ⟨diff, hok, happly⟩ := V03State.settle_eq_some.mp h
    obtain ⟨hacc, hproof⟩ := fromPrivacyPreservingTransaction_ok hok
    obtain ⟨i, hi⟩ := hsound _ _ hproof
    rw [(applyStateDiff_applied happly).nonce id, (privacy_effects hacc hi).nonce id, hacc.signers, viewOf_empty]
    rfl
  | programDeployment bytecode =>
    obtain ⟨diff, hok, happly⟩ := V03State.settle_eq_some.mp h
    obtain ⟨p, rfl, -⟩ := fromProgramDeploymentTransaction_ok hok
    exact (applyStateDiff_applied happly).nonce id

theorem Chain.nonce_le (hsound : ProofsSound H) {txs : List LeeTransaction} (h : Chain H s txs s') (id : AccountId) :
    (s.getAccountById id).nonce.toNat ≤ (s'.getAccountById id).nonce.toNat := by
  refine h.invariant (P := fun u => (s.getAccountById id).nonce.toNat ≤ (u.getAccountById id).nonce.toNat) ?_ le_rfl
  intro u tx blockId timestamp v hu hstep
  rw [transition_nonce hsound hstep id]
  omega

/-! ## The private half -/

/-- What acceptance says of the private half of a transaction. -/
structure PrivacyChecks (tx : PrivacyPreservingTransaction) (s : V03State) (diff : StateDiff) : Prop where
  nonempty : tx.message.newCommitments ≠ [] ∨ tx.message.newNullifiers ≠ []
  nullifiers_nodup : (tx.message.newNullifiers.map (·.1)).Nodup
  commitments_nodup : tx.message.newCommitments.Nodup
  fresh : ∀ c ∈ tx.message.newCommitments, ¬s.commitmentSet.contains c
  unseen : ∀ nd ∈ tx.message.newNullifiers, nd.1 ∉ s.nullifierSet
  recognized : ∀ nd ∈ tx.message.newNullifiers, nd.2 ∈ s.commitmentSet.rootHistory
  commitments : diff.newCommitments = tx.message.newCommitments
  nullifiers : diff.newNullifiers = tx.message.newNullifiers.map (·.1)

theorem fromPrivacyPreservingTransaction_checks {tx : PrivacyPreservingTransaction} {blockId : BlockId}
    {timestamp : Timestamp} (h : fromPrivacyPreservingTransaction H tx s blockId timestamp = .ok diff) :
    PrivacyChecks tx s diff := by
  simp only [fromPrivacyPreservingTransaction, bind_ok_iff, ensure_ok_iff, pure_ok_iff] at h
  obtain ⟨-, hne, -, -, -, hnull, -, hcomm, -, -, -, -, -, -, -, -, -, -, _, hfresh, _, hvalid, rfl⟩ := h
  have hnull' : (tx.message.newNullifiers.map (·.1)).toFinset.card = (tx.message.newNullifiers.map (·.1)).length := by
    rw [hnull, List.length_map]
  have hvalid' := forM_ok_iff.mp hvalid
  simp only [bind_ok_iff, ensure_ok_iff] at hvalid'
  refine ⟨hne, Multiset.coe_nodup.mp (Multiset.toFinset_card_eq_card_iff_nodup.mp hnull'),
    Multiset.coe_nodup.mp (Multiset.toFinset_card_eq_card_iff_nodup.mp hcomm), ?_, ?_, ?_, rfl, rfl⟩
  · intro c hc
    exact ensure_ok_iff.mp (forM_ok_iff.mp hfresh c hc)
  · intro nd hnd
    exact (hvalid' nd hnd).choose_spec.1
  · intro nd hnd
    exact (hvalid' nd hnd).choose_spec.2

/-- The private half and the programs only grow. -/
structure Grows (s s' : V03State) : Prop where
  commitments : ∀ c, s.commitmentSet.contains c → s'.commitmentSet.contains c
  nullifiers : s.nullifierSet ⊆ s'.nullifierSet
  programs : ∀ id, (s.programs.lookup id).isSome → (s'.programs.lookup id).isSome

theorem Chain.grows {txs : List LeeTransaction} (h : Chain H s txs s') : Grows s s' := by
  refine h.invariant (P := Grows s) ?_ ⟨fun _ hc => hc, Finset.Subset.refl _, fun _ hid => hid⟩
  intro u tx blockId timestamp v hu hstep
  obtain ⟨diff, -, happly⟩ := V03State.settle_eq_some.mp hstep
  have happlied := applyStateDiff_applied happly
  refine ⟨?_, ?_, ?_⟩
  · intro c hc
    exact (CommitmentSet.extend_contains happlied.commitments).mpr (.inl (hu.commitments c hc))
  · rw [happlied.nullifiers]
    exact hu.nullifiers.trans Finset.subset_union_left
  · intro id hid
    exact happlied.programs id (hu.programs id hid)

end

end Lez
