/-
Can a user's transaction halt the sequencer? Once `validate_on_state` has
passed it, three things after it may panic: the extraction of a withdrawal
(`unreachable!` for a deposit), the nonce of a signer at its end, and the
commitment tree when it is full. The clock's transaction after it cannot.

A deposit is supposed to be refused because it takes from the bridge account.
One that takes nothing is not refused.
-/
import Lez.Sequencer.Core

namespace Lez

/-! ## When a diff can be applied -/

/-- The nonces of a batch of signers have room. -/
theorem incrementNonces_isSome : ∀ {signers : List AccountId} {t : Table AccountId Account},
    (signers.foldlM incrementNonce t).isSome ↔
      ∀ id, (t.getD id Account.default).nonce.toNat + signers.count id < 2 ^ 128
  | [], t => by
    refine iff_of_true rfl ?_
    intro id
    exact (t.getD id Account.default).nonce.isLt
  | signer :: signers, t => by
    rw [List.foldlM_cons, Option.bind_eq_bind]
    cases hnext : incrementNonce t signer with
    | none =>
      have hover : ¬(t.getD signer Account.default).nonce.toNat + 1 < 2 ^ 128 := by
        intro hfits
        simp only [incrementNonce, if_pos hfits] at hnext
        cases hnext
      refine iff_of_false (by simp) ?_
      intro h
      have hsigner := h signer
      rw [List.count_cons_self] at hsigner
      omega
    | some u =>
      rw [Option.bind_some, incrementNonces_isSome]
      refine forall_congr' fun id => ?_
      rw [incrementNonce_nonce hnext id, List.count_cons]
      simp only [beq_iff_eq]
      rw [Nat.add_right_comm, Nat.add_assoc]

section
variable {H : Host} {s s' : V03State} {tx : LeeTransaction} {blockId : BlockId} {timestamp : Timestamp}
  {diff : StateDiff}

theorem V03State.applyStateDiff_isSome : (s.applyStateDiff H diff).isSome ↔
    (∀ id, (viewOf s diff.publicDiff id).nonce.toNat + diff.signerAccountIds.count id < 2 ^ 128) ∧
      (s.commitmentSet.extend H.sha256 diff.newCommitments).isSome := by
  have hnonces : (diff.signerAccountIds.foldlM incrementNonce (s.publicState.writeAll diff.publicDiff.toPairs)).isSome ↔
      ∀ id, (viewOf s diff.publicDiff id).nonce.toNat + diff.signerAccountIds.count id < 2 ^ 128 := by
    rw [incrementNonces_isSome]
    refine forall_congr' fun id => ?_
    rw [Table.getD_writeAll_toPairs]
    rfl
  rw [← hnonces, applyStateDiff]
  cases diff.signerAccountIds.foldlM incrementNonce (s.publicState.writeAll diff.publicDiff.toPairs) with
  | none => simp
  | some accounts =>
    cases s.commitmentSet.extend H.sha256 diff.newCommitments <;> simp

/-- What a validated diff asks of nonces and commitments. -/
structure Asks (H : Host) (s : V03State) (tx : LeeTransaction) (diff : StateDiff) : Prop where
  nonce : ∀ id, (viewOf s diff.publicDiff id).nonce = (s.getAccountById id).nonce
  signers : diff.signerAccountIds = tx.signers H
  commitments : diff.newCommitments = tx.newCommitments

theorem LeeTransaction.validate_asks (hsound : ProofsSound H) (h : tx.validate H s blockId timestamp = .ok diff) :
    Asks H s tx diff := by
  have hsigners := validate_signers h
  cases tx with
  | publicTx tx =>
    have hacc := fromPublicTransaction_ok h
    refine ⟨fun id => hacc.exec.effects.nonce id, hsigners, ?_⟩
    simp only [validate, fromPublicTransaction, bind_ok_iff, pure_ok_iff] at h
    obtain ⟨-, -, -, -, -, -, -, -, d, -, -, -, rfl⟩ := h
    rfl
  | privacyPreserving tx =>
    obtain ⟨hacc, hproof⟩ := fromPrivacyPreservingTransaction_ok h
    obtain ⟨i, hi⟩ := hsound _ _ hproof
    exact ⟨fun id => (privacy_effects hacc hi).nonce id, hsigners,
      (fromPrivacyPreservingTransaction_checks h).commitments⟩
  | programDeployment bytecode =>
    obtain ⟨p, rfl, -⟩ := fromProgramDeploymentTransaction_ok h
    exact ⟨fun _ => rfl, hsigners, rfl⟩

/-- **A validated transaction can be applied** exactly when no signer is out of nonces and the commitment tree has
room. -/
theorem V03State.applyStateDiff_isSome_of_validate (hsound : ProofsSound H) {inserted : List Commitment}
    (htree : CommitmentSet.TreeOn H.sha256 inserted s.commitmentSet.merkleTree)
    (h : tx.validate H s blockId timestamp = .ok diff) : (s.applyStateDiff H diff).isSome ↔
      (∀ id, (s.getAccountById id).nonce.toNat + (tx.signers H).count id < 2 ^ 128) ∧
        inserted.length + tx.newCommitments.length ≤ 2 ^ 31 := by
  have hasks := LeeTransaction.validate_asks hsound h
  rw [applyStateDiff_isSome, hasks.signers, hasks.commitments, htree.extend_isSome]
  simp only [hasks.nonce]

/-- Applying an unsigned public transaction panics on no ledger that a transaction left. -/
theorem V03State.execute_unsigned_ne_panic {s₀ : V03State} {diff₀ : StateDiff}
    (happlied : s₀.applyStateDiff H diff₀ = .some s) {context : LeeError → NodeError} {message : PublicTransaction.Message}
    {text : String} : s.execute H context (.publicTx ⟨message, []⟩) blockId timestamp ≠ .error (.panic text) := by
  intro h
  cases hvalid : (LeeTransaction.publicTx ⟨message, []⟩).validate H s blockId timestamp with
  | error e =>
    rw [execute, hvalid] at h
    cases h
  | ok diff =>
    obtain ⟨root, hroot⟩ := Option.isSome_iff_exists.mp
      (CommitmentSet.extend_root (applyStateDiff_applied happlied).commitments)
    have hdiff : diff.signerAccountIds = [] ∧ diff.newCommitments = [] := by
      simp only [LeeTransaction.validate, fromPublicTransaction, bind_ok_iff, pure_ok_iff] at hvalid
      obtain ⟨-, -, -, -, -, -, -, -, d, -, -, -, rfl⟩ := hvalid
      exact ⟨rfl, rfl⟩
    have hsome : (s.applyStateDiff H diff).isSome := by
      rw [applyStateDiff_isSome, hdiff.1, hdiff.2]
      refine ⟨fun id => (viewOf s diff.publicDiff id).nonce.isLt, ?_⟩
      simp [CommitmentSet.extend, hroot]
    obtain ⟨s', hs'⟩ := Option.isSome_iff_exists.mp hsome
    rw [execute, hvalid] at h
    simp only [Except.mapError, bind, Except.bind, apply, hs'] at h
    cases h

end

end Lez

namespace Lez.Sequencer

open Reference (nodeHost nodeLedger)

/-! ## The rest of the way -/

section
variable (H : Host) (cfg : Config) (height : BlockId) (now : Timestamp) (prevBlockHash : HashType)

/-- The transaction is included, and the clock's after it does not panic. -/
def GoesThrough (b : Building) (tx : LeeTransaction) : Prop :=
  ∃ b', takeItem H cfg height now prevBlockHash b (.user, tx) = .included b' ∧
    ∀ context text, b'.state.execute H context (LeeTransaction.clockInvocation H now) height now ≠ .error (.panic text)

end

section
variable {H : Host} {cfg : Config} {height : BlockId} {now : Timestamp} {prevBlockHash : HashType} {b : Building}
  {tx : LeeTransaction} {diff : StateDiff} {inserted : List Commitment}

/-- Only a deposit has no withdrawal to extract or to go without. -/
theorem extractBridgeWithdrawData_ok_iff (cfg : Config) : (∃ withdraw, extractBridgeWithdrawData H cfg tx = .ok withdraw) ↔
    ∀ id vaultProgramId recipientId amount,
      bridgeInstruction H tx ≠ .some (.deposit id vaultProgramId recipientId amount) := by
  unfold extractBridgeWithdrawData
  split <;> simp_all

/-- A validated user's transaction stops the build when its withdrawal cannot be extracted. -/
theorem takeItem_stopped {fault : Fault} (hsize : blockSize H height now prevBlockHash b tx ≤ cfg.maxBlockSize)
    (hvalid : (tx.validateOnState H b.state height now).isOk = true)
    (hextract : extractBridgeWithdrawData H cfg tx = .error fault) :
    takeItem H cfg height now prevBlockHash b (.user, tx) = .stopped fault := by
  obtain ⟨diff, hdiff⟩ := isOk_iff.mp hvalid
  unfold takeItem takeUser
  rw [if_neg (Nat.not_lt.mpr hsize)]
  simp only [hdiff, hextract]

/-- **A validated user's transaction goes through without a panic** exactly when it is no deposit, no signer is
out of nonces and the commitment tree has room for it. -/
theorem goesThrough_iff (hsound : ProofsSound H)
    (htree : CommitmentSet.TreeOn H.sha256 inserted b.state.commitmentSet.merkleTree)
    (hsize : blockSize H height now prevBlockHash b tx ≤ cfg.maxBlockSize)
    (hvalid : tx.validateOnState H b.state height now = .ok diff) : GoesThrough H cfg height now prevBlockHash b tx ↔
      (∀ id vaultProgramId recipientId amount,
        bridgeInstruction H tx ≠ .some (.deposit id vaultProgramId recipientId amount)) ∧
      (∀ id, (b.state.getAccountById id).nonce.toNat + (tx.signers H).count id < 2 ^ 128) ∧
      inserted.length + tx.newCommitments.length ≤ 2 ^ 31 := by
  rw [← V03State.applyStateDiff_isSome_of_validate hsound htree (LeeTransaction.validateOnState_ok hvalid),
    ← extractBridgeWithdrawData_ok_iff cfg]
  unfold GoesThrough takeItem takeUser
  rw [if_neg (Nat.not_lt.mpr hsize), hvalid]
  dsimp only
  constructor
  · intro h
    obtain ⟨b', htaken, -⟩ := h
    split at htaken
    next => cases htaken
    next withdraw hextract =>
      split at htaken
      next => cases htaken
      next s hs => exact ⟨⟨withdraw, hextract⟩, Option.isSome_iff_exists.mpr ⟨s, expect_ok_iff.mp hs⟩⟩
  · intro h
    obtain ⟨⟨withdraw, hextract⟩, happlies⟩ := h
    obtain ⟨s, hs⟩ := Option.isSome_iff_exists.mp happlies
    have happly : b.state.apply H diff = .ok s := expect_ok_iff.mpr hs
    rw [hextract]
    dsimp only
    rw [happly]
    exact ⟨_, rfl, fun _ _ => V03State.execute_unsigned_ne_panic hs⟩

end

namespace Sample

theorem idleHost_sound : ProofsSound idleHost := (Reference.host _).proof_sound

/-- The tree of the sample ledgers has one node and no commitments. -/
theorem blank_treeOn : CommitmentSet.TreeOn Sha256.hash [] ⟨[bytes32OfNat 0], 1, 0⟩ := by
  refine ⟨0, by decide, rfl, rfl, rfl, Nat.zero_le _, by simp, by simp, ?_⟩
  intro ℓ j hℓ hj _
  obtain rfl : ℓ = 0 := by omega
  obtain rfl : j = 0 := by simpa using hj
  rfl

/-- A deposit of nothing. -/
def emptyDeposit : LeeTransaction :=
  let recipientId : AccountId := ByteVec.fill 32 9
  .publicTx (Reference.unsigned Reference.bridgeId [systemBridgeAccountId idleHost,
    Vault.computeVaultAccountId Sha256.hash Reference.vaultId recipientId]
    (Bridge.writeBridge (.deposit (ByteVec.fill 32 1) Reference.vaultId recipientId 0)))

end Sample

open Sequencer.Sample in
/-- A user's call of a program that does nothing. -/
theorem idle_call_goesThrough : GoesThrough idleHost cfg 2 5 (ByteVec.fill 32 0) ⟨idleLedger, [], [], []⟩ idleCall := by
  have hvalid : (idleCall.validateOnState idleHost idleLedger 2 5).isOk = true := by decide +kernel
  have hsize : blockSize idleHost 2 5 (ByteVec.fill 32 0) ⟨idleLedger, [], [], []⟩ idleCall ≤ cfg.maxBlockSize := by
    decide +kernel
  have htree : CommitmentSet.TreeOn idleHost.sha256 [] idleLedger.commitmentSet.merkleTree := blank_treeOn
  have hbridge : bridgeInstruction idleHost idleCall = .none := by decide
  cases hdiff : idleCall.validateOnState idleHost idleLedger 2 5 with
  | error e =>
    rw [hdiff] at hvalid
    cases hvalid
  | ok diff =>
    refine (goesThrough_iff idleHost_sound htree hsize hdiff).mpr ⟨?_, ?_, by decide⟩
    · intro id vaultProgramId recipientId amount h
      rw [hbridge] at h
      cases h
    · intro id
      exact (idleLedger.getAccountById id).nonce.isLt

open Sequencer.Sample in
/-- A user's deposit of nothing is validated, and then the build panics. -/
theorem empty_deposit_halts :
    (emptyDeposit.validateOnState idleHost bridgeLedger 2 5).isOk = true ∧
      blockSize idleHost 2 5 (ByteVec.fill 32 0) ⟨bridgeLedger, [], [], []⟩ emptyDeposit ≤ cfg.maxBlockSize ∧
      takeItem idleHost cfg 2 5 (ByteVec.fill 32 0) ⟨bridgeLedger, [], [], []⟩ (.user, emptyDeposit) =
        .stopped (.panic
          "Deposit instructions from users should never pass validation, and thus should never be seen here") ∧
      ¬GoesThrough idleHost cfg 2 5 (ByteVec.fill 32 0) ⟨bridgeLedger, [], [], []⟩ emptyDeposit := by
  have hvalid : (emptyDeposit.validateOnState idleHost bridgeLedger 2 5).isOk = true := by decide +kernel
  have hsize : blockSize idleHost 2 5 (ByteVec.fill 32 0) ⟨bridgeLedger, [], [], []⟩ emptyDeposit ≤
      cfg.maxBlockSize := by
    decide +kernel
  have hextract : extractBridgeWithdrawData idleHost cfg emptyDeposit = .error (.panic
      "Deposit instructions from users should never pass validation, and thus should never be seen here") := by
    decide +kernel
  have htaken : takeItem idleHost cfg 2 5 (ByteVec.fill 32 0) ⟨bridgeLedger, [], [], []⟩ (.user, emptyDeposit) =
      .stopped (.panic
        "Deposit instructions from users should never pass validation, and thus should never be seen here") :=
    takeItem_stopped hsize hvalid hextract
  refine ⟨hvalid, hsize, htaken, ?_⟩
  intro h
  obtain ⟨b', hb', -⟩ := h
  rw [htaken] at hb'
  cases hb'

end Lez.Sequencer
