/-
`Execute` pays out in full. With enough approvals stored, a treasury and a
recipient of the transfer program, and room for the balance, the public
transaction that calls `Execute` goes through: the call of `msig` changes
nothing, the transfer it chains has the treasury authorized by its seed, and
what is left is an empty treasury and a recipient richer by its balance.
-/
import Lez.State.CommitmentFacts
import Lez.State.Transition
import Lez.Trace.Msig

namespace Lez

open Msig

/-- The executor runs both programs to their end. -/
structure RunsToEnd (H : MsigHost) : Prop where
  msig : ∀ caller pre data out, Msig.main H.sha256 H.codecs H.msigId caller pre data = .ok (.some out) →
    H.guest H.msigId H.msigId caller pre data = .ok out
  transfer : ∀ caller pre data out,
    AuthenticatedTransfer.main H.codecs.transfer H.authenticatedTransfer.id caller pre data = .ok out →
      H.guest H.authenticatedTransfer.id H.authenticatedTransfer.id caller pre data = .ok out

/-- A proposal with enough approvals, its treasury and a recipient that can take the balance. -/
structure Payable (H : MsigHost) (s : V03State) (threshold : UInt32) (seed : PdaSeed)
    (proposal treasury recipient : AccountId) : Prop where
  msigDeployed : (s.programs.lookup H.msigId).isSome
  transferDeployed : (s.programs.lookup H.authenticatedTransfer.id).isSome
  proposalOwner : (s.getAccountById proposal).programOwner = H.msigId
  header : proposalHeaderLen ≤ (s.getAccountById proposal).data.1.length
  approved : threshold.toNat ≤ storedCount (s.getAccountById proposal).data.1
  derived : treasury = forPublicPda H.sha256 H.msigId seed
  treasuryOwner : (s.getAccountById treasury).programOwner = H.authenticatedTransfer.id
  recipientOwner : (s.getAccountById recipient).programOwner = H.authenticatedTransfer.id
  fits : (s.getAccountById recipient).balance.toNat + (s.getAccountById treasury).balance.toNat < 2 ^ 128
  distinct : [proposal, treasury, recipient].Nodup
  /-- The commitment tree was built by insertions, as it is in every ledger. -/
  tree : ∃ inserted, CommitmentSet.TreeOn H.sha256 inserted s.commitmentSet.merkleTree

/-- An unsigned public transaction that calls `msig` with the three accounts. -/
def executeTransaction (H : MsigHost) (proposal treasury recipient : AccountId) (data : InstructionData) :
    PublicTransaction :=
  ⟨⟨H.msigId, [proposal, treasury, recipient], [], data⟩, []⟩

section
variable {H : MsigHost} {s : V03State} {threshold : UInt32} {seed : PdaSeed} {proposal treasury recipient : AccountId}
  {data : InstructionData} {blockId : BlockId} {timestamp : Timestamp}

/-- An account of the ledger that nobody signed for. -/
def unsignedPre (s : V03State) (id : AccountId) : AccountWithMetadata := ⟨s.getAccountById id, false, id⟩

/-- The transfer that `Execute` chains. -/
def payoutCall (H : MsigHost) (s : V03State) (seed : PdaSeed) (treasury recipient : AccountId) : ChainedCall :=
  ⟨(s.getAccountById treasury).programOwner, [{ unsignedPre s treasury with isAuthorized := true }, unsignedPre s recipient],
    H.codecs.transfer.encode (.transfer (s.getAccountById treasury).balance), [seed]⟩

def executeOutput (H : MsigHost) (s : V03State) (seed : PdaSeed) (proposal treasury recipient : AccountId)
    (data : InstructionData) : ProgramOutput :=
  { ProgramOutput.new H.msigId .none data (([proposal, treasury, recipient]).map (unsignedPre s))
      (([proposal, treasury, recipient]).map fun id => .new (s.getAccountById id)) with
    chainedCalls := [payoutCall H s seed treasury recipient] }

theorem executed_output (hruns : RunsToEnd H) (h : Payable H s threshold seed proposal treasury recipient)
    (hdata : H.codecs.readMsig data = .some (.execute threshold seed)) :
    H.guest H.msigId H.msigId .none (([proposal, treasury, recipient]).map (unsignedPre s)) data =
      .ok (executeOutput H s seed proposal treasury recipient data) := by
  have hexecute : Msig.execute H.codecs.transfer (unsignedPre s proposal) (unsignedPre s treasury)
      (unsignedPre s recipient) threshold seed =
        .ok (([proposal, treasury, recipient]).map fun id => .new (s.getAccountById id),
          [payoutCall H s seed treasury recipient]) := by
    simp only [Msig.execute, bind_ok_iff, ensure_ok_iff, pure_ok_iff]
    exact ⟨(), h.header, (), h.approved, rfl⟩
  apply hruns.msig
  simp only [Msig.main, hdata, expect, Msig.process, List.map_cons, List.map_nil, bind_ok_iff]
  exact ⟨_, rfl, _, map_ok_iff.mpr ⟨_, hexecute, rfl⟩, rfl⟩

/-- An account with another balance. -/
def withBalance (a : Account) (balance : U128) : Account := { a with balance }

/-- The output of the transfer. -/
def payoutOutput (H : MsigHost) (s : V03State) (seed : PdaSeed) (treasury recipient : AccountId) : ProgramOutput :=
  let call := payoutCall H s seed treasury recipient
  .new H.authenticatedTransfer.id (.some H.msigId) call.instructionData call.preStates
    [.new (withBalance (s.getAccountById treasury) 0),
      .new (withBalance (s.getAccountById recipient)
        ((s.getAccountById recipient).balance + (s.getAccountById treasury).balance))]

theorem payout_output (hruns : RunsToEnd H) (h : Payable H s threshold seed proposal treasury recipient) :
    H.guest H.authenticatedTransfer.id H.authenticatedTransfer.id (.some H.msigId)
        (payoutCall H s seed treasury recipient).preStates (payoutCall H s seed treasury recipient).instructionData =
      .ok (payoutOutput H s seed treasury recipient) := by
  -- the recipient has an owner, so it is not claimed
  have howned : (s.getAccountById recipient).programOwner ≠ defaultProgramId := by
    rw [h.recipientOwner]
    exact H.transfer_ne_default
  have hpost : AuthenticatedTransfer.process (payoutCall H s seed treasury recipient).preStates
      (.transfer (s.getAccountById treasury).balance) = .ok (payoutOutput H s seed treasury recipient).postStates := by
    rw [payoutCall, AuthenticatedTransfer.process, AuthenticatedTransfer.transfer]
    simp only [bind_ok_iff, ensure_ok_iff, pure_ok_iff]
    refine ⟨(), trivial, (), Nat.le_refl _, (), h.fits, ?_⟩
    simp [payoutOutput, ProgramOutput.new, withBalance, unsignedPre, AccountPostState.newClaimedIfDefault,
      AccountPostState.new, howned]
  apply hruns.transfer
  simp only [AuthenticatedTransfer.main, bind_ok_iff, expect_ok_iff, pure_ok_iff]
  exact ⟨_, H.codecs.transfer.decode_encode _, _, hpost, rfl⟩

/-- The accounts after the call of `msig`: those of the ledger. -/
def unchanged (s : V03State) (proposal treasury recipient : AccountId) : Diff :=
  Table.writeAll ∅ (([proposal, treasury, recipient]).map fun id => (id, s.getAccountById id))

theorem viewOf_unchanged (id : AccountId) :
    viewOf s (unchanged s proposal treasury recipient) id = s.getAccountById id := by
  unfold viewOf Table.getD
  cases hlookup : (unchanged s proposal treasury recipient).lookup id with
  | none => rfl
  | some a =>
    rcases Table.lookup_writeAll_some hlookup with hmem | hempty
    · obtain ⟨_, -, heq⟩ := List.mem_map.mp hmem
      cases heq
      rfl
    · simp at hempty

/-- What the three accounts are called with has no authority, and the call keeps the rules of any program. -/
theorem execute_checks (hruns : RunsToEnd H) (h : Payable H s threshold seed proposal treasury recipient)
    (hdata : H.codecs.readMsig data = .some (.execute threshold seed)) :
    CallChecks H.toHost s ∅ ⟨H.msigId, ([proposal, treasury, recipient]).map (unsignedPre s), data, []⟩ ⟨.none, ∅⟩
      (executeOutput H s seed proposal treasury recipient data) (unchanged s proposal treasury recipient) := by
  have hpre : ∀ a ∈ (executeOutput H s seed proposal treasury recipient data).preStates,
      a = unsignedPre s a.accountId := by
    intro a ha
    obtain ⟨id, -, rfl⟩ := List.mem_map.mp ha
    rfl
  have howned : ∀ id ∈ [proposal, treasury, recipient], (s.getAccountById id).programOwner ≠ defaultProgramId := by
    simp only [List.forall_mem_cons, h.proposalOwner, h.treasuryOwner, h.recipientOwner]
    exact ⟨H.msig_ne_default, H.transfer_ne_default, H.transfer_ne_default, by simp⟩
  have hzip : ∀ pp ∈ (executeOutput H s seed proposal treasury recipient data).preStates.zip
      (executeOutput H s seed proposal treasury recipient data).postStates,
        ∃ id ∈ [proposal, treasury, recipient], pp = (unsignedPre s id, .new (s.getAccountById id)) := by
    intro pp hpp
    rw [executeOutput, ProgramOutput.new, List.zip_map', List.mem_map] at hpp
    obtain ⟨id, hid, rfl⟩ := hpp
    exact ⟨id, hid, rfl⟩
  refine {
    ran := executed_output hruns h hdata
    deployed := h.msigDeployed
    pre := ?_
    flags := ?_
    self := rfl
    caller := rfl
    valid := ⟨?_, rfl, ?_, rfl⟩
    claims := ?_
    diff := rfl }
  · intro a ha
    rw [hpre a ha]
    rfl
  · intro a ha
    rw [hpre a ha]
    simp [unsignedPre, CallerData.authorizes, computePublicAuthorizedPdas]
  · simpa [executeOutput, ProgramOutput.new, unsignedPre] using h.distinct
  · intro pp hpp
    obtain ⟨id, hid, rfl⟩ := hzip pp hpp
    exact ⟨rfl, rfl, fun _ => BitVec.le_refl _, fun _ _ => rfl, fun hdefault => absurd hdefault (howned id hid)⟩
  · intro pp hpp
    obtain ⟨id, -, rfl⟩ := hzip pp hpp
    simp [AccountPostState.new]

/-- The accounts after the transfer. -/
def paidOut (s : V03State) (proposal treasury recipient : AccountId) : Diff :=
  (unchanged s proposal treasury recipient).writeAll [(treasury, withBalance (s.getAccountById treasury) 0),
    (recipient, withBalance (s.getAccountById recipient)
      ((s.getAccountById recipient).balance + (s.getAccountById treasury).balance))]

/-- **The transfer has the treasury authorized by its seed, and nothing else.** -/
theorem payout_checks (hruns : RunsToEnd H) (h : Payable H s threshold seed proposal treasury recipient) :
    CallChecks H.toHost s (unchanged s proposal treasury recipient) (payoutCall H s seed treasury recipient)
      (CallerData.forCallees ⟨.none, ∅⟩ H.msigId (executeOutput H s seed proposal treasury recipient data))
      (payoutOutput H s seed treasury recipient) (paidOut s proposal treasury recipient) := by
  have hprogram : (payoutCall H s seed treasury recipient).programId = H.authenticatedTransfer.id := h.treasuryOwner
  have hne : treasury ≠ recipient := by
    have hdistinct := h.distinct
    simp only [List.nodup_cons, List.mem_cons] at hdistinct
    tauto
  have hauthority : ∀ id, CallerData.authorizes H.toHost
      (CallerData.forCallees ⟨.none, ∅⟩ H.msigId (executeOutput H s seed proposal treasury recipient data))
      (payoutCall H s seed treasury recipient).pdaSeeds id ↔ id = treasury := by
    intro id
    simp [CallerData.authorizes, CallerData.forCallees, computePublicAuthorizedPdas, payoutCall, executeOutput,
      ProgramOutput.new, unsignedPre, h.derived]
  have hfits := h.fits
  have hbalance : ((s.getAccountById recipient).balance + (s.getAccountById treasury).balance).toNat =
      (s.getAccountById recipient).balance.toNat + (s.getAccountById treasury).balance.toNat := by
    rw [BitVec.toNat_add, Nat.mod_eq_of_lt hfits]
  refine {
    ran := by rw [hprogram]; exact payout_output hruns h
    deployed := by rw [hprogram]; exact h.transferDeployed
    pre := ?_
    flags := ?_
    self := hprogram.symm
    caller := rfl
    valid := ⟨?_, rfl, ?_, ?_⟩
    claims := ?_
    diff := rfl }
  · intro a ha
    rw [viewOf_unchanged]
    rcases List.mem_cons.mp ha with rfl | ha
    · rfl
    · rw [List.mem_singleton.mp ha]
      rfl
  · intro a ha
    rw [hauthority]
    rcases List.mem_cons.mp ha with rfl | ha
    · simp [unsignedPre]
    · rw [List.mem_singleton.mp ha]
      simp [unsignedPre, hne.symm]
  · simpa [payoutOutput, ProgramOutput.new, payoutCall, unsignedPre] using hne
  · intro pp hpp
    rw [hprogram]
    rcases List.mem_cons.mp hpp with rfl | hpp
    · exact ⟨rfl, rfl, fun hother => absurd h.treasuryOwner hother, fun _ _ => rfl,
        fun hdefault => absurd (h.treasuryOwner.symm.trans hdefault) H.transfer_ne_default⟩
    · rw [List.mem_singleton.mp hpp]
      exact ⟨rfl, rfl, fun hother => absurd h.recipientOwner hother, fun _ _ => rfl,
        fun hdefault => absurd (h.recipientOwner.symm.trans hdefault) H.transfer_ne_default⟩
  · simp [balanceSum, payoutOutput, ProgramOutput.new, payoutCall, unsignedPre, AccountPostState.new, withBalance, hbalance,
      Nat.add_comm]
  · intro pp hpp
    rcases List.mem_cons.mp hpp with rfl | hpp
    · simp [AccountPostState.new]
    · rw [List.mem_singleton.mp hpp]
      simp [AccountPostState.new]

/-- What the diff writes over an account without an owner is the account. -/
theorem paidOut_claimed (h : Payable H s threshold seed proposal treasury recipient) :
    (paidOut s proposal treasury recipient).toPairs.forM (checkClaimed s) = .ok () := by
  refine forM_ok_iff.mpr fun (id, a) hmem => ?_
  rw [checkClaimed, ensure_ok_iff]
  rcases Table.lookup_writeAll_some (Table.mem_toPairs.mp hmem) with hpaid | hunchanged
  · refine .inl ?_
    simp only [List.mem_cons, Prod.mk.injEq, List.not_mem_nil, or_false] at hpaid
    rcases hpaid with ⟨rfl, -⟩ | ⟨rfl, -⟩
    · rw [h.treasuryOwner]
      exact H.transfer_ne_default
    · rw [h.recipientOwner]
      exact H.transfer_ne_default
  · refine .inr (.inl ?_)
    rw [← viewOf_unchanged id, viewOf, Table.getD, hunchanged, Option.getD_some]

/-- The transaction is accepted, with the accounts of the two calls. -/
theorem executeTransaction_ok (hruns : RunsToEnd H) (h : Payable H s threshold seed proposal treasury recipient)
    (hdata : H.codecs.readMsig data = .some (.execute threshold seed)) :
    fromPublicTransaction H.toHost (executeTransaction H proposal treasury recipient data) s blockId timestamp =
      .ok ⟨[], paidOut s proposal treasury recipient, [], [], .none⟩ := by
  have hfirst : executeCall H.toHost s blockId timestamp ∅
      ⟨H.msigId, ([proposal, treasury, recipient]).map (unsignedPre s), data, []⟩ ⟨.none, ∅⟩ =
        .ok (executeOutput H s seed proposal treasury recipient data, unchanged s proposal treasury recipient) :=
    (execute_checks hruns h hdata).executeCall (show 3 < 2 ^ 128 by decide) rfl rfl
  have hsecond : executeCall H.toHost s blockId timestamp (unchanged s proposal treasury recipient)
      (payoutCall H s seed treasury recipient)
      (CallerData.forCallees ⟨.none, ∅⟩ H.msigId (executeOutput H s seed proposal treasury recipient data)) =
        .ok (payoutOutput H s seed treasury recipient, paidOut s proposal treasury recipient) :=
    (payout_checks hruns h).executeCall (show 2 < 2 ^ 128 by decide) rfl rfl
  have hinitial : initialCall H.toHost s (executeTransaction H proposal treasury recipient data) =
      (⟨H.msigId, ([proposal, treasury, recipient]).map (unsignedPre s), data, []⟩, ⟨.none, ∅⟩) := by
    simp [initialCall, executeTransaction, signerAccountIds, signedPreState, unsignedPre]
  have hrun : runCalls H.toHost s blockId timestamp (maxNumberChainedCalls + 1)
      [initialCall H.toHost s (executeTransaction H proposal treasury recipient data)] ∅ =
        .ok (paidOut s proposal treasury recipient) := by
    rw [hinitial, runCalls, hfirst]
    show runCalls H.toHost s blockId timestamp maxNumberChainedCalls
      [(payoutCall H s seed treasury recipient, CallerData.forCallees ⟨.none, ∅⟩ H.msigId
        (executeOutput H s seed proposal treasury recipient data))] (unchanged s proposal treasury recipient) = _
    rw [maxNumberChainedCalls, runCalls, hsecond]
    rfl
  have hdistinct : ([proposal, treasury, recipient]).toFinset.card = 3 := by
    rw [List.toFinset_card_of_nodup h.distinct]
    rfl
  simp only [fromPublicTransaction, bind_ok_iff, ensure_ok_iff, pure_ok_iff]
  exact ⟨(), hdistinct, (), rfl, (), rfl, (), rfl, _, hrun, (), paidOut_claimed h, rfl⟩

/-- **`Execute` pays out in full.** The unsigned transaction is accepted, the treasury ends empty, the recipient has
its balance on top of its own, and no other account changes. -/
theorem execute_pays_in_full (hruns : RunsToEnd H) (h : Payable H s threshold seed proposal treasury recipient)
    (hdata : H.codecs.readMsig data = .some (.execute threshold seed)) :
    ∃ s', s.transitionFromPublicTransaction H.toHost (executeTransaction H proposal treasury recipient data) blockId
        timestamp = .some s' ∧
      s'.getAccountById treasury = { s.getAccountById treasury with balance := 0 } ∧
      (s'.getAccountById recipient).balance.toNat =
        (s.getAccountById recipient).balance.toNat + (s.getAccountById treasury).balance.toNat ∧
      s'.getAccountById recipient =
        { s.getAccountById recipient with balance := (s'.getAccountById recipient).balance } ∧
      ∀ id, id ≠ treasury → id ≠ recipient → s'.getAccountById id = s.getAccountById id := by
  have hvalid : fromPublicTransaction H.toHost (executeTransaction H proposal treasury recipient data) s blockId
      timestamp = .ok ⟨[], paidOut s proposal treasury recipient, [], [], .none⟩ :=
    executeTransaction_ok hruns h hdata
  obtain ⟨inserted, htree⟩ := h.tree
  obtain ⟨commitments, hextend⟩ := Option.isSome_iff_exists.mp
    (htree.extend_isSome.mpr (show inserted.length + ([] : List Commitment).length ≤ 2 ^ 31 from htree.length_le))
  obtain ⟨s', happly⟩ : ∃ s', s.applyStateDiff H.toHost ⟨[], paidOut s proposal treasury recipient, [], [], .none⟩ =
      .some s' := by
    simp only [V03State.applyStateDiff, hextend, List.foldlM_nil]
    exact ⟨_, rfl⟩
  have haccount : ∀ id, s'.getAccountById id = viewOf s (paidOut s proposal treasury recipient) id := by
    intro id
    obtain ⟨n, hn, hsame⟩ := applyStateDiff_account happly id
    rw [hn, hsame (by simp)]
  have hkeys : ([(treasury, withBalance (s.getAccountById treasury) 0),
      (recipient, withBalance (s.getAccountById recipient)
        ((s.getAccountById recipient).balance + (s.getAccountById treasury).balance))].map (·.1)).Nodup :=
    h.distinct.of_cons
  have hrecipient : s'.getAccountById recipient = withBalance (s.getAccountById recipient)
      ((s.getAccountById recipient).balance + (s.getAccountById treasury).balance) := by
    rw [haccount]
    exact viewOf_writeAll_mem hkeys (by simp)
  refine ⟨s', V03State.settle_eq_some.mpr ⟨_, hvalid, happly⟩, ?_, ?_, ?_, ?_⟩
  · rw [haccount]
    exact viewOf_writeAll_mem hkeys (by simp [withBalance])
  · rw [hrecipient]
    exact (BitVec.toNat_add _ _).trans (Nat.mod_eq_of_lt h.fits)
  · rw [hrecipient]
    rfl
  · intro id htreasury hrecip
    rw [haccount, paidOut, viewOf_writeAll_not (by simp [Ne.symm htreasury, Ne.symm hrecip]), viewOf_unchanged]

end

namespace Sample

open Reference (host msigId transferId seed funded ledger)

theorem host_runsToEnd : RunsToEnd (host {}) where
  msig := by
    intro caller pre data out h
    have hmain : Msig.main Sha256.hash Serde.codecs msigId caller pre data = .ok (.some out) := h
    show Reference.guest {} msigId msigId caller pre data = .ok out
    rw [Reference.guest_msigId, Reference.msigGuest, hmain]
  transfer := by
    intro caller pre data out h
    show Reference.guest {} transferId transferId caller pre data = .ok out
    rw [Reference.guest_transferId]
    exact h

def paidTreasury : AccountId := forPublicPda Sha256.hash msigId seed

def paidProposal : AccountId := ByteVec.fill 32 13

def paidRecipient : AccountId := ByteVec.fill 32 8

/-- A proposal with one approval, a treasury with a hundred and a recipient with five. -/
def paidLedger : V03State :=
  ledger [(paidProposal, ⟨msigId, 0, (Data.tryFrom (proposalBytes (bytes32OfNat 1) (bytes32OfNat 2) 1
      [bytes32OfNat 3])).getD Data.empty, 0⟩), (paidTreasury, funded 100), (paidRecipient, funded 5)] [msigId, transferId]

theorem paidLedger_payable : Payable (host {}) paidLedger 1 seed paidProposal paidTreasury paidRecipient := by
  have htree : MerkleTree.withCapacity (2 ^ 0) = .some paidLedger.commitmentSet.merkleTree := by decide +kernel
  have hchecks : (paidLedger.programs.lookup msigId).isSome ∧ (paidLedger.programs.lookup transferId).isSome ∧
      (paidLedger.getAccountById paidProposal).programOwner = msigId ∧
      proposalHeaderLen ≤ (paidLedger.getAccountById paidProposal).data.1.length ∧
      1 ≤ storedCount (paidLedger.getAccountById paidProposal).data.1 ∧
      (paidLedger.getAccountById paidTreasury).programOwner = transferId ∧
      (paidLedger.getAccountById paidRecipient).programOwner = transferId ∧
      (paidLedger.getAccountById paidRecipient).balance.toNat +
        (paidLedger.getAccountById paidTreasury).balance.toNat < 2 ^ 128 ∧
      [paidProposal, paidTreasury, paidRecipient].Nodup := by
    decide +kernel
  obtain ⟨hmsig, htransfer, hproposal, hheader, hcount, htreasury, hrecipient, hfits, hdistinct⟩ := hchecks
  exact ⟨hmsig, htransfer, hproposal, hheader, hcount, rfl, htreasury, hrecipient, hfits, hdistinct,
    [], 0, by decide, MerkleTree.withCapacity_holds htree⟩

end Sample

open Lez.Sample in
theorem hundred_paid_out :
    ∃ s', paidLedger.transitionFromPublicTransaction (Reference.host {}).toHost
        (executeTransaction (Reference.host {}) paidProposal paidTreasury paidRecipient
          (Serde.writeMsig (.execute 1 Reference.seed))) 1 1 = .some s' ∧
      (s'.getAccountById paidTreasury).balance = 0 := by
  have hdata : (Reference.host {}).codecs.readMsig (Serde.writeMsig (.execute 1 Reference.seed)) =
      .some (.execute 1 Reference.seed) := by
    decide +kernel
  obtain ⟨s', htx, htreasury, -⟩ := execute_pays_in_full host_runsToEnd paidLedger_payable hdata
  exact ⟨s', htx, by rw [htreasury]⟩

end Lez
