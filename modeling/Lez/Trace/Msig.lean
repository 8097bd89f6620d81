/-
Executed calls of `msig`: the instruction a call carried, and what it can do
to a public account that `msig` owns. `owned_step` is that inversion: nothing,
an enrollment, or an approval, whatever program the call was of.
-/
import Lez.Programs.MsigFacts
import Lez.Programs.MsigHost
import Lez.Trace.Public

namespace Lez

open Msig

namespace Executed

variable (H : MsigHost) (e : Executed)

/-- The instruction of a call of `msig`. -/
def instruction : Option MsigInstruction :=
  if e.program = H.msigId then H.codecs.readMsig e.output.instructionData else .none

/-- The account an instruction is about: the first of the call. -/
def subject : Option AccountId := e.accountIds.head?

/-- `CreateProposal` of the account. -/
def Creates (id : AccountId) (root pid : Bytes32) : Prop :=
  e.instruction H = .some (.createProposal root pid) ∧ e.subject = .some id

/-- `Enroll` on the account. -/
def Enrolls (id : AccountId) : Prop := (∃ leaf, e.instruction H = .some (.enroll leaf)) ∧ e.subject = .some id

/-- The vote of an `Approve` on the account. -/
def voteOn (id : AccountId) : Option Vote :=
  match e.instruction H with
  | .some (.approve secret path _) => if e.subject = .some id then .some (secret, path) else .none
  | _ => .none

end Executed

/-- Both programs ran as modelled in this call, on the instruction of the call. -/
structure Ran (H : MsigHost) (e : Executed) : Prop where
  msig : e.program = H.msigId → Msig.main H.sha256 H.codecs e.output.selfProgramId e.output.callerProgramId
    e.output.preStates e.output.instructionData = .ok (.some e.output)
  transfer : e.program = H.authenticatedTransfer.id → AuthenticatedTransfer.main H.codecs.transfer
    e.output.selfProgramId e.output.callerProgramId e.output.preStates e.output.instructionData = .ok e.output
  data : e.program = H.msigId ∨ e.program = H.authenticatedTransfer.id →
    e.output.instructionData = e.call.instructionData

section
variable {H : MsigHost} {e : Executed}

theorem Ran.process (h : Ran H e) (hp : e.program = H.msigId) :
    ∃ i, e.instruction H = .some i ∧
      Msig.process H.sha256 H.codecs e.output.preStates i = .ok (.some (e.output.postStates, e.output.chainedCalls)) := by
  obtain ⟨i, post, calls, hi, hproc, hout⟩ := main_ok (h.msig hp)
  have hpost : e.output.postStates = post := by rw [hout]; rfl
  have hcalls : e.output.chainedCalls = calls := by rw [hout]
  exact ⟨i, by rw [Executed.instruction, if_pos hp, hi], by rw [hproc, hpost, hcalls]⟩

/-- A call of the transfer program makes no calls and is what `process` answers. -/
theorem Ran.transferProcess (h : Ran H e) (hp : e.program = H.authenticatedTransfer.id) :
    e.output.chainedCalls = [] ∧ ∃ i, H.codecs.transfer.decode e.call.instructionData = .some i ∧
      AuthenticatedTransfer.process e.output.preStates i = .ok e.output.postStates := by
  obtain ⟨i, post, hi, hproc, hout⟩ := AuthenticatedTransfer.main_ok (h.transfer hp)
  have hpost : e.output.postStates = post := by rw [hout]; rfl
  have hcalls : e.output.chainedCalls = [] := by rw [hout]; rfl
  exact ⟨hcalls, i, h.data (.inr hp) ▸ hi, by rw [hproc, hpost]⟩

/-- A transfer moves the amount its call says, out of the first account. -/
theorem Ran.transferred (h : Ran H e) {amount : U128} (hp : e.program = H.authenticatedTransfer.id)
    (hcall : H.codecs.transfer.decode e.call.instructionData = .some (.transfer amount)) :
    ∃ sender recipient, e.output.preStates = [sender, recipient] ∧ sender.isAuthorized = true ∧
      amount.toNat ≤ sender.account.balance.toNat ∧ recipient.account.balance.toNat + amount.toNat < 2 ^ 128 ∧
      e.output.postStates = [.new { sender.account with balance := sender.account.balance - amount },
        .newClaimedIfDefault { recipient.account with balance := recipient.account.balance + amount } .authorized] := by
  obtain ⟨-, i, hi, hproc⟩ := h.transferProcess hp
  rw [hcall] at hi
  cases hi
  exact AuthenticatedTransfer.process_transfer_ok hproc

theorem Executed.program_of_instruction {i : MsigInstruction} (h : e.instruction H = .some i) :
    e.program = H.msigId := by
  by_contra hne
  rw [Executed.instruction, if_neg hne] at h
  cases h

/-- What an instruction's call was given and left. -/
theorem Ran.processed (h : Ran H e) {i : MsigInstruction} (hi : e.instruction H = .some i) :
    Msig.process H.sha256 H.codecs e.output.preStates i = .ok (.some (e.output.postStates, e.output.chainedCalls)) := by
  obtain ⟨j, hj, hproc⟩ := h.process (Executed.program_of_instruction hi)
  rw [hi] at hj
  cases hj
  exact hproc

theorem Executed.subject_mem {id : AccountId} (h : e.subject = .some id) : id ∈ e.accountIds :=
  List.mem_of_mem_head? h

theorem Executed.voteOn_some {id : AccountId} {v : Vote} (h : e.voteOn H id = .some v) :
    (∃ pid, e.instruction H = .some (.approve v.1 v.2 pid)) ∧ e.subject = .some id := by
  unfold Executed.voteOn at h
  split at h
  next secret path pid hi =>
    split at h
    next hs =>
      cases h
      exact ⟨⟨pid, hi⟩, hs⟩
    next => cases h
  next => cases h

theorem Executed.not_enrolls {i : MsigInstruction} (hi : e.instruction H = .some i) (hne : ∀ leaf, i ≠ .enroll leaf)
    (id : AccountId) : ¬e.Enrolls H id := by
  rintro ⟨⟨leaf, hleaf⟩, -⟩
  exact hne leaf (Option.some.inj (hi.symm.trans hleaf))

theorem Executed.not_votes {i : MsigInstruction} (hi : e.instruction H = .some i)
    (hne : ∀ secret path pid, i ≠ .approve secret path pid) (id : AccountId) : e.voteOn H id = .none := by
  by_contra hv
  obtain ⟨v, hv⟩ := Option.ne_none_iff_exists'.mp hv
  obtain ⟨⟨pid, happ⟩, -⟩ := Executed.voteOn_some hv
  exact hne _ _ _ (Option.some.inj (hi.symm.trans happ))

/-- A round of the public loop ran the programs as modelled. -/
theorem CallChecks.ranAsModelled {s : V03State} {d d' : Diff} {p : Pending} {out : ProgramOutput}
    (h : CallChecks H.toHost s d p.call p.caller out d') : Ran H (p.executed out) := by
  have hmsig : p.call.programId = H.msigId → Msig.main H.sha256 H.codecs out.selfProgramId out.callerProgramId
      out.preStates out.instructionData = .ok (.some out) ∧ out.instructionData = p.call.instructionData := by
    intro hp
    have hmain := H.guest_msig _ _ _ _ (hp ▸ h.ran)
    obtain ⟨i, post, calls, -, -, rfl⟩ := main_ok hmain
    exact ⟨hmain, rfl⟩
  have htransfer : p.call.programId = H.authenticatedTransfer.id →
      AuthenticatedTransfer.main H.codecs.transfer out.selfProgramId out.callerProgramId out.preStates
        out.instructionData = .ok out ∧ out.instructionData = p.call.instructionData := by
    intro hp
    have hmain := H.guest_transfer _ _ _ _ (hp ▸ h.ran)
    obtain ⟨i, post, -, -, rfl⟩ := AuthenticatedTransfer.main_ok hmain
    exact ⟨hmain, rfl⟩
  exact ⟨fun hp => (hmsig hp).1, fun hp => (htransfer hp).1,
    fun hp => hp.elim (fun hp => (hmsig hp).2) fun hp => (htransfer hp).2⟩

theorem Exec.ran {s : V03State} {blockId : BlockId} {timestamp : Timestamp} {q : List Pending} {d d' : Diff}
    {es : List Executed} (h : Exec H.toHost s blockId timestamp q d es d') : ∀ e ∈ es, Ran H e := by
  induction h with
  | nil => simp
  | cons hcall _ ih =>
    intro e he
    rcases List.mem_cons.mp he with rfl | he
    · exact (executeCall_ok hcall).ranAsModelled
    · exact ih e he

end

/-! ## Accounts of `msig` -/

@[simp] theorem AccountPostState.settled_data (p : AccountPostState) (program : ProgramId) :
    (p.settled program).data = p.account.data := by
  unfold settled
  split <;> rfl

/-- What a call can do to the data of an account of `msig`. -/
inductive OwnedStep (H : MsigHost) (isPublic : AccountId → Prop) (e : Executed) (id : AccountId) (a a' : Account) : Prop
  | kept : a'.data = a.data → (isPublic id → ¬e.Enrolls H id ∧ e.voteOn H id = .none) → OwnedStep H isPublic e id a a'
  | enrolled {registry : AccountWithMetadata} {leaf : Bytes32} {post : AccountPostState} : isPublic id →
      e.Enrolls H id → registry.account = a → enroll H.sha256 registry leaf = .ok [post] →
      a'.data = post.account.data → OwnedStep H isPublic e id a a'
  | approved {proposal rider : AccountWithMetadata} {secret pid : Bytes32} {path : MerkleProof} {account : Account}
      {rest : List AccountPostState} : isPublic id → ¬e.Enrolls H id → e.voteOn H id = .some (secret, path) →
      proposal.account = a → approve H.sha256 proposal rider secret path pid = .ok (.new account :: rest) →
      a'.data = account.data → OwnedStep H isPublic e id a a'

section
variable {H : MsigHost} {isPublic : AccountId → Prop} {e : Executed} {σ σ' : View} {id : AccountId}

/-- A call that does not name the account keeps it. -/
theorem OwnedStep.of_not_named (h : CallEffect isPublic e σ σ') (hid : ¬(id ∈ e.accountIds ∧ isPublic id)) :
    OwnedStep H isPublic e id (σ id) (σ' id) := by
  refine .kept (by rw [h.frame id hid]) ?_
  intro hpub
  refine ⟨?_, ?_⟩
  · intro hen
    exact hid ⟨Executed.subject_mem hen.2, hpub⟩
  · by_contra hv
    obtain ⟨v, hv⟩ := Option.ne_none_iff_exists'.mp hv
    exact hid ⟨Executed.subject_mem (Executed.voteOn_some hv).2, hpub⟩

/-- A call that leaves the data of the account it names, and is neither an
enrollment nor an approval on it. -/
theorem OwnedStep.of_unwritten (h : CallEffect isPublic e σ σ') (hid : id ∈ e.accountIds) (hpub : isPublic id)
    (hpost : ∀ pp ∈ e.changes, pp.1.accountId = id → pp.2.account.data = pp.1.account.data)
    (hen : ¬e.Enrolls H id) (hv : e.voteOn H id = .none) : OwnedStep H isPublic e id (σ id) (σ' id) := by
  obtain ⟨pre, post, hmem, hpre, hσ, hσ', -, -⟩ := h.named hid hpub
  refine .kept ?_ fun _ => ⟨hen, hv⟩
  rw [hσ', AccountPostState.settled_data, ← hσ]
  exact hpost _ hmem hpre

/-- Other programs keep the data of an account of `msig`. -/
theorem OwnedStep.of_foreign (h : CallEffect isPublic e σ σ') (howned : (σ id).programOwner = H.msigId)
    (hp : e.program ≠ H.msigId) : OwnedStep H isPublic e id (σ id) (σ' id) := by
  have hdata := (h.foreign (howned ▸ H.msig_ne_default) (howned ▸ Ne.symm hp)).1
  have hnone : e.instruction H = .none := if_neg hp
  refine .kept hdata fun _ => ⟨?_, ?_⟩
  · rintro ⟨⟨leaf, hleaf⟩, -⟩
    rw [hnone] at hleaf
    cases hleaf
  · simp [Executed.voteOn, hnone]

theorem OwnedStep.of_approve (h : CallEffect isPublic e σ σ') (hran : Ran H e) (hmem : id ∈ e.accountIds)
    (hpub : isPublic id) {secret pid : Bytes32} {path : MerkleProof}
    (hi : e.instruction H = .some (.approve secret path pid)) : OwnedStep H isPublic e id (σ id) (σ' id) := by
  obtain ⟨proposal, rider, hpre, happrove, -⟩ := process_approve_ok (hran.processed hi)
  obtain ⟨-, -, data, -, -, -, -, -, -, -, -, hpost⟩ := approve_inv happrove
  have hsubject : e.subject = .some proposal.accountId := by simp [Executed.subject, Executed.accountIds, hpre]
  have hen := Executed.not_enrolls hi (by simp) id
  by_cases hprop : proposal.accountId = id
  · subst hprop
    have hσ := h.pre proposal (by simp [hpre]) hpub
    have hσ' := h.post (proposal, .new { proposal.account with data }) (by simp [Executed.changes, hpre, hpost]) hpub
    refine .approved hpub hen ?_ hσ (hpost ▸ happrove) (by rw [hσ', AccountPostState.settled_data]; rfl)
    simp [Executed.voteOn, hi, hsubject]
  · -- the rider is given back as it was
    refine .of_unwritten h hmem hpub ?_ hen ?_
    · simp [Executed.changes, hpre, hpost, AccountPostState.new, hprop]
    · simp [Executed.voteOn, hi, hsubject, hprop]

theorem OwnedStep.of_enroll (h : CallEffect isPublic e σ σ') (hran : Ran H e) (hmem : id ∈ e.accountIds)
    (hpub : isPublic id) {leaf : Bytes32} (hi : e.instruction H = .some (.enroll leaf)) :
    OwnedStep H isPublic e id (σ id) (σ' id) := by
  obtain ⟨registry, hpre, henroll, -⟩ := process_enroll_ok (hran.processed hi)
  obtain ⟨-, -, data, -, hpost⟩ := enroll_ok henroll
  have hreg : registry.accountId = id := by simpa [Executed.accountIds, hpre, eq_comm] using hmem
  subst hreg
  have hσ := h.pre registry (by simp [hpre]) hpub
  have hσ' := h.post (registry, _) (by rw [Executed.changes, hpre, hpost]; exact List.mem_singleton_self _) hpub
  refine .enrolled hpub ⟨⟨leaf, hi⟩, ?_⟩ hσ (hpost ▸ henroll) (by rw [hσ', AccountPostState.settled_data])
  simp [Executed.subject, Executed.accountIds, hpre]

/-- **What happens to an account of `msig`**: every call keeps its data, or is
an enrollment on it, or an approval of it. -/
theorem owned_step (h : CallEffect isPublic e σ σ') (hran : Ran H e) (howned : (σ id).programOwner = H.msigId) :
    OwnedStep H isPublic e id (σ id) (σ' id) := by
  by_cases hp : e.program = H.msigId
  · by_cases hid : id ∈ e.accountIds ∧ isPublic id
    · obtain ⟨hmem, hpub⟩ := hid
      obtain ⟨i, hi, hproc⟩ := hran.process hp
      cases i with
      | createProposal root pid =>
        -- it claims the account it names, and an owned account cannot be claimed
        obtain ⟨proposal, data, hpre, -, hpost, -⟩ := process_createProposal_ok hproc
        obtain ⟨pre, post, hch, -, -, -, -, hclaim⟩ := h.named hmem hpub
        rw [Executed.changes, hpre, hpost, List.zip_cons_cons, List.zip_nil_left, List.mem_singleton] at hch
        cases hch
        rw [hclaim (by simp [AccountPostState.newClaimed])] at howned
        exact absurd howned.symm H.msig_ne_default
      | approve secret path pid => exact .of_approve h hran hmem hpub hi
      | enroll leaf => exact .of_enroll h hran hmem hpub hi
      | initTreasury seed target =>
        obtain ⟨treasury, hpre, hpost, -⟩ := process_initTreasury_ok hproc
        refine .of_unwritten h hmem hpub ?_ (Executed.not_enrolls hi (by simp) id) (Executed.not_votes hi (by simp) id)
        simp [Executed.changes, hpre, hpost, AccountPostState.new]
      | execute threshold seed =>
        obtain ⟨proposal, treasury, recipient, hpre, -, -, hpost, -⟩ := process_execute_ok hproc
        refine .of_unwritten h hmem hpub ?_ (Executed.not_enrolls hi (by simp) id) (Executed.not_votes hi (by simp) id)
        simp [Executed.changes, hpre, hpost, AccountPostState.new]
    · exact .of_not_named h hid
  · exact .of_foreign h howned hp

/-- A created proposal belongs to `msig` and holds a fresh header. -/
theorem created_step (h : CallEffect isPublic e σ σ') (hran : Ran H e) {root pid : Bytes32}
    (hc : e.Creates H id root pid) (hpub : isPublic id) :
    (σ' id).programOwner = H.msigId ∧ (σ' id).data.1 = proposalBytes root pid 0 [] := by
  obtain ⟨hi, hsubject⟩ := hc
  obtain ⟨proposal, data, hpre, hdata, hpost, -⟩ := process_createProposal_ok (hran.processed hi)
  have hprop : proposal.accountId = id := by simpa [Executed.subject, Executed.accountIds, hpre] using hsubject
  subst hprop
  have hσ' := h.post (proposal, _) (by rw [Executed.changes, hpre, hpost]; exact List.mem_singleton_self _) hpub
  rw [hσ', Executed.program_of_instruction hi]
  exact ⟨rfl, hdata⟩

/-- **How an account comes to `msig`**: by an enrollment on it or as a new proposal. -/
theorem becomes_owned (h : CallEffect isPublic e σ σ') (hran : Ran H e)
    (hbefore : (σ id).programOwner ≠ H.msigId) (hafter : (σ' id).programOwner = H.msigId) :
    isPublic id ∧ (e.Enrolls H id ∨ ∃ root pid, e.Creates H id root pid) := by
  rcases h.touched id with hsame | ⟨pre, post, hmem, hpre, hpub, -, hσ', hrules, -⟩
  · rw [hsame] at hafter
    exact absurd hafter hbefore
  have hclaimed : post.claim.isSome := by
    by_contra hn
    rw [hσ', AccountPostState.settled, if_neg hn, hrules.owner] at hafter
    exact hbefore hafter
  have hp : e.program = H.msigId := by
    rw [hσ', AccountPostState.settled, if_pos hclaimed] at hafter
    exact hafter
  have hsome : ¬∀ pp ∈ e.changes, pp.2.claim = .none := by
    intro hnone
    rw [hnone _ hmem] at hclaimed
    cases hclaimed
  refine ⟨hpub, ?_⟩
  obtain ⟨i, hi, hproc⟩ := hran.process hp
  -- only two instructions claim, and both only the account they are about
  cases i with
  | createProposal root pid =>
    obtain ⟨proposal, data, hpres, -, hposts, -⟩ := process_createProposal_ok hproc
    rw [Executed.changes, hpres, hposts, List.zip_cons_cons, List.zip_nil_left, List.mem_singleton] at hmem
    cases hmem
    exact .inr ⟨root, pid, hi, by simp [Executed.subject, Executed.accountIds, hpres, hpre]⟩
  | enroll leaf =>
    obtain ⟨registry, hpres, henroll, -⟩ := process_enroll_ok hproc
    obtain ⟨-, -, data, -, hposts⟩ := enroll_ok henroll
    rw [Executed.changes, hpres, hposts, List.zip_cons_cons, List.zip_nil_left, List.mem_singleton] at hmem
    cases hmem
    exact .inl ⟨⟨leaf, hi⟩, by simp [Executed.subject, Executed.accountIds, hpres, hpre]⟩
  | approve secret path pid =>
    obtain ⟨proposal, rider, hpres, happrove, -⟩ := process_approve_ok hproc
    obtain ⟨-, -, data, -, -, -, -, -, -, -, -, hposts⟩ := approve_inv happrove
    exact absurd (by simp [Executed.changes, hpres, hposts, AccountPostState.new]) hsome
  | initTreasury seed target =>
    obtain ⟨treasury, hpres, hposts, -⟩ := process_initTreasury_ok hproc
    exact absurd (by simp [Executed.changes, hpres, hposts, AccountPostState.new]) hsome
  | execute threshold seed =>
    obtain ⟨proposal, treasury, recipient, hpres, -, -, hposts, -⟩ := process_execute_ok hproc
    exact absurd (by simp [Executed.changes, hpres, hposts, AccountPostState.new]) hsome

end

end Lez
