/-
How often one proposal releases a treasury. `Execute` writes nothing to the
proposal and takes seed, treasury and recipient from whoever calls it, so one
set of approvals serves any number of treasuries. `Disciplined` releases use
the proposal's own id as the seed of the treasury and do not see it filled up
again; then there is one for each proposal.
-/
import Lez.Multisig.Threshold

namespace Lez

open Msig

/-- A call that raises the balance of a public account. -/
def Entry.Credits (en : Entry) (id : AccountId) : Prop :=
  en.isPublic id = true ∧ ∃ pp ∈ en.call.changes, pp.1.accountId = id ∧ pp.1.account.balance < pp.2.account.balance

/-- A release as the multisig's clients make it: the proposal is a public
account of `msig` that no `Enroll` named, its id is the seed of the treasury,
the treasury is the public account of that seed, the transfer that follows the
release is made on that account, and nothing is paid in afterwards. -/
structure Disciplined (H : MsigHost) (before : List Entry) (en : Entry) (after : List Entry)
    (proposal treasury : AccountWithMetadata) (seed : PdaSeed) : Prop where
  isPublic : en.isPublic proposal.accountId = true
  owner : proposal.account.programOwner = H.msigId
  unenrolled : ∀ en ∈ before, ¬en.EnrollsOn H proposal.accountId
  seedIsId : readArray 32 (proposal.account.data.1.drop 32) = .some seed
  derived : treasury.accountId = forPublicPda H.sha256 H.msigId seed
  treasuryPublic : en.isPublic treasury.accountId = true
  treasuryOwner : treasury.account.programOwner = H.authenticatedTransfer.id
  answered : ∀ f rest, after = f :: rest → f.call.subject = .some treasury.accountId
  unfilled : ∀ f rest, after = f :: rest → ∀ g ∈ rest, ¬g.Credits treasury.accountId

section
variable {H : MsigHost} {σ₀ σ σ' : View} {log : List Entry} {en : Entry} {id : AccountId}

@[simp] theorem AccountPostState.settled_balance (p : AccountPostState) (program : ProgramId) :
    (p.settled program).balance = p.account.balance := by
  unfold settled
  split <;> rfl

/-! ## What stays -/

/-- The id of a proposal stays, whatever else its bytes are. -/
theorem History.id_kept (h : History H σ₀ log σ) (howned : (σ₀ id).programOwner = H.msigId)
    (hno : ∀ en ∈ log, ¬en.EnrollsOn H id) {pid : Bytes32}
    (hid : readArray 32 ((σ₀ id).data.1.drop 32) = .some pid) :
    (σ id).programOwner = H.msigId ∧ readArray 32 ((σ id).data.1.drop 32) = .some pid := by
  induction h with
  | start => exact ⟨howned, hid⟩
  | @call log en σ σ' _ heff hran ih =>
    obtain ⟨howned', hid'⟩ := ih fun e he => hno e (List.mem_append_left _ he)
    refine ⟨(heff.owner (howned' ▸ H.msig_ne_default)).trans howned', ?_⟩
    cases owned_step heff hran howned' with
    | kept hdata _ =>
      rw [hdata]
      exact hid'
    | enrolled hpub hen => exact absurd ⟨hpub, hen⟩ (hno en (by simp))
    | approved _ _ _ hprop happrove hdata =>
      obtain ⟨root, recorded, data, -, -, hpid, -, -, -, -, hbytes, hpost⟩ := approve_inv happrove
      cases hpost
      rw [hprop, hid'] at hpid
      cases hpid
      rw [hdata]
      show readArray 32 (data.1.drop 32) = _
      rw [hbytes, proposalBytes_id]
  | nonces _ hsame ih =>
    obtain ⟨n, hn⟩ := hsame id
    rw [hn]
    exact ih hno

/-- A call leaves an empty account empty unless it credits it. -/
theorem CallEffect.stays_empty (h : CallEffect (fun id => en.isPublic id = true) en.call σ σ')
    (hno : ¬en.Credits id) (hempty : (σ id).balance = 0) : (σ' id).balance = 0 := by
  rcases h.touched id with hsame | ⟨pre, post, hmem, rfl, hpub, hpre, hpost, -, -⟩
  · rw [hsame, hempty]
  · rw [hpost, AccountPostState.settled_balance]
    by_contra hne
    refine hno ⟨hpub, _, hmem, rfl, ?_⟩
    have hpos : 0 < post.account.balance.toNat :=
      Nat.pos_of_ne_zero fun h0 => hne (BitVec.eq_of_toNat_eq (by simpa using h0))
    rw [hpre, hempty, BitVec.lt_def]
    simpa using hpos

theorem History.stays_empty (h : History H σ₀ log σ) (hno : ∀ en ∈ log, ¬en.Credits id)
    (hempty : (σ₀ id).balance = 0) : (σ id).balance = 0 := by
  induction h with
  | start => exact hempty
  | call _ heff _ ih =>
    exact heff.stays_empty (hno _ (by simp)) (ih fun e he => hno e (List.mem_append_left _ he))
  | nonces _ hsame ih =>
    obtain ⟨n, hn⟩ := hsame id
    rw [hn]
    exact ih hno

/-! ## One release -/

/-- `Execute` leaves the accounts it is given. -/
theorem CallEffect.release_keeps (h : CallEffect (fun id => en.isPublic id = true) en.call σ σ') (hran : Ran H en.call)
    {proposal treasury recipient : AccountWithMetadata} {threshold : UInt32} {seed : PdaSeed}
    (hrel : en.call.Releases H proposal treasury recipient threshold seed) (id : AccountId) : σ' id = σ id := by
  obtain ⟨p, t, r, hpre, -, -, hpost, -⟩ := process_execute_ok (hran.processed hrel.instruction)
  rcases h.touched id with hsame | ⟨pre, post, hmem, -, -, hσ, hσ', -, -⟩
  · exact hsame
  · rw [Executed.changes, hpre, hpost] at hmem
    have hsame : post = .new pre.account := by
      simp only [List.zip_cons_cons, List.zip_nil_left, List.mem_cons, List.not_mem_nil, or_false, Prod.mk.injEq] at hmem
      rcases hmem with ⟨rfl, rfl⟩ | ⟨rfl, rfl⟩ | ⟨rfl, rfl⟩ <;> rfl
    rw [hσ', hsame, ← hσ]
    rfl

/-- The call a release makes. -/
def releaseCall (H : MsigHost) (treasury recipient : AccountWithMetadata) (seed : PdaSeed) : ChainedCall :=
  ⟨treasury.account.programOwner, [{ treasury with isAuthorized := true }, recipient],
    H.codecs.transfer.encode (.transfer treasury.account.balance), [seed]⟩

theorem Executed.Releases.calls {e : Executed} {proposal treasury recipient : AccountWithMetadata}
    {threshold : UInt32} {seed : PdaSeed} (h : e.Releases H proposal treasury recipient threshold seed)
    (hran : Ran H e) : e.output.chainedCalls = [releaseCall H treasury recipient seed] := by
  obtain ⟨p, t, r, hpre, -, -, -, hcalls⟩ := process_execute_ok (hran.processed h.instruction)
  rw [h.accounts] at hpre
  cases hpre
  exact hcalls

/-- The transfer a release calls for empties the treasury. -/
theorem CallEffect.transfer_empties {f : Entry} {υ υ' : View}
    (h : CallEffect (fun id => f.isPublic id = true) f.call υ υ') (hran : Ran H f.call)
    {treasury recipient : AccountWithMetadata} {seed : PdaSeed} (hcall : f.call.call = releaseCall H treasury recipient seed)
    (howner : treasury.account.programOwner = H.authenticatedTransfer.id) (hpub : f.isPublic treasury.accountId = true)
    (hsubject : f.call.subject = .some treasury.accountId)
    (hbalance : (υ treasury.accountId).balance = treasury.account.balance) : (υ' treasury.accountId).balance = 0 := by
  have hprogram : f.call.program = H.authenticatedTransfer.id := by rw [Executed.program, hcall, releaseCall, howner]
  have hdata : H.codecs.transfer.decode f.call.call.instructionData = .some (.transfer treasury.account.balance) := by
    rw [hcall]
    exact H.codecs.transfer.decode_encode _
  obtain ⟨sender, rc, hpres, -, -, -, hposts⟩ := hran.transferred hprogram hdata
  have hsender : sender.accountId = treasury.accountId := by
    simpa [Executed.subject, Executed.accountIds, hpres] using hsubject
  have hσ := h.pre sender (by simp [hpres]) (hsender ▸ hpub)
  have hσ' := h.post (sender, .new { sender.account with balance := sender.account.balance - treasury.account.balance })
    (by simp [Executed.changes, hpres, hposts]) (hsender ▸ hpub)
  rw [← hsender, hσ', AccountPostState.settled_balance]
  show sender.account.balance - treasury.account.balance = 0
  rw [hσ, hsender, hbalance, BitVec.sub_self]
  rfl

/-! ## Two releases -/

/-- After a disciplined release the treasury is empty when the proposal is
executed again. -/
theorem Run.released_empty {s s' : V03State} {before mid after : List Entry} {en en' : Entry}
    {proposal treasury recipient : AccountWithMetadata} {threshold : UInt32} {seed : PdaSeed}
    (hrun : Run H.toHost s (before ++ en :: (mid ++ en' :: after)) s')
    (hrel : en.call.Releases H proposal treasury recipient threshold seed)
    (hdisc : Disciplined H before en (mid ++ en' :: after) proposal treasury seed)
    (hmsig : en'.call.program = H.msigId) :
    ∃ τ υ υ', proposal.account = τ proposal.accountId ∧ History H τ mid υ ∧
      CallEffect (fun id => en'.isPublic id = true) en'.call υ υ' ∧ (υ treasury.accountId).balance = 0 := by
  obtain ⟨τ, τ', -, heff, hran, hrest⟩ := hrun.history.before rfl
  obtain ⟨υ, υ', hmid, heff', -, -⟩ := hrest.before rfl
  have hkeeps := heff.release_keeps hran hrel
  refine ⟨τ', υ, υ', ?_, hmid, heff', ?_⟩
  · rw [hkeeps]
    exact heff.pre proposal (by simp [hrel.accounts]) hdisc.isPublic
  obtain ⟨f, rest, hafter, hcall, -, hsame⟩ := hrun.callee_follows rfl (hrel.calls hran)
  -- the transfer is the first call after the release, and no call of `msig`
  cases mid with
  | nil =>
    cases hafter
    rw [Executed.program, hcall] at hmsig
    exact absurd (hmsig.symm.trans hdisc.treasuryOwner) H.msig_ne_transfer
  | cons g mid =>
    cases hafter
    have hsplit : f :: mid = [] ++ f :: mid := rfl
    obtain ⟨ρ, ρ', hρ, hfeff, hfran, hmid'⟩ := hmid.before hsplit
    have hbalance : (ρ treasury.accountId).balance = treasury.account.balance := by
      obtain ⟨n, hn⟩ := hρ.quiet rfl treasury.accountId
      rw [hn, hkeeps, ← heff.pre treasury (by simp [hrel.accounts]) hdisc.treasuryPublic]
    have hempty := hfeff.transfer_empties hfran hcall hdisc.treasuryOwner (hsame ▸ hdisc.treasuryPublic)
      (hdisc.answered f _ rfl) hbalance
    exact hmid'.stays_empty (fun g hg => hdisc.unfilled f _ rfl g (List.mem_append_left _ hg)) hempty

/-- A proposal is not released twice under the discipline. -/
theorem Run.no_second_release {s s' : V03State} {before mid after : List Entry} {en en' : Entry}
    {proposal treasury recipient proposal' treasury' recipient' : AccountWithMetadata} {threshold threshold' : UInt32}
    {seed seed' : PdaSeed} (hrun : Run H.toHost s (before ++ en :: (mid ++ en' :: after)) s')
    (hrel : en.call.Releases H proposal treasury recipient threshold seed)
    (hrel' : en'.call.Releases H proposal' treasury' recipient' threshold' seed')
    (hdisc : Disciplined H before en (mid ++ en' :: after) proposal treasury seed)
    (hdisc' : Disciplined H (before ++ en :: mid) en' after proposal' treasury' seed')
    (hsame : proposal.accountId = proposal'.accountId) : False := by
  obtain ⟨τ, υ, υ', hp, hmid, heff', hempty⟩ :=
    hrun.released_empty hrel hdisc (Executed.program_of_instruction hrel'.instruction)
  have hp' : proposal'.account = υ proposal'.accountId := heff'.pre proposal' (by simp [hrel'.accounts]) hdisc'.isPublic
  have ht' : treasury'.account = υ treasury'.accountId :=
    heff'.pre treasury' (by simp [hrel'.accounts]) hdisc'.treasuryPublic
  have hunenrolled : ∀ e ∈ mid, ¬e.EnrollsOn H proposal.accountId := by
    intro e he
    rw [hsame]
    exact hdisc'.unenrolled e (by simp [he])
  obtain ⟨-, hid⟩ := hmid.id_kept (hp ▸ hdisc.owner) hunenrolled (hp ▸ hdisc.seedIsId)
  -- the id has not changed, so both releases name one treasury
  have hseed : seed = seed' := by
    rw [hsame, ← hp', hdisc'.seedIsId, Option.some.injEq] at hid
    exact hid.symm
  have hderived : treasury'.accountId = treasury.accountId := by rw [hdisc'.derived, hdisc.derived, hseed]
  exact hrel'.holds (by rw [ht', hderived, hempty])

/-- A call is one release. -/
theorem Executed.Releases.agree {e : Executed}
    {proposal treasury recipient proposal' treasury' recipient' : AccountWithMetadata} {threshold threshold' : UInt32}
    {seed seed' : PdaSeed} (h : e.Releases H proposal treasury recipient threshold seed)
    (h' : e.Releases H proposal' treasury' recipient' threshold' seed') :
    seed = seed' ∧ treasury = treasury' ∧ recipient = recipient' := by
  have haccounts := h.accounts.symm.trans h'.accounts
  have hinstruction := h.instruction.symm.trans h'.instruction
  cases haccounts
  cases hinstruction
  exact ⟨rfl, rfl, rfl⟩

/-- **One proposal, one release.** In every run whose releases are all
disciplined, two `Execute` calls given the same proposal and a treasury that
holds something are the same call: one treasury, one recipient, one time. -/
theorem disciplined_releases_once {s s' : V03State} (hrun : Run H.toHost s log s')
    (hdisc : ∀ before en after proposal treasury recipient threshold seed, log = before ++ en :: after →
      en.call.Releases H proposal treasury recipient threshold seed →
      Disciplined H before en after proposal treasury seed) :
    ∀ before en after proposal treasury recipient threshold seed
      before' en' after' proposal' treasury' recipient' threshold' seed',
      log = before ++ en :: after → log = before' ++ en' :: after' →
      en.call.Releases H proposal treasury recipient threshold seed →
      en'.call.Releases H proposal' treasury' recipient' threshold' seed' →
      proposal.accountId = proposal'.accountId →
      before = before' ∧ seed = seed' ∧ treasury = treasury' ∧ recipient = recipient' := by
  intro before en after proposal treasury recipient threshold seed
    before' en' after' proposal' treasury' recipient' threshold' seed' hlog hlog' hrel hrel' hsame
  have hd := hdisc before en after proposal treasury recipient threshold seed hlog hrel
  have hd' := hdisc before' en' after' proposal' treasury' recipient' threshold' seed' hlog' hrel'
  rcases List.append_eq_append_iff.mp (hlog.symm.trans hlog') with ⟨l, rfl, hl⟩ | ⟨l, rfl, hl⟩
  · cases l with
    | nil =>
      cases hl
      exact ⟨by simp, hrel.agree hrel'⟩
    | cons e mid =>
      cases hl
      exact (Run.no_second_release (hlog ▸ hrun) hrel hrel' hd hd' hsame).elim
  · cases l with
    | nil =>
      cases hl
      exact ⟨by simp, hrel.agree hrel'⟩
    | cons e mid =>
      cases hl
      exact (Run.no_second_release (hlog' ▸ hrun) hrel' hrel hd' hd hsame.symm).elim

end

section
open Reference

namespace Sample

def otherSeed : PdaSeed := ByteVec.fill 32 10

def otherPayee : AccountId := ByteVec.fill 32 11

/-- Two funded treasuries, two payees and the voter's account. -/
def twoTreasuries : V03State :=
  ledger [(riderId Sha256.hash voter, funded 1), (treasury, funded 100), (treasuryOf otherSeed, funded 50),
    (payee, funded 0), (otherPayee, funded 0)] [msigId, transferId]

end Sample

open Lez.Sample

theorem one_approval_two_releases :
    ∃ s' e₁ e₂ e₃ e₄ e₅ e₆ p t r p' t' r', Run ballotHost.toHost twoTreasuries [e₁, e₂, e₃, e₄, e₅, e₆] s' ∧
      e₃.call.Releases ballotHost p t r 1 seed ∧ e₅.call.Releases ballotHost p' t' r' 1 otherSeed ∧
      p.accountId = p'.accountId ∧ t.accountId ≠ t'.accountId ∧ r.accountId ≠ r'.accountId ∧
      (s'.getAccountById payee).balance = 100 ∧ (s'.getAccountById otherPayee).balance = 50 := by
  have hrun : (runPublic ballotHost.toHost twoTreasuries [createBallot, approveBallot, drain ballot 1 seed payee,
      drain ballot 1 otherSeed otherPayee]).any (fun r =>
        decide (r.1.map (told ballotHost) =
          [(.some (.createProposal ballotRoot emptyLeaf), [(ballot, 0)]),
            (.some (.approve voter (0, []) emptyLeaf), [(ballot, 0), (riderId Sha256.hash voter, 1)]),
            (.some (.execute 1 seed), [(ballot, 0), (treasury, 100), (payee, 0)]),
            (.none, [(treasury, 100), (payee, 0)]),
            (.some (.execute 1 otherSeed), [(ballot, 0), (treasuryOf otherSeed, 50), (otherPayee, 0)]),
            (.none, [(treasuryOf otherSeed, 50), (otherPayee, 0)])] ∧
          treasury ≠ treasuryOf otherSeed ∧
          (r.2.getAccountById payee).balance = 100 ∧ (r.2.getAccountById otherPayee).balance = 50)) = true := by
    simp only [ballotHost, host_packed, signaturesOf_packed, twoTreasuries, createBallot, approveBallot, drain, treasury,
      treasuryOf, ballot, ballotRoot, Sha256.hash_eq_packed]
    decide +kernel
  obtain ⟨⟨es, s'⟩, hrun, hes⟩ := (Option.any_eq_true _ _).mp hrun
  obtain ⟨hes, htreasuries, hpaid⟩ := of_decide_eq_true hes
  simp only [List.map_eq_cons_iff, List.map_eq_nil_iff] at hes
  obtain ⟨e₁, _, rfl, -, e₂, _, rfl, -, e₃, _, rfl, h₃, e₄, _, rfl, -, e₅, _, rfl, h₅, e₆, _, rfl, -, rfl⟩ := hes
  obtain ⟨p, t, r, hrel, hp, ht, hr⟩ := releases_of_told h₃ (by decide)
  obtain ⟨p', t', r', hrel', hp', ht', hr'⟩ := releases_of_told h₅ (by decide)
  refine ⟨s', _, _, _, _, _, _, p, t, r, p', t', r', run_of_runPublic hrun, hrel, hrel', hp.trans hp'.symm, ?_, ?_, hpaid⟩
  · rw [ht, ht']
    exact htreasuries
  · rw [hr, hr']
    decide

namespace Sample

/-- A proposal whose id is the seed of its treasury, approved once. -/
def boundProposal : Account :=
  { Account.default with
    programOwner := msigId
    data := ⟨proposalBytes ballotRoot seed 1 [ByteVec.fill 32 12], by
      rw [proposalBytes_length]
      decide⟩ }

def boundLedger : V03State :=
  ledger [(ByteVec.fill 32 13, boundProposal), (treasury, funded 100), (payee, funded 0)] [msigId, transferId]

end Sample

theorem bound_proposal_released_once :
    ∃ s' e f, Run (host {}).toHost boundLedger [e, f] s' ∧ (∃ p t r, e.call.Releases (host {}) p t r 1 seed) ∧
      ∀ before en after p t r threshold sd, [e, f] = before ++ en :: after →
        en.call.Releases (host {}) p t r threshold sd → p.accountId = ByteVec.fill 32 13 → before = [] := by
  have hrun : (runPublic (host {}).toHost boundLedger [drain (ByteVec.fill 32 13) 1 seed payee]).any (fun r =>
      decide (r.1.map (told (host {})) =
        [(.some (.execute 1 seed), [(ByteVec.fill 32 13, 0), (treasury, 100), (payee, 0)]),
          (.none, [(treasury, 100), (payee, 0)])] ∧
        ∀ e ∈ r.1, e.instruction (host {}) = .some (.execute 1 seed) →
          (∀ a ∈ e.output.preStates[0]?, a.account.programOwner = msigId ∧
            readArray 32 (a.account.data.1.drop 32) = .some seed) ∧
          ∀ a ∈ e.output.preStates[1]?, a.account.programOwner = transferId)) = true := by
    decide +kernel
  obtain ⟨⟨es, s'⟩, hrun, hes⟩ := (Option.any_eq_true _ _).mp hrun
  obtain ⟨hes, hstate⟩ := of_decide_eq_true hes
  simp only [List.map_eq_cons_iff, List.map_eq_nil_iff] at hes
  obtain ⟨e, _, rfl, he, f, _, rfl, hf, rfl⟩ := hes
  have hrun : Run (host {}).toHost boundLedger [⟨e, fun _ => true⟩, ⟨f, fun _ => true⟩] s' := run_of_runPublic hrun
  obtain ⟨p, t, r, hrel, hp, ht, -⟩ := releases_of_told he (by decide)
  have hif : f.instruction (host {}) = .none := congrArg Prod.fst hf
  have hsubject : f.subject = .some treasury := by
    have hids := congrArg (List.map (·.1)) (congrArg Prod.snd hf)
    have hacc : f.accountIds = [treasury, payee] := by simpa [told, Executed.accountIds, Function.comp_def] using hids
    simp [Executed.subject, hacc]
  have hdisc : Disciplined (host {}) [] ⟨e, fun _ => true⟩ [⟨f, fun _ => true⟩] p t seed := by
    obtain ⟨h₀, h₁⟩ := hstate e (by simp) hrel.instruction
    obtain ⟨howner, hid⟩ := h₀ p (by simp [hrel.accounts])
    refine ⟨rfl, howner, by simp, hid, ht, rfl, h₁ t (by simp [hrel.accounts]), ?_, ?_⟩
    · intro g rest hafter
      cases hafter
      exact hsubject.trans (congrArg _ ht.symm)
    · intro g rest hafter
      cases hafter
      simp
  have honce := disciplined_releases_once hrun ?_
  · refine ⟨s', _, _, hrun, ⟨p, t, r, hrel⟩, ?_⟩
    intro before en after p' t' r' threshold sd hlog hrel' hp'
    exact (honce before en after p' t' r' threshold sd [] _ _ p t r 1 seed hlog rfl hrel' hrel (hp'.trans hp.symm)).1
  · -- the second call is the transfer
    intro before en after p' t' r' threshold sd hlog hrel'
    rcases before with _ | ⟨b, _ | ⟨b', before⟩⟩ <;>
      simp only [List.nil_append, List.cons_append, List.cons.injEq] at hlog
    · obtain ⟨rfl, rfl⟩ := hlog
      have haccounts := hrel'.accounts.symm.trans hrel.accounts
      have hinstruction := hrel'.instruction.symm.trans hrel.instruction
      cases haccounts
      cases hinstruction
      exact hdisc
    · have hi := hrel'.instruction
      rw [← hlog.2.1, hif] at hi
      cases hi
    · simp at hlog

end

end Lez
