/-
Threshold safety over runs from genesis. An account that `msig` owns came to
it by `CreateProposal` or by `Enroll`, so a proposal account that `msig` owns
and nobody enrolled on was created as a proposal and its count is a number of
votes. `Execute` itself checks neither owner nor layout, and takes a threshold
of zero; `Guarded` is what it leaves to its caller.
-/
import Lez.Multisig.Membership
import Lez.Multisig.Proposal

namespace Lez

open Msig

/-! ## Where accounts of `msig` come from -/

section
variable {H : MsigHost}

/-- At genesis `msig` owns nothing. -/
theorem genesis_not_msig {initialData : List (AccountId × U128)} {initialPrivate : List (Commitment × Nullifier)}
    {genesis : Timestamp} {s : V03State}
    (h : newWithGenesisAccounts H.toHost initialData initialPrivate genesis = .some s) (id : AccountId) :
    (s.getAccountById id).programOwner ≠ H.msigId := by
  rw [V03State.getAccountById, Table.getD]
  cases hl : s.publicState.lookup id with
  | none => exact H.msig_ne_default.symm
  | some a =>
    intro hmsig
    rw [Option.getD_some] at hmsig
    rcases (genesis_lookup h hl).1 with ho | ho
    · exact H.msig_ne_transfer (hmsig.symm.trans ho)
    · exact H.msig_ne_clock (hmsig.symm.trans ho)

/-- **An account of `msig` that nobody enrolled on is a proposal.** -/
theorem History.origin {σ₀ σ : View} {log : List Entry} {p : AccountId} (h : History H σ₀ log σ)
    (hstart : (σ₀ p).programOwner ≠ H.msigId) (howned : (σ p).programOwner = H.msigId)
    (hno : ∀ en ∈ log, ¬en.EnrollsOn H p) :
    ∃ before c after root pid, log = before ++ c :: after ∧ c.CreatesOn H p root pid := by
  induction h with
  | start => exact absurd howned hstart
  | @call log en σ σ' _ heff hran ih =>
    by_cases hbefore : (σ p).programOwner = H.msigId
    · obtain ⟨before, c, after, root, pid, rfl, hc⟩ := ih hbefore fun e he => hno e (List.mem_append_left _ he)
      exact ⟨before, c, after ++ [en], root, pid, by simp, hc⟩
    · obtain ⟨hpub, hen | ⟨root, pid, hc⟩⟩ := becomes_owned heff hran hbefore howned
      · exact absurd ⟨hpub, hen⟩ (hno en (by simp))
      · exact ⟨log, en, [], root, pid, rfl, hpub, hc⟩
  | nonces _ hsame ih =>
    obtain ⟨n, hn⟩ := hsame p
    rw [hn] at howned
    exact ih howned hno

end

/-! ## Releases -/

/-- An `Execute` on these accounts, of a treasury that holds something. -/
structure Executed.Releases (H : MsigHost) (e : Executed) (proposal treasury recipient : AccountWithMetadata)
    (threshold : UInt32) (seed : PdaSeed) : Prop where
  instruction : e.instruction H = .some (.execute threshold seed)
  accounts : e.output.preStates = [proposal, treasury, recipient]
  holds : treasury.account.balance ≠ 0

/-- What `Execute` does not check of the proposal it is given: it is a public
account of `msig`, it has an approval, no `Enroll` named it, and the approvals
of it had paths of the tree's depth. -/
structure Guarded (H : MsigHost) (before : List Entry) (en : Entry) (proposal : AccountWithMetadata) : Prop where
  isPublic : en.isPublic proposal.accountId = true
  owner : proposal.account.programOwner = H.msigId
  approved : 1 ≤ storedCount proposal.account.data.1
  unenrolled : ∀ en ∈ before, ¬en.EnrollsOn H proposal.accountId
  depth : ∀ v ∈ votesOn H proposal.accountId before, v.2.2.length = treeDepth

/-- A log with the creation of the proposal and then enough votes on it, of
different secrets, each a member of whatever leaves have the frozen root. -/
def ApprovedBy (H : MsigHost) (log : List Entry) (p : AccountId) (threshold : Nat) : Prop :=
  ∃ before c after root pid, log = before ++ c :: after ∧ c.CreatesOn H p root pid ∧
    max 1 threshold ≤ (votesOn H p after).length ∧ ((votesOn H p after).map (·.1)).Nodup ∧
    ∀ v ∈ votesOn H p after, ∀ leaves, merkleRoot H.sha256 leaves = root →
      CollisionFree H.sha256 (queries H.sha256 leaves v.1 v.2) → memberLeaf H.sha256 v.1 ∈ leaves

section
variable {H : MsigHost}

/-- A guarded release is approved, in any history in which `msig` owns nothing at first. -/
theorem History.release_approved {σ₀ σ : View} {log before after : List Entry} {en : Entry}
    {proposal treasury recipient : AccountWithMetadata} {threshold : UInt32} {seed : PdaSeed}
    (h : History H σ₀ log σ) (hstart : ∀ id, (σ₀ id).programOwner ≠ H.msigId) (hlog : log = before ++ en :: after)
    (hrel : en.call.Releases H proposal treasury recipient threshold seed) (hg : Guarded H before en proposal) :
    ApprovedBy H before proposal.accountId threshold.toNat := by
  obtain ⟨τ, τ', hbefore, heff, hran, -⟩ := h.before hlog
  have hacc : proposal.account = τ proposal.accountId := heff.pre proposal (by simp [hrel.accounts]) hg.isPublic
  obtain ⟨b, c, a, root, pid, rfl, hc⟩ := hbefore.origin (hstart _) (hacc ▸ hg.owner) hg.unenrolled
  obtain ⟨-, happ⟩ := hbefore.created hc fun e he => hg.unenrolled e (by simp [he])
  have hcount : storedCount proposal.account.data.1 = (votesOn H proposal.accountId a).length :=
    hacc ▸ happ.storedCount
  have hthreshold : threshold.toNat ≤ storedCount proposal.account.data.1 := by
    obtain ⟨pr, t, r, hpre, -, hle, -, -⟩ := process_execute_ok (hran.processed hrel.instruction)
    rw [hrel.accounts] at hpre
    cases hpre
    exact hle
  refine ⟨b, c, a, root, pid, rfl, hc, ?_, happ.secrets_nodup, ?_⟩
  · rw [← hcount]
    exact max_le hg.approved hthreshold
  · intro v hv leaves hroot hfree
    have hdepth : v.2.2.length = treeDepth := by
      refine hg.depth v ?_
      rw [votesOn_append]
      exact List.mem_append_right _ (List.mem_filterMap.mpr (by
        obtain ⟨en, hen, hvote⟩ := List.mem_filterMap.mp hv
        exact ⟨en, List.mem_cons_of_mem _ hen, hvote⟩))
    exact full_path_member hdepth hfree ((happ.layout.2.2 v hv).trans hroot.symm)

/-- **Threshold safety.** In every run from genesis whose releases are all
guarded, every `Execute` of a treasury that holds something was given a
proposal that `CreateProposal` created, approved before by at least the
threshold, and one, of different secrets with leaves under the frozen root. -/
theorem guarded_releases_are_approved {initialData : List (AccountId × U128)}
    {initialPrivate : List (Commitment × Nullifier)} {genesis : Timestamp} {s₀ s : V03State} {log : List Entry}
    (hgenesis : newWithGenesisAccounts H.toHost initialData initialPrivate genesis = .some s₀)
    (hrun : Run H.toHost s₀ log s)
    (hguarded : ∀ before en after proposal treasury recipient threshold seed, log = before ++ en :: after →
      en.call.Releases H proposal treasury recipient threshold seed → Guarded H before en proposal) :
    ∀ before en after proposal treasury recipient threshold seed, log = before ++ en :: after →
      en.call.Releases H proposal treasury recipient threshold seed →
      ApprovedBy H before proposal.accountId threshold.toNat := by
  intro before en after proposal treasury recipient threshold seed hlog hrel
  exact hrun.history.release_approved (genesis_not_msig hgenesis) hlog hrel
    (hguarded before en after proposal treasury recipient threshold seed hlog hrel)

end

section
open Reference

namespace Sample

def payee : AccountId := ByteVec.fill 32 8

def drain (proposal : AccountId) (threshold : UInt32) (seed : PdaSeed) (payee : AccountId) : PublicTransaction :=
  unsigned msigId [proposal, treasuryOf seed, payee] (Serde.writeMsig (.execute threshold seed))

def intruderKey : PublicKey := ByteVec.fill 32 6

/-- An account of the intruder's own. -/
def decoy : AccountId := accountIdFromPublicKey Sha256.hash intruderKey

/-- A registry with one leaf whose last bytes read as a count of approvals. -/
def enrollDecoy : PublicTransaction :=
  signed intruderKey 0 msigId [decoy] (Serde.writeMsig (.enroll (ByteVec.fill 32 255)))

def intruderHost : MsigHost :=
  host { signatures := signaturesOf [enrollDecoy], bytecodes := [([1], msigId)] }

/-- What a call of `msig` was told and given. -/
def told (H : MsigHost) (e : Executed) : Option MsigInstruction × List (AccountId × U128) :=
  (e.instruction H, e.output.preStates.map fun a => (a.accountId, a.account.balance))

theorem releases_of_told {H : MsigHost} {e : Executed} {p t r : AccountId} {a b c : U128} {threshold : UInt32}
    {seed : PdaSeed} (h : told H e = (.some (.execute threshold seed), [(p, a), (t, b), (r, c)])) (hb : b ≠ 0) :
    ∃ proposal tr rc, e.Releases H proposal tr rc threshold seed ∧ proposal.accountId = p ∧ tr.accountId = t ∧
      rc.accountId = r := by
  simp only [told, Prod.mk.injEq, List.map_eq_cons_iff, List.map_eq_nil_iff] at h
  obtain ⟨hi, proposal, _, hpre, ⟨rfl, -⟩, tr, _, rfl, ⟨rfl, rfl⟩, rc, _, rfl, ⟨rfl, -⟩, rfl⟩ := h
  exact ⟨proposal, tr, rc, ⟨hi, hpre, hb⟩, rfl, rfl, rfl⟩

end Sample

open Lez.Sample

theorem decoy_drains_treasury :
    ∃ s₀ s e f g proposal tr rc, newWithGenesisAccounts intruderHost.toHost [(treasury, 100), (payee, 0)] [] 0 = .some s₀ ∧
      Run intruderHost.toHost s₀ [e, f, g] s ∧ f.call.Releases intruderHost proposal tr rc 3 seed ∧
      (s.getAccountById payee).balance = 100 ∧ ¬ApprovedBy intruderHost [e] proposal.accountId 3 := by
  have hrun : (runFromGenesis intruderHost.toHost [(treasury, 100), (payee, 0)] [[1]]
      [enrollDecoy, drain decoy 3 seed payee]).any (fun r =>
        decide (r.1.map (told intruderHost) =
          [(.some (.enroll (ByteVec.fill 32 255)), [(decoy, 0)]),
            (.some (.execute 3 seed), [(decoy, 0), (treasury, 100), (payee, 0)]),
            (.none, [(treasury, 100), (payee, 0)])] ∧
          (r.2.getAccountById payee).balance = 100)) = true := by
    simp only [intruderHost, host_packed, signaturesOf_packed, enrollDecoy, drain, treasury, treasuryOf, decoy,
      Sha256.hash_eq_packed]
    decide +kernel
  obtain ⟨⟨es, s⟩, hrun, hes⟩ := (Option.any_eq_true _ _).mp hrun
  obtain ⟨hes, hpaid⟩ := of_decide_eq_true hes
  simp only [List.map_eq_cons_iff, List.map_eq_nil_iff] at hes
  obtain ⟨e, _, rfl, he, f, _, rfl, hf, g, _, rfl, -, rfl⟩ := hes
  obtain ⟨s₀, hs₀, hrun⟩ := run_of_runFromGenesis hrun
  obtain ⟨proposal, tr, rc, hrel, -, -, -⟩ := releases_of_told hf (by decide)
  refine ⟨s₀, s, _, _, _, proposal, tr, rc, hs₀, hrun, hrel, hpaid, ?_⟩
  rintro ⟨before, c, after, root, pid, hlog, ⟨-, hc, -⟩, -⟩
  obtain ⟨rfl, hec⟩ : before = [] ∧ c :: after = [⟨e, fun _ => true⟩] := by
    rcases List.append_eq_singleton_iff.mp hlog.symm with ⟨hb, hca⟩ | ⟨-, hca⟩
    · exact ⟨hb, hca⟩
    · cases hca
  cases hec
  have hi : e.instruction intruderHost = .some (.enroll (ByteVec.fill 32 255)) := congrArg Prod.fst he
  rw [hi] at hc
  cases hc

namespace Sample

/-- The path of a leaf in the first slot, over siblings that are all empty. -/
def emptyPath : MerkleProof := (0, List.replicate treeDepth emptyLeaf)

def voterRoot : Bytes32 := rootFromPath Sha256.hash (memberLeaf Sha256.hash voter) emptyPath

def proposeRelease : PublicTransaction :=
  signed proposerKey 0 msigId [ballot] (Serde.writeMsig (.createProposal voterRoot emptyLeaf))

def approveRelease : PublicTransaction :=
  unsigned msigId [ballot, riderId Sha256.hash voter] (Serde.writeMsig (.approve voter emptyPath emptyLeaf))

def memberHost : MsigHost :=
  host { signatures := signaturesOf [proposeRelease], bytecodes := [([1], msigId)] }

end Sample

theorem approved_release :
    ∃ s₀ s e₁ e₂ e₃ e₄ proposal tr rc,
      newWithGenesisAccounts memberHost.toHost [(treasury, 100), (payee, 0), (riderId Sha256.hash voter, 1)] [] 0 =
        .some s₀ ∧
      Run memberHost.toHost s₀ [e₁, e₂, e₃, e₄] s ∧ e₃.call.Releases memberHost proposal tr rc 1 seed ∧
      ApprovedBy memberHost [e₁, e₂] proposal.accountId 1 := by
  have hrun : (runFromGenesis memberHost.toHost [(treasury, 100), (payee, 0), (riderId Sha256.hash voter, 1)] [[1]]
      [proposeRelease, approveRelease, drain ballot 1 seed payee]).any (fun r =>
        decide (r.1.map (told memberHost) =
          [(.some (.createProposal voterRoot emptyLeaf), [(ballot, 0)]),
            (.some (.approve voter emptyPath emptyLeaf), [(ballot, 0), (riderId Sha256.hash voter, 1)]),
            (.some (.execute 1 seed), [(ballot, 0), (treasury, 100), (payee, 0)]),
            (.none, [(treasury, 100), (payee, 0)])] ∧
          ∀ e ∈ r.1, e.instruction memberHost = .some (.execute 1 seed) → ∀ a ∈ e.output.preStates.head?,
            a.account.programOwner = msigId ∧ 1 ≤ storedCount a.account.data.1)) = true := by
    simp only [memberHost, host_packed, signaturesOf_packed, proposeRelease, approveRelease, drain, treasury, treasuryOf,
      ballot, voterRoot, Sha256.hash_eq_packed]
    decide +kernel
  obtain ⟨⟨es, s⟩, hrun, hes⟩ := (Option.any_eq_true _ _).mp hrun
  obtain ⟨hes, hstate⟩ := of_decide_eq_true hes
  simp only [List.map_eq_cons_iff, List.map_eq_nil_iff] at hes
  obtain ⟨e₁, _, rfl, h₁, e₂, _, rfl, h₂, e₃, _, rfl, h₃, e₄, _, rfl, h₄, rfl⟩ := hes
  obtain ⟨s₀, hs₀, hrun⟩ := run_of_runFromGenesis hrun
  obtain ⟨proposal, tr, rc, hrel, -, -, -⟩ := releases_of_told h₃ (by decide)
  have hi₁ : e₁.instruction memberHost = .some (.createProposal voterRoot emptyLeaf) := congrArg Prod.fst h₁
  have hi₂ : e₂.instruction memberHost = .some (.approve voter emptyPath emptyLeaf) := congrArg Prod.fst h₂
  have hi₄ : e₄.instruction memberHost = .none := congrArg Prod.fst h₄
  have hguarded : Guarded memberHost [⟨e₁, fun _ => true⟩, ⟨e₂, fun _ => true⟩] ⟨e₃, fun _ => true⟩ proposal := by
    obtain ⟨howner, hcount⟩ := hstate e₃ (by simp) hrel.instruction proposal (by simp [hrel.accounts])
    refine ⟨rfl, howner, hcount, ?_, ?_⟩
    · simp [Entry.EnrollsOn, Executed.Enrolls, hi₁, hi₂]
    · intro v hv
      simp only [votesOn, Entry.voteOn, Executed.voteOn, hi₁, hi₂, List.filterMap_cons, List.filterMap_nil, if_true] at hv
      split at hv
      next => cases hv
      next v' hv' =>
        split at hv'
        next =>
          cases hv'
          rw [List.mem_singleton.mp hv]
          rfl
        next => cases hv'
  have happroved := guarded_releases_are_approved hs₀ hrun ?_ [⟨e₁, fun _ => true⟩, ⟨e₂, fun _ => true⟩]
    ⟨e₃, fun _ => true⟩ [⟨e₄, fun _ => true⟩] proposal tr rc 1 seed rfl hrel
  · exact ⟨s₀, s, _, _, _, _, proposal, tr, rc, hs₀, hrun, hrel, happroved⟩
  · -- the third call is the only release
    intro before en after pr t r threshold sd hlog hrel'
    have hi := hrel'.instruction
    rcases before with _ | ⟨b₁, _ | ⟨b₂, _ | ⟨b₃, _ | ⟨b₄, before⟩⟩⟩⟩ <;>
      simp only [publicEntries, List.map_cons, List.map_nil, List.nil_append, List.cons_append, List.cons.injEq] at hlog
    · rw [← hlog.1, hi₁] at hi
      cases hi
    · rw [← hlog.2.1, hi₂] at hi
      cases hi
    · obtain ⟨rfl, rfl, rfl, -⟩ := hlog
      have hsame := hrel'.accounts.symm.trans hrel.accounts
      cases hsame
      exact hguarded
    · rw [← hlog.2.2.2.1, hi₄] at hi
      cases hi
    · simp at hlog

end

end Lez
