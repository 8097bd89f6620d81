/-
A proposal over any run. Its bytes are those of the approvals logged since it
was created, so its root and id are frozen and nobody votes twice, as long as
nobody enrolls on it: `Enroll` takes any account of `msig` for a registry and
writes registry bytes over the proposal.
-/
import Lez.Trace.Run

namespace Lez

open Msig

namespace Entry

variable (H : MsigHost) (en : Entry) (id : AccountId)

/-- `CreateProposal` of a public account. -/
def CreatesOn (root pid : Bytes32) : Prop := en.isPublic id = true ∧ en.call.Creates H id root pid

/-- `Enroll` on a public account. -/
def EnrollsOn : Prop := en.isPublic id = true ∧ en.call.Enrolls H id

/-- The vote of an `Approve` on a public account. -/
def voteOn : Option Vote := if en.isPublic id then en.call.voteOn H id else .none

end Entry

/-- The votes of a log on an account. -/
def votesOn (H : MsigHost) (id : AccountId) (log : List Entry) : List Vote := log.filterMap fun en => en.voteOn H id

section
variable {H : MsigHost} {σ₀ σ σ' : View} {log : List Entry} {en : Entry} {p : AccountId} {root pid : Bytes32}
  {votes : List Vote}

theorem votesOn_append (log later : List Entry) : votesOn H p (log ++ later) = votesOn H p log ++ votesOn H p later := by
  simp [votesOn]

/-- One call on a proposal of `msig`, not an enrollment: its votes stay or gain one. -/
theorem OwnedStep.approvals {a a' : Account} (h : OwnedStep H (fun id => en.isPublic id = true) en.call p a a')
    (hno : ¬en.EnrollsOn H p) (happ : Approvals H.sha256 root pid votes a.data) :
    Approvals H.sha256 root pid (votes ++ votesOn H p [en]) a'.data := by
  cases h with
  | kept hdata hquiet =>
    have hnone : en.voteOn H p = .none := by
      unfold Entry.voteOn
      split
      next hpub => exact (hquiet hpub).2
      next => rfl
    simpa [votesOn, hnone, hdata] using happ
  | enrolled hpub hen => exact absurd ⟨hpub, hen⟩ hno
  | @approved proposal rider secret pid' path account rest hpub _ hv hprop happrove hdata =>
    have hvote : en.voteOn H p = .some (secret, path) := by rw [Entry.voteOn, if_pos hpub, hv]
    have hvotes : votesOn H p [en] = [(secret, path)] := by simp [votesOn, hvote]
    rw [hvotes, hdata]
    exact .vote (hprop ▸ happ) happrove

/-- **A proposal's bytes are its votes** over any history without enrollments on it. -/
theorem History.proposal (h : History H σ₀ log σ) (howned : (σ₀ p).programOwner = H.msigId)
    (happ : Approvals H.sha256 root pid votes (σ₀ p).data) (hno : ∀ en ∈ log, ¬en.EnrollsOn H p) :
    (σ p).programOwner = H.msigId ∧ Approvals H.sha256 root pid (votes ++ votesOn H p log) (σ p).data := by
  induction h with
  | start => exact ⟨howned, by simpa [votesOn] using happ⟩
  | @call log en σ σ' _ heff hran ih =>
    obtain ⟨howned', happ'⟩ := ih fun e he => hno e (List.mem_append_left _ he)
    refine ⟨(heff.owner (howned' ▸ H.msig_ne_default)).trans howned', ?_⟩
    rw [votesOn_append, ← List.append_assoc]
    exact (owned_step heff hran howned').approvals (hno en (by simp)) happ'
  | nonces _ hsame ih =>
    obtain ⟨n, hn⟩ := hsame p
    rw [hn]
    exact ih hno

/-- What is frozen of a proposal, and what its bytes say of the votes on it. -/
structure Frozen (root pid : Bytes32) (votes : List Vote) (data : Bytes) : Prop where
  root : readArray 32 data = .some root
  id : readArray 32 (data.drop 32) = .some pid
  length : data.length = proposalHeaderLen + 32 * storedCount data
  count : storedCount data = votes.length
  nullifiers : ∃ ns, readArrays (storedCount data) (data.drop proposalHeaderLen) = .some ns ∧ ns.Nodup
  secrets : (votes.map (·.1)).Nodup

theorem Msig.Approvals.frozen {sha256 : Bytes → Bytes32} {data : Data} (h : Approvals sha256 root pid votes data) :
    Frozen root pid votes data.1 := by
  obtain ⟨hdata, hnodup, -⟩ := h.layout
  have hcount := h.storedCount
  refine ⟨?_, ?_, ?_, hcount, ⟨nullifiers sha256 pid votes, ?_, hnodup⟩, h.secrets_nodup⟩
  · rw [hdata, proposalBytes_root]
  · rw [hdata, proposalBytes_id]
  · rw [hcount, hdata, proposalBytes_length, nullifiers_length]
  · have hread := readArrays_flatten (nullifiers sha256 pid votes) []
    rw [nullifiers_length, List.append_nil] at hread
    rw [hcount, hdata, proposalBytes_nullifiers, hread]

/-- A created proposal, after any later history without enrollments on it. -/
theorem History.created {before after : List Entry} {c : Entry} (h : History H σ₀ (before ++ c :: after) σ)
    (hc : c.CreatesOn H p root pid) (hno : ∀ en ∈ after, ¬en.EnrollsOn H p) :
    (σ p).programOwner = H.msigId ∧ Approvals H.sha256 root pid (votesOn H p after) (σ p).data := by
  obtain ⟨τ, τ', -, heff, hran, hafter⟩ := h.before rfl
  obtain ⟨howned, hdata⟩ := created_step heff hran hc.2 hc.1
  simpa using hafter.proposal howned (.fresh hdata) hno

/-- **Proposals are frozen and votes are counted once.** In every run, after
`CreateProposal` has created a public account and whatever transactions came
since, if no `Enroll` has named the account its bytes keep their root and id,
are as long as their count says, hold as many different nullifiers, and count
the accepted approvals, no two of them of one secret; and the count of any
state of the run is at least that of an earlier one. -/
theorem proposal_frozen_without_enroll {s s' s'' : V03State} {before after later : List Entry} {c : Entry}
    (hrun : Run H.toHost s (before ++ c :: after) s') (hlater : Run H.toHost s' later s'')
    (hc : c.CreatesOn H p root pid) (hno : ∀ en ∈ after ++ later, ¬en.EnrollsOn H p) :
    Frozen root pid (votesOn H p (after ++ later)) (s''.getAccountById p).data.1 ∧
      storedCount (s'.getAccountById p).data.1 ≤ storedCount (s''.getAccountById p).data.1 := by
  have hall : History H s.getAccountById (before ++ c :: (after ++ later)) s''.getAccountById := by
    simpa using (hrun.append hlater).history
  have hmid := (hrun.history.created hc fun en hen => hno en (List.mem_append_left _ hen)).2
  have hend := (hall.created hc hno).2
  refine ⟨hend.frozen, ?_⟩
  rw [hmid.storedCount, hend.storedCount, votesOn_append, List.length_append]
  exact Nat.le_add_right _ _

end

section
open Reference

namespace Sample

def proposerKey : PublicKey := ByteVec.fill 32 3

def ballot : AccountId := accountIdFromPublicKey Sha256.hash proposerKey

def voter : Bytes32 := ByteVec.fill 32 4

/-- A proposal whose only member is the voter: the root is a leaf. -/
def ballotRoot : Bytes32 := memberLeaf Sha256.hash voter

def createBallot : PublicTransaction :=
  signed proposerKey 0 msigId [ballot] (Serde.writeMsig (.createProposal ballotRoot emptyLeaf))

def ballotHost : MsigHost := host { signatures := signaturesOf [createBallot] }

def ballotLedger : V03State := ledger [(riderId Sha256.hash voter, funded 1)] [msigId]

def approveBallot : PublicTransaction :=
  unsigned msigId [ballot, riderId Sha256.hash voter] (Serde.writeMsig (.approve voter (0, []) emptyLeaf))

/-- Nobody signs this, and the account is no registry. -/
def enrollOnBallot : PublicTransaction :=
  unsigned msigId [ballot] (Serde.writeMsig (.enroll (ByteVec.fill 32 255)))

end Sample

open Lez.Sample

theorem approved_ballot_frozen :
    ∃ s' c e, Run ballotHost.toHost ballotLedger [c, e] s' ∧ c.CreatesOn ballotHost ballot ballotRoot emptyLeaf ∧
      votesOn ballotHost ballot [e] = [(voter, (0, []))] ∧
      Frozen ballotRoot emptyLeaf [(voter, (0, []))] (s'.getAccountById ballot).data.1 := by
  have hrun : (runPublic ballotHost.toHost ballotLedger [createBallot, approveBallot]).any (fun r =>
      decide (r.1.map (fun e => (e.instruction ballotHost, e.subject)) =
        [(.some (.createProposal ballotRoot emptyLeaf), .some ballot),
          (.some (.approve voter (0, []) emptyLeaf), .some ballot)])) = true := by
    simp only [ballotHost, Reference.host_packed, Reference.signaturesOf_packed, ballotLedger, createBallot, approveBallot,
      ballot, ballotRoot, Sha256.hash_eq_packed]
    decide +kernel
  obtain ⟨⟨es, s'⟩, hrun, hes⟩ := (Option.any_eq_true _ _).mp hrun
  have hes := of_decide_eq_true hes
  simp only [List.map_eq_cons_iff, List.map_eq_nil_iff, Prod.mk.injEq] at hes
  obtain ⟨c, _, rfl, hc, e, _, rfl, he, rfl⟩ := hes
  have hrun : Run ballotHost.toHost ballotLedger ([] ++ ⟨c, fun _ => true⟩ :: [⟨e, fun _ => true⟩]) s' :=
    run_of_runPublic hrun
  have hcreated : Entry.CreatesOn ballotHost ⟨c, fun _ => true⟩ ballot ballotRoot emptyLeaf := ⟨rfl, hc⟩
  have hvotes : votesOn ballotHost ballot [⟨e, fun _ => true⟩] = [(voter, (0, []))] := by
    simp [votesOn, Entry.voteOn, Executed.voteOn, he.1, he.2]
  have hno : ¬Entry.EnrollsOn ballotHost ⟨e, fun _ => true⟩ ballot := by
    rintro ⟨-, ⟨leaf, hleaf⟩, -⟩
    rw [he.1] at hleaf
    cases hleaf
  have hfrozen := (proposal_frozen_without_enroll hrun .start hcreated (by simpa using hno)).1
  exact ⟨s', _, _, hrun, hcreated, hvotes, hvotes ▸ hfrozen⟩

theorem enroll_overwrites_ballot :
    ∃ s' c e, Run ballotHost.toHost ballotLedger [c, e] s' ∧ c.CreatesOn ballotHost ballot ballotRoot emptyLeaf ∧
      ¬Frozen ballotRoot emptyLeaf (votesOn ballotHost ballot [e]) (s'.getAccountById ballot).data.1 := by
  have hrun : (runPublic ballotHost.toHost ballotLedger [createBallot, enrollOnBallot]).any (fun r =>
      decide (r.1.map (fun e => (e.instruction ballotHost, e.subject)) =
        [(.some (.createProposal ballotRoot emptyLeaf), .some ballot),
          (.some (.enroll (ByteVec.fill 32 255)), .some ballot)] ∧
        readArray 32 (r.2.getAccountById ballot).data.1 ≠ .some ballotRoot)) = true := by
    simp only [ballotHost, Reference.host_packed, Reference.signaturesOf_packed, ballotLedger, createBallot,
      enrollOnBallot, ballot, ballotRoot, Sha256.hash_eq_packed]
    decide +kernel
  obtain ⟨⟨es, s'⟩, hrun, hes⟩ := (Option.any_eq_true _ _).mp hrun
  obtain ⟨hes, hroot⟩ := of_decide_eq_true hes
  simp only [List.map_eq_cons_iff, List.map_eq_nil_iff, Prod.mk.injEq] at hes
  obtain ⟨c, _, rfl, hc, e, _, rfl, -, rfl⟩ := hes
  exact ⟨s', _, _, run_of_runPublic hrun, ⟨rfl, hc⟩, fun hfrozen => hroot hfrozen.root⟩

end

end Lez
