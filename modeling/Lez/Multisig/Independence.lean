/-
Votes on different proposals. A vote nullifier hashes the secret and the id
of the proposal, and `CreateProposal` takes any id: two proposals of one id
record one value for one voter, and the two approvals can be linked. With
fresh ids, and nobody enrolling on a proposal, no recorded nullifier is
recorded twice.
-/
import Lez.Multisig.Proposal

namespace Lez

open Msig

/-- The nullifiers a proposal's bytes record. -/
def recordedNullifiers (data : Bytes) : List Bytes32 :=
  (readArrays (storedCount data) (data.drop proposalHeaderLen)).getD []

/-- A log creates the account as a proposal. -/
def Creation (H : MsigHost) (log : List Entry) (p : AccountId) (pid : Bytes32) : Prop :=
  ∃ c ∈ log, ∃ root, c.CreatesOn H p root pid

/-- **No nullifier is recorded by two proposals** of the log. -/
def VotesApart (H : MsigHost) (log : List Entry) (σ : View) : Prop :=
  ∀ p q pid pid', p ≠ q → Creation H log p pid → Creation H log q pid' →
    ∀ n ∈ recordedNullifiers (σ p).data.1, n ∉ recordedNullifiers (σ q).data.1

/-- A call that creates no proposal of an id used before, and does not enroll on a proposal. -/
structure FreshId (H : MsigHost) (before : List Entry) (en : Entry) : Prop where
  id : ∀ p root pid q, en.CreatesOn H p root pid → ¬Creation H before q pid
  enroll : ∀ p pid, Creation H before p pid → ¬en.EnrollsOn H p

/-- The strings hashed to vote nullifiers on the proposals of a log. -/
def votePreimages (H : MsigHost) (log : List Entry) : Set Bytes :=
  { b | ∃ p pid v, Creation H log p pid ∧ v ∈ votesOn H p log ∧ b = nullDomain ++ v.1.toList ++ pid.toList }

section
variable {H : MsigHost} {σ₀ σ : View} {log : List Entry} {p q : AccountId} {pid pid' : Bytes32}

/-- A proposal records the nullifiers of votes of the log, under its id. -/
theorem History.recorded (h : History H σ₀ log σ) (hc : Creation H log p pid)
    (hfresh : ∀ before en after, log = before ++ en :: after → FreshId H before en) {n : Bytes32}
    (hn : n ∈ recordedNullifiers (σ p).data.1) : ∃ v ∈ votesOn H p log, n = voteNullifier H.sha256 v.1 pid := by
  obtain ⟨c, hmem, root, hc⟩ := hc
  obtain ⟨before, after, rfl⟩ := List.mem_iff_append.mp hmem
  have hno : ∀ en ∈ after, ¬en.EnrollsOn H p := by
    intro en hen
    obtain ⟨mid, later, rfl⟩ := List.mem_iff_append.mp hen
    exact (hfresh (before ++ c :: mid) en later (by simp)).enroll p pid ⟨c, by simp, root, hc⟩
  obtain ⟨-, happ⟩ := h.created hc hno
  obtain ⟨hdata, -, -⟩ := happ.layout
  have hread := readArrays_flatten (nullifiers H.sha256 pid (votesOn H p after)) []
  rw [nullifiers_length, List.append_nil] at hread
  rw [recordedNullifiers, happ.storedCount, hdata, proposalBytes_nullifiers, hread, Option.getD_some, nullifiers,
    List.mem_map] at hn
  obtain ⟨v, hv, rfl⟩ := hn
  refine ⟨v, ?_, rfl⟩
  rw [votesOn_append, ← List.singleton_append, votesOn_append]
  simp [hv]

/-- Of two elements of a list one comes first, or they are one. -/
theorem mem_split {α : Type} {l : List α} {a b : α} (ha : a ∈ l) (hb : b ∈ l) :
    a = b ∨ (∃ before after, l = before ++ b :: after ∧ a ∈ before) ∨
      ∃ before after, l = before ++ a :: after ∧ b ∈ before := by
  obtain ⟨before, after, rfl⟩ := List.mem_iff_append.mp ha
  rcases List.mem_append.mp hb with hbefore | hb
  · exact .inr (.inr ⟨before, after, rfl, hbefore⟩)
  rcases List.mem_cons.mp hb with rfl | hafter
  · exact .inl rfl
  · obtain ⟨mid, later, rfl⟩ := List.mem_iff_append.mp hafter
    exact .inr (.inl ⟨before ++ a :: mid, later, by simp, by simp⟩)

/-- Fresh ids are different for different proposals. -/
theorem creation_ids_differ (hfresh : ∀ before en after, log = before ++ en :: after → FreshId H before en)
    (hne : p ≠ q) (hp : Creation H log p pid) (hq : Creation H log q pid') : pid ≠ pid' := by
  rintro rfl
  obtain ⟨c, hmem, root, hc⟩ := hp
  obtain ⟨c', hmem', root', hc'⟩ := hq
  rcases mem_split hmem hmem' with rfl | ⟨before, after, hlog, hbefore⟩ | ⟨before, after, hlog, hbefore⟩
  · exact hne (Option.some.inj (hc.2.2.symm.trans hc'.2.2))
  · exact (hfresh before c' after hlog).id q root' pid p hc' ⟨c, hbefore, root, hc⟩
  · exact (hfresh before c after hlog).id p root pid q hc ⟨c', hbefore, root', hc'⟩

/-- **Fresh ids keep votes apart.** In every run in which no proposal is created with an id used before and nobody
enrolls on a proposal, no nullifier is recorded by two proposals. The hash is assumed injective on the strings
hashed to nullifiers in the run. -/
theorem fresh_ids_keep_votes_apart {s s' : V03State} (hrun : Run H.toHost s log s')
    (hfresh : ∀ before en after, log = before ++ en :: after → FreshId H before en)
    (hinj : Set.InjOn H.sha256 (votePreimages H log)) : VotesApart H log s'.getAccountById := by
  intro p q pid pid' hne hp hq n hn hn'
  obtain ⟨v, hv, rfl⟩ := hrun.history.recorded hp hfresh hn
  obtain ⟨w, hw, hsame⟩ := hrun.history.recorded hq hfresh hn'
  have hpre := hinj ⟨p, pid, v, hp, hv, rfl⟩ ⟨q, pid', w, hq, hw, rfl⟩ hsame
  have hlen : (nullDomain ++ v.1.toList).length = (nullDomain ++ w.1.toList).length := by simp
  have hids := (List.append_inj hpre hlen).2
  exact creation_ids_differ hfresh hne hp hq (Subtype.ext hids)

end

namespace Sample

open Reference (host msigId signed signaturesOf unsigned)

def secondKey : PublicKey := ByteVec.fill 32 5

def secondBallot : AccountId := accountIdFromPublicKey Sha256.hash secondKey

def createSecond (pid : Bytes32) : PublicTransaction :=
  signed secondKey 0 msigId [secondBallot] (Serde.writeMsig (.createProposal ballotRoot pid))

def approveSecond : PublicTransaction :=
  unsigned msigId [secondBallot, riderId Sha256.hash voter] (Serde.writeMsig (.approve voter (0, []) emptyLeaf))

def twinHost : MsigHost := host { signatures := signaturesOf [createBallot, createSecond emptyLeaf] }

def otherId : Bytes32 := ByteVec.fill 32 9

def freshHost : MsigHost := host { signatures := signaturesOf [createBallot, createSecond otherId] }

/-- What a call of `msig` was told, and the account it is about. -/
def toldOf (H : MsigHost) (en : Entry) : Option MsigInstruction × Option AccountId :=
  (en.call.instruction H, en.call.subject)

variable {H : MsigHost} {log : List Entry} {es : List Executed} {p : AccountId} {root pid : Bytes32}

theorem toldOf_creates (h : Creation H log p pid) :
    ∃ root, (.some (.createProposal root pid), .some p) ∈ log.map (toldOf H) := by
  obtain ⟨c, hmem, root, hc⟩ := h
  exact ⟨root, List.mem_map.mpr ⟨c, hmem, Prod.ext hc.2.1 hc.2.2⟩⟩

theorem toldOf_votes {v : Vote} (h : v ∈ votesOn H p log) :
    ∃ pid, (.some (.approve v.1 v.2 pid), .some p) ∈ log.map (toldOf H) := by
  obtain ⟨en, hmem, hvote⟩ := List.mem_filterMap.mp h
  unfold Entry.voteOn at hvote
  split at hvote
  next =>
    obtain ⟨⟨pid, hi⟩, hsubject⟩ := Executed.voteOn_some hvote
    exact ⟨pid, List.mem_map.mpr ⟨en, hmem, Prod.ext hi hsubject⟩⟩
  next => cases hvote

theorem creation_of_told (h : (.some (.createProposal root pid), .some p) ∈ (publicEntries es).map (toldOf H)) :
    Creation H (publicEntries es) p pid := by
  obtain ⟨c, hmem, htold⟩ := List.mem_map.mp h
  obtain ⟨e, -, rfl⟩ := List.mem_map.mp hmem
  exact ⟨_, hmem, root, rfl, congrArg Prod.fst htold, congrArg Prod.snd htold⟩

/-- The id of a proposal a call was told to create. -/
def idTold : Option MsigInstruction × Option AccountId → Option Bytes32
  | (.some (.createProposal _ pid), _) => .some pid
  | _ => .none

/-- Calls told different ids, and never to enroll, are fresh. -/
theorem fresh_of_told (hids : ((log.map (toldOf H)).filterMap idTold).Nodup)
    (hno : ∀ leaf told, (.some (.enroll leaf), told) ∉ log.map (toldOf H)) {before after : List Entry} {en : Entry}
    (hlog : log = before ++ en :: after) : FreshId H before en := by
  subst hlog
  refine ⟨?_, ?_⟩
  · intro p root pid q hc hbefore
    obtain ⟨root', hbefore⟩ := toldOf_creates hbefore
    have htold : toldOf H en = (.some (.createProposal root pid), .some p) := Prod.ext hc.2.1 hc.2.2
    rw [List.map_append, List.map_cons, htold, List.filterMap_append, List.nodup_append] at hids
    exact hids.2.2 pid (List.mem_filterMap.mpr ⟨_, hbefore, rfl⟩) pid (List.mem_filterMap.mpr ⟨_, List.mem_cons_self, rfl⟩)
      rfl
  · rintro p pid - ⟨-, ⟨leaf, hleaf⟩, -⟩
    exact hno leaf _ (List.mem_map.mpr ⟨en, by simp, Prod.ext hleaf rfl⟩)

/-- Where one vote was told, one string is hashed to a nullifier. -/
theorem votePreimages_single {secret : Bytes32}
    (hone : ∀ root pid' secret' path pid'' p, (.some (.createProposal root pid'), .some p) ∈ log.map (toldOf H) →
      (.some (.approve secret' path pid''), .some p) ∈ log.map (toldOf H) → pid' = pid ∧ secret' = secret) :
    Set.InjOn H.sha256 (votePreimages H log) := by
  have hstring : ∀ b ∈ votePreimages H log, b = nullDomain ++ secret.toList ++ pid.toList := by
    rintro b ⟨p, pid', v, hc, hv, rfl⟩
    obtain ⟨root, hc⟩ := toldOf_creates hc
    obtain ⟨pid'', hv⟩ := toldOf_votes hv
    obtain ⟨hpid, hsecret⟩ := hone root pid' v.1 v.2 pid'' p hc hv
    rw [hpid, hsecret]
  intro b hb b' hb' _
  rw [hstring b hb, hstring b' hb']

end Sample

open Lez.Sample in
theorem fresh_ballots_apart :
    ∃ log s', Run freshHost.toHost ballotLedger log s' ∧ (votesOn freshHost ballot log).length = 1 ∧
      VotesApart freshHost log s'.getAccountById := by
  have hrun : (runPublic freshHost.toHost ballotLedger [createBallot, approveBallot, createSecond otherId]).any
      (fun r => decide ((publicEntries r.1).map (toldOf freshHost) =
        [(.some (.createProposal ballotRoot emptyLeaf), .some ballot),
          (.some (.approve voter (0, []) emptyLeaf), .some ballot),
          (.some (.createProposal ballotRoot otherId), .some secondBallot)] ∧ ballot ≠ secondBallot ∧
        (votesOn freshHost ballot (publicEntries r.1)).length = 1)) = true := by
    simp only [freshHost, Reference.host_packed, Reference.signaturesOf_packed, ballotLedger, createBallot, approveBallot,
      createSecond, ballot, secondBallot, ballotRoot, Sha256.hash_eq_packed]
    decide +kernel
  obtain ⟨⟨es, s'⟩, hrun, hes⟩ := (Option.any_eq_true _ _).mp hrun
  obtain ⟨htold, hne, hvote⟩ := of_decide_eq_true hes
  have hrun := run_of_runPublic hrun
  refine ⟨publicEntries es, s', hrun, hvote, fresh_ids_keep_votes_apart hrun ?_ ?_⟩
  · intro before en after hlog
    refine fresh_of_told ?_ ?_ hlog
    · rw [htold]
      decide
    · intro leaf told
      rw [htold]
      simp
  · refine @votePreimages_single _ _ emptyLeaf voter fun root pid' secret' path pid'' p hc hv => ?_
    rw [htold] at hc hv
    simp only [List.mem_cons, Prod.mk.injEq, Option.some.injEq, MsigInstruction.createProposal.injEq,
      MsigInstruction.approve.injEq, reduceCtorEq, false_and, List.not_mem_nil, or_false, false_or] at hc hv
    obtain ⟨⟨hsecret, -⟩, rfl⟩ := hv
    rcases hc with ⟨⟨-, hpid⟩, -⟩ | ⟨-, hsame⟩
    · exact ⟨hpid, hsecret⟩
    · exact absurd hsame hne

open Lez.Sample in
/-- One member approves two proposals of one id. -/
theorem twin_ballots_share_nullifier :
    ∃ log s', Run twinHost.toHost ballotLedger log s' ∧ Set.InjOn twinHost.sha256 (votePreimages twinHost log) ∧
      ¬VotesApart twinHost log s'.getAccountById := by
  have hrun : (runPublic twinHost.toHost ballotLedger [createBallot, approveBallot, createSecond emptyLeaf,
      approveSecond]).any (fun r => decide ((publicEntries r.1).map (toldOf twinHost) =
        [(.some (.createProposal ballotRoot emptyLeaf), .some ballot),
          (.some (.approve voter (0, []) emptyLeaf), .some ballot),
          (.some (.createProposal ballotRoot emptyLeaf), .some secondBallot),
          (.some (.approve voter (0, []) emptyLeaf), .some secondBallot)] ∧ ballot ≠ secondBallot ∧
        (r.2.getAccountById ballot).data = (r.2.getAccountById secondBallot).data ∧
        recordedNullifiers (r.2.getAccountById ballot).data.1 ≠ [])) = true := by
    simp only [twinHost, Reference.host_packed, Reference.signaturesOf_packed, ballotLedger, createBallot, approveBallot,
      createSecond, approveSecond, ballot, secondBallot, ballotRoot, Sha256.hash_eq_packed]
    decide +kernel
  obtain ⟨⟨es, s'⟩, hrun, hes⟩ := (Option.any_eq_true _ _).mp hrun
  obtain ⟨htold, hne, hdata, hrecorded⟩ := of_decide_eq_true hes
  refine ⟨publicEntries es, s', run_of_runPublic hrun, ?_, ?_⟩
  · refine @votePreimages_single _ _ emptyLeaf voter fun root pid' secret' path pid'' p hc hv => ?_
    rw [htold] at hc hv
    simp only [List.mem_cons, Prod.mk.injEq, Option.some.injEq, MsigInstruction.createProposal.injEq,
      MsigInstruction.approve.injEq, reduceCtorEq, false_and, List.not_mem_nil, or_false, false_or] at hc hv
    exact ⟨hc.elim (·.1.2) (·.1.2), hv.elim (·.1.1) (·.1.1)⟩
  · intro hapart
    have hfirst : Creation twinHost (publicEntries es) ballot emptyLeaf := creation_of_told (htold ▸ List.mem_cons_self)
    have hsecond : Creation twinHost (publicEntries es) secondBallot emptyLeaf :=
      creation_of_told (htold ▸ List.mem_cons_of_mem _ (List.mem_cons_of_mem _ List.mem_cons_self))
    obtain ⟨n, hn⟩ := List.exists_mem_of_ne_nil _ hrecorded
    exact hapart ballot secondBallot _ _ hne hfirst hsecond n hn (hdata ▸ hn)

end Lez
