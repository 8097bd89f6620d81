/-
Who changes a registry. `msig` asks no authority of the registry account once
it is claimed, so a public transaction leaves its data alone exactly when no
call of `msig` in it enrolls on the account or takes it for a proposal. That
such a call never goes unnoticed is an ordering of the bytes: an enrollment
raises the count of leaves, an approval raises the count of approvals and
leaves the other where it is, and nothing ever lowers either.
-/
import Lez.State.Transition
import Lez.Trace.Msig
import Mathlib.Data.Prod.Lex

namespace Lez

open Msig

/-- A call that writes to an account of `msig`. -/
def Executed.Writes (H : MsigHost) (e : Executed) (id : AccountId) : Prop :=
  e.Enrolls H id ∨ e.voteOn H id ≠ .none

/-! ## What grows -/

/-- One more than the leaf count of a registry, nothing for bytes too short to be one. -/
def registryMark (data : Bytes) : Nat :=
  if registryHeaderLen ≤ data.length then ofLe ((data.drop 32).take 4) + 1 else 0

/-- The two counts, leaves first. -/
def marks (data : Data) : Nat ×ₗ Nat := toLex (registryMark data.1, storedCount data.1)

theorem enroll_raises {sha256 : Bytes → Bytes32} {registry : AccountWithMetadata} {leaf : Bytes32}
    {post : AccountPostState} (h : enroll sha256 registry leaf = .ok [post]) :
    marks registry.account.data < marks post.account.data := by
  obtain ⟨known, hknown, data, hdata, hpost⟩ := enroll_ok h
  cases hpost
  refine Prod.Lex.toLex_lt_toLex.mpr (.inl ?_)
  have hlen := data.2
  rw [hdata, registryBytes_length, List.length_append, List.length_singleton, dataMaxLength] at hlen
  have hafter : registryMark data.1 = known.length + 2 := by
    rw [registryMark, hdata, registryBytes_count, if_pos (by rw [registryBytes_length]; omega),
      ofLe_toLe_of_lt (by simp; omega), List.length_append, List.length_singleton]
  have hbefore : registryMark registry.account.data.1 ≤ known.length + 1 := by
    unfold registryMark
    unfold readRegistry at hknown
    split at hknown
    next hlong =>
      rw [expect_ok_iff] at hknown
      rw [if_pos hlong, (readArrays_some hknown).1]
    next hshort =>
      rw [if_neg hshort]
      omega
  calc registryMark registry.account.data.1 ≤ known.length + 1 := hbefore
    _ < registryMark data.1 := by omega

/-- On a proposal the mark is read from the first bytes of its id. -/
theorem registryMark_of_id {data : Bytes} {pid : Bytes32} (hlen : registryHeaderLen ≤ data.length)
    (hid : readArray 32 (data.drop 32) = .some pid) : registryMark data = ofLe (pid.toList.take 4) + 1 := by
  rw [registryMark, if_pos hlen, readArray_some hid, List.take_append_of_le_length (by simp)]

theorem approve_raises {sha256 : Bytes → Bytes32} {proposal rider : AccountWithMetadata} {secret pid : Bytes32}
    {path : MerkleProof} {account : Account} {rest : List AccountPostState}
    (h : approve sha256 proposal rider secret path pid = .ok (.new account :: rest)) :
    marks proposal.account.data < marks account.data := by
  obtain ⟨root, recorded, data, hlen, -, hid, -, -, hrec, -, hdata, hpost⟩ := approve_inv h
  cases hpost
  refine Prod.Lex.toLex_lt_toLex.mpr (.inr ⟨?_, ?_⟩)
  · rw [registryMark_of_id (le_trans (by decide) hlen) hid, hdata,
      registryMark_of_id (by rw [proposalBytes_length, registryHeaderLen, proposalHeaderLen]; omega) proposalBytes_id]
  · have hrecorded := (readArrays_some hrec).1
    have hcount := proposalBytes_count_lt hdata (by simp [hrecorded])
    rw [hdata, storedCount_proposalBytes hcount]
    exact Nat.lt_succ_self _

/-! ## Calls and transactions -/

section
variable {H : MsigHost} {isPublic : AccountId → Prop} {e : Executed} {es : List Executed} {σ σ' : View} {id : AccountId}

/-- A call that does not write keeps the data, one that does raises its marks. -/
theorem OwnedStep.keeps_or_raises {a a' : Account} (h : OwnedStep H isPublic e id a a') (hpub : isPublic id) :
    (¬e.Writes H id ∧ a'.data = a.data) ∨ (e.Writes H id ∧ marks a.data < marks a'.data) := by
  cases h with
  | kept hdata hno =>
    obtain ⟨hen, hv⟩ := hno hpub
    exact .inl ⟨fun hw => hw.elim hen fun hne => hne hv, hdata⟩
  | enrolled _ hen hreg henroll hdata =>
    rw [hdata, ← hreg]
    exact .inr ⟨.inl hen, enroll_raises henroll⟩
  | approved _ _ hv hprop happrove hdata =>
    rw [hdata, ← hprop]
    exact .inr ⟨.inr (by simp [hv]), approve_raises happrove⟩

/-- The same for a sequence of calls. -/
theorem Effects.keeps_or_raises (h : Effects isPublic es σ σ') (hran : ∀ e ∈ es, Ran H e) (hpub : isPublic id)
    (howned : (σ id).programOwner = H.msigId) :
    ((∀ e ∈ es, ¬e.Writes H id) ∧ (σ' id).data = (σ id).data) ∨
      ((∃ e ∈ es, e.Writes H id) ∧ marks (σ id).data < marks (σ' id).data) := by
  induction h with
  | nil => exact .inl ⟨by simp, rfl⟩
  | @cons e es σ τ σ' he _ ih =>
    have howned' : (τ id).programOwner = H.msigId := (he.owner (howned ▸ H.msig_ne_default)).trans howned
    have hstep := (owned_step he (hran e List.mem_cons_self) howned).keeps_or_raises hpub
    rcases ih (fun e he => hran e (List.mem_cons_of_mem _ he)) howned' with ⟨hno, hdata⟩ | ⟨⟨w, hw, hwrites⟩, hlt⟩
    · rcases hstep with ⟨hn, hd⟩ | ⟨hw, hlt⟩
      · exact .inl ⟨List.forall_mem_cons.mpr ⟨hn, hno⟩, hdata.trans hd⟩
      · exact .inr ⟨⟨e, List.mem_cons_self, hw⟩, hdata ▸ hlt⟩
    · refine .inr ⟨⟨w, List.mem_cons_of_mem _ hw, hwrites⟩, ?_⟩
      rcases hstep with ⟨-, hd⟩ | ⟨-, hlt'⟩
      · exact hd ▸ hlt
      · exact hlt'.trans hlt

/-- **When a transaction leaves a registry alone.** Of an account that `msig`
owns, a public transaction its key did not sign keeps the data exactly when no
call of `msig` in it is an `Enroll` on the account or an `Approve` of it. -/
theorem registry_kept_iff_unwritten {s s' : V03State} {blockId : BlockId} {timestamp : Timestamp}
    {tx : PublicTransaction} {r : AccountId}
    (h : s.transitionFromPublicTransaction H.toHost tx blockId timestamp = .some s')
    (howned : (s.getAccountById r).programOwner = H.msigId) :
    (r ∉ signerAccountIds H.toHost tx.signaturesAndPublicKeys →
        (s'.getAccountById r).data = (s.getAccountById r).data) ↔
      (r ∉ signerAccountIds H.toHost tx.signaturesAndPublicKeys →
        ∀ e ∈ publicCalls H.toHost s blockId timestamp tx, ¬e.Writes H r) := by
  obtain ⟨diff, hok, happly⟩ := V03State.settle_eq_some.mp h
  have hacc := fromPublicTransaction_ok hok
  obtain ⟨n, hs', -⟩ := applyStateDiff_account happly r
  have hdata : (s'.getAccountById r).data = (viewOf s diff.publicDiff r).data := by rw [hs']
  have howned' : (viewOf s ∅ r).programOwner = H.msigId := howned
  have hcases := hacc.exec.effects.keeps_or_raises hacc.exec.ran trivial howned'
  refine imp_congr_right fun _ => ?_
  rw [hdata]
  rcases hcases with ⟨hno, hkept⟩ | ⟨⟨e, he, hw⟩, hlt⟩
  · exact iff_of_true hkept hno
  · refine iff_of_false ?_ fun hno => hno e he hw
    intro hkept
    rw [hkept] at hlt
    exact lt_irrefl _ hlt

end

section
open Reference

namespace Sample

def member : Bytes32 := ByteVec.fill 32 1

def registryKey : AccountId := ByteVec.fill 32 9

/-- A claimed registry with one member. -/
def registryAccount : Account :=
  { Account.default with
    programOwner := msigId
    data := ⟨registryBytes (merkleRoot Sha256.hash [member]) [member], by
      rw [registryBytes_length]
      decide⟩ }

def registryLedger : V03State := ledger [(registryKey, registryAccount)] [msigId, programId 100]

/-- An enrollment nobody signed. -/
def strangerEnrolls : PublicTransaction :=
  unsigned msigId [registryKey] (Serde.writeMsig (.enroll (ByteVec.fill 32 2)))

end Sample

open Lez.Sample

theorem unsigned_enroll_rewrites_registry :
    ∃ s', registryLedger.transitionFromPublicTransaction (host {}).toHost strangerEnrolls 0 0 = .some s' ∧
      (registryLedger.getAccountById registryKey).programOwner = (host {}).msigId ∧
      registryKey ∉ signerAccountIds (host {}).toHost strangerEnrolls.signaturesAndPublicKeys ∧
      (s'.getAccountById registryKey).data ≠ (registryLedger.getAccountById registryKey).data := by
  have hrun : (registryLedger.transitionFromPublicTransaction (host {}).toHost strangerEnrolls 0 0).any (fun s' =>
      decide ((s'.getAccountById registryKey).data ≠ (registryLedger.getAccountById registryKey).data)) = true := by
    rw [host_packed]
    decide +kernel
  obtain ⟨s', hs', hdata⟩ := (Option.any_eq_true _ _).mp hrun
  exact ⟨s', hs', rfl, by simp [strangerEnrolls, unsigned, signerAccountIds], of_decide_eq_true hdata⟩

namespace Sample

/-- Another program is given the registry. -/
def bystander : PublicTransaction := unsigned (programId 100) [registryKey] []

end Sample

theorem bystander_keeps_registry :
    ∃ s', registryLedger.transitionFromPublicTransaction (host { programs := fun _ => idle }).toHost bystander 0 0 =
        .some s' ∧
      (s'.getAccountById registryKey).data = (registryLedger.getAccountById registryKey).data := by
  let H := host { programs := fun _ => idle }
  have hrun : (registryLedger.transitionFromPublicTransaction H.toHost bystander 0 0).isSome ∧
      ∀ e ∈ publicCalls H.toHost registryLedger 0 0 bystander, e.program ≠ H.msigId := by decide +kernel
  obtain ⟨hsome, hno⟩ := hrun
  obtain ⟨s', hs'⟩ := Option.isSome_iff_exists.mp hsome
  refine ⟨s', hs', (registry_kept_iff_unwritten hs' rfl).mpr ?_ (by simp [bystander, unsigned, signerAccountIds])⟩
  rintro - e he (⟨⟨leaf, hleaf⟩, -⟩ | hvote)
  · exact hno e he (Executed.program_of_instruction hleaf)
  · obtain ⟨v, hv⟩ := Option.ne_none_iff_exists'.mp hvote
    obtain ⟨⟨pid, hpid⟩, -⟩ := Executed.voteOn_some hv
    exact hno e he (Executed.program_of_instruction hpid)

end

end Lez
