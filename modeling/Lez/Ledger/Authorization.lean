/-
Authorization on the public path. The work list keeps, with each pending
call, the set of accounts its callers hold authority over; the invariant is
that this set never exceeds the authority that came down the call's own path
(`Pending.Bounded`), so no branch of a call tree sees another's.
-/
import Lez.Programs.MsigHost
import Lez.Trace.Public

namespace Lez

/-- A pending call with no more authority than its path, and whose caller is
the last step of the path. -/
structure Pending.Bounded (H : Host) (signers : List AccountId) (p : Pending) : Prop where
  accounts : ∀ id ∈ p.caller.authorizedAccounts, PathAuthority H.sha256 signers p.path id
  caller : ∀ c, p.caller.programId = .some c → (⟨c, p.call⟩ : Frame) ∈ p.path

section
variable {H : Host} {s : V03State} {blockId : BlockId} {timestamp : Timestamp} {signers : List AccountId}

/-- What a bounded call is authorized for has come down its path. -/
theorem Pending.Bounded.authority {p : Pending} (h : p.Bounded H signers) {id : AccountId}
    (ha : p.caller.authorizes H p.call.pdaSeeds id) : PathAuthority H.sha256 signers p.path id := by
  rcases ha with hpda | hset
  · cases hc : p.caller.programId with
    | none => simp [computePublicAuthorizedPdas, hc] at hpda
    | some c =>
      simp only [hc, computePublicAuthorizedPdas, List.mem_toFinset, List.mem_map] at hpda
      obtain ⟨seed, hseed, rfl⟩ := hpda
      exact .inr ⟨⟨c, p.call⟩, h.caller c hc, seed, hseed, rfl⟩
  · exact h.accounts id hset

/-- Callees are bounded: what they inherit their caller was authorized for. -/
theorem Pending.Bounded.callees {p : Pending} (h : p.Bounded H signers) {d d' : Diff} {out : ProgramOutput}
    (hcall : executeCall H s blockId timestamp d p.call p.caller = .ok (out, d')) :
    ∀ c ∈ p.callees out, c.Bounded H signers := by
  intro c hc
  obtain ⟨cc, -, rfl⟩ := List.mem_map.mp hc
  refine ⟨?_, ?_⟩
  · intro id hid
    rw [CallerData.forCallees, Finset.mem_union, List.mem_toFinset, List.mem_map] at hid
    rcases hid with hid | ⟨a, ha, rfl⟩
    · exact (h.accounts id hid).cons _
    · rw [List.mem_filter] at ha
      exact (h.authority (((executeCall_ok hcall).flags a ha.1).mp ha.2)).cons _
  · intro q hq
    cases hq
    exact List.mem_cons_self

theorem initialPending_bounded (tx : PublicTransaction) :
    (initialPending H s tx).Bounded H (signerAccountIds H tx.signaturesAndPublicKeys) := by
  refine ⟨?_, ?_⟩
  · intro id hid
    exact .inl (List.mem_toFinset.mp hid)
  · intro c hc
    cases hc

/-- No call of the loop has an account as authorized beyond its path. -/
theorem Exec.authority {q : List Pending} {d d' : Diff} {es : List Executed}
    (h : Exec H s blockId timestamp q d es d') (hq : ∀ p ∈ q, p.Bounded H signers) :
    ∀ e ∈ es, ∀ a ∈ e.output.preStates, a.isAuthorized = true →
      PathAuthority H.sha256 signers e.path a.accountId := by
  intro e he a ha hflag
  obtain ⟨p, d, out, d', hp, hcall, rfl⟩ :=
    h.pending (Pending.Bounded H signers) (fun p d out d' hp hc => hp.callees hc) hq e he
  exact hp.authority (((executeCall_ok hcall).flags a ha).mp hflag)

section
variable {tx : PublicTransaction} {diff : StateDiff}

theorem PublicAccepted.parent (h : PublicAccepted H tx s blockId timestamp diff) :
    ∀ e ∈ publicCalls H s blockId timestamp tx,
      e.path = [] ∨ ∃ parent ∈ publicCalls H s blockId timestamp tx, (e.call, e.path) ∈ parent.callees := by
  have hroot : ∀ p ∈ [initialPending H s tx], p.path = [] ∨ ∃ e ∈ ([] : List Executed), (p.call, p.path) ∈ e.callees := by
    intro p hp
    rw [List.mem_singleton.mp hp]
    exact .inl rfl
  simpa using h.exec.parent hroot

theorem PublicAccepted.authority (h : PublicAccepted H tx s blockId timestamp diff) :
    ∀ e ∈ publicCalls H s blockId timestamp tx, ∀ a ∈ e.output.preStates, a.isAuthorized = true →
      PathAuthority H.sha256 (signerAccountIds H tx.signaturesAndPublicKeys) e.path a.accountId := by
  refine h.exec.authority ?_
  intro p hp
  rw [List.mem_singleton.mp hp]
  exact initialPending_bounded tx

/-- **Authorization is sound on the public path.** Signatures are valid,
every executed call is the first one or was made by the executed call at the
next step of its path, and whatever account a call has as authorized is a
signer's or derives from a seed a caller on its own path passed down. -/
theorem public_authorization_sound (h : fromPublicTransaction H tx s blockId timestamp = .ok diff) :
    (∀ sk ∈ tx.signaturesAndPublicKeys, H.signatureValid sk.1 (tx.message.hash H) sk.2 = true) ∧
    ∀ e ∈ publicCalls H s blockId timestamp tx,
      (e.path = [] ∨ ∃ parent ∈ publicCalls H s blockId timestamp tx, (e.call, e.path) ∈ parent.callees) ∧
      ∀ a ∈ e.output.preStates, a.isAuthorized = true →
        PathAuthority H.sha256 (signerAccountIds H tx.signaturesAndPublicKeys) e.path a.accountId := by
  have hacc := fromPublicTransaction_ok h
  refine ⟨hacc.signatures, ?_⟩
  intro e he
  exact ⟨hacc.parent e he, hacc.authority e he⟩

end

end

section
open Reference

namespace Sample

/-- A program that passes its own derived account down to another. -/
def delegation : Script :=
  { programs := fun id => if id = programId 100 then delegating (programId 101) [] [seed] else idle }

def delegationLedger : V03State := ledger [] [programId 100, programId 101]

def delegationTx : PublicTransaction := unsigned (programId 100) [forPublicPda Sha256.hash (programId 100) seed] []

end Sample

open Sample

theorem delegated_authority_from_path :
    ∃ e ∈ publicCalls (host delegation).toHost delegationLedger 0 0 delegationTx,
      ∃ a ∈ e.output.preStates, a.isAuthorized = true ∧ PathAuthority Sha256.hash [] e.path a.accountId := by
  have hok : (fromPublicTransaction (host delegation).toHost delegationTx delegationLedger 0 0).isOk = true := by
    decide +kernel
  have hflag : ∃ e ∈ publicCalls (host delegation).toHost delegationLedger 0 0 delegationTx,
      ∃ a ∈ e.output.preStates, a.isAuthorized = true := by decide +kernel
  obtain ⟨diff, hdiff⟩ := isOk_iff.mp hok
  obtain ⟨e, he, a, ha, hauth⟩ := hflag
  exact ⟨e, he, a, ha, hauth, ((public_authorization_sound hdiff).2 e he).2 a ha hauth⟩

end

end Lez
