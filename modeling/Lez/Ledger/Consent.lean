/-
Native funds move only with consent. An account of the transfer program ends
a public transaction lower only if some call of the transfer program had it
authorized, and that authority is the signature of the account or a seed that
a caller on the path to the call passed down.
-/
import Lez.Ledger.Taking
import Lez.Trace.Callees

namespace Lez

/-- A host that runs the transfer program as modelled. -/
structure TransferHost extends Host where
  transferCodec : Codec AuthenticatedTransfer.Instruction
  guest_transfer : ∀ caller pre data out, guest authenticatedTransfer.id authenticatedTransfer.id caller pre data = .ok out →
    AuthenticatedTransfer.main transferCodec authenticatedTransfer.id caller pre data = .ok out
  transfer_ne_default : authenticatedTransfer.id ≠ defaultProgramId

/-- A program passed down a seed of the account, in a call on the path to a call of the transfer program that has the
account. -/
def SeedPassed (H : Host) (calls : List Executed) (id : AccountId) : Prop :=
  ∃ e ∈ calls, e.program = H.authenticatedTransfer.id ∧ id ∈ e.accountIds ∧
    ∃ g ∈ calls, ∃ f fs, (f.call, f :: fs) ∈ g.callees ∧ f :: fs <:+ e.path ∧
      ∃ seed ∈ f.call.pdaSeeds, id = forPublicPda H.sha256 g.program seed

/-- An account with an owner that ends lower was lowered by its owner. -/
theorem Effects.lowered_by_owner {isPublic : AccountId → Prop} {es : List Executed} {σ σ' : View} {id : AccountId}
    (h : Effects isPublic es σ σ') (hpub : isPublic id) (howned : (σ id).programOwner ≠ defaultProgramId)
    (hlt : (σ' id).balance < (σ id).balance) : ∃ e ∈ es, e.Lowers id ∧ e.program = (σ id).programOwner := by
  induction h with
  | nil => exact absurd hlt (BitVec.lt_irrefl _)
  | @cons e es σ τ σ' heff hrest ih =>
    by_cases hlow : e.Lowers id
    · exact ⟨e, List.mem_cons_self, hlow, heff.lowered_by_owner hpub hlow⟩
    · have hkept : (τ id).programOwner = (σ id).programOwner := heff.owner howned
      have hle : (σ id).balance ≤ (τ id).balance :=
        (Effects.cons heff (.nil τ)).not_lower fun e' he' => by rwa [List.mem_singleton.mp he']
      obtain ⟨e', he', hlow', hp⟩ := ih (hkept ▸ howned) (Nat.lt_of_lt_of_le hlt hle)
      exact ⟨e', List.mem_cons_of_mem _ he', hlow', hp.trans hkept⟩

section
variable {H : TransferHost} {s s' : V03State} {blockId : BlockId} {timestamp : Timestamp} {tx : PublicTransaction}
  {diff : StateDiff} {e : Executed} {id : AccountId}

/-- What a call of the transfer program lowers it has as authorized. -/
theorem transfer_lowers_authorized (hacc : PublicAccepted H.toHost tx s blockId timestamp diff)
    (he : e ∈ publicCalls H.toHost s blockId timestamp tx) (hp : e.program = H.authenticatedTransfer.id)
    (hlow : e.Lowers id) : ∃ a ∈ e.output.preStates, a.accountId = id ∧ a.isAuthorized = true := by
  have hran := hacc.exec.answered_by e he
  rw [hp] at hran
  obtain ⟨i, post, -, hprocess, hout⟩ := AuthenticatedTransfer.main_ok (H.guest_transfer _ _ _ _ hran)
  obtain ⟨pp, hmem, hid, hlt⟩ := hlow
  have hpres : e.output.preStates = e.call.preStates := by rw [hout]; rfl
  have hposts : e.output.postStates = post := by rw [hout]; rfl
  rw [Executed.changes, hpres, hposts] at hmem
  obtain ⟨hauth, -⟩ := AuthenticatedTransfer.process_lowers hprocess hmem hlt
  exact ⟨pp.1, hpres ▸ (List.of_mem_zip hmem).1, hid, hauth⟩

/-- **Native funds move only with consent.** An account of the transfer program that ends lower signed, or it derives
from a program and a seed that the program passed on the way to a call of the transfer program with the account. -/
theorem funds_move_with_consent (h : s.transitionFromPublicTransaction H.toHost tx blockId timestamp = .some s')
    (howner : (s.getAccountById id).programOwner = H.authenticatedTransfer.id)
    (hlower : (s'.getAccountById id).balance < (s.getAccountById id).balance) :
    id ∈ signerAccountIds H.toHost tx.signaturesAndPublicKeys ∨
      SeedPassed H.toHost (publicCalls H.toHost s blockId timestamp tx) id := by
  obtain ⟨diff, hok, happly⟩ := V03State.settle_eq_some.mp h
  have hacc := fromPublicTransaction_ok hok
  obtain ⟨n, hn, -⟩ := applyStateDiff_account happly id
  rw [hn] at hlower
  obtain ⟨e, he, hlow, howns⟩ := hacc.exec.effects.lowered_by_owner trivial (howner ▸ H.transfer_ne_default) hlower
  have hp : e.program = H.authenticatedTransfer.id := howns.trans howner
  obtain ⟨a, ha, rfl, hflag⟩ := transfer_lowers_authorized hacc he hp hlow
  rcases hacc.authority e he a ha hflag with hsigner | ⟨f, hf, seed, hseed, hid⟩
  · exact .inl hsigner
  · -- the step of the path was made by an executed call of the program it names
    obtain ⟨l, fs, hl⟩ := List.append_of_mem hf
    have hsuffix : f :: fs <:+ e.path := ⟨l, hl.symm⟩
    obtain ⟨g, hg, hcallee⟩ := ancestor_of_step hacc.parent _ e he rfl f fs hsuffix
    obtain ⟨-, hstep⟩ := Executed.mem_callees.mp hcallee
    have hcaller : f.caller = g.program := by rw [(List.cons.inj hstep).1]
    exact .inr ⟨e, he, hp, List.mem_map.mpr ⟨a, ha, rfl⟩, g, hg, f, fs, hcallee, hsuffix, seed, hseed, hcaller ▸ hid⟩

end

section
open Reference

namespace Sample

def consentHost : TransferHost where
  toHost := (host { programs := fun id =>
    if id = programId 100 then delegating transferId (Serde.writeTransfer (.transfer 40)) [seed] else idle }).toHost
  transferCodec := Serde.transferCodec
  guest_transfer := (host _).guest_transfer
  transfer_ne_default := by decide

/-- The account that derives from the program and the seed. -/
def purse : AccountId := forPublicPda Sha256.hash (programId 100) seed

def consentLedger : V03State :=
  ledger [(purse, funded 100), (ByteVec.fill 32 24, funded 0)] [programId 100, transferId]

end Sample

open Sample

/-- The program spends from its own account, nobody signs. -/
theorem program_spends_its_purse :
    ∃ s', consentLedger.transitionFromPublicTransaction consentHost.toHost
        (unsigned (programId 100) [purse, ByteVec.fill 32 24] []) 0 0 = .some s' ∧
      (s'.getAccountById purse).balance < (consentLedger.getAccountById purse).balance ∧
      SeedPassed consentHost.toHost (publicCalls consentHost.toHost consentLedger 0 0
        (unsigned (programId 100) [purse, ByteVec.fill 32 24] [])) purse := by
  have hrun : (consentLedger.transitionFromPublicTransaction consentHost.toHost
      (unsigned (programId 100) [purse, ByteVec.fill 32 24] []) 0 0).any (fun s' =>
        decide ((s'.getAccountById purse).balance < (consentLedger.getAccountById purse).balance)) = true := by
    decide +kernel
  have howner : (consentLedger.getAccountById purse).programOwner = transferId := by decide +kernel
  obtain ⟨s', hs', hlt⟩ := (Option.any_eq_true _ _).mp hrun
  refine ⟨s', hs', of_decide_eq_true hlt, ?_⟩
  rcases funds_move_with_consent (H := consentHost) hs' howner (of_decide_eq_true hlt) with hsigner | hpassed
  · cases hsigner
  · exact hpassed

end

end Lez
