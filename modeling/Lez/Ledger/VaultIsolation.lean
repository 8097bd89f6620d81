/-
Who can take from a vault. `Claim` passes the vault's seed only for an owner
that is authorized, but `Transfer`, which pays in, passes it to whatever
program owns the paying account, and that program may spend from the vault
what it was only shown. Where the paying account belongs to the transfer
program nothing comes of it: the transfer then takes from the payer, and if
the vault itself is the payer it had to be authorized before.
-/
import Lez.Ledger.Taking
import Lez.Programs.Vault

namespace Lez

open Vault

/-- A host that runs the vault program as modelled too. -/
structure VaultHost extends MsigHost where
  readVault : InstructionData → Option Vault.Instruction
  guest_vault : ∀ caller pre data out, guest vault.id vault.id caller pre data = .ok out →
    Vault.main sha256 readVault codecs.transfer vault.id caller pre data = .ok out
  vault_ne_transfer : vault.id ≠ authenticatedTransfer.id

/-- The vault of an owner. -/
def VaultHost.vaultOf (H : VaultHost) (owner : AccountId) : AccountId :=
  computeVaultAccountId H.sha256 H.vault.id owner

/-- The account signed, or some call has it as authorized. -/
def AuthorizedIn (H : Host) (tx : PublicTransaction) (calls : List Executed) (id : AccountId) : Prop :=
  id ∈ signerAccountIds H tx.signaturesAndPublicKeys ∨
    ∃ e ∈ calls, ∃ a ∈ e.output.preStates, a.accountId = id ∧ a.isAuthorized = true

/-- `Transfer` into the owner's vault from an account of another program than the transfer program. -/
def MisdirectedTransfer (H : VaultHost) (g : Executed) (owner : AccountId) : Prop :=
  g.program = H.vault.id ∧ ∃ amount sender recipientVault,
    H.readVault g.call.instructionData = .some (.transfer owner amount) ∧
    g.output.preStates = [sender, recipientVault] ∧ sender.account.programOwner ≠ H.authenticatedTransfer.id

/-- The owners whose vaults the calls of the vault program are about. -/
def vaultOwners (H : VaultHost) (calls : List Executed) : Set AccountId :=
  {id | ∃ g ∈ calls, g.program = H.vault.id ∧ ((∃ amount, H.readVault g.call.instructionData = .some (.transfer id amount)) ∨
    id ∈ g.accountIds)}

section
variable {H : VaultHost} {s s' : V03State} {blockId : BlockId} {timestamp : Timestamp} {tx : PublicTransaction}
  {diff : StateDiff} {owner : AccountId}

/-- The two programs answered the calls as modelled. -/
structure Answered (H : VaultHost) (e : Executed) : Prop where
  vault : e.program = H.vault.id → Vault.main H.sha256 H.readVault H.codecs.transfer H.vault.id e.output.callerProgramId
    e.call.preStates e.call.instructionData = .ok e.output
  transfer : e.program = H.authenticatedTransfer.id → e.output.preStates = e.call.preStates

theorem CallChecks.answered {d d' : Diff} {p : Pending} {out : ProgramOutput}
    (h : CallChecks H.toHost s d p.call p.caller out d') : Answered H (p.executed out) := by
  have hran := h.ran
  refine ⟨?_, ?_⟩
  · intro hp
    rw [show p.call.programId = H.vault.id from hp] at hran
    rw [show (p.executed out).output.callerProgramId = p.caller.programId from h.caller]
    exact H.guest_vault _ _ _ _ hran
  · intro hp
    rw [show p.call.programId = H.authenticatedTransfer.id from hp] at hran
    obtain ⟨_, _, -, -, rfl⟩ := AuthenticatedTransfer.main_ok (H.guest_transfer _ _ _ _ hran)
    rfl

theorem Exec.answered {q : List Pending} {d d' : Diff} {es : List Executed}
    (h : Exec H.toHost s blockId timestamp q d es d') : ∀ e ∈ es, Answered H e := by
  intro e he
  obtain ⟨p, d, out, d', -, hcall, rfl⟩ := h.pending (fun _ => True) (fun _ _ _ _ _ _ _ _ => trivial)
    (fun _ _ => trivial) e he
  exact (executeCall_ok hcall).answered

/-- The strings whose hashes matter: the preimages of account ids, and of the
seeds of the vaults that are in play. -/
def vaultPreimages (H : VaultHost) (tx : PublicTransaction) (calls : List Executed) (owner : AccountId) : Set Bytes :=
  authorityPreimages tx calls H.vault.id (computeVaultSeed H.sha256 owner) ∪
    seedPreimage '' insert owner (vaultOwners H calls)

/-- A `Transfer` into the owner's vault and the call it makes. -/
structure PassesOn (H : VaultHost) (g : Executed) (owner : AccountId) (c : ChainedCall) (sender : AccountWithMetadata) :
    Prop where
  program : g.program = H.vault.id
  read : ∃ amount, H.readVault g.call.instructionData = .some (.transfer owner amount)
  accounts : ∃ recipientVault, g.output.preStates = [sender, recipientVault]
  target : c.programId = sender.account.programOwner
  first : ∃ recipientVault, c.preStates = [sender, recipientVault]

/-- Where a vault is authorized, its owner is, or a `Transfer` into it passed its seed on. -/
theorem PublicAccepted.vault_authority {e : Executed} (hacc : PublicAccepted H.toHost tx s blockId timestamp diff)
    (hfree : Set.InjOn H.sha256 (vaultPreimages H tx (publicCalls H.toHost s blockId timestamp tx) owner))
    (he : e ∈ publicCalls H.toHost s blockId timestamp tx)
    (hauth : ∃ a ∈ e.output.preStates, a.accountId = H.vaultOf owner ∧ a.isAuthorized = true) :
    AuthorizedIn H.toHost tx (publicCalls H.toHost s blockId timestamp tx) owner ∨
      ∃ g ∈ publicCalls H.toHost s blockId timestamp tx, ∃ f fs sender, (f.call, f :: fs) ∈ g.callees ∧
        f :: fs <:+ e.path ∧ PassesOn H g owner f.call sender := by
  obtain ⟨g, hg, f, fs, hp, hcallee, hsuffix, hseed⟩ :=
    hacc.seed_passed (hfree.mono Set.subset_union_left) he hauth
  obtain ⟨hmem, -⟩ := Executed.mem_callees.mp hcallee
  obtain ⟨i, hread, hcalls, hecho⟩ := Vault.main_ok ((hacc.exec.answered g hg).vault hp)
  -- the seed tells whose vault it is
  have howner : ∀ id ∈ vaultOwners H (publicCalls H.toHost s blockId timestamp tx),
      f.call.pdaSeeds = [computeVaultSeed H.sha256 id] → id = owner := by
    intro id hid hseeds
    rw [hseeds, List.mem_singleton] at hseed
    have hpre := hfree (.inr ⟨owner, Set.mem_insert _ _, rfl⟩) (.inr ⟨id, Set.mem_insert_of_mem _ hid, rfl⟩) hseed
    exact (seedPreimage_injective hpre).symm
  rcases chainedCalls_ok hcalls hmem with
    ⟨recipientId, amount, sender, recipientVault, rfl, hpres, htarget, hfirst, hseeds⟩ | ⟨a, ha, hflag, hseeds⟩
  · have hid := howner recipientId ⟨g, hg, hp, .inl ⟨amount, hread⟩⟩ hseeds
    subst hid
    exact .inr ⟨g, hg, f, fs, sender, hcallee, hsuffix,
      ⟨hp, ⟨amount, hread⟩, ⟨recipientVault, hecho.trans hpres⟩, htarget, ⟨_, hfirst⟩⟩⟩
  · rw [← hecho] at ha
    have hid := howner a.accountId ⟨g, hg, hp, .inr (List.mem_map.mpr ⟨a, ha, rfl⟩)⟩ hseeds
    exact .inl (.inr ⟨g, hg, a, ha, hid, hflag⟩)

/-- A `Transfer` that passed the vault on to another program. -/
theorem PassesOn.misdirected {g : Executed} {c : ChainedCall} {sender : AccountWithMetadata}
    (h : PassesOn H g owner c sender) (hne : c.programId ≠ H.authenticatedTransfer.id) : MisdirectedTransfer H g owner := by
  obtain ⟨amount, hread⟩ := h.read
  obtain ⟨recipientVault, hpres⟩ := h.accounts
  exact ⟨h.program, amount, sender, recipientVault, hread, hpres, h.target ▸ hne⟩

/-- **A call that takes from a vault** has its owner authorized, or is below a
misdirected `Transfer` into it. -/
theorem taken_below_vault {e : Executed} (hacc : PublicAccepted H.toHost tx s blockId timestamp diff)
    (hfree : Set.InjOn H.sha256 (vaultPreimages H tx (publicCalls H.toHost s blockId timestamp tx) owner))
    (he : e ∈ publicCalls H.toHost s blockId timestamp tx) (ht : e.TransfersFrom H.toMsigHost (H.vaultOf owner))
    (hauth : ∃ a ∈ e.output.preStates, a.accountId = H.vaultOf owner ∧ a.isAuthorized = true) :
    AuthorizedIn H.toHost tx (publicCalls H.toHost s blockId timestamp tx) owner ∨
      ∃ g ∈ publicCalls H.toHost s blockId timestamp tx, MisdirectedTransfer H g owner ∧ e.Below g := by
  rcases hacc.vault_authority hfree he hauth with howner | ⟨g, hg, f, fs, sender, hcallee, hsuffix, hpass⟩
  · exact .inl howner
  by_cases htarget : f.call.programId = H.authenticatedTransfer.id
  · -- then the taking call is the one the vault made, so the vault is the payer, and authorized there
    have hlast := step_to_transfer_is_last hacc.parent hacc.exec.ran he hsuffix htarget
    obtain ⟨hp, hsubject, amount, -, hdecode⟩ := ht
    obtain ⟨payer, _, hpres, hflag, -⟩ := (hacc.exec.ran e he).transferred hp hdecode
    obtain ⟨_, hfirst⟩ := hpass.first
    obtain ⟨_, haccounts⟩ := hpass.accounts
    have hsame : payer = sender := by
      have hecho := (hacc.exec.answered e he).transfer hp
      rw [hpres, hlast, hfirst] at hecho
      exact (List.cons.inj hecho).1
    subst hsame
    have hpayer : payer.accountId = H.vaultOf owner := by
      simpa [Executed.subject, Executed.accountIds, hpres] using hsubject
    have hearlier : ∃ a ∈ g.output.preStates, a.accountId = H.vaultOf owner ∧ a.isAuthorized = true :=
      ⟨payer, by simp [haccounts], hpayer, hflag⟩
    rcases hacc.vault_authority hfree hg hearlier with howner | ⟨g', hg', f', fs', _, hcallee', hsuffix', hpass'⟩
    · exact .inl howner
    · have habove : g.path <:+ e.path := by
        obtain ⟨-, hstep⟩ := Executed.mem_callees.mp hcallee
        rw [(List.cons.inj hstep).2] at hsuffix
        exact (List.suffix_cons _ _).trans hsuffix
      refine .inr ⟨g', hg', hpass'.misdirected ?_, _, hcallee', hsuffix'.trans habove⟩
      intro htarget'
      have hlast' := step_to_transfer_is_last hacc.parent hacc.exec.ran hg hsuffix' htarget'
      exact H.vault_ne_transfer (hpass.program.symm.trans (by rw [Executed.program, hlast', htarget']))
  · exact .inr ⟨g, hg, hpass.misdirected htarget, _, hcallee, hsuffix⟩

/-- **When a vault is safe.** In an accepted public transaction whose derived
accounts do not collide, the vault of an owner is lowered, by a call or on the
whole, only where the owner is authorized, exactly when the owner is or
neither of two things happens: a program other than the transfer program
takes from the vault itself, and a `Transfer` out of it is made below a
`Transfer` into it from an account of another program. -/
theorem vault_isolated_iff (h : s.transitionFromPublicTransaction H.toHost tx blockId timestamp = .some s')
    (hfree : Set.InjOn H.sha256 (vaultPreimages H tx (publicCalls H.toHost s blockId timestamp tx) owner)) :
    ((∃ e ∈ publicCalls H.toHost s blockId timestamp tx, e.Lowers (H.vaultOf owner)) ∨
        (s'.getAccountById (H.vaultOf owner)).balance < (s.getAccountById (H.vaultOf owner)).balance →
      AuthorizedIn H.toHost tx (publicCalls H.toHost s blockId timestamp tx) owner) ↔
    AuthorizedIn H.toHost tx (publicCalls H.toHost s blockId timestamp tx) owner ∨
      (∀ e ∈ publicCalls H.toHost s blockId timestamp tx, e.program ≠ H.authenticatedTransfer.id →
        ¬e.Lowers (H.vaultOf owner)) ∧
      ∀ g ∈ publicCalls H.toHost s blockId timestamp tx, MisdirectedTransfer H g owner →
        ∀ e ∈ publicCalls H.toHost s blockId timestamp tx, e.Below g →
          ¬e.TransfersFrom H.toMsigHost (H.vaultOf owner) := by
  obtain ⟨diff, hok, -⟩ := V03State.settle_eq_some.mp h
  have hacc := fromPublicTransaction_ok hok
  constructor
  · intro hsafe
    by_cases howner : AuthorizedIn H.toHost tx (publicCalls H.toHost s blockId timestamp tx) owner
    · exact .inl howner
    · refine .inr ⟨?_, ?_⟩
      · intro e he _ hlow
        exact howner (hsafe (.inl ⟨e, he, hlow⟩))
      · intro g _ _ e he _ ht
        exact howner (hsafe (.inl ⟨e, he, (hacc.exec.ran e he).transfer_lowers ht⟩))
  · rintro (howner | ⟨hothers, hquiet⟩) hlow
    · exact howner
    · obtain ⟨e, he, hl⟩ := hlow.elim (fun hl => hl) (transition_lowers h)
      have hp : e.program = H.authenticatedTransfer.id := by
        by_contra hne
        exact hothers e he hne hl
      obtain ⟨ht, hauth⟩ := (hacc.exec.ran e he).lowers_transfers hp hl
      rcases taken_below_vault hacc hfree he ht hauth with howner | ⟨g, hg, hmis, hbelow⟩
      · exact howner
      · exact absurd ht (hquiet g hg hmis e he hbelow)

end

section
open Reference

namespace Sample

def vaultGuest : Guest := Vault.main Sha256.hash Serde.readVault Serde.transferCodec

/-- A host with the vault program and these others. -/
def vaultHost (others : ProgramId → Guest) (signatures : List (Signature × Bytes32 × PublicKey)) : VaultHost where
  toMsigHost := host { programs := fun id => if id = vaultId then vaultGuest else others id, signatures }
  readVault := Serde.readVault
  guest_vault := by
    intro caller pre data out h
    change guest { programs := fun id => if id = vaultId then vaultGuest else others id, signatures } vaultId vaultId
      caller pre data = .ok out at h
    unfold guest at h
    rw [if_neg (by decide), if_neg (by decide)] at h
    exact h
  vault_ne_transfer := show vaultId ≠ transferId by decide

def saver : AccountId := ByteVec.fill 32 21

def saverVault : AccountId := computeVaultAccountId Sha256.hash vaultId saver

/-- An account of the program that is after the vault. -/
def bait : AccountId := ByteVec.fill 32 22

def burglar : AccountId := ByteVec.fill 32 23

/-- A program that spends the second account it is shown. -/
def skim : Guest := caller fun
  | [_, v] => [⟨transferId, [v, ⟨funded 0, false, burglar⟩], Serde.writeTransfer (.transfer 100), []⟩]
  | _ => []

def saverLedger : V03State :=
  ledger [(saverVault, funded 100), (burglar, funded 0), (bait, { Account.default with programOwner := programId 100 })]
    [vaultId, transferId, programId 100]

/-- `Transfer` of nothing into the vault, from the bait. -/
def payIn : PublicTransaction := unsigned vaultId [bait, saverVault] (Serde.writeVault (.transfer saver 0))

end Sample

open Sample

theorem transfer_into_vault_empties_it :
    ∃ s', saverLedger.transitionFromPublicTransaction (vaultHost (fun _ => skim) []).toHost payIn 0 0 = .some s' ∧
      (saverLedger.getAccountById ((vaultHost (fun _ => skim) []).vaultOf saver)).balance = 100 ∧
      (s'.getAccountById ((vaultHost (fun _ => skim) []).vaultOf saver)).balance = 0 ∧
      (s'.getAccountById burglar).balance = 100 ∧
      ¬AuthorizedIn (vaultHost (fun _ => skim) []).toHost payIn
        (publicCalls (vaultHost (fun _ => skim) []).toHost saverLedger 0 0 payIn) saver := by
  have hrun : (saverLedger.transitionFromPublicTransaction (vaultHost (fun _ => skim) []).toHost payIn 0 0).any (fun s' =>
      decide ((saverLedger.getAccountById saverVault).balance = 100 ∧ (s'.getAccountById saverVault).balance = 0 ∧
        (s'.getAccountById burglar).balance = 100 ∧
        ∀ e ∈ publicCalls (vaultHost (fun _ => skim) []).toHost saverLedger 0 0 payIn,
          ∀ a ∈ e.output.preStates, a.accountId ≠ saver)) = true := by
    simp only [vaultHost, vaultGuest, host_packed, payIn, saverLedger, saverVault, Sha256.hash_eq_packed]
    decide +kernel
  obtain ⟨s', hs', hfacts⟩ := (Option.any_eq_true _ _).mp hrun
  obtain ⟨hbefore, hafter, hloot, hcalls⟩ := of_decide_eq_true hfacts
  refine ⟨s', hs', hbefore, hafter, hloot, ?_⟩
  rintro (hsigned | ⟨e, he, a, ha, hid, -⟩)
  · cases hsigned
  · exact hcalls e he a ha hid

namespace Sample

def donorKey : PublicKey := ByteVec.fill 32 24

def donor : AccountId := accountIdFromPublicKey Sha256.hash donorKey

def donation : PublicTransaction := signed donorKey 0 vaultId [donor, saverVault] (Serde.writeVault (.transfer saver 4))

def donationHost : VaultHost := vaultHost (fun _ => idle) (signaturesOf [donation])

def donationLedger : V03State := ledger [(saverVault, funded 100), (donor, funded 9)] [vaultId, transferId]

end Sample

theorem donation_keeps_vault :
    ∃ s', donationLedger.transitionFromPublicTransaction donationHost.toHost donation 0 0 = .some s' ∧
      (s'.getAccountById (donationHost.vaultOf saver)).balance = 104 ∧
      ¬((∃ e ∈ publicCalls donationHost.toHost donationLedger 0 0 donation, e.Lowers (donationHost.vaultOf saver)) ∨
        (s'.getAccountById (donationHost.vaultOf saver)).balance <
          (donationLedger.getAccountById (donationHost.vaultOf saver)).balance) := by
  -- the vault's account, the donor's, and the seeds of whoever a call of the vault program has
  let Q : List Bytes := [publicPdaPreimage vaultId (computeVaultSeed Sha256.hash saver), publicKeyPreimage donorKey,
    seedPreimage saver, seedPreimage donor, seedPreimage saverVault]
  have hrun : (donationLedger.transitionFromPublicTransaction donationHost.toHost donation 0 0).any (fun s' =>
      decide ((s'.getAccountById saverVault).balance = 104 ∧ (Q.map Sha256.hash).Nodup ∧
        saver ∉ signerAccountIds donationHost.toHost donation.signaturesAndPublicKeys ∧
        ∀ e ∈ publicCalls donationHost.toHost donationLedger 0 0 donation,
          e.accountIds = [donor, saverVault] ∧
          (e.program = vaultId → Serde.readVault e.call.instructionData = .some (.transfer saver 4)) ∧
          (∀ pp ∈ e.changes, e.program ≠ transferId → pp.2.account.balance = pp.1.account.balance) ∧
          (∀ f ∈ e.path, ∀ sd ∈ f.call.pdaSeeds, f.caller = vaultId ∧ sd = computeVaultSeed Sha256.hash saver) ∧
          donor ≠ saver ∧ saverVault ≠ saver ∧ donor ≠ saverVault)) = true := by
    simp only [donationHost, vaultHost, vaultGuest, host_packed, signaturesOf_packed, donation, donationLedger, donor,
      saverVault, Q, Sha256.hash_eq_packed]
    decide +kernel
  obtain ⟨s', hs', hfacts⟩ := (Option.any_eq_true _ _).mp hrun
  obtain ⟨hafter, hnodup, hunsigned, hcalls⟩ := of_decide_eq_true hfacts
  have hfree : Set.InjOn donationHost.sha256
      (vaultPreimages donationHost donation (publicCalls donationHost.toHost donationLedger 0 0 donation) saver) := by
    have hmem : ∀ q ∈ vaultPreimages donationHost donation (publicCalls donationHost.toHost donationLedger 0 0 donation)
        saver, q ∈ Q := by
      rintro q ((rfl | ⟨sk, hsk, rfl⟩ | ⟨e, he, f, hf, sd, hsd, rfl⟩) | ⟨id, hid, rfl⟩)
      · exact List.mem_cons_self
      · rw [List.mem_singleton.mp hsk]
        simp [Q]
      · obtain ⟨hcaller, hsd⟩ := (hcalls e he).2.2.2.1 f hf sd hsd
        rw [hcaller, hsd]
        exact List.mem_cons_self
      · rcases hid with rfl | ⟨g, hg, hp, ⟨amount, hread⟩ | hid⟩
        · simp [Q]
        · have hsaver := (Option.some.inj (((hcalls g hg).2.1 hp).symm.trans hread))
          cases hsaver
          simp [Q]
        · rw [(hcalls g hg).1] at hid
          simp only [List.mem_cons, List.not_mem_nil, or_false] at hid
          rcases hid with rfl | rfl <;> simp [Q]
    intro a ha b hb hab
    exact List.inj_on_of_nodup_map hnodup (hmem a ha) (hmem b hb) hab
  have hnot : ¬AuthorizedIn donationHost.toHost donation (publicCalls donationHost.toHost donationLedger 0 0 donation)
      saver := by
    rintro (hsigned | ⟨e, he, a, ha, haid, -⟩)
    · exact hunsigned hsigned
    · obtain ⟨hids, -, -, -, hdonor, hvault, -⟩ := hcalls e he
      have hid : a.accountId ∈ e.accountIds := List.mem_map.mpr ⟨a, ha, rfl⟩
      rw [hids, haid] at hid
      simp only [List.mem_cons, List.not_mem_nil, or_false] at hid
      rcases hid with hid | hid
      · exact hdonor hid.symm
      · exact hvault hid.symm
  refine ⟨s', hs', hafter, ?_⟩
  intro hlow
  refine hnot ((vault_isolated_iff hs' hfree).mpr (.inr ⟨?_, ?_⟩) hlow)
  · rintro e he hne ⟨pp, hpp, -, hlt⟩
    rw [(hcalls e he).2.2.1 pp hpp hne] at hlt
    exact absurd hlt (BitVec.lt_irrefl _)
  · -- every call has the donor first
    rintro g - - e he - ⟨-, hsubject, -⟩
    obtain ⟨hids, -, -, -, -, -, hne⟩ := hcalls e he
    rw [Executed.subject, hids] at hsubject
    exact hne (Option.some.inj hsubject)

end

end Lez
