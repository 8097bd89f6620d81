/-
The `vault` program: an account per owner, derived from the owner's id, that
anyone may pay into and the owner claims from. It moves nothing itself; it
passes its authority over the vault account on to the program that owns the
other account of a `Transfer`, or the vault account of a `Claim`.
-/
import Lez.Programs.AuthenticatedTransfer

namespace Lez.Vault

inductive Instruction
  | transfer (recipientId : AccountId) (amount : U128)
  | claim (amount : U128)
deriving DecidableEq

/-- `VAULT_SEED_DOMAIN_SEPARATOR || owner_id`. -/
def seedPreimage (ownerId : AccountId) : Bytes := ascii "/LEZ/v0.3/VaultSeed/00000000000/" ++ ownerId.toList

section
variable (sha256 : Bytes → Bytes32)

def computeVaultSeed (ownerId : AccountId) : PdaSeed := sha256 (seedPreimage ownerId)

def computeVaultAccountId (vaultProgramId : ProgramId) (ownerId : AccountId) : AccountId :=
  forPublicPda sha256 vaultProgramId (computeVaultSeed sha256 ownerId)

/-- The match of `main`: the calls it makes. -/
def chainedCalls (C : Codec AuthenticatedTransfer.Instruction) (pre : List AccountWithMetadata) :
    Instruction → Except String (List ChainedCall)
  | .transfer recipientId amount =>
    match pre with
    | [sender, recipientVault] =>
      .ok [⟨sender.account.programOwner, [sender, { recipientVault with isAuthorized := true }],
        C.encode (.transfer amount), [computeVaultSeed sha256 recipientId]⟩]
    | _ => .error "Transfer requires exactly 2 accounts"
  | .claim amount =>
    match pre with
    | [owner, ownerVault] => do
      ensure owner.isAuthorized "Owner must be authorized to claim from the vault"
      pure [⟨ownerVault.account.programOwner, [{ ownerVault with isAuthorized := true }, owner],
        C.encode (.transfer amount), [computeVaultSeed sha256 owner.accountId]⟩]
    | _ => .error "Claim requires exactly 2 accounts"

/-- `main`; `read` is the deserializer of its instructions. -/
def main (read : InstructionData → Option Instruction) (C : Codec AuthenticatedTransfer.Instruction) (self : ProgramId)
    (caller : Option ProgramId) (pre : List AccountWithMetadata) (data : InstructionData) :
    Except String ProgramOutput := do
  let instruction ← expect "instruction does not deserialize" (read data)
  let calls ← chainedCalls sha256 C pre instruction
  pure { ProgramOutput.new self caller data pre (pre.map fun a => .new a.account) with chainedCalls := calls }

end

/-! ## What an output says -/

section
variable {sha256 : Bytes → Bytes32} {read : InstructionData → Option Instruction}
  {C : Codec AuthenticatedTransfer.Instruction} {pre : List AccountWithMetadata}

/-- An output echoes its accounts and makes the calls of its instruction. -/
theorem main_ok {self : ProgramId} {caller : Option ProgramId} {data : InstructionData} {out : ProgramOutput}
    (h : main sha256 read C self caller pre data = .ok out) :
    ∃ i, read data = .some i ∧ chainedCalls sha256 C pre i = .ok out.chainedCalls ∧ out.preStates = pre := by
  simp only [main, bind_ok_iff, expect_ok_iff, pure_ok_iff] at h
  obtain ⟨i, hi, calls, hcalls, rfl⟩ := h
  exact ⟨i, hi, hcalls, rfl⟩

/-- **Whose seed the program passes**: that of the recipient a `Transfer` names, to the owner of the
paying account; or that of the account a `Claim` comes from, which has to be authorized. -/
theorem chainedCalls_ok {i : Instruction} {calls : List ChainedCall} (h : chainedCalls sha256 C pre i = .ok calls)
    {c : ChainedCall} (hc : c ∈ calls) :
    (∃ recipientId amount sender recipientVault, i = .transfer recipientId amount ∧ pre = [sender, recipientVault] ∧
      c.programId = sender.account.programOwner ∧
      c.preStates = [sender, { recipientVault with isAuthorized := true }] ∧
      c.pdaSeeds = [computeVaultSeed sha256 recipientId]) ∨
    ∃ owner ∈ pre, owner.isAuthorized = true ∧ c.pdaSeeds = [computeVaultSeed sha256 owner.accountId] := by
  cases i with
  | transfer recipientId amount =>
    simp only [chainedCalls] at h
    split at h
    next sender recipientVault =>
      cases h
      rw [List.mem_singleton.mp hc]
      exact .inl ⟨recipientId, amount, sender, recipientVault, rfl, rfl, rfl, rfl, rfl⟩
    next => cases h
  | claim amount =>
    simp only [chainedCalls] at h
    split at h
    next owner ownerVault =>
      simp only [bind_ok_iff, ensure_ok_iff, pure_ok_iff] at h
      obtain ⟨-, hauth, rfl⟩ := h
      rw [List.mem_singleton.mp hc]
      exact .inr ⟨owner, List.mem_cons_self, hauth, rfl⟩
    next => cases h

theorem seedPreimage_injective {a b : AccountId} (h : seedPreimage a = seedPreimage b) : a = b :=
  List.Vector.toList_injective (List.append_cancel_left h)

end

end Lez.Vault
