/-
The `bridge` program: deposits leave the bridge account for a recipient's
vault and withdrawals come back into it. It moves nothing itself; a deposit
passes the program's authority over the bridge account to the vault program
it is given, a withdrawal calls the program that owns the bridge account.
Only the host may call it.
-/
import Lez.Programs.Clock
import Lez.Programs.MsigHost

namespace Lez.Bridge

inductive Instruction
  | deposit (l1DepositOpId : Bytes32) (vaultProgramId : ProgramId) (recipientId : AccountId) (amount : UInt64)
  | withdraw (amount : UInt64) (bedrockAccountPk : Bytes32)
deriving DecidableEq

/-! ## Words -/

open Serde in
def readBridge : InstructionData → Option Instruction
  | 0 :: ws => do
    let (opId, ws) ← bytes32 ws
    let (vaultProgramId, ws) ← programId ws
    let (s, ws) ← str ws
    let recipientId ← fromBase58 s
    let (amount, _) ← u64 ws
    pure (.deposit opId vaultProgramId recipientId amount)
  | 1 :: ws => do
    let (amount, ws) ← u64 ws
    let (pk, _) ← bytes32 ws
    pure (.withdraw amount pk)
  | _ => .none

open Serde in
def writeBridge : Instruction → InstructionData
  | .deposit opId vaultProgramId recipientId amount =>
    0 :: writeBytes32 opId ++ writeProgramId vaultProgramId ++ writeStr (toBase58 recipientId) ++ writeU64 amount
  | .withdraw amount pk => 1 :: writeU64 amount ++ writeBytes32 pk

/-- A written deposit is read as one of the same operation. -/
theorem readBridge_deposit {opId : Bytes32} {vaultProgramId : ProgramId} {recipientId : AccountId} {amount : UInt64}
    {i : Instruction} (h : readBridge (writeBridge (.deposit opId vaultProgramId recipientId amount)) = .some i) :
    ∃ v r a, i = .deposit opId v r a := by
  simp only [readBridge, writeBridge, List.cons_append, List.append_assoc, Serde.reads_bytes32 opId _ trivial,
    Option.bind_eq_bind, Option.bind_some, Option.bind_eq_some_iff, Option.pure_def, Option.some.injEq] at h
  obtain ⟨v, -, s, -, r, -, a, -, rfl⟩ := h
  exact ⟨_, _, _, rfl⟩

/-! ## The program -/

/-- `u128::from` of an amount. -/
def toU128 (amount : UInt64) : U128 := BitVec.ofNat 128 amount.toNat

section
variable (sha256 : Bytes → Bytes32)

/-- `compute_bridge_account_id`. -/
def computeBridgeAccountId (bridgeProgramId : ProgramId) : AccountId := forPublicPda sha256 bridgeProgramId bridgeSeed

/-- The match of `main`: the calls it makes. -/
def chainedCalls (self : ProgramId) (pre : List AccountWithMetadata) : Instruction → Except String (List ChainedCall)
  | .deposit _ vaultProgramId recipientId amount =>
    match pre with
    | [bridge, recipientVault] => do
      ensure (bridge.accountId = computeBridgeAccountId sha256 self) "First account must be bridge PDA"
      ensure (recipientVault.accountId = Vault.computeVaultAccountId sha256 vaultProgramId recipientId)
        "Second account must be recipient vault PDA"
      pure [⟨vaultProgramId, [{ bridge with isAuthorized := true }, recipientVault],
        Serde.writeVault (.transfer recipientId (toU128 amount)), [bridgeSeed]⟩]
    | _ => .error "Deposit requires exactly 2 accounts"
  | .withdraw amount _ =>
    match pre with
    | [sender, bridge] => do
      ensure (bridge.accountId = computeBridgeAccountId sha256 self) "Second account must be bridge PDA"
      ensure (sender.account.programOwner = bridge.account.programOwner)
        "Sender account must be owned by the authenticated transfer program"
      pure [⟨bridge.account.programOwner, [sender, bridge], Serde.transferCodec.encode (.transfer (toU128 amount)), []⟩]
    | _ => .error "Withdraw requires exactly 2 accounts"

def main (self : ProgramId) (caller : Option ProgramId) (pre : List AccountWithMetadata) (data : InstructionData) :
    Except String ProgramOutput := do
  let instruction ← expect "instruction does not deserialize" (readBridge data)
  ensure (caller = .none) "Bridge cannot be invoked through chain calls"
  let calls ← chainedCalls sha256 self pre instruction
  pure { ProgramOutput.new self caller data pre (pre.map fun a => .new a.account) with chainedCalls := calls }

end

/-- A withdrawal has two accounts of one owner, the second of them the bridge's; it leaves both and calls that
owner with them. -/
theorem main_withdraw_ok {sha256 : Bytes → Bytes32} {self : ProgramId} {caller : Option ProgramId}
    {pre : List AccountWithMetadata} {data : InstructionData} {out : ProgramOutput} {amount : UInt64} {pk : Bytes32}
    (h : main sha256 self caller pre data = .ok out) (hread : readBridge data = .some (.withdraw amount pk)) :
    ∃ sender bridge, pre = [sender, bridge] ∧ bridge.accountId = computeBridgeAccountId sha256 self ∧
      out.preStates = pre ∧ out.postStates = pre.map (fun a => .new a.account) ∧
      out.chainedCalls = [⟨bridge.account.programOwner, [sender, bridge],
        Serde.transferCodec.encode (.transfer (toU128 amount)), []⟩] := by
  simp only [main, hread, bind_ok_iff, expect_ok_iff, ensure_ok_iff, pure_ok_iff, Option.some.injEq] at h
  obtain ⟨_, rfl, -, -, calls, hcalls, rfl⟩ := h
  simp only [chainedCalls] at hcalls
  split at hcalls
  next sender bridge =>
    simp only [bind_ok_iff, ensure_ok_iff, pure_ok_iff] at hcalls
    obtain ⟨-, hbridge, -, -, rfl⟩ := hcalls
    exact ⟨sender, bridge, rfl, hbridge, rfl, rfl, rfl⟩
  next => cases hcalls

end Lez.Bridge

namespace Lez.Reference

def clockId : ProgramId := programId 1
def bridgeId : ProgramId := programId 8

/-- The programs a node's own transactions need, and others. -/
def nodePrograms (others : ProgramId → Guest) (id : ProgramId) : Guest :=
  if id = clockId then Clock.main
  else if id = vaultId then Vault.main Sha256.hash Serde.readVault Serde.transferCodec
  else if id = bridgeId then Bridge.main Sha256.hash
  else others id

/-- A host that runs them. -/
def nodeHost (script : Script) : Host := (host { script with programs := nodePrograms script.programs }).toHost

def packedNodePrograms (others : ProgramId → Guest) (id : ProgramId) : Guest :=
  if id = clockId then Clock.main
  else if id = vaultId then Vault.main Sha256.packed Serde.readVault Serde.transferCodec
  else if id = bridgeId then Bridge.main Sha256.packed
  else others id

theorem nodeHost_packed (script : Script) :
    nodeHost script = packedHost { script with programs := packedNodePrograms script.programs } := by
  have hprograms : nodePrograms script.programs = packedNodePrograms script.programs := by
    funext id
    unfold nodePrograms packedNodePrograms
    rw [Sha256.hash_eq_packed]
  rw [nodeHost, host_packed, hprograms]

/-- A ledger with the clock accounts of genesis, these accounts, and the programs of the node deployed. -/
def nodeLedger (accounts : List (AccountId × Account)) (programs : List ProgramId) : V03State :=
  ledger (clockProgramAccountIds.map (fun id => (id, clockAccount (nodeHost {}) 0)) ++ accounts)
    ([clockId, transferId, vaultId, bridgeId] ++ programs)

end Lez.Reference
