/-
The `msig` program: proposals that freeze a member root and collect
nullifiers, a registry of member leaves, and treasuries released once enough
approvals are stored. Every instruction takes untyped accounts; what is
checked of them is what each function below checks.

A panic of the guest is an error with its text. An instruction given a wrong
number of accounts returns without an output, and `process` answers `none`.
-/
import Lez.Programs.AuthenticatedTransfer
import Lez.Programs.MsigCore

namespace Lez.Msig

/-- `VOTE_IDENTIFIER`. -/
def voteIdentifier : Identifier := 0

/-- The count a proposal's bytes store at offset 64. -/
def storedCount (data : Bytes) : Nat := ofLe ((data.drop 64).take 4)

def createProposal (proposal : AccountWithMetadata) (memberRoot proposalId : Bytes32) :
    Except String (List AccountPostState) := do
  let data ← expect "proposal state fits into data limit" (Data.tryFrom (proposalBytes memberRoot proposalId 0 []))
  pure [.newClaimed { proposal.account with data } .authorized]

section
variable (sha256 : Bytes → Bytes32)

/-- The leaves a registry's bytes hold; too short for a header is an empty registry. -/
def readRegistry (data : Bytes) : Except String (List Bytes32) :=
  if registryHeaderLen ≤ data.length then
    expect "range end index out of range for slice"
      (readArrays (ofLe ((data.drop 32).take 4)) (data.drop registryHeaderLen))
  else .ok []

def enroll (registry : AccountWithMetadata) (leaf : Bytes32) : Except String (List AccountPostState) := do
  let known ← readRegistry registry.account.data.1
  let leaves := known ++ [leaf]
  let data ← expect "registry should fit into data limit"
    (Data.tryFrom (registryBytes (merkleRoot sha256 leaves) leaves))
  pure [.newClaimedIfDefault { registry.account with data } .authorized]

/-- The account a member votes with. -/
def riderId (secret : Bytes32) : AccountId :=
  forRegularPrivateAccount sha256 (nullifierPublicKey sha256 secret) voteIdentifier

def approve (proposal rider : AccountWithMetadata) (secret : Bytes32) (merklePath : MerkleProof)
    (proposalId : Bytes32) : Except String (List AccountPostState) := do
  let data := proposal.account.data.1
  ensure (proposalHeaderLen ≤ data.length) "proposal state header too short"
  let memberRoot ← expect "proposal state header too short" (readArray 32 data)
  let proposalIdState ← expect "proposal state header too short" (readArray 32 (data.drop 32))
  let count := storedCount data
  ensure (proposalId = proposalIdState) "proposal id mismatch"
  ensure (rider.accountId = riderId sha256 secret) "rider must be the member's account keyed by the voting secret"
  ensure (rider.account ≠ Account.default) "rider must be a LIVE funded account, not a fresh init"
  ensure (rootFromPath sha256 (memberLeaf sha256 secret) merklePath = memberRoot)
    "approver is not an enrolled member"
  let nullifier := voteNullifier sha256 secret proposalId
  let recorded ← expect "range end index out of range for slice" (readArrays count (data.drop proposalHeaderLen))
  ensure (nullifier ∉ recorded) "approval nullifier already recorded (double vote)"
  let newData ← expect "proposal state should fit into data limit"
    (Data.tryFrom (proposalBytes memberRoot proposalIdState (count + 1) (recorded ++ [nullifier])))
  pure [.new { proposal.account with data := newData }, .new rider.account]

end

section
variable (T : Codec AuthenticatedTransfer.Instruction)

def execute (proposal treasury recipient : AccountWithMetadata) (threshold : UInt32) (seed : PdaSeed) :
    Except String (List AccountPostState × List ChainedCall) := do
  let data := proposal.account.data.1
  ensure (proposalHeaderLen ≤ data.length) "proposal state header too short"
  ensure (threshold.toNat ≤ storedCount data) "approval count below threshold"
  let call : ChainedCall :=
    ⟨treasury.account.programOwner, [{ treasury with isAuthorized := true }, recipient],
      T.encode (.transfer treasury.account.balance), [seed]⟩
  pure ([.new proposal.account, .new treasury.account, .new recipient.account], [call])

def initTreasury (treasury : AccountWithMetadata) (seed : PdaSeed) (transferProgramId : ProgramId) :
    List AccountPostState × List ChainedCall :=
  ([.new treasury.account],
    [⟨transferProgramId, [{ treasury with isAuthorized := true }], T.encode .initAccount, [seed]⟩])

end

/-- How `msig` reads its own instructions, and reads and writes those of the transfer program. -/
structure Codecs where
  readMsig : InstructionData → Option MsigInstruction
  transfer : Codec AuthenticatedTransfer.Instruction

/-- The match of `main`: post states and chained calls. -/
def process (sha256 : Bytes → Bytes32) (C : Codecs) (pre : List AccountWithMetadata) :
    MsigInstruction → Except String (Option (List AccountPostState × List ChainedCall))
  | .createProposal memberRoot proposalId =>
    match pre with
    | [proposal] => (fun post => .some (post, [])) <$> createProposal proposal memberRoot proposalId
    | _ => .ok .none
  | .approve secret merklePath proposalId =>
    match pre with
    | [proposal, rider] =>
      (fun post => .some (post, [])) <$> approve sha256 proposal rider secret merklePath proposalId
    | _ => .ok .none
  | .enroll leaf =>
    match pre with
    | [registry] => (fun post => .some (post, [])) <$> enroll sha256 registry leaf
    | _ => .ok .none
  | .initTreasury seed transferProgramId =>
    match pre with
    | [treasury] => .ok (.some (initTreasury C.transfer treasury seed transferProgramId))
    | _ => .ok .none
  | .execute threshold seed =>
    match pre with
    | [proposal, treasury, recipient] => .some <$> execute C.transfer proposal treasury recipient threshold seed
    | _ => .ok .none

def main (sha256 : Bytes → Bytes32) (C : Codecs) (self : ProgramId) (caller : Option ProgramId)
    (pre : List AccountWithMetadata) (data : InstructionData) : Except String (Option ProgramOutput) := do
  let instruction ← expect "instruction does not deserialize" (C.readMsig data)
  let answer ← process sha256 C pre instruction
  pure (answer.map fun pc => { ProgramOutput.new self caller data pre pc.1 with chainedCalls := pc.2 })

end Lez.Msig
