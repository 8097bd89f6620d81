/-
`ValidatedStateDiff::from_public_transaction`: the checks on the message and
its signatures, then the work list of calls. A call runs, its output is held
against the accounts as the calls before it left them, its claims are
settled, and its own calls go to the front of the list. `executeCall` is the
body of that loop and `runCalls` the loop.
-/
import Lez.State.Ledger

namespace Lez

open LeeError InvalidProgramBehaviorError

/-- A borsh sequence: its length, then its elements. -/
def borshSeq {α : Type} (f : α → Bytes) (l : List α) : Bytes := toLe 4 l.length ++ l.flatMap f

abbrev Signature := ByteVec 64

namespace PublicTransaction

structure Message where
  programId : ProgramId
  accountIds : List AccountId
  nonces : List U128
  instructionData : InstructionData
deriving DecidableEq

def Message.toBytes (m : Message) : Bytes :=
  m.programId.toBytes ++ borshSeq List.Vector.toList m.accountIds ++
    borshSeq (fun n : U128 => toLe 16 n.toNat) m.nonces ++ borshSeq (fun w => toLe 4 w.toNat) m.instructionData

/-- `Message::hash`. -/
def Message.hash (H : Host) (m : Message) : Bytes32 :=
  H.sha256 (ascii "/LEE/v0.3/Message/Public/" ++ List.replicate 7 0 ++ m.toBytes)

end PublicTransaction

/-- A message and the signatures and public keys that witness it. -/
structure PublicTransaction where
  message : PublicTransaction.Message
  signaturesAndPublicKeys : List (Signature × PublicKey)
deriving DecidableEq

/-- `signer_account_ids`. -/
def signerAccountIds (H : Host) (sigs : List (Signature × PublicKey)) : List AccountId :=
  sigs.map fun sk => accountIdFromPublicKey H.sha256 sk.2

/-- `is_valid_for`: every signature verifies over the message's hash. -/
def signaturesAreValidFor (H : Host) (hash : Bytes32) (sigs : List (Signature × PublicKey)) : Bool :=
  sigs.all fun sk => H.signatureValid sk.1 hash sk.2

/-- The nonce of each signer is the one the message names. -/
def checkNonces (s : V03State) (signers : List AccountId) (nonces : List U128) : Except LeeError Unit :=
  (signers.zip nonces).forM fun an =>
    ensure ((s.getAccountById an.1).nonce = an.2) (invalidInput "Nonce mismatch")

/-- An account of the message as the ledger has it, authorized when it signed. -/
def signedPreState (s : V03State) (signers : List AccountId) (id : AccountId) : AccountWithMetadata :=
  ⟨s.getAccountById id, decide (id ∈ signers), id⟩

/-! ## One call -/

/-- `HashMap<AccountId, Account>`: the accounts written so far. -/
abbrev Diff := Table AccountId Account

structure CallerData where
  programId : Option ProgramId
  authorizedAccounts : Finset AccountId

section
variable (H : Host)

/-- `is_authorized`. -/
def CallerData.authorizes (caller : CallerData) (seeds : List PdaSeed) (id : AccountId) : Prop :=
  id ∈ computePublicAuthorizedPdas H.sha256 caller.programId seeds ∨ id ∈ caller.authorizedAccounts

instance (caller : CallerData) (seeds : List PdaSeed) (id : AccountId) :
    Decidable (caller.authorizes H seeds id) :=
  inferInstanceAs (Decidable (_ ∨ _))

/-- A pre-state of the output holds the account as it stands, and its flag is
neither more nor less than the call's authority. -/
def checkPreState (s : V03State) (diff : Diff) (call : ChainedCall) (caller : CallerData)
    (pre : AccountWithMetadata) : Except LeeError Unit := do
  let expected := diff.getD pre.accountId (s.getAccountById pre.accountId)
  ensure (pre.account = expected)
    (invalidProgramBehavior (inconsistentAccountPreState pre.accountId expected pre.account))
  ensure (¬pre.isAuthorized ∨ caller.authorizes H call.pdaSeeds pre.accountId)
    (invalidProgramBehavior (invalidAccountAuthorization pre.accountId))
  ensure (pre.isAuthorized ∨ ¬caller.authorizes H call.pdaSeeds pre.accountId)
    (invalidProgramBehavior (authorizedAccountMarkedAsNotAuthorized pre.accountId))

/-- The account a post state leaves: claimed ones change owner. -/
def settleClaim (programId : ProgramId) (pp : AccountWithMetadata × AccountPostState) :
    Except LeeError (AccountId × Account) :=
  match pp.2.claim with
  | .none => .ok (pp.1.accountId, pp.2.account)
  | .some claim => do
    ensure (pp.2.account.programOwner = defaultProgramId)
      (invalidProgramBehavior (claimedNonDefaultAccount pp.1.accountId))
    match claim with
    | .authorized =>
      ensure pp.1.isAuthorized (invalidProgramBehavior (claimedUnauthorizedAccount pp.1.accountId))
    | .pda seed =>
      let pda := forPublicPda H.sha256 programId seed
      ensure (pp.1.accountId = pda) (invalidProgramBehavior (mismatchedPdaClaim pda pp.1.accountId))
    pure (pp.1.accountId, { pp.2.account with programOwner := programId })

/-- The body of the loop: the output of the call and the diff after it. -/
def executeCall (s : V03State) (blockId : BlockId) (timestamp : Timestamp) (diff : Diff) (call : ChainedCall)
    (caller : CallerData) : Except LeeError (ProgramOutput × Diff) := do
  let program ← expect (invalidInput "Unknown program") (s.programs.lookup call.programId)
  let out ← (H.guest program.id program.id caller.programId call.preStates call.instructionData).mapError
    programExecutionFailed
  out.preStates.forM (checkPreState H s diff call caller)
  ensure (out.selfProgramId = call.programId)
    (invalidProgramBehavior (mismatchedProgramId call.programId out.selfProgramId))
  ensure (out.callerProgramId = caller.programId)
    (invalidProgramBehavior (mismatchedCallerProgramId caller.programId out.callerProgramId))
  (validateExecution out.preStates out.postStates call.programId).mapError
    fun e => invalidProgramBehavior (executionValidationFailed e)
  ensure (out.blockValidityWindow.isValidFor blockId ∧ out.timestampValidityWindow.isValidFor timestamp)
    outOfValidityWindow
  let settled ← (out.preStates.zip out.postStates).mapM (settleClaim H call.programId)
  pure (out, diff.writeAll settled)

/-! ## The loop -/

/-- What the calls of an output are pushed with: the caller's set and every
account the output has as authorized. -/
def CallerData.forCallees (caller : CallerData) (programId : ProgramId) (out : ProgramOutput) : CallerData :=
  ⟨.some programId,
    caller.authorizedAccounts ∪ ((out.preStates.filter (·.isAuthorized)).map (·.accountId)).toFinset⟩

/-- The `while` loop; `budget` is the number of calls `chain_calls_counter`
still allows. -/
def runCalls (s : V03State) (blockId : BlockId) (timestamp : Timestamp) :
    Nat → List (ChainedCall × CallerData) → Diff → Except LeeError Diff
  | _, [], diff => .ok diff
  | 0, _ :: _, _ => .error maxChainedCallsDepthExceeded
  | budget + 1, (call, caller) :: rest, diff => do
    let (out, diff) ← executeCall H s blockId timestamp diff call caller
    let callees := out.chainedCalls.map fun c => (c, caller.forCallees call.programId out)
    runCalls s blockId timestamp budget (callees ++ rest) diff

/-- A default account that was modified has an owner. -/
def checkClaimed (s : V03State) (post : AccountId × Account) : Except LeeError Unit :=
  let pre := s.getAccountById post.1
  ensure (pre.programOwner ≠ defaultProgramId ∨ pre = post.2 ∨ post.2.programOwner ≠ defaultProgramId)
    (invalidProgramBehavior (defaultAccountModifiedWithoutClaim post.1))

/-- The call and caller data the loop starts with. -/
def initialCall (s : V03State) (tx : PublicTransaction) : ChainedCall × CallerData :=
  let signers := signerAccountIds H tx.signaturesAndPublicKeys
  (⟨tx.message.programId, tx.message.accountIds.map (signedPreState s signers), tx.message.instructionData, []⟩,
    ⟨.none, signers.toFinset⟩)

def fromPublicTransaction (tx : PublicTransaction) (s : V03State) (blockId : BlockId) (timestamp : Timestamp) :
    Except LeeError StateDiff := do
  let message := tx.message
  ensure (message.accountIds.toFinset.card = message.accountIds.length)
    (invalidInput "Duplicate account_ids found in message")
  ensure (message.nonces.length = tx.signaturesAndPublicKeys.length)
    (invalidInput "Mismatch between number of nonces and signatures/public keys")
  ensure (signaturesAreValidFor H (message.hash H) tx.signaturesAndPublicKeys)
    (invalidInput "Invalid signature for given message and public key")
  let signers := signerAccountIds H tx.signaturesAndPublicKeys
  checkNonces s signers message.nonces
  let diff ← runCalls H s blockId timestamp (maxNumberChainedCalls + 1) [initialCall H s tx] ∅
  diff.toPairs.forM (checkClaimed s)
  pure ⟨signers, diff, [], [], .none⟩

end

end Lez
