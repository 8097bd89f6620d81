/-
What sequencer and indexer share (`common`): the bytes and the hash of a
transaction, the checks made before and after one is executed, and blocks.

A user's transaction may not touch the clock accounts or the faucet and may
only pay into the bridge (`validateOnState`); the sequencer's own transactions
and the replay of a block go without that (`execute`). Both apply the diff
they validated, and applying one may panic, so the code above them has two
ways to stop: an error it returns, and a panic.
-/
import Lez.Programs.MsigHost
import Lez.Trace.Chain

namespace Lez

abbrev HashType := Bytes32

/-! ## Ways to stop -/

inductive TransactionMalformationError
  | invalidSignature
deriving DecidableEq

/-- A `DbInteractionError` that formats another error after its text keeps that error. -/
inductive DbError
  | rocksDbError
  | dbInteractionError (text : String)
  | failedWithErr (text : String) (error : LeeError)
  | preCheckFailedWithErr (error : TransactionMalformationError)
deriving DecidableEq

/-- What the nodes' functions return: an error with the context it was given, or a text of their own. -/
inductive NodeError
  | lee (error : LeeError)
  | leeIn (context : String) (error : LeeError)
  | malformed (error : TransactionMalformationError)
  | db (error : DbError)
  | other (text : String)
  | within (context : String) (error : NodeError)
deriving DecidableEq

inductive Fault
  | error (error : NodeError)
  | panic (text : String)
deriving DecidableEq

/-- `.context` on the way up. -/
def Fault.within (context : String) : Fault → Fault
  | error e => error (.within context e)
  | panic text => panic text

/-! ## Transactions -/

namespace LeeTransaction

/-- A borsh `WitnessSet`. -/
def borshWitnesses (sigs : List (Signature × PublicKey)) : Bytes :=
  borshSeq (fun sk => sk.1.toList ++ sk.2.toList) sigs

/-- `to_bytes` of the transaction inside. -/
def toBytes : LeeTransaction → Bytes
  | publicTx tx => tx.message.toBytes ++ borshWitnesses tx.signaturesAndPublicKeys
  | privacyPreserving tx =>
    tx.message.toBytes ++ borshWitnesses tx.signaturesAndPublicKeys ++ borshSeq (fun b => [b]) tx.proof
  | programDeployment bytecode => borshSeq (fun b => [b]) bytecode

/-- The enum in borsh. -/
def borsh : LeeTransaction → Bytes
  | publicTx tx => 0 :: toBytes (publicTx tx)
  | privacyPreserving tx => 1 :: toBytes (privacyPreserving tx)
  | programDeployment bytecode => 2 :: toBytes (programDeployment bytecode)

section
variable (H : Host)

def hash (tx : LeeTransaction) : HashType := H.sha256 tx.toBytes

/-- Signers and named accounts, each once. -/
def affectedPublicAccountIds : LeeTransaction → List AccountId
  | publicTx tx => (signerAccountIds H tx.signaturesAndPublicKeys ++ tx.message.accountIds).dedup
  | privacyPreserving tx => (signerAccountIds H tx.signaturesAndPublicKeys ++ tx.message.publicAccountIds).dedup
  | programDeployment _ => []

/-- The condition of `transaction_stateless_check`. -/
def signaturesValid : LeeTransaction → Bool
  | publicTx tx => signaturesAreValidFor H (tx.message.hash H) tx.signaturesAndPublicKeys
  | privacyPreserving tx => signaturesAreValidFor H (tx.message.hash H) tx.signaturesAndPublicKeys
  | programDeployment _ => true

def transactionStatelessCheck (tx : LeeTransaction) : Except TransactionMalformationError LeeTransaction := do
  ensure (tx.signaturesValid H) .invalidSignature
  pure tx

/-- `validate_doesnt_modify_account`. -/
def validateDoesntModifyAccount (s : V03State) (diff : StateDiff) (id : AccountId) : Except LeeError Unit :=
  ensure (∀ post ∈ diff.publicDiff.lookup id, post = s.getAccountById id)
    (.invalidInput "Transaction modifies restricted system account")

def validateBridgeAccountModification (s : V03State) (diff : StateDiff) (tx : LeeTransaction) :
    Except LeeError Unit :=
  let pre := s.getAccountById (systemBridgeAccountId H)
  match diff.publicDiff.lookup (systemBridgeAccountId H) with
  | .none => .ok ()
  | .some post =>
    match tx with
    | publicTx _ =>
      ensure ({ post with balance := pre.balance } = pre ∧ pre.balance ≤ post.balance)
        (.invalidInput "Transaction modifies restricted system bridge account")
    | _ => .error (.invalidInput "Non-public transaction cannot modify system bridge account")

/-- `validate_on_state`: what every user transaction goes through. -/
def validateOnState (s : V03State) (blockId : BlockId) (timestamp : Timestamp) (tx : LeeTransaction) :
    Except LeeError StateDiff := do
  let diff ← tx.validate H s blockId timestamp
  (clockProgramAccountIds ++ [systemFaucetAccountId H]).forM (validateDoesntModifyAccount s diff)
  validateBridgeAccountModification H s diff tx
  pure diff

/-- `clock_invocation`: the last transaction of every block. -/
def clockInvocation (timestamp : Timestamp) : LeeTransaction :=
  publicTx ⟨⟨H.clock.id, clockProgramAccountIds, [], Serde.writeU64 timestamp⟩, []⟩

end

end LeeTransaction

section
variable (H : Host) (s : V03State)

/-- `apply_state_diff` as its callers see it. -/
def V03State.apply (diff : StateDiff) : Except Fault V03State :=
  expect (.panic "apply_state_diff") (s.applyStateDiff H diff)

/-- `transition_from_public_transaction`, and `execute_without_system_accounts_check_on_state` of a
transaction of any kind; `context` is what the caller makes of its error. -/
def V03State.execute (context : LeeError → NodeError) (tx : LeeTransaction) (blockId : BlockId)
    (timestamp : Timestamp) : Except Fault V03State := do
  let diff ← (tx.validate H s blockId timestamp).mapError fun e => .error (context e)
  s.apply H diff

end

section
variable {H : Host} {s s' : V03State} {tx : LeeTransaction} {blockId : BlockId} {timestamp : Timestamp}

theorem V03State.execute_ok_iff {context : LeeError → NodeError} :
    s.execute H context tx blockId timestamp = .ok s' ↔ s.transition H tx blockId timestamp = .some s' := by
  simp only [execute, apply, transition, settle_eq_some, bind_ok_iff, mapError_ok_iff, expect_ok_iff]

/-- What a user's transaction is applied with is what its replay is applied with. -/
theorem LeeTransaction.validateOnState_ok {diff : StateDiff}
    (h : tx.validateOnState H s blockId timestamp = .ok diff) : tx.validate H s blockId timestamp = .ok diff := by
  simp only [validateOnState, bind_ok_iff, pure_ok_iff] at h
  obtain ⟨_, hdiff, -, -, -, -, rfl⟩ := h
  exact hdiff

theorem LeeTransaction.transactionStatelessCheck_ok_iff {tx' : LeeTransaction} :
    tx.transactionStatelessCheck H = .ok tx' ↔ tx.signaturesValid H = true ∧ tx = tx' := by
  simp only [transactionStatelessCheck, bind_ok_iff, ensure_ok_iff, pure_ok_iff, exists_and_left, exists_const]

/-- An unsigned transaction passes. -/
theorem LeeTransaction.clockInvocation_signaturesValid : (clockInvocation H timestamp).signaturesValid H = true := rfl

end

/-- The same ledger, its maps taken as maps. -/
structure V03State.Same (s s' : V03State) : Prop where
  accounts : ∀ id, s.publicState.lookup id = s'.publicState.lookup id
  merkleTree : s.commitmentSet.merkleTree = s'.commitmentSet.merkleTree
  commitments : ∀ c, s.commitmentSet.commitments.lookup c = s'.commitmentSet.commitments.lookup c
  rootHistory : s.commitmentSet.rootHistory = s'.commitmentSet.rootHistory
  nullifiers : s.nullifierSet = s'.nullifierSet
  programs : ∀ id, s.programs.lookup id = s'.programs.lookup id

theorem V03State.Same.refl (s : V03State) : s.Same s :=
  ⟨fun _ => rfl, rfl, fun _ => rfl, rfl, rfl, fun _ => rfl⟩

/-! ## Blocks -/

structure BlockMeta where
  id : BlockId
  hash : HashType
deriving DecidableEq

structure BlockHeader where
  blockId : BlockId
  prevBlockHash : HashType
  hash : HashType
  timestamp : Timestamp
  signature : Signature
deriving DecidableEq

structure BlockBody where
  transactions : List LeeTransaction
deriving DecidableEq

inductive BedrockStatus
  | pending
  | safe
  | finalized
deriving DecidableEq

structure Block where
  header : BlockHeader
  body : BlockBody
  bedrockStatus : BedrockStatus
deriving DecidableEq

structure HashableBlockData where
  blockId : BlockId
  prevBlockHash : HashType
  timestamp : Timestamp
  transactions : List LeeTransaction
deriving DecidableEq

namespace HashableBlockData

def toBytes (d : HashableBlockData) : Bytes :=
  toLe 8 d.blockId.toNat ++ d.prevBlockHash.toList ++ toLe 8 d.timestamp.toNat ++
    borshSeq LeeTransaction.borsh d.transactions

/-- `OwnHasher::hash` over the prefix and the data. -/
def hash (H : Host) (d : HashableBlockData) : HashType :=
  H.sha256 (ascii "/LEE/v0.3/Message/Block/" ++ List.replicate 8 0 ++ d.toBytes)

/-- `into_pending_block`; `sign` is the signing key. -/
def intoPendingBlock (H : Host) (sign : HashType → Signature) (d : HashableBlockData) : Block where
  header := ⟨d.blockId, d.prevBlockHash, d.hash H, d.timestamp, sign (d.hash H)⟩
  body := ⟨d.transactions⟩
  bedrockStatus := .pending

end HashableBlockData

/-- A block of these transactions, neither hashed nor signed. -/
def Reference.block (id : BlockId) (timestamp : Timestamp) (transactions : List LeeTransaction) : Block :=
  ⟨⟨id, ByteVec.fill 32 0, ByteVec.fill 32 0, timestamp, ByteVec.fill 64 0⟩, ⟨transactions⟩, .pending⟩

end Lez
