/-
`from_privacy_preserving_transaction` and
`from_program_deployment_transaction`. The host never sees the calls of a
private transaction: it rebuilds the public half of the circuit's output from
its own state and verifies the proof against it.
-/
import Lez.State.PublicTransaction

namespace Lez

open LeeError

namespace PrivacyPreservingTransaction

structure Message where
  publicAccountIds : List AccountId
  nonces : List U128
  publicPostStates : List Account
  encryptedPrivatePostStates : List EncryptedAccountData
  newCommitments : List Commitment
  newNullifiers : List (Nullifier × CommitmentSetDigest)
  blockValidityWindow : BlockValidityWindow
  timestampValidityWindow : TimestampValidityWindow
deriving DecidableEq

/-- A borsh `Account`. -/
def borshAccount (a : Account) : Bytes :=
  a.programOwner.toBytes ++ toLe 16 a.balance.toNat ++ borshSeq (fun b => [b]) a.data.1 ++ toLe 16 a.nonce.toNat

/-- A borsh `ValidityWindow<u64>`. -/
def borshWindow (w : ValidityWindow UInt64) : Bytes :=
  let bound (o : Option UInt64) : Bytes := o.elim [0] fun t => 1 :: toLe 8 t.toNat
  bound w.start ++ bound w.stop

def Message.toBytes (m : Message) : Bytes :=
  borshSeq List.Vector.toList m.publicAccountIds ++ borshSeq (fun n : U128 => toLe 16 n.toNat) m.nonces ++
    borshSeq borshAccount m.publicPostStates ++
    borshSeq (fun e => borshSeq (fun b => [b]) e.ciphertext ++ borshSeq (fun b => [b]) e.epk ++ [e.viewTag])
      m.encryptedPrivatePostStates ++
    borshSeq List.Vector.toList m.newCommitments ++
    borshSeq (fun nd => nd.1.toList ++ nd.2.toList) m.newNullifiers ++
    borshWindow m.blockValidityWindow ++ borshWindow m.timestampValidityWindow

/-- `Message::hash`. -/
def Message.hash (H : Host) (m : Message) : Bytes32 :=
  H.sha256 (ascii "/LEE/v0.3/Message/Privacy/" ++ List.replicate 6 0 ++ m.toBytes)

end PrivacyPreservingTransaction

/-- A message, the signatures and public keys that witness it, and a proof. -/
structure PrivacyPreservingTransaction where
  message : PrivacyPreservingTransaction.Message
  signaturesAndPublicKeys : List (Signature × PublicKey)
  proof : Bytes
deriving DecidableEq

section
variable (H : Host)

/-- The output the proof has to be of: public pre-states from the ledger, the
rest from the message. -/
def expectedCircuitOutput (tx : PrivacyPreservingTransaction) (s : V03State) : PrivacyPreservingCircuitOutput :=
  let m := tx.message
  let signers := signerAccountIds H tx.signaturesAndPublicKeys
  ⟨m.publicAccountIds.map (signedPreState s signers), m.publicPostStates, m.encryptedPrivatePostStates,
    m.newCommitments, m.newNullifiers, m.blockValidityWindow, m.timestampValidityWindow⟩

def fromPrivacyPreservingTransaction (tx : PrivacyPreservingTransaction) (s : V03State) (blockId : BlockId)
    (timestamp : Timestamp) : Except LeeError StateDiff := do
  let message := tx.message
  ensure (message.newCommitments ≠ [] ∨ message.newNullifiers ≠ [])
    (invalidInput "Empty commitments and empty nullifiers found in message")
  ensure (message.publicAccountIds.toFinset.card = message.publicAccountIds.length)
    (invalidInput "Duplicate account_ids found in message")
  ensure ((message.newNullifiers.map (·.1)).toFinset.card = message.newNullifiers.length)
    (invalidInput "Duplicate nullifiers found in message")
  ensure (message.newCommitments.toFinset.card = message.newCommitments.length)
    (invalidInput "Duplicate commitments found in message")
  ensure (message.nonces.length = tx.signaturesAndPublicKeys.length)
    (invalidInput "Mismatch between number of nonces and signatures/public keys")
  ensure (signaturesAreValidFor H (message.hash H) tx.signaturesAndPublicKeys)
    (invalidInput "Invalid signature for given message and public key")
  let signers := signerAccountIds H tx.signaturesAndPublicKeys
  checkNonces s signers message.nonces
  ensure (message.blockValidityWindow.isValidFor blockId ∧ message.timestampValidityWindow.isValidFor timestamp)
    outOfValidityWindow
  ensure (H.proofValid tx.proof (expectedCircuitOutput H tx s)) invalidPrivacyPreservingProof
  s.checkCommitmentsAreNew message.newCommitments
  s.checkNullifiersAreValid message.newNullifiers
  pure ⟨signers, Table.writeAll ∅ (message.publicAccountIds.zip message.publicPostStates), message.newCommitments,
    message.newNullifiers.map (·.1), .none⟩

/-- `Program::new`. -/
def Program.new (bytecode : Bytes) : Except LeeError Program :=
  ((H.imageId bytecode).mapError invalidProgramBytecode).map fun id => ⟨id, bytecode⟩

def fromProgramDeploymentTransaction (bytecode : Bytes) (s : V03State) : Except LeeError StateDiff := do
  let program ← Program.new H bytecode
  ensure ((s.programs.lookup program.id).isNone) programAlreadyExists
  pure ⟨[], ∅, [], [], .some program⟩

end

end Lez
