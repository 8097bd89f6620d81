/-
The ledger (`V03State`): public accounts, commitments and nullifiers, deployed
programs, and `apply_state_diff`, the only way a transaction changes them.

Code outside the repository stands in a `Host`: the hash, the stream cipher,
signature verification, image ids, the zkVM's executor and its two verifiers.
Nothing is assumed of them here.
-/
import Lez.Core.Program
import Lez.State.Commitments

namespace Lez

structure Program where
  id : ProgramId
  elf : Bytes
deriving DecidableEq

/-- What a program does on an input: the output it commits, or why there is none. -/
abbrev Guest := ProgramId → Option ProgramId → List AccountWithMetadata → InstructionData → Except String ProgramOutput

structure EncryptedAccountData where
  ciphertext : Bytes
  epk : Bytes
  viewTag : UInt8
deriving DecidableEq

structure PrivacyPreservingCircuitOutput where
  publicPreStates : List AccountWithMetadata
  publicPostStates : List Account
  encryptedPrivatePostStates : List EncryptedAccountData
  newCommitments : List Commitment
  newNullifiers : List (Nullifier × CommitmentSetDigest)
  blockValidityWindow : BlockValidityWindow
  timestampValidityWindow : TimestampValidityWindow
deriving DecidableEq

structure Host where
  sha256 : Bytes → Bytes32
  /-- ChaCha20 keystream application under a key and the zero nonce. -/
  chacha20 : Bytes32 → Bytes → Bytes
  /-- BIP-340 verification of a signature over a prehashed message. -/
  signatureValid : ByteVec 64 → Bytes32 → PublicKey → Bool
  /-- `ProgramBinary::decode` and `compute_image_id`. -/
  imageId : Bytes → Except String ProgramId
  /-- The zkVM executor, by image id, journal decoding included. -/
  guest : ProgramId → Guest
  /-- `env::verify`: some receipt of the program has this output as its journal. -/
  receipt : ProgramId → ProgramOutput → Bool
  /-- `Proof::is_valid_for`. -/
  proofValid : Bytes → PrivacyPreservingCircuitOutput → Bool
  clock : Program
  authenticatedTransfer : Program
  token : Program
  amm : Program
  ata : Program
  vault : Program
  faucet : Program
  bridge : Program

/-! ## Errors -/

inductive InvalidProgramBehaviorError
  | inconsistentAccountPreState (accountId : AccountId) (expected actual : Account)
  | invalidAccountAuthorization (accountId : AccountId)
  | authorizedAccountMarkedAsNotAuthorized (accountId : AccountId)
  | mismatchedProgramId (expected actual : ProgramId)
  | mismatchedCallerProgramId (expected actual : Option ProgramId)
  | executionValidationFailed (error : ExecutionValidationError)
  | claimedNonDefaultAccount (accountId : AccountId)
  | claimedUnauthorizedAccount (accountId : AccountId)
  | mismatchedPdaClaim (expected actual : AccountId)
  | defaultAccountModifiedWithoutClaim (accountId : AccountId)
deriving DecidableEq

inductive LeeError
  | invalidInput (text : String)
  | invalidProgramBehavior (error : InvalidProgramBehaviorError)
  | programExecutionFailed (text : String)
  | invalidPrivacyPreservingProof
  | invalidProgramBytecode (text : String)
  | programAlreadyExists
  | maxChainedCallsDepthExceeded
  | outOfValidityWindow
deriving DecidableEq

/-! ## State -/

/-- `keyed`: `insert_program` is the only writer of the program table and
files a program under its own id. -/
structure V03State where
  publicState : Table AccountId Account
  commitmentSet : CommitmentSet
  nullifierSet : Finset Nullifier
  programs : Table ProgramId Program
  keyed : ∀ id p, programs.lookup id = .some p → p.id = id

theorem keyed_empty (id : ProgramId) (p : Program) (h : (∅ : Table ProgramId Program).lookup id = .some p) :
    p.id = id := by
  simp at h

namespace V03State

def getAccountById (s : V03State) (id : AccountId) : Account := s.publicState.getD id Account.default

def insertProgram (s : V03State) (p : Program) : V03State :=
  { s with
    programs := s.programs.insert p.id p
    keyed := by
      intro id q h
      by_cases hid : id = p.id
      · subst hid
        rw [AList.lookup_insert, Option.some.injEq] at h
        rw [← h]
      · rw [AList.lookup_insert_ne hid] at h
        exact s.keyed id q h }

def checkCommitmentsAreNew (s : V03State) (cs : List Commitment) : Except LeeError Unit :=
  cs.forM fun c => ensure (¬s.commitmentSet.contains c) (.invalidInput "Commitment already seen")

def checkNullifiersAreValid (s : V03State) (ns : List (Nullifier × CommitmentSetDigest)) : Except LeeError Unit :=
  ns.forM fun nd => do
    ensure (nd.1 ∉ s.nullifierSet) (.invalidInput "Nullifier already seen")
    ensure (nd.2 ∈ s.commitmentSet.rootHistory) (.invalidInput "Unrecognized commitment set digest")

end V03State

/-! ## Applying a validated diff -/

structure StateDiff where
  signerAccountIds : List AccountId
  publicDiff : Table AccountId Account
  newCommitments : List Commitment
  newNullifiers : List Nullifier
  program : Option Program

/-- `public_account_nonce_increment` of one account; `none` is its overflow panic. -/
def incrementNonce (accounts : Table AccountId Account) (id : AccountId) : Option (Table AccountId Account) :=
  let account := accounts.getD id Account.default
  if account.nonce.toNat + 1 < 2 ^ 128 then
    .some (accounts.insert id { account with nonce := account.nonce + 1 })
  else .none

def V03State.applyStateDiff (H : Host) (s : V03State) (diff : StateDiff) : Option V03State := do
  let written := s.publicState.writeAll diff.publicDiff.toPairs
  let publicState ← diff.signerAccountIds.foldlM incrementNonce written
  let commitmentSet ← s.commitmentSet.extend H.sha256 diff.newCommitments
  let applied : V03State :=
    { s with
      publicState := publicState
      commitmentSet := commitmentSet
      nullifierSet := s.nullifierSet ∪ diff.newNullifiers.toFinset }
  pure (diff.program.elim applied applied.insertProgram)

/-! ## Genesis -/

/-- `CLOCK_PROGRAM_ACCOUNT_IDS`. -/
def clockProgramAccountIds : List AccountId :=
  [⟨ascii "/LEZ/ClockProgramAccount/0000001", by simp [ascii]⟩,
   ⟨ascii "/LEZ/ClockProgramAccount/0000010", by simp [ascii]⟩,
   ⟨ascii "/LEZ/ClockProgramAccount/0000050", by simp [ascii]⟩]

/-- `FAUCET_SEED_DOMAIN_SEPARATOR`. -/
def faucetSeed : PdaSeed := ⟨ascii "/LEZ/v0.3/FaucetSeed/0000000000/", by simp [ascii]⟩

/-- `BRIDGE_SEED_DOMAIN_SEPARATOR`. -/
def bridgeSeed : PdaSeed := ⟨ascii "/LEZ/v0.3/BridgeSeed/0000000000/", by simp [ascii]⟩

section
variable (H : Host)

def systemFaucetAccountId : AccountId := forPublicPda H.sha256 H.faucet.id faucetSeed
def systemBridgeAccountId : AccountId := forPublicPda H.sha256 H.bridge.id bridgeSeed

/-- An account of the transfer program with nothing but a balance. -/
def transferAccount (balance : U128) : Account := { Account.default with programOwner := H.authenticatedTransfer.id, balance }

def systemFaucetAccount : Account := transferAccount H (BitVec.allOnes 128)
def systemBridgeAccount : Account := transferAccount H 0

/-- `ClockAccountData { block_id: 0, timestamp }` as bytes. -/
def clockData (genesis : Timestamp) : Data := ⟨toLe 8 0 ++ toLe 8 genesis.toNat, by simp [dataMaxLength]⟩

def clockAccount (genesis : Timestamp) : Account :=
  { Account.default with programOwner := H.clock.id, data := clockData genesis }

/-- The two accounts every constructor writes. -/
def systemAccounts : List (AccountId × Account) :=
  [(systemFaucetAccountId H, systemFaucetAccount H), (systemBridgeAccountId H, systemBridgeAccount H)]

/-- `V03State::new`: the system accounts and nothing else. -/
def V03State.new : Option V03State := do
  let commitmentSet ← CommitmentSet.withCapacity 32
  pure
    { publicState := Table.writeAll ∅ (systemAccounts H)
      commitmentSet := commitmentSet
      nullifierSet := ∅
      programs := ∅
      keyed := keyed_empty }

/-- The accounts `new_with_genesis_accounts` writes, in its order. -/
def genesisAccounts (initialData : List (AccountId × U128)) (genesis : Timestamp) : List (AccountId × Account) :=
  initialData.map (fun d => (d.1, transferAccount H d.2)) ++ systemAccounts H ++
    clockProgramAccountIds.map fun id => (id, clockAccount H genesis)

/-- `V03State::new_with_genesis_accounts`. -/
def newWithGenesisAccounts (initialData : List (AccountId × U128))
    (initialPrivate : List (Commitment × Nullifier)) (genesis : Timestamp) : Option V03State := do
  let empty ← CommitmentSet.withCapacity 32
  let withDummy ← empty.extend H.sha256 [dummyCommitment]
  let commitmentSet ← withDummy.extend H.sha256 (initialPrivate.map (·.1))
  let bare : V03State :=
    { publicState := Table.writeAll ∅ (genesisAccounts H initialData genesis)
      commitmentSet := commitmentSet
      nullifierSet := (initialPrivate.map (·.2)).toFinset
      programs := ∅
      keyed := keyed_empty }
  pure ([H.clock, H.authenticatedTransfer, H.token, H.amm, H.ata, H.vault, H.faucet, H.bridge].foldl
    V03State.insertProgram bare)

end

/-- The data of a pinata: its difficulty first. -/
def pinataData : Data := ⟨List.replicate 33 3, by simp [dataMaxLength]⟩

/-- `add_pinata_program`, which the testnet's genesis ends with. -/
def V03State.addPinataProgram (s : V03State) (pinata : Program) (id : AccountId) : V03State :=
  { s.insertProgram pinata with
    publicState := s.publicState.insert id
      { Account.default with programOwner := pinata.id, balance := 1500000, data := pinataData } }

end Lez
