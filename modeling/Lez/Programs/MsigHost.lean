/-
What is assumed of the code around the multisig, in one place: the zkVM runs
`msig` and `authenticated_transfer` as modelled, receipts and proofs are
sound, and the program ids are distinct. `Reference.host` is a host that
meets the assumptions, with SHA-256, ChaCha20, the word encoding, and any
other programs one likes.
-/
import Lez.Circuit.Output
import Lez.Lib.ChaCha20
import Lez.Lib.PackedSha256
import Lez.Programs.Serde
import Lez.State.PrivacyTransaction

namespace Lez

/-- A host that runs the two programs as modelled. Executions may fail for
reasons of the zkVM's own (its cycle limit), so the assumptions are about
outputs: an output there is, is the model's. -/
structure MsigHost extends Host where
  codecs : Msig.Codecs
  msigId : ProgramId
  guest_msig : ∀ caller pre data out, guest msigId msigId caller pre data = .ok out →
    Msig.main sha256 codecs msigId caller pre data = .ok (.some out)
  guest_transfer : ∀ caller pre data out,
    guest authenticatedTransfer.id authenticatedTransfer.id caller pre data = .ok out →
      AuthenticatedTransfer.main codecs.transfer authenticatedTransfer.id caller pre data = .ok out
  /-- A receipt's journal came out of an execution on some input, and both
  programs echo theirs. -/
  receipt_msig : ∀ out, receipt msigId out = true →
    Msig.main sha256 codecs out.selfProgramId out.callerProgramId out.preStates out.instructionData = .ok (.some out)
  receipt_transfer : ∀ out, receipt authenticatedTransfer.id out = true →
    AuthenticatedTransfer.main codecs.transfer out.selfProgramId out.callerProgramId out.preStates
      out.instructionData = .ok out
  proof_sound : ∀ proof out, proofValid proof out = true → ∃ i, Circuit.circuit toHost i = .ok out
  msig_ne_default : msigId ≠ defaultProgramId
  transfer_ne_default : authenticatedTransfer.id ≠ defaultProgramId
  msig_ne_transfer : msigId ≠ authenticatedTransfer.id
  msig_ne_clock : msigId ≠ clock.id

namespace Reference

/-- A program id that differs in its first word. -/
def programId (n : UInt32) : ProgramId := ⟨n :: List.replicate 7 0, by simp⟩

/-- `MSIG_ID` of the repository's build. -/
def msigId : ProgramId :=
  ⟨[3100124547, 2797454125, 2467287583, 3014535533, 2620419628, 3253148841, 840948196, 515808628], rfl⟩

def transferId : ProgramId := programId 2
def vaultId : ProgramId := programId 6

/-- What a host may still choose: the other programs, the signatures that
verify, the bytecodes that decode, and the circuit inputs proven. -/
structure Script where
  programs : ProgramId → Guest := fun _ _ _ _ _ => .error "unknown image"
  signatures : List (Signature × Bytes32 × PublicKey) := []
  bytecodes : List (Bytes × ProgramId) := []
  proven : List (Bytes × Circuit.PrivacyPreservingCircuitInput) := []

/-- `msig` in the executor: an execution without a journal is no output. -/
def msigGuest : Guest := fun self caller pre data =>
  match Msig.main Sha256.hash Serde.codecs self caller pre data with
  | .ok (.some out) => .ok out
  | .ok .none => .error "journal does not decode"
  | .error e => .error e

def guest (script : Script) (id : ProgramId) : Guest :=
  if id = msigId then msigGuest
  else if id = transferId then AuthenticatedTransfer.main Serde.transferCodec
  else script.programs id

/-- The host without its proofs. -/
def bare (script : Script) : Host where
  sha256 := Sha256.hash
  chacha20 := fun key b => ChaCha20.applyKeystream key.toList (List.replicate 12 0) b
  signatureValid := fun sig hash key => decide ((sig, hash, key) ∈ script.signatures)
  imageId := fun b => expect "invalid bytecode" (script.bytecodes.lookup b)
  guest := guest script
  receipt := fun id out =>
    decide (guest script id out.selfProgramId out.callerProgramId out.preStates out.instructionData = .ok out)
  proofValid := fun _ _ => false
  clock := ⟨programId 1, []⟩
  authenticatedTransfer := ⟨transferId, []⟩
  token := ⟨programId 3, []⟩
  amm := ⟨programId 4, []⟩
  ata := ⟨programId 5, []⟩
  vault := ⟨programId 6, []⟩
  faucet := ⟨programId 7, []⟩
  bridge := ⟨programId 8, []⟩

theorem msigGuest_ok {self : ProgramId} {caller : Option ProgramId} {pre : List AccountWithMetadata}
    {data : InstructionData} {out : ProgramOutput} (h : msigGuest self caller pre data = .ok out) :
    Msig.main Sha256.hash Serde.codecs self caller pre data = .ok (.some out) := by
  unfold msigGuest at h
  split at h
  next he => cases h; exact he
  next => cases h
  next => cases h

theorem guest_msigId (script : Script) : guest script msigId = msigGuest := if_pos rfl

theorem guest_transferId (script : Script) :
    guest script transferId = AuthenticatedTransfer.main Serde.transferCodec := by
  unfold guest
  rw [if_neg (by decide), if_pos rfl]

/-- A host with SHA-256, ChaCha20, the word encoding and the programs of a script. -/
def host (script : Script) : MsigHost where
  toHost :=
    { bare script with
      proofValid := fun proof out =>
        match script.proven.lookup proof with
        | .some i => decide (Circuit.circuit (bare script) i = .ok out)
        | .none => false }
  codecs := Serde.codecs
  msigId := msigId
  guest_msig := by
    intro caller pre data out h
    exact msigGuest_ok (guest_msigId script ▸ h)
  guest_transfer := by
    intro caller pre data out h
    exact guest_transferId script ▸ h
  receipt_msig := by
    intro out h
    exact msigGuest_ok (guest_msigId script ▸ of_decide_eq_true h)
  receipt_transfer := by
    intro out h
    exact guest_transferId script ▸ of_decide_eq_true h
  proof_sound := by
    intro proof out h
    dsimp only at h
    split at h
    next i hi =>
      refine ⟨i, ?_⟩
      refine Eq.trans (Circuit.circuit_congr ?_ ?_ ?_ i) (of_decide_eq_true h) <;> rfl
    next => cases h
  msig_ne_default := by decide
  transfer_ne_default := show transferId ≠ defaultProgramId by decide
  msig_ne_transfer := show msigId ≠ transferId by decide
  msig_ne_clock := show msigId ≠ programId 1 by decide

/-! ## Small programs and ledgers -/

/-- A program that leaves its accounts and makes the given calls. -/
def caller (calls : List AccountWithMetadata → List ChainedCall) : Guest := fun self caller pre data =>
  .ok { ProgramOutput.new self caller data pre (pre.map fun a => .new a.account) with chainedCalls := calls pre }

/-- A program that does nothing. -/
def idle : Guest := caller fun _ => []

/-- A seed for the examples. -/
def seed : PdaSeed := ByteVec.fill 32 7

def treasuryOf (seed : PdaSeed) : AccountId := forPublicPda Sha256.hash msigId seed

def treasury : AccountId := treasuryOf seed

/-- An account of the transfer program. -/
def funded (balance : U128) : Account := ⟨transferId, balance, Data.empty, 0⟩

/-- A program that passes its accounts on, its authority over the first of
them included, with the given instruction and seeds. -/
def delegating (target : ProgramId) (data : InstructionData) (seeds : List PdaSeed) : Guest := caller fun
  | a :: rest => [⟨target, { a with isAuthorized := true } :: rest, data, seeds⟩]
  | [] => []

/-- A ledger with these accounts and programs, and nothing private. -/
def ledger (accounts : List (AccountId × Account)) (programs : List ProgramId) : V03State :=
  programs.foldl (fun s id => s.insertProgram ⟨id, []⟩)
    { publicState := Table.writeAll ∅ accounts
      commitmentSet := ⟨⟨[bytes32OfNat 0], 1, 0⟩, ∅, ∅⟩
      nullifierSet := ∅
      programs := ∅
      keyed := keyed_empty }

/-- A ledger with two programs and the dummy commitment in its tree. -/
def committedLedger : V03State :=
  { ledger [] [programId 100, programId 101] with
    commitmentSet := ⟨⟨[dummyCommitmentHash], 1, 1⟩, Table.writeAll ∅ [(dummyCommitment, 0)], {dummyCommitmentHash}⟩ }

/-- An unsigned public transaction. -/
def unsigned (programId : ProgramId) (accountIds : List AccountId) (data : InstructionData) : PublicTransaction :=
  ⟨⟨programId, accountIds, [], data⟩, []⟩

/-- A public transaction with one signature, not a real one. -/
def signed (key : PublicKey) (nonce : U128) (programId : ProgramId) (accountIds : List AccountId)
    (data : InstructionData) : PublicTransaction :=
  ⟨⟨programId, accountIds, [nonce], data⟩, [(ByteVec.fill 64 0, key)]⟩

/-- The unsigned transaction with what the circuit puts out, under the empty proof. -/
def proved (H : Host) (i : Circuit.PrivacyPreservingCircuitInput) : Option PrivacyPreservingTransaction :=
  (Circuit.circuit H i).toOption.map fun out =>
    ⟨⟨out.publicPreStates.map (·.accountId), [], out.publicPostStates, out.encryptedPrivatePostStates,
      out.newCommitments, out.newNullifiers, out.blockValidityWindow, out.timestampValidityWindow⟩, [], []⟩

/-- The signatures of these transactions, for a host that takes no others. -/
def signaturesOf (txs : List PublicTransaction) : List (Signature × Bytes32 × PublicKey) :=
  txs.flatMap fun tx => tx.signaturesAndPublicKeys.map fun sk => (sk.1, tx.message.hash (bare {}), sk.2)

/-! ## Evaluation

The same host on the packed hash, which is what a concrete run is evaluated with. -/

def packedMsigGuest : Guest := fun self caller pre data =>
  match Msig.main Sha256.packed Serde.codecs self caller pre data with
  | .ok (.some out) => .ok out
  | .ok .none => .error "journal does not decode"
  | .error e => .error e

def packedGuest (script : Script) (id : ProgramId) : Guest :=
  if id = msigId then packedMsigGuest
  else if id = transferId then AuthenticatedTransfer.main Serde.transferCodec
  else script.programs id

def packedBare (script : Script) : Host :=
  { bare script with
    sha256 := Sha256.packed
    guest := packedGuest script
    receipt := fun id out =>
      decide (packedGuest script id out.selfProgramId out.callerProgramId out.preStates out.instructionData = .ok out) }

def packedHost (script : Script) : Host :=
  { packedBare script with
    proofValid := fun proof out =>
      match script.proven.lookup proof with
      | .some i => decide (Circuit.circuit (packedBare script) i = .ok out)
      | .none => false }

def packedSignaturesOf (txs : List PublicTransaction) : List (Signature × Bytes32 × PublicKey) :=
  txs.flatMap fun tx => tx.signaturesAndPublicKeys.map fun sk => (sk.1, tx.message.hash (packedBare {}), sk.2)

theorem msigGuest_packed : msigGuest = packedMsigGuest := by
  unfold msigGuest packedMsigGuest
  rw [Sha256.hash_eq_packed]

theorem guest_packed (script : Script) : guest script = packedGuest script := by
  funext id
  unfold guest packedGuest
  rw [msigGuest_packed]

theorem bare_packed (script : Script) : bare script = packedBare script := by
  unfold packedBare
  rw [← guest_packed, ← Sha256.hash_eq_packed]
  rfl

theorem host_packed (script : Script) : (host script).toHost = packedHost script := by
  unfold packedHost
  rw [← bare_packed]
  rfl

theorem signaturesOf_packed : signaturesOf = packedSignaturesOf := by
  funext txs
  unfold signaturesOf packedSignaturesOf
  rw [bare_packed]

end Reference

end Lez
