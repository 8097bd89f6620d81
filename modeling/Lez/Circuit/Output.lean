/-
`compute_circuit_output` and the circuit's `main`: public accounts leave as
they are, a private account leaves as a nullifier of its old state, a
commitment to its new one and a ciphertext of it.
-/
import Lez.Circuit.ExecutionState

namespace Lez.Circuit

open Panic

/-! ## Encryption (`encryption`) -/

/-- `PrivateAccountKind::to_header_bytes`: 81 bytes for either kind. -/
def toHeaderBytes : PrivateAccountKind → Bytes
  | .regular identifier => 0 :: toLe 16 identifier.toNat ++ List.replicate 64 0
  | .pda programId seed identifier => 1 :: programId.toBytes ++ seed.toList ++ toLe 16 identifier.toNat

section
variable (H : Host)

/-- `EncryptionScheme::kdf`. -/
def kdf (sharedSecret : Bytes32) (commitment : Commitment) (outputIndex : Nat) : Bytes32 :=
  H.sha256 (ascii "LEE/v0.2/KDF-SHA256/" ++ sharedSecret.toList ++ commitment.toList ++ toLe 4 outputIndex)

/-- `EncryptionScheme::encrypt`. -/
def encrypt (a : Account) (kind : PrivateAccountKind) (sharedSecret : Bytes32) (commitment : Commitment)
    (outputIndex : Nat) : Bytes :=
  H.chacha20 (kdf H sharedSecret commitment outputIndex) (toHeaderBytes kind ++ a.toBytes)

/-! ## One account -/

/-- The output so far and `output_index`. -/
abbrev Emitted := PrivacyPreservingCircuitOutput × Nat

/-- What the arms of the match hand to `emit_private_output`. -/
structure PrivateOutput where
  accountId : AccountId
  kind : PrivateAccountKind
  ssk : Bytes32
  epk : Bytes
  viewTag : UInt8
  newNullifier : Nullifier × CommitmentSetDigest
  newNonce : U128

/-- `emit_private_output`. -/
def emitPrivateOutput (acc : Emitted) (postState : Account) (p : PrivateOutput) : Except Panic Emitted := do
  let (output, outputIndex) := acc
  let post := { postState with nonce := p.newNonce }
  let commitmentPost := commitmentNew H.sha256 p.accountId post
  let ciphertext := encrypt H post p.kind p.ssk commitmentPost outputIndex
  ensure (outputIndex + 1 < 2 ^ 32) (plain "Too many private accounts, output index overflow")
  pure ({ output with
      newNullifiers := output.newNullifiers ++ [p.newNullifier]
      newCommitments := output.newCommitments ++ [commitmentPost]
      encryptedPrivatePostStates := output.encryptedPrivatePostStates ++ [⟨ciphertext, p.epk, p.viewTag⟩] },
    outputIndex + 1)

/-- `compute_update_nullifier_and_set_digest`. -/
def computeUpdateNullifierAndSetDigest (proof : MembershipProof) (preAccount : Account) (accountId : AccountId)
    (nsk : NullifierSecretKey) : Nullifier × CommitmentSetDigest :=
  let commitmentPre := commitmentNew H.sha256 accountId preAccount
  (nullifierForAccountUpdate H.sha256 commitmentPre nsk, computeDigestForPath H.sha256 commitmentPre proof)

/-- The nullifier and nonce of an account that is new on chain. -/
def initNullifier (accountId : AccountId) : Nullifier × CommitmentSetDigest :=
  (nullifierForAccountInitialization H.sha256 accountId, dummyCommitmentHash)

/-- The arms of the match for private accounts: their checks and what they emit. -/
def privateOutput (bound : Table Nat (ProgramId × PdaSeed)) (pos : Nat) (pre : AccountWithMetadata) :
    InputAccountIdentity → Except Panic PrivateOutput
  | .public => .error (plain "public account")
  | .privateAuthorizedInit epk viewTag ssk nsk identifier => do
    let accountId := forRegularPrivateAccount H.sha256 (nullifierPublicKey H.sha256 nsk) identifier
    ensure (accountId = pre.accountId) (plain "AccountId mismatch")
    ensure pre.isAuthorized (plain "Pre-state not authorized for authenticated private account")
    ensure (pre.account = Account.default) (plain "Found new private account with non default values")
    pure ⟨accountId, .regular identifier, ssk, epk, viewTag, initNullifier H accountId,
      privateAccountNonceInit H.sha256 accountId⟩
  | .privateAuthorizedUpdate epk viewTag ssk nsk membershipProof identifier => do
    let accountId := forRegularPrivateAccount H.sha256 (nullifierPublicKey H.sha256 nsk) identifier
    ensure (accountId = pre.accountId) (plain "AccountId mismatch")
    ensure pre.isAuthorized (plain "Pre-state not authorized for authenticated private account")
    pure ⟨accountId, .regular identifier, ssk, epk, viewTag,
      computeUpdateNullifierAndSetDigest H membershipProof pre.account accountId nsk,
      privateAccountNonceIncrement H.sha256 pre.account.nonce nsk⟩
  | .privateUnauthorized epk viewTag npk ssk identifier => do
    let accountId := forRegularPrivateAccount H.sha256 npk identifier
    ensure (accountId = pre.accountId) (plain "AccountId mismatch")
    ensure (pre.account = Account.default) (plain "Found new private account with non default values")
    ensure (¬pre.isAuthorized) (plain "Found new private account marked as authorized.")
    pure ⟨accountId, .regular identifier, ssk, epk, viewTag, initNullifier H accountId,
      privateAccountNonceInit H.sha256 accountId⟩
  | .privatePdaInit epk viewTag _ ssk identifier _ => do
    ensure (¬pre.isAuthorized) (plain "PrivatePdaInit requires unauthorized pre_state")
    ensure (pre.account = Account.default) (plain "New private PDA must be default")
    let (authority, seed) ← expect (plain "PrivatePdaInit position must be in pda_seed_by_position") (bound.lookup pos)
    pure ⟨pre.accountId, .pda authority seed identifier, ssk, epk, viewTag, initNullifier H pre.accountId,
      privateAccountNonceInit H.sha256 pre.accountId⟩
  | .privatePdaUpdate epk viewTag ssk nsk membershipProof identifier seed => do
    ensure (pre.isAuthorized ^^ seed.isSome) (plain "PrivatePdaUpdate requires authorized pre_state or external seed")
    let (authority, seed) ← expect (plain "PrivatePdaUpdate position must be in pda_seed_by_position")
      (bound.lookup pos)
    pure ⟨pre.accountId, .pda authority seed identifier, ssk, epk, viewTag,
      computeUpdateNullifierAndSetDigest H membershipProof pre.account pre.accountId nsk,
      privateAccountNonceIncrement H.sha256 pre.account.nonce nsk⟩

/-- The body of the loop over the accounts. -/
def emitAccount (st : ExecutionState) (acc : Emitted)
    (item : (InputAccountIdentity × AccountWithMetadata) × Nat) : Except Panic Emitted := do
  let ((identity, pre), pos) := item
  let post ← expect (plain "Account from pre states should exist in state diff") (st.postStates.lookup pre.accountId)
  if identity.isPublic then
    pure ({ acc.1 with
        publicPreStates := acc.1.publicPreStates ++ [pre]
        publicPostStates := acc.1.publicPostStates ++ [post] }, acc.2)
  else emitPrivateOutput H acc post (← privateOutput H st.privatePdaBoundPositions pos pre identity)

/-! ## The circuit -/

def computeCircuitOutput (st : ExecutionState) (identities : List InputAccountIdentity) :
    Except Panic PrivacyPreservingCircuitOutput := do
  ensure (identities.length = st.preStates.length) (plain "Invalid account_identities length")
  let start : PrivacyPreservingCircuitOutput :=
    ⟨[], [], [], [], [], st.blockValidityWindow, st.timestampValidityWindow⟩
  let (output, _) ← ((identities.zip st.preStates).zipIdx).foldlM (emitAccount H st) (start, 0)
  pure output

structure PrivacyPreservingCircuitInput where
  programOutputs : List ProgramOutput
  accountIdentities : List InputAccountIdentity
  programId : ProgramId

/-- `main` of the circuit: what a proof attests. -/
def circuit (i : PrivacyPreservingCircuitInput) : Except Panic PrivacyPreservingCircuitOutput := do
  let st ← deriveFromOutputs H i.accountIdentities i.programId i.programOutputs
  computeCircuitOutput H st i.accountIdentities

end

/-! ## What the circuit uses of its host -/

section
variable {H₁ H₂ : Host} (hsha : H₁.sha256 = H₂.sha256) (hreceipt : H₁.receipt = H₂.receipt)
include hsha hreceipt

theorem runOutputs_congr (identities : List InputAccountIdentity) :
    ∀ (budget : Nat) (q : List (ChainedCall × Option ProgramId)) (outs : List ProgramOutput) (st : ExecutionState),
      runOutputs H₁ identities budget q outs st = runOutputs H₂ identities budget q outs st
  | 0, [], _, _ | _ + 1, [], _, _ | 0, _ :: _, _, _ | _ + 1, _ :: _, [], _ => rfl
  | budget + 1, (call, caller) :: rest, out :: outs, st => by
    have hacc : acceptOutput H₁ identities st call caller out = acceptOutput H₂ identities st call caller out := by
      simp only [acceptOutput, hsha, hreceipt]
    rw [runOutputs, runOutputs, hacc]
    congr 1
    funext st'
    exact runOutputs_congr identities budget _ outs st'

/-- The circuit reads the hash, the cipher and the receipts, nothing else. -/
theorem circuit_congr (hcipher : H₁.chacha20 = H₂.chacha20) (i : PrivacyPreservingCircuitInput) :
    circuit H₁ i = circuit H₂ i := by
  have hrun := runOutputs_congr hsha hreceipt i.accountIdentities
  have hemit : ∀ st, emitAccount H₁ st = emitAccount H₂ st := by
    intro st
    funext acc item
    obtain ⟨⟨identity, pre⟩, pos⟩ := item
    have hpriv : privateOutput H₁ st.privatePdaBoundPositions pos pre identity =
        privateOutput H₂ st.privatePdaBoundPositions pos pre identity := by
      cases identity <;>
        simp only [privateOutput, initNullifier, computeUpdateNullifierAndSetDigest, hsha]
    simp only [emitAccount, emitPrivateOutput, encrypt, kdf, hpriv, hsha, hcipher]
  simp only [circuit, deriveFromOutputs, npkByPosition, computeCircuitOutput, hrun, hemit, hsha]

end

end Lez.Circuit
