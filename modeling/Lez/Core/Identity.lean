/-
What the ledger derives by hashing (`lee_core`): account ids of public keys,
of public and private program-derived accounts and of private accounts,
nullifier keys, commitments and nullifiers. SHA-256 is code of another
package, so it is the parameter `sha256` throughout; each derivation is the
hash of a preimage with a definition of its own, since what the proofs assume
of the hash is said of preimages.
-/
import Lez.Core.Account

namespace Lez

/-- The bytes of an ASCII literal. -/
def ascii (s : String) : Bytes := s.toList.map fun c => UInt8.ofNat c.toNat

abbrev PdaSeed := Bytes32
abbrev PublicKey := Bytes32
/-- `u128`. -/
abbrev Identifier := U128
abbrev NullifierPublicKey := Bytes32
abbrev NullifierSecretKey := Bytes32
abbrev Commitment := Bytes32
abbrev Nullifier := Bytes32
abbrev CommitmentSetDigest := Bytes32

/-- `(index, siblings)`. -/
abbrev MembershipProof := Nat × List Bytes32

inductive PrivateAccountKind
  | regular (identifier : Identifier)
  | pda (programId : ProgramId) (seed : PdaSeed) (identifier : Identifier)
deriving DecidableEq

/-! ## Preimages -/

/-- `PUBLIC_ACCOUNT_ID_PREFIX || key`. -/
def publicKeyPreimage (key : PublicKey) : Bytes :=
  ascii "/LEE/v0.3/AccountId/Public/" ++ List.replicate 5 0 ++ key.toList

/-- `PROGRAM_DERIVED_ACCOUNT_ID_PREFIX || program_id || seed`. -/
def publicPdaPreimage (programId : ProgramId) (seed : PdaSeed) : Bytes :=
  ascii "/LEE/v0.2/AccountId/PDA/" ++ List.replicate 8 0 ++ programId.toBytes ++ seed.toList

/-- `PRIVATE_PDA_PREFIX || program_id || seed || npk || identifier`. -/
def privatePdaPreimage (programId : ProgramId) (seed : PdaSeed) (npk : NullifierPublicKey)
    (identifier : Identifier) : Bytes :=
  ascii "/LEE/v0.3/AccountId/PrivatePDA/" ++ [0] ++ programId.toBytes ++ seed.toList ++ npk.toList ++
    toLe 16 identifier.toNat

/-- `PRIVATE_ACCOUNT_ID_PREFIX || npk || identifier`. -/
def privateAccountPreimage (npk : NullifierPublicKey) (identifier : Identifier) : Bytes :=
  ascii "/LEE/v0.3/AccountId/Private/" ++ List.replicate 4 0 ++ npk.toList ++ toLe 16 identifier.toNat

/-- `"LEE/keys" || nsk || 7 || 0²³`. -/
def nullifierKeyPreimage (nsk : NullifierSecretKey) : Bytes :=
  ascii "LEE/keys" ++ nsk.toList ++ [7] ++ List.replicate 23 0

/-- What an account id of either kind is derived from. -/
def accountPreimage (npk : NullifierPublicKey) : PrivateAccountKind → Bytes
  | .regular identifier => privateAccountPreimage npk identifier
  | .pda programId seed identifier => privatePdaPreimage programId seed npk identifier

/-! ## Derivations -/

section
variable (sha256 : Bytes → Bytes32)

/-- `AccountId::from(&PublicKey)`. -/
def accountIdFromPublicKey (key : PublicKey) : AccountId := sha256 (publicKeyPreimage key)

/-- `AccountId::for_public_pda`. -/
def forPublicPda (programId : ProgramId) (seed : PdaSeed) : AccountId := sha256 (publicPdaPreimage programId seed)

/-- `AccountId::for_private_pda`. -/
def forPrivatePda (programId : ProgramId) (seed : PdaSeed) (npk : NullifierPublicKey)
    (identifier : Identifier) : AccountId :=
  sha256 (privatePdaPreimage programId seed npk identifier)

/-- `AccountId::for_regular_private_account`. -/
def forRegularPrivateAccount (npk : NullifierPublicKey) (identifier : Identifier) : AccountId :=
  sha256 (privateAccountPreimage npk identifier)

/-- `AccountId::for_private_account`. -/
def forPrivateAccount (npk : NullifierPublicKey) : PrivateAccountKind → AccountId
  | .regular identifier => forRegularPrivateAccount sha256 npk identifier
  | .pda programId seed identifier => forPrivatePda sha256 programId seed npk identifier

/-- `NullifierPublicKey::from(&nsk)`. -/
def nullifierPublicKey (nsk : NullifierSecretKey) : NullifierPublicKey := sha256 (nullifierKeyPreimage nsk)

/-- What `Commitment::new` hashes. -/
def commitmentPreimage (accountId : AccountId) (a : Account) : Bytes :=
  ascii "/LEE/v0.3/Commitment/" ++ List.replicate 11 0 ++ accountId.toList ++ a.programOwner.toBytes ++
    toLe 16 a.balance.toNat ++ toLe 16 a.nonce.toNat ++ (sha256 a.data.1).toList

/-- `Commitment::new`. -/
def commitmentNew (accountId : AccountId) (a : Account) : Commitment := sha256 (commitmentPreimage sha256 accountId a)

/-- `Nullifier::for_account_update`. -/
def nullifierForAccountUpdate (commitment : Commitment) (nsk : NullifierSecretKey) : Nullifier :=
  sha256 (ascii "/LEE/v0.3/Nullifier/Update/" ++ List.replicate 5 0 ++ commitment.toList ++ nsk.toList)

/-- `Nullifier::for_account_initialization`. -/
def nullifierForAccountInitialization (accountId : AccountId) : Nullifier :=
  sha256 (ascii "/LEE/v0.3/Nullifier/Initialize/" ++ [0] ++ accountId.toList)

/-- The first sixteen bytes of a digest as a nonce. -/
def nonceOfDigest (d : Bytes32) : U128 := BitVec.ofNat 128 (ofLe (d.toList.take 16))

/-- `Nonce::private_account_nonce_init`. -/
def privateAccountNonceInit (accountId : AccountId) : U128 :=
  nonceOfDigest (sha256 (accountId.toList ++ List.replicate 32 0))

/-- `Nonce::private_account_nonce_increment`. -/
def privateAccountNonceIncrement (nonce : U128) (nsk : NullifierSecretKey) : U128 :=
  nonceOfDigest (sha256 (nsk.toList ++ toLe 16 nonce.toNat ++ List.replicate 16 0))

/-- `compute_digest_for_path`. -/
def computeDigestForPath (commitment : Commitment) (proof : MembershipProof) : CommitmentSetDigest :=
  (proof.2.foldl
    (fun (acc : Bytes32 × Nat) node =>
      (if acc.2 &&& 1 = 0 then sha256 (acc.1.toList ++ node.toList) else sha256 (node.toList ++ acc.1.toList),
        acc.2 >>> 1))
    (sha256 commitment.toList, proof.1)).1

end

/-! ## Preimages determine what they encode -/

theorem publicPdaPreimage_inj {p q : ProgramId} {s t : PdaSeed} (h : publicPdaPreimage p s = publicPdaPreimage q t) :
    p = q ∧ s = t := by
  unfold publicPdaPreimage at h
  obtain ⟨h₁, hseed⟩ := List.append_inj h (by simp)
  obtain ⟨-, hprog⟩ := List.append_inj h₁ (by simp)
  exact ⟨ProgramId.toBytes_inj hprog, List.Vector.toList_injective hseed⟩

/-- A public PDA is 96 bytes of preimage, a key 64. -/
theorem publicPdaPreimage_ne_publicKeyPreimage {p : ProgramId} {s : PdaSeed} {key : PublicKey} :
    publicPdaPreimage p s ≠ publicKeyPreimage key := by
  intro h
  have hl := congrArg List.length h
  simp [publicPdaPreimage, publicKeyPreimage, ascii] at hl

theorem forPrivateAccount_eq (sha256 : Bytes → Bytes32) (npk : NullifierPublicKey) (kind : PrivateAccountKind) :
    forPrivateAccount sha256 npk kind = sha256 (accountPreimage npk kind) := by
  cases kind <;> rfl

theorem privateAccountPreimage_length (npk : NullifierPublicKey) (identifier : Identifier) :
    (privateAccountPreimage npk identifier).length = 80 := by
  simp [privateAccountPreimage, ascii]

theorem privatePdaPreimage_length (programId : ProgramId) (seed : PdaSeed) (npk : NullifierPublicKey)
    (identifier : Identifier) : (privatePdaPreimage programId seed npk identifier).length = 144 := by
  simp [privatePdaPreimage, ascii]

/-- An account id pins the key and the kind it is derived from; the two kinds differ in length. -/
theorem accountPreimage_inj {npk npk' : NullifierPublicKey} {kind kind' : PrivateAccountKind}
    (h : accountPreimage npk kind = accountPreimage npk' kind') : npk = npk' ∧ kind = kind' := by
  have hl := congrArg List.length h
  have hidentifier : ∀ {x y : Identifier}, toLe 16 x.toNat = toLe 16 y.toNat → x = y := fun hxy =>
    BitVec.eq_of_toNat_eq (toLe_inj (BitVec.isLt _) (BitVec.isLt _) hxy)
  cases kind <;> cases kind' <;>
    simp only [accountPreimage, privateAccountPreimage_length, privatePdaPreimage_length] at h hl
  · unfold privateAccountPreimage at h
    obtain ⟨h, hlast⟩ := List.append_inj h (by simp)
    exact ⟨List.Vector.toList_injective (List.append_inj_right h rfl), congrArg _ (hidentifier hlast)⟩
  · omega
  · omega
  · unfold privatePdaPreimage at h
    obtain ⟨h, hlast⟩ := List.append_inj h (by simp)
    obtain ⟨h, hnpk⟩ := List.append_inj h (by simp)
    obtain ⟨h, hseed⟩ := List.append_inj h (by simp)
    cases ProgramId.toBytes_inj (List.append_inj_right h rfl)
    cases List.Vector.toList_injective hseed
    cases hidentifier hlast
    exact ⟨List.Vector.toList_injective hnpk, rfl⟩

theorem nullifierKeyPreimage_inj {nsk nsk' : NullifierSecretKey}
    (h : nullifierKeyPreimage nsk = nullifierKeyPreimage nsk') : nsk = nsk' := by
  unfold nullifierKeyPreimage at h
  have h₁ := List.append_inj_left (List.append_inj_left h (by simp)) (by simp)
  exact List.Vector.toList_injective (List.append_inj_right h₁ rfl)

/-- A commitment pins the account it is for. -/
theorem commitmentPreimage_id {sha256 : Bytes → Bytes32} {id id' : AccountId} {a a' : Account}
    (h : commitmentPreimage sha256 id a = commitmentPreimage sha256 id' a') : id = id' := by
  unfold commitmentPreimage at h
  have h₁ := List.append_inj_left (List.append_inj_left h (by simp)) (by simp)
  have h₂ := List.append_inj_left (List.append_inj_left h₁ (by simp)) (by simp)
  exact List.Vector.toList_injective (List.append_inj_right h₂ rfl)

end Lez
