/-
Private outputs on their way to the owner. The circuit encrypts what it
commits to: the note at an index opens, under the shared secret of the
account's identity and the commitment at the same index, to a kind and an
account from which the owner's key gives back the account's id and the
commitment itself.
-/
import Lez.Trace.Emission
import Lez.Wallet.Notes
import Lez.Programs.MsigHost

namespace Lez

open Circuit

/-- The secret shared with the owner of a private account. -/
def Circuit.InputAccountIdentity.ssk : InputAccountIdentity → Option Bytes32
  | .public => .none
  | .privateAuthorizedInit _ _ ssk _ _ | .privateAuthorizedUpdate _ _ ssk _ _ _ | .privateUnauthorized _ _ _ ssk _
  | .privatePdaInit _ _ _ ssk _ _ | .privatePdaUpdate _ _ ssk _ _ _ _ => .some ssk

/-- Every arm encrypts under the secret of the identity. -/
theorem privateOutput_ssk {H : Host} {bound : Table Nat (ProgramId × PdaSeed)} {pos : Nat} {pre : AccountWithMetadata}
    {identity : InputAccountIdentity} {p : PrivateOutput} (h : privateOutput H bound pos pre identity = .ok p) :
    identity.ssk = .some p.ssk := by
  cases identity with
  | «public» => cases h
  | privateAuthorizedInit | privateAuthorizedUpdate | privateUnauthorized | privatePdaInit | privatePdaUpdate =>
    simp only [privateOutput, bind_ok_iff, ensure_ok_iff, expect_ok_iff, pure_ok_iff, Prod.exists] at h
    grind [InputAccountIdentity.ssk]

namespace Wallet

/-- The output at an index, as the owner of the account has it: its nullifier is the account's, and its note opens
to a kind and an account that give back the id and the commitment. -/
structure Delivered (H : Host) (output : PrivacyPreservingCircuitOutput) (k : Nat) (identity : InputAccountIdentity)
    (id : AccountId) (kind : PrivateAccountKind) (account : Account) : Prop where
  nullifier : ∃ nullifier, output.newNullifiers[k]? = .some nullifier ∧
    (identity.spending = .none → nullifier.1 = nullifierForAccountInitialization H.sha256 id) ∧
    ∀ nsk proof, identity.spending = .some (nsk, proof) → ∃ pre,
      nullifier.1 = nullifierForAccountUpdate H.sha256 (commitmentNew H.sha256 id pre) nsk
  note : ∃ ssk commitment data, identity.ssk = .some ssk ∧ output.newCommitments[k]? = .some commitment ∧
    output.encryptedPrivatePostStates[k]? = .some data ∧
    decrypt H data.ciphertext ssk commitment k = .some (kind, account) ∧ commitmentNew H.sha256 id account = commitment
  owner : ∃ npk, identity.npk H.sha256 = .some npk ∧ forPrivateAccount H.sha256 npk kind = id

section
variable {H : Host} {i : PrivacyPreservingCircuitInput} {output : PrivacyPreservingCircuitOutput} {st : ExecutionState}
  {es : List Emission}

/-- The identities of the emissions are the private ones, in order. -/
theorem emissions_identities (hparts : CircuitParts H i output st) (hes : Emissions H i st output es) :
    es.map (·.identity) = i.accountIdentities.filter fun identity => !identity.isPublic := by
  have hitems : ((i.accountIdentities.zip st.preStates).zipIdx).map (·.1.1) = i.accountIdentities := by
    have hfst : ((i.accountIdentities.zip st.preStates).zipIdx).map (·.1) = i.accountIdentities.zip st.preStates := by
      simp
    calc ((i.accountIdentities.zip st.preStates).zipIdx).map (·.1.1)
        = (((i.accountIdentities.zip st.preStates).zipIdx).map (·.1)).map (·.1) := by rw [List.map_map]; rfl
      _ = i.accountIdentities := by rw [hfst, List.map_fst_zip hparts.length.le]
  calc es.map (·.identity) = (es.map Emission.item).map (·.1.1) := by rw [List.map_map]; rfl
    _ = (((i.accountIdentities.zip st.preStates).zipIdx).filter fun it => !it.1.1.isPublic).map (·.1.1) := by
        rw [hes.items]
    _ = (((i.accountIdentities.zip st.preStates).zipIdx).map (·.1.1)).filter fun identity => !identity.isPublic := by
        rw [List.filter_map]
        rfl
    _ = i.accountIdentities.filter fun identity => !identity.isPublic := by rw [hitems]

/-- An emission reaches its owner. -/
theorem delivered_of_emission (hcipher : ∀ key m, H.chacha20 key (H.chacha20 key m) = m)
    (hparts : CircuitParts H i output st) (hes : Emissions H i st output es) {k : Nat} {e : Emission}
    (hk : es[k]? = .some e) : Delivered H output k e.identity e.id e.output.kind e.account := by
  have he : e ∈ es := List.mem_of_getElem? hk
  have hsound := hes.sound hparts he
  refine ⟨⟨e.output.newNullifier, ?_, hsound.init, ?_⟩, ⟨e.output.ssk, e.commitment H, e.note H k, ?_, ?_, ?_, ?_, rfl⟩, ?_⟩
  · rw [hes.nullifiers, List.getElem?_map, hk, Option.map_some]
  · intro nsk proof hspending
    exact ⟨e.pre.account, congrArg Prod.fst (hsound.update nsk proof hspending).2⟩
  · exact privateOutput_ssk (hes.valid e he).arm
  · rw [hes.commitments, List.getElem?_map, hk, Option.map_some]
  · rw [hes.notes, List.getElem?_mapIdx, hk, Option.map_some]
  · exact decrypt_encrypt hcipher e.account e.output.kind e.output.ssk (e.commitment H) k
  · obtain ⟨npk, hnpk, hid⟩ := hsound.derived
    exact ⟨npk, hnpk, hid.symm⟩

/-- **Private outputs reach their owner intact.** The circuit emits one
nullifier, one commitment and one note for each private identity, in their
order, and the note of the `k`-th opens at index `k`, under the identity's
shared secret and the `k`-th commitment, to the kind its id is derived by and
the account committed to. -/
theorem private_outputs_delivered (hcipher : ∀ key m, H.chacha20 key (H.chacha20 key m) = m)
    (h : circuit H i = .ok output) :
    let privates := i.accountIdentities.filter fun identity => !identity.isPublic
    output.newNullifiers.length = privates.length ∧ output.newCommitments.length = privates.length ∧
    output.encryptedPrivatePostStates.length = privates.length ∧
    ∀ k identity, privates[k]? = .some identity → ∃ e, (emissionsOf H i)[k]? = .some e ∧ e.identity = identity ∧
      Delivered H output k identity e.id e.output.kind e.account := by
  intro privates
  obtain ⟨st, hparts, hes⟩ := circuit_emissions h
  have hidentities : (emissionsOf H i).map (·.identity) = privates := emissions_identities hparts hes
  have hlength : (emissionsOf H i).length = privates.length := by rw [← hidentities, List.length_map]
  refine ⟨?_, ?_, ?_, ?_⟩
  · rw [hes.nullifiers, List.length_map, hlength]
  · rw [hes.commitments, List.length_map, hlength]
  · rw [hes.notes, List.length_mapIdx, hlength]
  · intro k identity hk
    rw [← hidentities, List.getElem?_map] at hk
    obtain ⟨e, he, rfl⟩ := Option.map_eq_some_iff.mp hk
    exact ⟨e, he, rfl, delivered_of_emission hcipher hparts hes he⟩

end

section
open Reference

namespace Sample

/-- A new account and a new PDA for one key, beside a public account. -/
def mixedParcel : PrivacyPreservingCircuitInput where
  programOutputs := (idle (programId 100) .none
    [⟨Account.default, false, bytes32OfNat 7⟩,
     ⟨Account.default, false, forRegularPrivateAccount Sha256.hash (bytes32OfNat 5) 1⟩,
     ⟨Account.default, false, forPrivatePda Sha256.hash (programId 100) (ByteVec.fill 32 8) (bytes32OfNat 5) 2⟩]
    []).toOption.toList
  accountIdentities :=
    [.public, .privateUnauthorized [1] 0 (bytes32OfNat 5) (ByteVec.fill 32 3) 1,
     .privatePdaInit [2] 0 (bytes32OfNat 5) (ByteVec.fill 32 4) 2 (.some (ByteVec.fill 32 8, programId 100))]
  programId := programId 100

end Sample

open Wallet.Sample

theorem mixed_parcel_delivered :
    ∃ output, circuit (host { programs := fun _ => idle }).toHost mixedParcel = .ok output ∧
      output.encryptedPrivatePostStates.length = 2 ∧
      ∀ k identity, (mixedParcel.accountIdentities.filter fun identity => !identity.isPublic)[k]? = .some identity →
        ∃ id kind account, Delivered (host { programs := fun _ => idle }).toHost output k identity id kind account := by
  have hrun : (circuit (host { programs := fun _ => idle }).toHost mixedParcel).toOption.isSome = true := by
    decide +kernel
  obtain ⟨output, houtput⟩ := Option.isSome_iff_exists.mp hrun
  have hcircuit := toOption_eq_some.mp houtput
  obtain ⟨-, -, hnotes, hdelivered⟩ :=
    private_outputs_delivered (fun key m => ChaCha20.applyKeystream_involutive _ _ m) hcircuit
  refine ⟨output, hcircuit, hnotes.trans rfl, ?_⟩
  intro k identity hk
  obtain ⟨e, -, -, he⟩ := hdelivered k identity hk
  exact ⟨e.id, e.output.kind, e.account, he⟩

end

end Wallet

end Lez
