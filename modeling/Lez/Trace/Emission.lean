/-
The private half of the circuit's output. For every private account, in
order, the circuit emits a nullifier of its old state, a commitment to its
new one and a ciphertext of it; `Emission` is one such account with all that
went into it, and `CircuitParts.emissions` reads the output as a list of them.
`emissionsOf` computes the list from the circuit's input.

Whose account an emission is: its id is derived from the nullifier key of its
identity and its kind (`Emission.Sound`), for a private PDA by way of the bound
position.
-/
import Lez.Circuit.Binding
import Lez.Trace.Private

namespace Lez

open Circuit

/-- A private account as the circuit emits it. -/
structure Emission where
  identity : InputAccountIdentity
  pos : Nat
  pre : AccountWithMetadata
  /-- The account as the calls left it. -/
  left : Account
  output : PrivateOutput

namespace Emission

def id (e : Emission) : AccountId := e.output.accountId

/-- The account committed to: the nonce is the circuit's. -/
def account (e : Emission) : Account := { e.left with nonce := e.output.newNonce }

def commitment (H : Host) (e : Emission) : Commitment := commitmentNew H.sha256 e.id e.account

/-- The ciphertext at an index of the output. -/
def note (H : Host) (index : Nat) (e : Emission) : EncryptedAccountData :=
  ⟨encrypt H e.account e.output.kind e.output.ssk (e.commitment H) index, e.output.epk, e.output.viewTag⟩

def item (e : Emission) : (InputAccountIdentity × AccountWithMetadata) × Nat := ((e.identity, e.pre), e.pos)

/-- It passed the checks of its arm of the match, and is what the calls left. -/
structure Valid (H : Host) (st : ExecutionState) (e : Emission) : Prop where
  arm : privateOutput H st.privatePdaBoundPositions e.pos e.pre e.identity = .ok e.output
  left : st.postStates.lookup e.pre.accountId = .some e.left

end Emission

section
variable {H : Host} {st : ExecutionState}

/-- Every arm emits the account it was given. -/
theorem privateOutput_accountId {bound : Table Nat (ProgramId × PdaSeed)} {pos : Nat} {pre : AccountWithMetadata}
    {identity : InputAccountIdentity} {p : PrivateOutput} (h : privateOutput H bound pos pre identity = .ok p) :
    p.accountId = pre.accountId := by
  cases identity with
  | «public» => cases h
  | privateAuthorizedInit | privateAuthorizedUpdate | privateUnauthorized =>
    simp only [privateOutput, bind_ok_iff, ensure_ok_iff, pure_ok_iff] at h
    obtain ⟨-, hid, h⟩ := h
    simp only [exists_and_left, exists_const] at h
    grind
  | privatePdaInit | privatePdaUpdate =>
    simp only [privateOutput, bind_ok_iff, ensure_ok_iff, expect_ok_iff, pure_ok_iff] at h
    grind

/-- What the loop over the accounts adds to the private half. -/
structure Emits (H : Host) (st : ExecutionState) (items : List ((InputAccountIdentity × AccountWithMetadata) × Nat))
    (acc : Emitted) (es : List Emission) (acc' : Emitted) : Prop where
  items : es.map Emission.item = items.filter fun it => !it.1.1.isPublic
  valid : ∀ e ∈ es, e.Valid H st
  commitments : acc'.1.newCommitments = acc.1.newCommitments ++ es.map (Emission.commitment H)
  nullifiers : acc'.1.newNullifiers = acc.1.newNullifiers ++ es.map (·.output.newNullifier)
  notes : acc'.1.encryptedPrivatePostStates =
    acc.1.encryptedPrivatePostStates ++ es.mapIdx fun k e => e.note H (acc.2 + k)
  index : acc'.2 = acc.2 + es.length
  fits : es ≠ [] → acc'.2 < 2 ^ 32

theorem emitAccounts_emits : ∀ {items : List ((InputAccountIdentity × AccountWithMetadata) × Nat)} {acc acc' : Emitted},
    items.foldlM (emitAccount H st) acc = .ok acc' → ∃ es, Emits H st items acc es acc'
  | [], acc, acc', h => by
    cases h
    exact ⟨[], by simp, by simp, by simp, by simp, by simp, rfl, by simp⟩
  | ((identity, pre), pos) :: items, acc, acc', h => by
    rw [List.foldlM_cons, bind_ok_iff] at h
    obtain ⟨acc₁, hemit, h⟩ := h
    obtain ⟨es, hes⟩ := emitAccounts_emits h
    simp only [emitAccount, bind_ok_iff, expect_ok_iff] at hemit
    obtain ⟨left, hleft, hemit⟩ := hemit
    split at hemit
    next hpub =>
      cases hemit
      exact ⟨es, by simp [hes.items, hpub], hes.valid, hes.commitments, hes.nullifiers, hes.notes, hes.index, hes.fits⟩
    next hpriv =>
      rw [bind_ok_iff] at hemit
      obtain ⟨p, harm, hemit⟩ := hemit
      simp only [emitPrivateOutput, bind_ok_iff, ensure_ok_iff, pure_ok_iff] at hemit
      obtain ⟨_, hfits, rfl⟩ := hemit
      let e : Emission := ⟨identity, pos, pre, left, p⟩
      refine ⟨e :: es, ?_, ?_, ?_, ?_, ?_, ?_, ?_⟩
      · simp [hes.items, hpriv, e, Emission.item]
      · intro e' he'
        rcases List.mem_cons.mp he' with rfl | he'
        · exact ⟨harm, hleft⟩
        · exact hes.valid e' he'
      · rw [hes.commitments]
        simp [e, Emission.commitment, Emission.account, Emission.id]
      · rw [hes.nullifiers]
        simp [e]
      · rw [hes.notes]
        simp [e, Emission.note, Emission.commitment, Emission.account, Emission.id, List.mapIdx_cons, Nat.add_assoc,
          Nat.add_comm 1]
      · rw [hes.index]
        simp
        omega
      · intro _
        by_cases hnil : es = []
        · rw [hes.index, hnil]
          simpa using hfits
        · exact hes.fits hnil

/-- **The private half of the output, emission by emission.** -/
structure Emissions (H : Host) (i : PrivacyPreservingCircuitInput) (st : ExecutionState)
    (output : PrivacyPreservingCircuitOutput) (es : List Emission) : Prop where
  items : es.map Emission.item = ((i.accountIdentities.zip st.preStates).zipIdx).filter fun it => !it.1.1.isPublic
  valid : ∀ e ∈ es, e.Valid H st
  commitments : output.newCommitments = es.map (Emission.commitment H)
  nullifiers : output.newNullifiers = es.map (·.output.newNullifier)
  notes : output.encryptedPrivatePostStates = es.mapIdx fun k e => e.note H k
  fits : es.length < 2 ^ 32

theorem CircuitParts.emissions {i : PrivacyPreservingCircuitInput} {output : PrivacyPreservingCircuitOutput}
    (h : CircuitParts H i output st) : ∃ es, Emissions H i st output es := by
  obtain ⟨n, hemit⟩ := h.emitted
  obtain ⟨es, hes⟩ := emitAccounts_emits hemit
  refine ⟨es, hes.items, hes.valid, by simpa using hes.commitments, by simpa using hes.nullifiers,
    by simpa using hes.notes, ?_⟩
  by_cases hnil : es = []
  · simp [hnil]
  · have hfits := hes.fits hnil
    have hindex := hes.index
    simp only at hfits hindex
    omega

section
variable {i : PrivacyPreservingCircuitInput} {output : PrivacyPreservingCircuitOutput} {es : List Emission}

theorem Emissions.id_eq (h : Emissions H i st output es) {e : Emission} (he : e ∈ es) : e.id = e.pre.accountId :=
  privateOutput_accountId (h.valid e he).arm

/-- The accounts emitted are the private ones of the input, in order. -/
theorem Emissions.pre (h : Emissions H i st output es) :
    es.map (·.pre) = ((i.accountIdentities.zip st.preStates).filter fun it => !it.1.isPublic).map (·.2) := by
  have hfst : (((i.accountIdentities.zip st.preStates).zipIdx).filter fun it => !it.1.1.isPublic).map (·.1) =
      (i.accountIdentities.zip st.preStates).filter fun it => !it.1.isPublic := by
    have hmap := List.filter_map (f := Prod.fst) (p := fun it : InputAccountIdentity × AccountWithMetadata => !it.1.isPublic)
      (l := (i.accountIdentities.zip st.preStates).zipIdx)
    rw [List.zipIdx_map_fst] at hmap
    exact hmap.symm
  rw [← hfst, ← h.items, List.map_map, List.map_map]
  rfl

end

end

/-! ## Whose account -/

namespace Circuit.InputAccountIdentity

/-- The nullifier public key of a private account's owner. -/
def npk (sha256 : Bytes → Bytes32) : InputAccountIdentity → Option NullifierPublicKey
  | .public => .none
  | .privateAuthorizedInit _ _ _ nsk _ | .privateAuthorizedUpdate _ _ _ nsk _ _
  | .privatePdaUpdate _ _ _ nsk _ _ _ => .some (nullifierPublicKey sha256 nsk)
  | .privateUnauthorized _ _ npk _ _ | .privatePdaInit _ _ npk _ _ _ => .some npk

/-- The key and the membership proof an update spends the old state with. -/
def spending : InputAccountIdentity → Option (NullifierSecretKey × MembershipProof)
  | .privateAuthorizedUpdate _ _ _ nsk proof _ | .privatePdaUpdate _ _ _ nsk proof _ _ => .some (nsk, proof)
  | _ => .none

end Circuit.InputAccountIdentity

/-- The commitment to the state an emission starts from. -/
def Emission.commitmentPre (H : Host) (e : Emission) : Commitment := commitmentNew H.sha256 e.id e.pre.account

/-- The account is derived from its owner's key, and the nullifier is that of
its first state or, under the owner's key, of the state it replaces. -/
structure Emission.Sound (H : Host) (e : Emission) : Prop where
  derived : ∃ npk, e.identity.npk H.sha256 = .some npk ∧ e.id = forPrivateAccount H.sha256 npk e.output.kind
  init : e.identity.spending = .none → e.output.newNullifier.1 = nullifierForAccountInitialization H.sha256 e.id
  update : ∀ nsk proof, e.identity.spending = .some (nsk, proof) →
    e.identity.npk H.sha256 = .some (nullifierPublicKey H.sha256 nsk) ∧
    e.output.newNullifier = (nullifierForAccountUpdate H.sha256 (e.commitmentPre H) nsk,
      computeDigestForPath H.sha256 (e.commitmentPre H) proof)

section
variable {H : Host} {st : ExecutionState} {i : PrivacyPreservingCircuitInput}
  {output : PrivacyPreservingCircuitOutput} {es : List Emission}

/-- A PDA is derived by the binding of its position. -/
theorem Bound.pda {identities : List InputAccountIdentity} {identity : InputAccountIdentity} {pos : Nat}
    {pre : AccountWithMetadata} {p : ProgramId} {s : PdaSeed} {npk : NullifierPublicKey} {identifier : Identifier}
    (hb : Bound H.sha256 identities st) (hidentity : identities[pos]? = .some identity)
    (hpre : st.preStates[pos]? = .some pre) (hnpk : identity.npkIfPrivatePda H.sha256 = .some (npk, identifier))
    (hlookup : st.privatePdaBoundPositions.lookup pos = .some (p, s)) :
    pre.accountId = forPrivatePda H.sha256 p s npk identifier := by
  obtain ⟨a, npk', identifier', ha, hnpk', hid⟩ := hb.derives hlookup
  rw [hidentity, Option.bind_some, hnpk] at hnpk'
  rw [hpre] at ha
  cases ha
  cases hnpk'
  exact hid

theorem Emission.Valid.sound {e : Emission} (hv : e.Valid H st)
    (hb : Bound H.sha256 i.accountIdentities st) (hidentity : i.accountIdentities[e.pos]? = .some e.identity)
    (hpre : st.preStates[e.pos]? = .some e.pre) : e.Sound H := by
  obtain ⟨identity, pos, pre, left, p⟩ := e
  have harm := hv.arm
  dsimp only at harm hidentity hpre
  cases identity with
  | «public» => cases harm
  | privateAuthorizedInit epk viewTag ssk nsk identifier =>
    simp only [privateOutput, bind_ok_iff, ensure_ok_iff, pure_ok_iff] at harm
    obtain ⟨-, -, -, -, -, -, rfl⟩ := harm
    exact ⟨⟨_, rfl, rfl⟩, fun _ => rfl, fun _ _ h => by cases h⟩
  | privateAuthorizedUpdate epk viewTag ssk nsk proof identifier =>
    simp only [privateOutput, bind_ok_iff, ensure_ok_iff, pure_ok_iff] at harm
    obtain ⟨-, -, -, -, rfl⟩ := harm
    refine ⟨⟨_, rfl, rfl⟩, fun h => (by cases h), fun _ _ h => ?_⟩
    cases h
    exact ⟨rfl, rfl⟩
  | privateUnauthorized epk viewTag npk ssk identifier =>
    simp only [privateOutput, bind_ok_iff, ensure_ok_iff, pure_ok_iff] at harm
    obtain ⟨-, -, -, -, -, -, rfl⟩ := harm
    exact ⟨⟨_, rfl, rfl⟩, fun _ => rfl, fun _ _ h => by cases h⟩
  | privatePdaInit epk viewTag npk ssk identifier seed =>
    simp only [privateOutput, bind_ok_iff, ensure_ok_iff, expect_ok_iff, pure_ok_iff] at harm
    obtain ⟨-, -, -, -, ⟨authority, bound⟩, hlookup, rfl⟩ := harm
    exact ⟨⟨_, rfl, Bound.pda hb hidentity hpre rfl hlookup⟩, fun _ => rfl, fun _ _ h => by cases h⟩
  | privatePdaUpdate epk viewTag ssk nsk proof identifier seed =>
    simp only [privateOutput, bind_ok_iff, ensure_ok_iff, expect_ok_iff, pure_ok_iff] at harm
    obtain ⟨-, -, ⟨authority, bound⟩, hlookup, rfl⟩ := harm
    refine ⟨⟨_, rfl, Bound.pda hb hidentity hpre rfl hlookup⟩, fun h => (by cases h), fun _ _ h => ?_⟩
    cases h
    exact ⟨rfl, rfl⟩

/-- Every emission of a circuit's output is sound. -/
theorem Emissions.sound (hparts : CircuitParts H i output st) (hes : Emissions H i st output es) {e : Emission}
    (he : e ∈ es) : e.Sound H := by
  have hitem : e.item ∈ (i.accountIdentities.zip st.preStates).zipIdx := by
    have hmem : e.item ∈ es.map Emission.item := List.mem_map_of_mem he
    rw [hes.items] at hmem
    exact (List.mem_filter.mp hmem).1
  obtain ⟨hidentity, hpre⟩ := List.getElem?_zip_eq_some.mp (List.mem_zipIdx_iff_getElem?.mp hitem)
  exact (hes.valid e he).sound (deriveFromOutputs_bound hparts.derived) hidentity hpre

/-! ## The emissions of an input -/

/-- The emission of one account, if it is private. -/
def emissionOf (H : Host) (st : ExecutionState) (item : (InputAccountIdentity × AccountWithMetadata) × Nat) :
    Option Emission := do
  let left ← st.postStates.lookup item.1.2.accountId
  let output ← (privateOutput H st.privatePdaBoundPositions item.2 item.1.2 item.1.1).toOption
  pure ⟨item.1.1, item.2, item.1.2, left, output⟩

/-- The emissions of an input of the circuit. -/
def emissionsOf (H : Host) (i : PrivacyPreservingCircuitInput) : List Emission :=
  match deriveFromOutputs H i.accountIdentities i.programId i.programOutputs with
  | .ok st => ((i.accountIdentities.zip st.preStates).zipIdx).filterMap (emissionOf H st)
  | .error _ => []

theorem Emission.Valid.emissionOf_item {e : Emission} (hv : e.Valid H st) : emissionOf H st e.item = .some e := by
  simp [emissionOf, Emission.item, hv.left, hv.arm, Except.toOption]

theorem emissionOf_public {item : (InputAccountIdentity × AccountWithMetadata) × Nat} (h : item.1.1.isPublic = true) :
    emissionOf H st item = .none := by
  obtain ⟨⟨identity, pre⟩, pos⟩ := item
  cases identity <;> simp [InputAccountIdentity.isPublic] at h
  simp [emissionOf, privateOutput, Except.toOption]

theorem Emissions.eq_emissionsOf (hparts : CircuitParts H i output st) (hes : Emissions H i st output es) :
    es = emissionsOf H i := by
  have hskip : ((i.accountIdentities.zip st.preStates).zipIdx).filterMap (emissionOf H st) =
      (((i.accountIdentities.zip st.preStates).zipIdx).filter fun it => !it.1.1.isPublic).filterMap (emissionOf H st) := by
    rw [List.filterMap_filter]
    refine List.filterMap_congr fun it _ => ?_
    split
    next => rfl
    next hpub => exact emissionOf_public (by simpa using hpub)
  rw [emissionsOf, hparts.derived]
  dsimp only
  rw [hskip, ← hes.items, List.filterMap_map]
  refine Eq.trans ?_ (List.filterMap_congr fun e he => (hes.valid e he).emissionOf_item.symm)
  simp

/-- **What the circuit emits**, read off its input. -/
theorem circuit_emissions (h : circuit H i = .ok output) :
    ∃ st, CircuitParts H i output st ∧ Emissions H i st output (emissionsOf H i) := by
  obtain ⟨st, hparts⟩ := circuit_parts h
  obtain ⟨es, hes⟩ := hparts.emissions
  exact ⟨st, hparts, hes.eq_emissionsOf hparts ▸ hes⟩

end

end Lez
