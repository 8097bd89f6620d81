/-
What a binding of a private PDA proves. The circuit takes the account id of a
private PDA from its pre-state, so nothing in the arm that emits it says whose
account it is; that comes from the table of bound positions. Every entry of it,
whether made by an external seed, by a seed of the caller or by a claim,
derives the account filed at its position from the npk of the identity there
(`Bound`), and the loop over the outputs keeps it so.
-/
import Lez.Circuit.Facts

namespace Lez.Circuit

variable {sha256 : Bytes → Bytes32} {identities : List InputAccountIdentity} {st st' : ExecutionState}

/-- Each bound position derives the account filed there. -/
structure Bound (sha256 : Bytes → Bytes32) (identities : List InputAccountIdentity) (st : ExecutionState) : Prop where
  npk : ∀ pos, st.privatePdaNpkByPosition.lookup pos = identities[pos]?.bind (·.npkIfPrivatePda sha256)
  derives : ∀ {pos p s}, st.privatePdaBoundPositions.lookup pos = .some (p, s) →
    ∃ a npk identifier, st.preStates[pos]? = .some a ∧
      identities[pos]?.bind (·.npkIfPrivatePda sha256) = .some (npk, identifier) ∧
      a.accountId = forPrivatePda sha256 p s npk identifier

theorem bindPrivatePdaPosition_lookup {map map' : Table Nat (ProgramId × PdaSeed)} {pos k : Nat} {p : ProgramId}
    {s : PdaSeed} {x : ProgramId × PdaSeed} (h : bindPrivatePdaPosition map pos p s = .ok map')
    (hx : map'.lookup k = .some x) : map.lookup k = .some x ∨ k = pos ∧ x = (p, s) := by
  unfold bindPrivatePdaPosition at h
  split at h
  next =>
    cases h
    by_cases hk : k = pos
    · subst hk
      rw [AList.lookup_insert] at hx
      exact .inr ⟨rfl, (Option.some.inj hx).symm⟩
    · rw [AList.lookup_insert_ne hk] at hx
      exact .inl hx
  next =>
    simp only [bind_ok_iff, pure_ok_iff] at h
    obtain ⟨_, -, rfl⟩ := h
    exact .inl hx

/-- A new binding for the account filed at its position. -/
theorem Bound.bind (hb : Bound sha256 identities st) (hsame : SameAccounts st st') {pos : Nat} {p : ProgramId}
    {s : PdaSeed} (hbound : bindPrivatePdaPosition st.privatePdaBoundPositions pos p s = .ok st'.privatePdaBoundPositions)
    {a : AccountWithMetadata} {npk : NullifierPublicKey} {identifier : Identifier} (ha : st.preStates[pos]? = .some a)
    (hnpk : identities[pos]?.bind (·.npkIfPrivatePda sha256) = .some (npk, identifier))
    (hid : a.accountId = forPrivatePda sha256 p s npk identifier) : Bound sha256 identities st' := by
  refine ⟨fun k => by rw [hsame.npk, hb.npk], fun {k q t} hk => ?_⟩
  rw [hsame.preStates]
  rcases bindPrivatePdaPosition_lookup hbound hk with hold | ⟨rfl, heq⟩
  · exact hb.derives hold
  · cases heq
    exact ⟨a, npk, identifier, ha, hnpk, hid⟩

theorem Bound.same (hb : Bound sha256 identities st) (hsame : SameAccounts st st')
    (hbound : st'.privatePdaBoundPositions = st.privatePdaBoundPositions) : Bound sha256 identities st' := by
  refine ⟨fun k => by rw [hsame.npk, hb.npk], fun {k q t} hk => ?_⟩
  rw [hsame.preStates]
  exact hb.derives (hbound ▸ hk)

/-! ## The three ways to bind -/

/-- A seed of the caller that matched in the private form derives the account. -/
theorem matchedCallerSeed_private {id : AccountId} {pos : Nat} {caller : Option ProgramId} {seeds : List PdaSeed}
    {seed : PdaSeed} {p : ProgramId}
    (h : matchedCallerSeed sha256 st id pos caller seeds = .some (seed, true, p)) :
    ∃ npk identifier, st.privatePdaNpkByPosition.lookup pos = .some (npk, identifier) ∧
      forPrivatePda sha256 p seed npk identifier = id := by
  rw [matchedCallerSeed, Option.bind_eq_some_iff] at h
  obtain ⟨c, -, h⟩ := h
  obtain ⟨t, -, h⟩ := List.exists_of_findSome?_eq_some h
  split at h
  next => cases h
  next =>
    split at h
    next npk identifier hnpk =>
      split at h
      next hid =>
        cases h
        exact ⟨npk, identifier, hnpk, hid⟩
      next => cases h
    next => cases h

theorem Bound.recordBindings (hb : Bound sha256 identities st) {id : AccountId} {pos : Nat}
    {caller : Option ProgramId} {seeds : List PdaSeed} {a : AccountWithMetadata} (ha : st.preStates[pos]? = .some a)
    (hid : a.accountId = id)
    (h : Circuit.recordBindings st id pos (matchedCallerSeed sha256 st id pos caller seeds) = .ok st') :
    Bound sha256 identities st' := by
  have hsame := recordBindings_ok h
  cases hmatch : matchedCallerSeed sha256 st id pos caller seeds with
  | none =>
    rw [hmatch] at h
    cases h
    exact hb
  | some m =>
    obtain ⟨seed, isPrivateForm, p⟩ := m
    rw [hmatch] at h
    rw [Circuit.recordBindings, bind_ok_iff] at h
    obtain ⟨families, -, h⟩ := h
    cases isPrivateForm with
    | false =>
      simp only [Bool.false_eq_true, if_false, bind_ok_iff, pure_ok_iff] at h
      obtain ⟨bound, hbound, rfl⟩ := h
      cases hbound
      exact hb.same hsame rfl
    | true =>
      simp only [if_true, bind_ok_iff, pure_ok_iff] at h
      obtain ⟨bound, hbound, rfl⟩ := h
      obtain ⟨npk, identifier, hnpk, hderived⟩ := matchedCallerSeed_private hmatch
      rw [hb.npk] at hnpk
      exact hb.bind hsame hbound ha hnpk (hid.trans hderived.symm)

theorem Bound.syncSeen (hb : Bound sha256 identities st) {known : Account} {caller : Option ProgramId}
    {seeds : List PdaSeed} {pre : AccountWithMetadata} (h : Circuit.syncSeen sha256 st known caller seeds pre = .ok st') :
    Bound sha256 identities st' := by
  simp only [Circuit.syncSeen, resolveAuthorizationAndRecordBindings, bind_ok_iff, ensure_ok_iff, expect_ok_iff,
    pure_ok_iff, Prod.exists] at h
  obtain ⟨-, -, first, pos, hfind, flag, st₁, ⟨st₂, hrecord, h⟩, -, -, rfl⟩ := h
  have hget := List.mem_zipIdx_iff_getElem?.mp (List.mem_of_find?_eq_some hfind)
  have hid := List.find?_some hfind
  have hb₂ := hb.recordBindings hget (of_decide_eq_true hid) hrecord
  split at h
  next =>
    cases h
    exact hb₂
  next =>
    split at h <;> cases h
    · exact ⟨hb₂.npk, hb₂.derives⟩
    · exact hb₂

/-- The seed given with the input derives the account from the npk given with it. -/
theorem externalSeed_ok {id : AccountId} {pos : Nat} {seed : PdaSeed} {authority : ProgramId}
    (h : externalSeed sha256 identities[pos]? id pos = .ok (.some (seed, authority))) :
    ∃ npk identifier, identities[pos]?.bind (·.npkIfPrivatePda sha256) = .some (npk, identifier) ∧
      id = forPrivatePda sha256 authority seed npk identifier := by
  unfold externalSeed at h
  split at h
  next hidentity =>
    simp only [bind_ok_iff, ensure_ok_iff, pure_ok_iff] at h
    obtain ⟨-, hid, heq⟩ := h
    cases heq
    rw [hidentity]
    exact ⟨_, _, rfl, hid⟩
  next hidentity =>
    simp only [bind_ok_iff, ensure_ok_iff, pure_ok_iff] at h
    obtain ⟨-, hid, heq⟩ := h
    cases heq
    rw [hidentity]
    exact ⟨_, _, rfl, hid⟩
  next => cases h

theorem Bound.syncFresh (hb : Bound sha256 identities st) {pre : AccountWithMetadata}
    (h : Circuit.syncFresh sha256 identities st pre = .ok st') : Bound sha256 identities st' := by
  -- the account is filed first, so that the position to bind has it
  have hfiled : Bound sha256 identities { st with preStates := st.preStates ++ [pre] } := by
    refine ⟨hb.npk, fun hk => ?_⟩
    obtain ⟨a, npk, identifier, ha, hnpk, hid⟩ := hb.derives hk
    refine ⟨a, npk, identifier, ?_, hnpk, hid⟩
    rw [List.getElem?_append_left (List.getElem?_eq_some_iff.mp ha).1, ha]
  rw [Circuit.syncFresh, bind_ok_iff] at h
  obtain ⟨seed, hseed, h⟩ := h
  dsimp only at h
  split at h
  next =>
    cases h
    exact hfiled
  next seed authority =>
    simp only [bind_ok_iff, pure_ok_iff] at h
    obtain ⟨_, -, bound, hbound, _, -, _, rfl, rfl⟩ := h
    obtain ⟨npk, identifier, hnpk, hid⟩ := externalSeed_ok hseed
    exact hfiled.bind ⟨rfl, rfl, rfl, rfl⟩ hbound (by simp) hnpk hid

theorem Bound.claimPublic (hb : Bound sha256 identities st) {program : ProgramId} {pre : AccountWithMetadata}
    {claim : Claim} (h : Circuit.claimPublic sha256 st program pre claim = .ok st') : Bound sha256 identities st' := by
  have hsame := claimPublic_ok h
  cases claim with
  | authorized =>
    simp only [Circuit.claimPublic, bind_ok_iff, pure_ok_iff] at h
    obtain ⟨_, -, rfl⟩ := h
    exact hb
  | pda seed =>
    simp only [Circuit.claimPublic, bind_ok_iff, pure_ok_iff] at h
    obtain ⟨_, -, _, -, rfl⟩ := h
    exact hb.same hsame rfl

theorem Bound.claimPrivate (hb : Bound sha256 identities st) {program : ProgramId} {pos : Nat}
    {pre a : AccountWithMetadata} {claim : Claim} (ha : st.preStates[pos]? = .some a)
    (hid : a.accountId = pre.accountId) (h : Circuit.claimPrivate sha256 st program pos pre claim = .ok st') :
    Bound sha256 identities st' := by
  have hsame := claimPrivate_ok h
  cases claim with
  | authorized =>
    cases h
    exact hb
  | pda seed =>
    simp only [Circuit.claimPrivate, bind_ok_iff, ensure_ok_iff, expect_ok_iff, pure_ok_iff] at h
    obtain ⟨⟨npk, identifier⟩, hnpk, -, hderived, bound, hbound, _, -, rfl⟩ := h
    rw [hb.npk] at hnpk
    exact hb.bind hsame hbound ha hnpk (hid.trans hderived)

theorem Bound.syncClaim (hb : Bound sha256 identities st) {program : ProgramId} {pre : AccountWithMetadata}
    {post : AccountPostState} {left : Account}
    (h : Circuit.syncClaim sha256 identities st program pre post = .ok (left, st')) : Bound sha256 identities st' := by
  unfold Circuit.syncClaim at h
  split at h
  next =>
    cases h
    exact hb
  next claim _ =>
    simp only [bind_ok_iff, expect_ok_iff] at h
    obtain ⟨_, -, pos, hpos, identity, -, h⟩ := h
    obtain ⟨hlt, hid, -⟩ := List.findIdx?_eq_some_iff_getElem.mp hpos
    split at h <;> rw [bind_ok_iff] at h <;> obtain ⟨st₁, hst₁, h⟩ := h <;> cases h
    · exact hb.claimPublic hst₁
    · exact hb.claimPrivate (List.getElem?_eq_getElem hlt) (of_decide_eq_true hid) hst₁

/-! ## Whole runs -/

theorem Bound.syncState (hb : Bound sha256 identities st) {program : ProgramId} {caller : Option ProgramId}
    {seeds : List PdaSeed} {pp : AccountWithMetadata × AccountPostState}
    (h : Circuit.syncState sha256 identities program caller seeds st pp = .ok st') : Bound sha256 identities st' := by
  rw [Circuit.syncState] at h
  dsimp only at h
  split at h <;> simp only [bind_ok_iff, pure_ok_iff, Prod.exists] at h <;>
    obtain ⟨st₁, hst₁, left, st₂, hclaim, rfl⟩ := h
  · have hb₂ := (hb.syncSeen hst₁).syncClaim hclaim
    exact ⟨hb₂.npk, hb₂.derives⟩
  · have hb₂ := (hb.syncFresh hst₁).syncClaim hclaim
    exact ⟨hb₂.npk, hb₂.derives⟩

theorem Bound.syncStates {program : ProgramId} {caller : Option ProgramId} {seeds : List PdaSeed} :
    ∀ {pps : List (AccountWithMetadata × AccountPostState)} {st st' : ExecutionState}, Bound sha256 identities st →
      pps.foldlM (Circuit.syncState sha256 identities program caller seeds) st = .ok st' → Bound sha256 identities st'
  | [], st, st', hb, h => by
    cases h
    exact hb
  | pp :: pps, st, st', hb, h => by
    rw [List.foldlM_cons, bind_ok_iff] at h
    obtain ⟨st₁, hst₁, h⟩ := h
    exact (hb.syncState hst₁).syncStates h

theorem Bound.runOutputs {H : Host} : ∀ {budget : Nat} {q : List (ChainedCall × Option ProgramId)}
    {outs left : List ProgramOutput} {st st' : ExecutionState}, Bound H.sha256 identities st →
      Circuit.runOutputs H identities budget q outs st = .ok (st', left) → Bound H.sha256 identities st'
  | budget, [], outs, left, st, st', hb, h => by
    have hnil : Circuit.runOutputs H identities budget [] outs st = .ok (st, outs) := by cases budget <;> rfl
    rw [hnil] at h
    cases h
    exact hb
  | 0, _ :: _, outs, left, st, st', hb, h => by cases h
  | budget + 1, _ :: _, [], left, st, st', hb, h => by cases h
  | budget + 1, (call, caller) :: rest, out :: outs, left, st, st', hb, h => by
    simp only [Circuit.runOutputs, acceptOutput, validateAndSyncStates, bind_ok_iff] at h
    obtain ⟨st₁, ⟨_, -, _, -, _, -, _, -, _, -, hsync⟩, h⟩ := h
    exact (hb.syncStates hsync).runOutputs h

theorem npkByPosition_lookup (H : Host) (identities : List InputAccountIdentity) (pos : Nat) :
    (npkByPosition H identities).lookup pos = identities[pos]?.bind (·.npkIfPrivatePda H.sha256) := by
  have hindices : (identities.zipIdx.map (·.2)).Nodup := by
    rw [List.zipIdx_map_snd]
    exact List.nodup_range'
  unfold npkByPosition
  cases hnpk : identities[pos]?.bind (·.npkIfPrivatePda H.sha256) with
  | some npk =>
    obtain ⟨identity, hidentity, hnpk⟩ := Option.bind_eq_some_iff.mp hnpk
    refine Table.lookup_writeAll_mem ?_ (List.mem_filterMap.mpr ⟨(identity, pos), ?_, by simp [hnpk]⟩)
    · rw [List.Nodup, List.pairwise_map, List.pairwise_filterMap]
      refine (List.pairwise_map.mp hindices).imp ?_
      intro a a' hne b hb b' hb'
      obtain ⟨_, -, rfl⟩ := Option.map_eq_some_iff.mp hb
      obtain ⟨_, -, rfl⟩ := Option.map_eq_some_iff.mp hb'
      exact hne
    · exact List.mem_zipIdx_iff_getElem?.mpr hidentity
  | none =>
    rw [Table.lookup_writeAll_not]
    · rfl
    · rintro ⟨k, npk⟩ hmem rfl
      obtain ⟨⟨identity, pos⟩, hin, heq⟩ := List.mem_filterMap.mp hmem
      obtain ⟨npk', hnpk', heq⟩ := Option.map_eq_some_iff.mp heq
      cases heq
      rw [List.mem_zipIdx_iff_getElem?.mp hin, Option.bind_some, hnpk'] at hnpk
      cases hnpk

/-- **Bound positions are derived.** Where the circuit derived its state, each
bound position has the account that its program and seed and the npk of the
identity there derive. -/
theorem deriveFromOutputs_bound {H : Host} {programId : ProgramId} {outs : List ProgramOutput}
    (h : deriveFromOutputs H identities programId outs = .ok st) : Bound H.sha256 identities st := by
  simp only [deriveFromOutputs, bind_ok_iff, ensure_ok_iff, expect_ok_iff, pure_ok_iff, Prod.exists] at h
  obtain ⟨block, time, -, first, -, st', left, hrun, -, -, _, -, _, -, rfl⟩ := h
  refine Bound.runOutputs ⟨npkByPosition_lookup H identities, ?_⟩ hrun
  intro pos p s hlookup
  simp at hlookup

end Lez.Circuit
