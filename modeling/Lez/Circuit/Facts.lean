/-
What one output does to the circuit's execution state. `syncState_ok` is the
inversion of the loop body of `validate_and_sync_states`; `Accepted` is the
whole loop over one output, whose accounts are distinct, told account by
account.
-/
import Lez.Circuit.Output
import Lez.Trace.Effect

namespace Lez.Circuit

variable {sha256 : Bytes → Bytes32} {identities : List InputAccountIdentity} {st st' : ExecutionState}

/-- The part of the state that bindings of private PDAs leave alone. -/
structure SameAccounts (st st' : ExecutionState) : Prop where
  preStates : st'.preStates = st.preStates
  postStates : st'.postStates = st.postStates
  npk : st'.privatePdaNpkByPosition = st.privatePdaNpkByPosition
  authorized : st'.authorizedAccounts = st.authorizedAccounts

theorem recordBindings_ok {id : AccountId} {pos : Nat} {m : Option (PdaSeed × Bool × ProgramId)}
    (h : recordBindings st id pos m = .ok st') : SameAccounts st st' := by
  unfold recordBindings at h
  split at h
  next =>
    cases h
    exact ⟨rfl, rfl, rfl, rfl⟩
  next =>
    rw [bind_ok_iff] at h
    obtain ⟨_, -, h⟩ := h
    dsimp only at h
    split at h <;> simp only [bind_ok_iff, pure_ok_iff] at h <;> obtain ⟨_, -, rfl⟩ := h <;>
      exact ⟨rfl, rfl, rfl, rfl⟩

/-- An account seen before: its flag is its standing authorization, the flag
it was first seen with, or a seed of the caller. -/
structure Seen (sha256 : Bytes → Bytes32) (caller : Option ProgramId) (seeds : List PdaSeed)
    (st st' : ExecutionState) (pre : AccountWithMetadata) : Prop where
  known : st.postStates.lookup pre.accountId = .some pre.account
  preStates : st'.preStates = st.preStates
  flag : ∃ first pos, st.preStates[pos]? = .some first ∧ first.accountId = pre.accountId ∧
    (pre.isAuthorized = true ↔ pre.accountId ∈ st.authorizedAccounts ∨ first.isAuthorized = true ∨
      (matchedCallerSeed sha256 st pre.accountId pos caller seeds).isSome)
  authorized : st'.authorizedAccounts =
    if pre.isAuthorized then insert pre.accountId st.authorizedAccounts else st.authorizedAccounts

/-- An account seen for the first time is filed as it is. -/
structure Fresh (st st' : ExecutionState) (pre : AccountWithMetadata) : Prop where
  unknown : st.postStates.lookup pre.accountId = .none
  preStates : st'.preStates = st.preStates ++ [pre]
  authorized : st'.authorizedAccounts = st.authorizedAccounts

theorem resolve_ok {id : AccountId} {pos : Nat} {caller : Option ProgramId} {seeds : List PdaSeed}
    {previous isAuthorized : Bool}
    (h : resolveAuthorizationAndRecordBindings sha256 st id pos caller seeds previous = .ok (isAuthorized, st')) :
    st'.preStates = st.preStates ∧ st'.postStates = st.postStates ∧
      st'.privatePdaNpkByPosition = st.privatePdaNpkByPosition ∧
      (isAuthorized = true ↔ id ∈ st.authorizedAccounts ∨ previous = true ∨
        (matchedCallerSeed sha256 st id pos caller seeds).isSome) ∧
      st'.authorizedAccounts = if isAuthorized then insert id st.authorizedAccounts else st.authorizedAccounts := by
  rw [resolveAuthorizationAndRecordBindings, bind_ok_iff] at h
  obtain ⟨st₁, hbind, h⟩ := h
  obtain ⟨hpre, hpost, hnpk, hauth⟩ := recordBindings_ok hbind
  rw [hauth] at h
  split at h
  next hin =>
    cases h
    exact ⟨hpre, hpost, hnpk, by simp [hin], by simp [hauth, hin]⟩
  next hout =>
    split at h
    next hmatch =>
      cases h
      refine ⟨hpre, hpost, hnpk, ?_, by simp⟩
      simpa [hout] using hmatch
    next hmatch =>
      cases h
      refine ⟨hpre, hpost, hnpk, ?_, by simp [hauth]⟩
      simpa [hout] using hmatch

theorem syncSeen_ok {known : Account} {caller : Option ProgramId} {seeds : List PdaSeed} {pre : AccountWithMetadata}
    (hknown : st.postStates.lookup pre.accountId = .some known)
    (h : syncSeen sha256 st known caller seeds pre = .ok st') :
    Seen sha256 caller seeds st st' pre ∧ st'.postStates = st.postStates ∧
      st'.privatePdaNpkByPosition = st.privatePdaNpkByPosition := by
  simp only [syncSeen, bind_ok_iff, ensure_ok_iff, expect_ok_iff, pure_ok_iff, Prod.exists] at h
  obtain ⟨-, rfl, first, pos, hfind, flag, st₁, hresolve, -, hflag, rfl⟩ := h
  obtain ⟨hpre, hpost, hnpk, hiff, hauth⟩ := resolve_ok hresolve
  have hget := List.mem_zipIdx_iff_getElem?.mp (List.mem_of_find?_eq_some hfind)
  have hid := List.find?_some hfind
  exact ⟨⟨hknown, hpre, ⟨first, pos, hget, of_decide_eq_true hid, hflag ▸ hiff⟩, hflag ▸ hauth⟩, hpost, hnpk⟩

theorem syncFresh_ok {pre : AccountWithMetadata} (hunknown : st.postStates.lookup pre.accountId = .none)
    (h : syncFresh sha256 identities st pre = .ok st') :
    Fresh st st' pre ∧ st'.postStates = st.postStates ∧
      st'.privatePdaNpkByPosition = st.privatePdaNpkByPosition := by
  rw [syncFresh, bind_ok_iff] at h
  obtain ⟨seed, -, h⟩ := h
  dsimp only at h
  split at h
  next =>
    cases h
    exact ⟨⟨hunknown, rfl, rfl⟩, rfl, rfl⟩
  next =>
    simp only [bind_ok_iff, pure_ok_iff] at h
    obtain ⟨_, -, _, -, _, -, _, rfl, rfl⟩ := h
    exact ⟨⟨hunknown, rfl, rfl⟩, rfl, rfl⟩

theorem claimPublic_ok {program : ProgramId} {pre : AccountWithMetadata} {claim : Claim}
    (h : claimPublic sha256 st program pre claim = .ok st') : SameAccounts st st' := by
  cases claim with
  | authorized =>
    simp only [claimPublic, bind_ok_iff, pure_ok_iff] at h
    obtain ⟨_, -, rfl⟩ := h
    exact ⟨rfl, rfl, rfl, rfl⟩
  | pda seed =>
    simp only [claimPublic, bind_ok_iff, pure_ok_iff] at h
    obtain ⟨_, -, _, -, rfl⟩ := h
    exact ⟨rfl, rfl, rfl, rfl⟩

theorem claimPrivate_ok {program : ProgramId} {pos : Nat} {pre : AccountWithMetadata} {claim : Claim}
    (h : claimPrivate sha256 st program pos pre claim = .ok st') : SameAccounts st st' := by
  cases claim with
  | authorized =>
    cases h
    exact ⟨rfl, rfl, rfl, rfl⟩
  | pda seed =>
    simp only [claimPrivate, bind_ok_iff, pure_ok_iff] at h
    obtain ⟨_, -, _, -, _, -, _, -, rfl⟩ := h
    exact ⟨rfl, rfl, rfl, rfl⟩

theorem syncClaim_ok {program : ProgramId} {pre : AccountWithMetadata} {post : AccountPostState} {left : Account}
    (h : syncClaim sha256 identities st program pre post = .ok (left, st')) :
    left = post.settled program ∧ SameAccounts st st' ∧
      (post.claim ≠ .none → post.account.programOwner = defaultProgramId) := by
  unfold syncClaim at h
  unfold AccountPostState.settled
  split at h
  next hclaim =>
    cases h
    simp only [hclaim]
    exact ⟨rfl, ⟨rfl, rfl, rfl, rfl⟩, by simp⟩
  next claim hclaim =>
    simp only [bind_ok_iff, ensure_ok_iff, expect_ok_iff] at h
    obtain ⟨-, howner, pos, -, identity, -, h⟩ := h
    have hst : SameAccounts st st' ∧ left = { post.account with programOwner := program } := by
      split at h <;> rw [bind_ok_iff] at h <;> obtain ⟨st₁, hst₁, h⟩ := h <;> cases h
      · exact ⟨claimPublic_ok hst₁, rfl⟩
      · exact ⟨claimPrivate_ok hst₁, rfl⟩
    simp only [hclaim]
    exact ⟨hst.2, hst.1, fun _ => howner⟩

/-- **What the loop body does with one account.** -/
structure Synced (sha256 : Bytes → Bytes32) (program : ProgramId) (caller : Option ProgramId) (seeds : List PdaSeed)
    (st : ExecutionState) (pp : AccountWithMetadata × AccountPostState) (st' : ExecutionState) : Prop where
  pre : Seen sha256 caller seeds st st' pp.1 ∨ Fresh st st' pp.1
  postStates : st'.postStates = st.postStates.insert pp.1.accountId (pp.2.settled program)
  npk : st'.privatePdaNpkByPosition = st.privatePdaNpkByPosition
  claim : pp.2.claim ≠ .none → pp.2.account.programOwner = defaultProgramId

theorem syncState_ok {program : ProgramId} {caller : Option ProgramId} {seeds : List PdaSeed}
    {pp : AccountWithMetadata × AccountPostState}
    (h : syncState sha256 identities program caller seeds st pp = .ok st') :
    Synced sha256 program caller seeds st pp st' := by
  rw [syncState] at h
  dsimp only at h
  split at h
  next known hknown =>
    simp only [bind_ok_iff, pure_ok_iff, Prod.exists] at h
    obtain ⟨st₁, hseen, left, st₂, hclaim, rfl⟩ := h
    obtain ⟨⟨hk, hpre, hflag, hauth⟩, hpost, hnpk⟩ := syncSeen_ok hknown hseen
    obtain ⟨rfl, hsame, howner⟩ := syncClaim_ok hclaim
    refine ⟨.inl ⟨hk, hsame.preStates.trans hpre, hflag, hsame.authorized.trans hauth⟩, ?_, hsame.npk.trans hnpk, howner⟩
    rw [hsame.postStates, hpost]
  next hunknown =>
    simp only [bind_ok_iff, pure_ok_iff, Prod.exists] at h
    obtain ⟨st₁, hfresh, left, st₂, hclaim, rfl⟩ := h
    obtain ⟨⟨hu, hpre, hauth⟩, hpost, hnpk⟩ := syncFresh_ok hunknown hfresh
    obtain ⟨rfl, hsame, howner⟩ := syncClaim_ok hclaim
    refine ⟨.inr ⟨hu, hsame.preStates.trans hpre, hsame.authorized.trans hauth⟩, ?_, hsame.npk.trans hnpk, howner⟩
    rw [hsame.postStates, hpost]

/-! ## One output -/

theorem matchedCallerSeed_congr (h : st'.privatePdaNpkByPosition = st.privatePdaNpkByPosition) (id : AccountId)
    (pos : Nat) (caller : Option ProgramId) (seeds : List PdaSeed) :
    matchedCallerSeed sha256 st' id pos caller seeds = matchedCallerSeed sha256 st id pos caller seeds := by
  simp only [matchedCallerSeed, h]

/-- An account of an output that was seen before it. -/
structure SeenAt (sha256 : Bytes → Bytes32) (caller : Option ProgramId) (seeds : List PdaSeed)
    (st st' : ExecutionState) (pre : AccountWithMetadata) : Prop where
  known : st.postStates.lookup pre.accountId = .some pre.account
  flag : ∃ first pos, st.preStates[pos]? = .some first ∧ first.accountId = pre.accountId ∧
    (pre.isAuthorized = true ↔ pre.accountId ∈ st.authorizedAccounts ∨ first.isAuthorized = true ∨
      (matchedCallerSeed sha256 st pre.accountId pos caller seeds).isSome)
  authorized : pre.accountId ∈ st'.authorizedAccounts ↔ pre.isAuthorized = true

/-- An account of an output that was not. -/
structure FreshAt (st st' : ExecutionState) (pre : AccountWithMetadata) : Prop where
  unknown : st.postStates.lookup pre.accountId = .none
  filed : pre ∈ st'.preStates
  authorized : pre.accountId ∈ st'.authorizedAccounts ↔ pre.accountId ∈ st.authorizedAccounts

/-- **What an output does to the execution state**, account by account. -/
structure Accepted (sha256 : Bytes → Bytes32) (program : ProgramId) (caller : Option ProgramId)
    (seeds : List PdaSeed) (st : ExecutionState) (pps : List (AccountWithMetadata × AccountPostState))
    (st' : ExecutionState) : Prop where
  accounts : ∀ pp ∈ pps, SeenAt sha256 caller seeds st st' pp.1 ∨ FreshAt st st' pp.1
  posts : ∀ pp ∈ pps, st'.postStates.lookup pp.1.accountId = .some (pp.2.settled program)
  claims : ∀ pp ∈ pps, pp.2.claim ≠ .none → pp.2.account.programOwner = defaultProgramId
  others : ∀ id, (∀ pp ∈ pps, pp.1.accountId ≠ id) → st'.postStates.lookup id = st.postStates.lookup id ∧
    (id ∈ st'.authorizedAccounts ↔ id ∈ st.authorizedAccounts)
  growth : ∃ new, st'.preStates = st.preStates ++ new ∧ (new.map (·.accountId)).Nodup ∧
    ∀ a ∈ new, (∃ pp ∈ pps, pp.1 = a) ∧ st.postStates.lookup a.accountId = .none
  npk : st'.privatePdaNpkByPosition = st.privatePdaNpkByPosition

section
variable {program : ProgramId} {caller : Option ProgramId} {seeds : List PdaSeed}
  {pp : AccountWithMetadata × AccountPostState} {pps : List (AccountWithMetadata × AccountPostState)}

theorem Synced.lookup_other (h : Synced sha256 program caller seeds st pp st') {id : AccountId}
    (hid : pp.1.accountId ≠ id) : st'.postStates.lookup id = st.postStates.lookup id := by
  rw [h.postStates, AList.lookup_insert_ne hid.symm]

theorem Synced.authorized_other (h : Synced sha256 program caller seeds st pp st') {id : AccountId}
    (hid : pp.1.accountId ≠ id) : id ∈ st'.authorizedAccounts ↔ id ∈ st.authorizedAccounts := by
  rcases h.pre with hseen | hfresh
  · rw [hseen.authorized]
    split <;> simp [hid.symm]
  · rw [hfresh.authorized]

/-- What was filed under another account was there before. -/
theorem Synced.filed_other (h : Synced sha256 program caller seeds st pp st') {pos : Nat}
    {first : AccountWithMetadata} (hid : pp.1.accountId ≠ first.accountId)
    (hget : st'.preStates[pos]? = .some first) : st.preStates[pos]? = .some first := by
  rcases h.pre with hseen | hfresh
  · rwa [hseen.preStates] at hget
  · rw [hfresh.preStates, List.getElem?_append] at hget
    split at hget
    next => exact hget
    next =>
      have hmem := List.mem_of_getElem? hget
      rw [List.mem_singleton] at hmem
      exact absurd (congrArg _ hmem.symm) hid

theorem Synced.growth (h : Synced sha256 program caller seeds st pp st') :
    st'.preStates = st.preStates ∨
      (st'.preStates = st.preStates ++ [pp.1] ∧ st.postStates.lookup pp.1.accountId = .none) := by
  rcases h.pre with hseen | hfresh
  · exact .inl hseen.preStates
  · exact .inr ⟨hfresh.preStates, hfresh.unknown⟩

/-- An account synced after a different one stands as before it. -/
theorem SeenAt.before {st₀ : ExecutionState} {pre : AccountWithMetadata}
    (hs : Synced sha256 program caller seeds st₀ pp st) (hid : pp.1.accountId ≠ pre.accountId)
    (h : SeenAt sha256 caller seeds st st' pre) : SeenAt sha256 caller seeds st₀ st' pre := by
  obtain ⟨hknown, ⟨first, pos, hget, hfirst, hflag⟩, hauth⟩ := h
  refine ⟨hs.lookup_other hid ▸ hknown, ⟨first, pos, hs.filed_other (hfirst ▸ hid) hget, hfirst, ?_⟩, hauth⟩
  rw [hflag, hs.authorized_other hid, matchedCallerSeed_congr hs.npk]

/-- The account synced first stands after the others as it was left. -/
theorem Synced.account (hs : Synced sha256 program caller seeds st pp st') {st₂ : ExecutionState}
    (hpre : st'.preStates <+: st₂.preStates)
    (hauth : pp.1.accountId ∈ st₂.authorizedAccounts ↔ pp.1.accountId ∈ st'.authorizedAccounts) :
    SeenAt sha256 caller seeds st st₂ pp.1 ∨ FreshAt st st₂ pp.1 := by
  rcases hs.pre with hseen | hfresh
  · refine .inl ⟨hseen.known, hseen.flag, ?_⟩
    rw [hauth, hseen.authorized]
    obtain ⟨first, pos, -, -, hflag⟩ := hseen.flag
    cases hf : pp.1.isAuthorized with
    | true => simp
    | false =>
      simp only [hf, Bool.false_eq_true, false_iff, not_or, ite_false] at hflag ⊢
      exact iff_of_false hflag.1 (by simp)
  · refine .inr ⟨hfresh.unknown, hpre.subset (by simp [hfresh.preStates]), ?_⟩
    rw [hauth, hfresh.authorized]

theorem accepted_of_fold : ∀ {pps : List (AccountWithMetadata × AccountPostState)} {st st' : ExecutionState},
    (pps.map (·.1.accountId)).Nodup → pps.foldlM (syncState sha256 identities program caller seeds) st = .ok st' →
      Accepted sha256 program caller seeds st pps st'
  | [], st, st', _, h => by
    cases h
    exact ⟨by simp, by simp, by simp, fun _ _ => ⟨rfl, Iff.rfl⟩, ⟨[], by simp⟩, rfl⟩
  | pp :: pps, st, st', hn, h => by
    rw [List.foldlM_cons, bind_ok_iff] at h
    obtain ⟨st₁, hst₁, h⟩ := h
    rw [List.map_cons, List.nodup_cons] at hn
    have hs := syncState_ok hst₁
    have ih := accepted_of_fold hn.2 h
    have hne : ∀ qq ∈ pps, qq.1.accountId ≠ pp.1.accountId := fun qq hqq he => hn.1 (List.mem_map.mpr ⟨qq, hqq, he⟩)
    obtain ⟨hlookup, hauth⟩ := ih.others pp.1.accountId hne
    obtain ⟨new, hnew, hnodup, hfrom⟩ := ih.growth
    refine ⟨?_, ?_, ?_, ?_, ?_, ih.npk.trans hs.npk⟩
    · intro qq hqq
      rcases List.mem_cons.mp hqq with rfl | hqq
      · exact hs.account ⟨new, hnew.symm⟩ hauth
      · rcases ih.accounts qq hqq with hseen | hfresh
        · exact .inl (hseen.before hs (hne qq hqq).symm)
        · refine .inr ⟨hs.lookup_other (hne qq hqq).symm ▸ hfresh.unknown, hfresh.filed, ?_⟩
          rw [hfresh.authorized, hs.authorized_other (hne qq hqq).symm]
    · intro qq hqq
      rcases List.mem_cons.mp hqq with rfl | hqq
      · rw [hlookup, hs.postStates, AList.lookup_insert]
      · exact ih.posts qq hqq
    · intro qq hqq
      rcases List.mem_cons.mp hqq with rfl | hqq
      · exact hs.claim
      · exact ih.claims qq hqq
    · intro id hid
      obtain ⟨h₁, h₂⟩ := ih.others id fun qq hqq => hid qq (List.mem_cons_of_mem _ hqq)
      have hpp := hid pp List.mem_cons_self
      exact ⟨h₁.trans (hs.lookup_other hpp), h₂.trans (hs.authorized_other hpp)⟩
    · have hrest : ∀ a ∈ new, (∃ qq ∈ pp :: pps, qq.1 = a) ∧ st.postStates.lookup a.accountId = .none := by
        intro a ha
        obtain ⟨⟨qq, hqq, rfl⟩, hnone⟩ := hfrom a ha
        exact ⟨⟨qq, List.mem_cons_of_mem _ hqq, rfl⟩, hs.lookup_other (hne qq hqq).symm ▸ hnone⟩
      rcases hs.growth with hsame | ⟨happ, hnone⟩
      · exact ⟨new, by rw [hnew, hsame], hnodup, hrest⟩
      · refine ⟨pp.1 :: new, by rw [hnew, happ]; simp, ?_, ?_⟩
        · rw [List.map_cons, List.nodup_cons]
          refine ⟨?_, hnodup⟩
          intro hmem
          obtain ⟨a, ha, he⟩ := List.mem_map.mp hmem
          obtain ⟨⟨qq, hqq, rfl⟩, -⟩ := hfrom a ha
          exact hne qq hqq he
        · intro a ha
          rcases List.mem_cons.mp ha with rfl | ha
          · exact ⟨⟨pp, List.mem_cons_self, rfl⟩, hnone⟩
          · exact hrest a ha

end

end Lez.Circuit
