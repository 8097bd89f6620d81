/-
The circuit's two tables of bindings, and what one output adds to them. A
seed of the caller, a claim and a seed supplied with the input each enter the
family table, which has one account for a program and seed, and for a private
PDA the table of positions, which has one program and seed for a position.
Neither table ever loses or changes an entry (`Keeps`), so what one step
entered still holds at the end; and a position is only bound for one of the
three reasons (`BoundFrom`).
-/
import Lez.Circuit.Binding

namespace Lez.Circuit

/-- The seed and authority the circuit's input supplies with a private PDA. -/
def InputAccountIdentity.suppliedSeed : InputAccountIdentity → Option (PdaSeed × ProgramId)
  | .privatePdaInit _ _ _ _ _ seed | .privatePdaUpdate _ _ _ _ _ _ seed => seed
  | _ => .none

variable {sha256 : Bytes → Bytes32} {identities : List InputAccountIdentity} {st st₁ st' : ExecutionState}
  {id : AccountId}

/-- Bindings are never taken back. -/
structure Keeps (st st' : ExecutionState) : Prop where
  families : ∀ {x id}, st.pdaFamilyBinding.lookup x = .some id → st'.pdaFamilyBinding.lookup x = .some id
  positions : ∀ {pos x}, st.privatePdaBoundPositions.lookup pos = .some x →
    st'.privatePdaBoundPositions.lookup pos = .some x

theorem Keeps.refl (st : ExecutionState) : Keeps st st := ⟨id, id⟩

theorem Keeps.trans (h : Keeps st st₁) (h' : Keeps st₁ st') : Keeps st st' :=
  ⟨fun hx => h'.families (h.families hx), fun hx => h'.positions (h.positions hx)⟩

/-- The account is filed at the position. -/
def FiledAt (st : ExecutionState) (pos : Nat) (id : AccountId) : Prop :=
  ∃ a, st.preStates[pos]? = .some a ∧ a.accountId = id

/-- Positions that are bound in the second state were bound before, or stand for the account and are bound for the
reason given to a pair whose account it is. -/
def BoundFrom (st st' : ExecutionState) (id : AccountId) (why : Nat → ProgramId × PdaSeed → Prop) : Prop :=
  ∀ pos x, st'.privatePdaBoundPositions.lookup pos = .some x →
    st.privatePdaBoundPositions.lookup pos = .some x ∨
      why pos x ∧ FiledAt st' pos id ∧ st'.pdaFamilyBinding.lookup x = .some id

theorem BoundFrom.same {why : Nat → ProgramId × PdaSeed → Prop}
    (h : st'.privatePdaBoundPositions = st.privatePdaBoundPositions) : BoundFrom st st' id why := by
  intro pos x hx
  exact .inl (h ▸ hx)

theorem FiledAt.mono {pos : Nat} (h : FiledAt st pos id) (hpre : st.preStates <+: st'.preStates) :
    FiledAt st' pos id := by
  obtain ⟨a, ha, hid⟩ := h
  obtain ⟨new, hnew⟩ := hpre
  refine ⟨a, ?_, hid⟩
  rw [← hnew, List.getElem?_append_left (List.getElem?_eq_some_iff.mp ha).1, ha]

theorem BoundFrom.trans {why why' : Nat → ProgramId × PdaSeed → Prop} (h : BoundFrom st st₁ id why)
    (h' : BoundFrom st₁ st' id why') (hpre : st₁.preStates <+: st'.preStates) (hkeeps : Keeps st₁ st') :
    BoundFrom st st' id fun pos x => why pos x ∨ why' pos x := by
  intro pos x hx
  rcases h' pos x hx with hold | ⟨hwhy, hfiled, hfamily⟩
  · rcases h pos x hold with hold | ⟨hwhy, hfiled, hfamily⟩
    · exact .inl hold
    · exact .inr ⟨.inl hwhy, hfiled.mono hpre, hkeeps.families hfamily⟩
  · exact .inr ⟨.inr hwhy, hfiled, hfamily⟩

/-! ## The tables -/

theorem assertFamilyBinding_ok {bindings bindings' : Table (ProgramId × PdaSeed) AccountId} {p : ProgramId} {s : PdaSeed}
    (h : assertFamilyBinding bindings p s id = .ok bindings') :
    bindings'.lookup (p, s) = .some id ∧
      ∀ {x id'}, bindings.lookup x = .some id' → bindings'.lookup x = .some id' := by
  unfold assertFamilyBinding at h
  split at h
  next hnone =>
    cases h
    refine ⟨AList.lookup_insert _, ?_⟩
    intro x id' hx
    have hne : x ≠ (p, s) := by
      intro he
      rw [he, hnone] at hx
      cases hx
    rw [AList.lookup_insert_ne hne]
    exact hx
  next bound hbound =>
    simp only [bind_ok_iff, ensure_ok_iff, pure_ok_iff] at h
    obtain ⟨-, rfl, rfl⟩ := h
    exact ⟨hbound, fun hx => hx⟩

theorem bindPrivatePdaPosition_ok {map map' : Table Nat (ProgramId × PdaSeed)} {pos : Nat} {p : ProgramId} {s : PdaSeed}
    (h : bindPrivatePdaPosition map pos p s = .ok map') :
    map'.lookup pos = .some (p, s) ∧ ∀ {k x}, map.lookup k = .some x → map'.lookup k = .some x := by
  unfold bindPrivatePdaPosition at h
  split at h
  next hnone =>
    cases h
    refine ⟨AList.lookup_insert _, ?_⟩
    intro k x hx
    have hne : k ≠ pos := by
      intro he
      rw [he, hnone] at hx
      cases hx
    rw [AList.lookup_insert_ne hne]
    exact hx
  next bound hbound =>
    simp only [bind_ok_iff, ensure_ok_iff, pure_ok_iff] at h
    obtain ⟨-, rfl, rfl⟩ := h
    exact ⟨hbound, fun hx => hx⟩

/-- Both tables, for the account filed at the position. -/
theorem bind_both (why : Nat → ProgramId × PdaSeed → Prop) {pos : Nat} {p : ProgramId} {s : PdaSeed}
    (hbound : bindPrivatePdaPosition st.privatePdaBoundPositions pos p s = .ok st'.privatePdaBoundPositions)
    (hfamily : assertFamilyBinding st.pdaFamilyBinding p s id = .ok st'.pdaFamilyBinding)
    (hfiled : FiledAt st' pos id) (hwhy : why pos (p, s)) : Keeps st st' ∧ BoundFrom st st' id why := by
  refine ⟨⟨(assertFamilyBinding_ok hfamily).2, (bindPrivatePdaPosition_ok hbound).2⟩, ?_⟩
  intro k x hx
  rcases bindPrivatePdaPosition_lookup hbound hx with hold | ⟨rfl, rfl⟩
  · exact .inl hold
  · exact .inr ⟨hwhy, hfiled, (assertFamilyBinding_ok hfamily).1⟩

/-! ## One account -/

/-- What a seed of the caller that matches enters. -/
def Entered (st : ExecutionState) (id : AccountId) (pos : Nat) (m : PdaSeed × Bool × ProgramId) : Prop :=
  st.pdaFamilyBinding.lookup (m.2.2, m.1) = .some id ∧
    (m.2.1 = true → st.privatePdaBoundPositions.lookup pos = .some (m.2.2, m.1))

theorem Entered.keep {pos : Nat} {m : PdaSeed × Bool × ProgramId} (h : Entered st id pos m) (hkeeps : Keeps st st') :
    Entered st' id pos m :=
  ⟨hkeeps.families h.1, fun hm => hkeeps.positions (h.2 hm)⟩

/-- A seed that matches is one of the caller's. -/
theorem matchedCallerSeed_mem {pos : Nat} {caller : Option ProgramId} {seeds : List PdaSeed}
    {m : PdaSeed × Bool × ProgramId} (h : matchedCallerSeed sha256 st id pos caller seeds = .some m) :
    caller = .some m.2.2 ∧ m.1 ∈ seeds ∧ (m.2.1 = false → forPublicPda sha256 m.2.2 m.1 = id) := by
  rw [matchedCallerSeed, Option.bind_eq_some_iff] at h
  obtain ⟨c, rfl, h⟩ := h
  obtain ⟨t, ht, h⟩ := List.exists_of_findSome?_eq_some h
  split at h
  next hid =>
    cases h
    exact ⟨rfl, ht, fun _ => hid⟩
  next =>
    split at h
    next =>
      split at h
      next =>
        cases h
        exact ⟨rfl, ht, fun hm => by cases hm⟩
      next => cases h
    next => cases h

theorem recordBindings_binds {pos : Nat} {caller : Option ProgramId} {seeds : List PdaSeed} (hfiled : FiledAt st pos id)
    (h : recordBindings st id pos (matchedCallerSeed sha256 st id pos caller seeds) = .ok st') :
    Keeps st st' ∧ BoundFrom st st' id (fun _ x => caller = .some x.1 ∧ x.2 ∈ seeds) ∧
      ∀ m, matchedCallerSeed sha256 st id pos caller seeds = .some m → Entered st' id pos m := by
  have hsame := recordBindings_ok h
  cases hmatch : matchedCallerSeed sha256 st id pos caller seeds with
  | none =>
    rw [hmatch] at h
    cases h
    exact ⟨.refl st, .same rfl, fun m hm => by cases hm⟩
  | some m =>
    obtain ⟨hcaller, hseed, -⟩ := matchedCallerSeed_mem hmatch
    obtain ⟨seed, isPrivateForm, p⟩ := m
    rw [hmatch, recordBindings, bind_ok_iff] at h
    obtain ⟨families, hfamily, h⟩ := h
    have hfiled' : FiledAt st' pos id := hfiled.mono (by rw [hsame.preStates])
    cases isPrivateForm with
    | false =>
      simp only [Bool.false_eq_true, if_false, bind_ok_iff, pure_ok_iff] at h
      obtain ⟨bound, hbound, rfl⟩ := h
      cases hbound
      obtain ⟨hnew, hold⟩ := assertFamilyBinding_ok hfamily
      refine ⟨⟨hold, fun hx => hx⟩, .same rfl, ?_⟩
      rintro m ⟨⟩
      exact ⟨hnew, fun hm => by cases hm⟩
    | true =>
      simp only [if_true, bind_ok_iff, pure_ok_iff] at h
      obtain ⟨bound, hbound, rfl⟩ := h
      obtain ⟨hkeeps, hfrom⟩ := bind_both (fun _ x => caller = .some x.1 ∧ x.2 ∈ seeds) hbound hfamily hfiled'
        ⟨hcaller, hseed⟩
      refine ⟨hkeeps, hfrom, ?_⟩
      rintro m ⟨⟩
      exact ⟨(assertFamilyBinding_ok hfamily).1, fun _ => (bindPrivatePdaPosition_ok hbound).1⟩

/-- An account seen before: what the seeds of the caller enter for it. -/
theorem syncSeen_binds {known : Account} {caller : Option ProgramId} {seeds : List PdaSeed} {pre : AccountWithMetadata}
    (h : syncSeen sha256 st known caller seeds pre = .ok st') :
    Keeps st st' ∧ BoundFrom st st' pre.accountId (fun _ x => caller = .some x.1 ∧ x.2 ∈ seeds) ∧
      ∃ pos, FiledAt st pos pre.accountId ∧
        ∀ m, matchedCallerSeed sha256 st pre.accountId pos caller seeds = .some m → Entered st' pre.accountId pos m := by
  simp only [syncSeen, resolveAuthorizationAndRecordBindings, bind_ok_iff, ensure_ok_iff, expect_ok_iff,
    pure_ok_iff, Prod.exists] at h
  obtain ⟨-, -, first, pos, hfind, flag, st₁, ⟨st₂, hrecord, h⟩, -, -, rfl⟩ := h
  have hid := List.find?_some hfind
  have hfiled : FiledAt st pos pre.accountId :=
    ⟨first, List.mem_zipIdx_iff_getElem?.mp (List.mem_of_find?_eq_some hfind), of_decide_eq_true hid⟩
  obtain ⟨hkeeps, hfrom, hentered⟩ := recordBindings_binds hfiled hrecord
  -- the set of authorized accounts is no part of the tables
  have htables : st₁.pdaFamilyBinding = st₂.pdaFamilyBinding ∧
      st₁.privatePdaBoundPositions = st₂.privatePdaBoundPositions ∧ st₁.preStates = st₂.preStates := by
    split at h
    next =>
      cases h
      exact ⟨rfl, rfl, rfl⟩
    next => split at h <;> cases h <;> exact ⟨rfl, rfl, rfl⟩
  obtain ⟨hfamilies, hpositions, hpre⟩ := htables
  refine ⟨⟨?_, ?_⟩, ?_, pos, hfiled, ?_⟩
  · rw [hfamilies]
    exact hkeeps.families
  · rw [hpositions]
    exact hkeeps.positions
  · unfold BoundFrom FiledAt
    rw [hfamilies, hpositions, hpre]
    exact hfrom
  · unfold Entered
    rw [hfamilies, hpositions]
    exact hentered

theorem externalSeed_supplied {identity : Option InputAccountIdentity} {pos : Nat} {o : Option (PdaSeed × ProgramId)}
    (h : externalSeed sha256 identity id pos = .ok o) : o = identity.bind (·.suppliedSeed) := by
  unfold externalSeed at h
  split at h
  next =>
    simp only [bind_ok_iff, pure_ok_iff] at h
    obtain ⟨_, -, rfl⟩ := h
    rfl
  next =>
    simp only [bind_ok_iff, pure_ok_iff] at h
    obtain ⟨_, -, rfl⟩ := h
    rfl
  next hinit hupdate =>
    cases h
    cases identity with
    | none => rfl
    | some identity =>
      cases identity with
      | privatePdaInit _ _ _ _ _ seed =>
        cases seed with
        | none => rfl
        | some x => exact absurd rfl (hinit _ _ _ _ _ _ _)
      | privatePdaUpdate _ _ _ _ _ _ seed =>
        cases seed with
        | none => rfl
        | some x => exact absurd rfl (hupdate _ _ _ _ _ _ _ _)
      | _ => rfl

/-- An account seen for the first time: the supplied seed is entered for it. -/
theorem syncFresh_binds {pre : AccountWithMetadata} (h : syncFresh sha256 identities st pre = .ok st') :
    Keeps st st' ∧
      BoundFrom st st' pre.accountId (fun pos x => identities[pos]?.bind (·.suppliedSeed) = .some (x.2, x.1)) ∧
      st'.preStates = st.preStates ++ [pre] ∧
      ∀ s p, identities[st.preStates.length]?.bind (·.suppliedSeed) = .some (s, p) →
        st'.privatePdaBoundPositions.lookup st.preStates.length = .some (p, s) := by
  rw [syncFresh, bind_ok_iff] at h
  obtain ⟨seed, hseed, h⟩ := h
  have hsupplied := externalSeed_supplied hseed
  dsimp only at h
  split at h
  next =>
    cases h
    refine ⟨⟨fun hx => hx, fun hx => hx⟩, .same rfl, rfl, ?_⟩
    intro s p hsp
    rw [← hsupplied] at hsp
    cases hsp
  next seed authority =>
    simp only [bind_ok_iff, pure_ok_iff] at h
    obtain ⟨_, -, bound, hbound, families, hfamily, _, rfl, rfl⟩ := h
    refine ⟨⟨(assertFamilyBinding_ok hfamily).2, (bindPrivatePdaPosition_ok hbound).2⟩, ?_, rfl, ?_⟩
    · exact (bind_both _ hbound hfamily ⟨pre, by simp, rfl⟩ hsupplied.symm).2
    · intro s p hsp
      rw [← hsupplied] at hsp
      cases hsp
      exact (bindPrivatePdaPosition_ok hbound).1

/-- A claim by seed has entered the account for the program, and bound its position if it is private. -/
def ClaimEntered (identities : List InputAccountIdentity) (st : ExecutionState) (id : AccountId)
    (x : ProgramId × PdaSeed) : Prop :=
  st.pdaFamilyBinding.lookup x = .some id ∧ ∃ pos identity, FiledAt st pos id ∧ identities[pos]? = .some identity ∧
    (identity.isPublic = true ∨ st.privatePdaBoundPositions.lookup pos = .some x)

theorem ClaimEntered.mono {x : ProgramId × PdaSeed} (h : ClaimEntered identities st id x)
    (hpre : st.preStates <+: st'.preStates) (hkeeps : Keeps st st') : ClaimEntered identities st' id x := by
  obtain ⟨hfamily, pos, identity, hfiled, hidentity, hbound⟩ := h
  exact ⟨hkeeps.families hfamily, pos, identity, hfiled.mono hpre, hidentity, hbound.imp_right hkeeps.positions⟩

theorem claimPublic_binds {program : ProgramId} {pre : AccountWithMetadata} {claim : Claim}
    (h : claimPublic sha256 st program pre claim = .ok st') :
    Keeps st st' ∧ st'.privatePdaBoundPositions = st.privatePdaBoundPositions ∧
      ∀ s, claim = .pda s → st'.pdaFamilyBinding.lookup (program, s) = .some pre.accountId := by
  cases claim with
  | authorized =>
    simp only [claimPublic, bind_ok_iff, pure_ok_iff] at h
    obtain ⟨_, -, rfl⟩ := h
    exact ⟨.refl st, rfl, fun s hs => by cases hs⟩
  | pda seed =>
    simp only [claimPublic, bind_ok_iff, pure_ok_iff] at h
    obtain ⟨_, -, families, hfamily, rfl⟩ := h
    obtain ⟨hnew, hold⟩ := assertFamilyBinding_ok hfamily
    refine ⟨⟨hold, fun hx => hx⟩, rfl, ?_⟩
    rintro s ⟨⟩
    exact hnew

theorem claimPrivate_binds {program : ProgramId} {pos : Nat} {pre : AccountWithMetadata} {claim : Claim}
    (hfiled : FiledAt st pos pre.accountId) (h : claimPrivate sha256 st program pos pre claim = .ok st') :
    Keeps st st' ∧ BoundFrom st st' pre.accountId (fun _ x => x.1 = program ∧ claim = .pda x.2) ∧
      ∀ s, claim = .pda s → st'.pdaFamilyBinding.lookup (program, s) = .some pre.accountId ∧
        st'.privatePdaBoundPositions.lookup pos = .some (program, s) := by
  have hsame := claimPrivate_ok h
  cases claim with
  | authorized =>
    cases h
    exact ⟨.refl st, .same rfl, fun s hs => by cases hs⟩
  | pda seed =>
    simp only [claimPrivate, bind_ok_iff, pure_ok_iff] at h
    obtain ⟨_, -, _, -, bound, hbound, families, hfamily, rfl⟩ := h
    obtain ⟨hkeeps, hfrom⟩ := bind_both (fun _ x => x.1 = program ∧ Claim.pda seed = .pda x.2) hbound hfamily
      (hfiled.mono (by rw [hsame.preStates])) ⟨rfl, rfl⟩
    refine ⟨hkeeps, hfrom, ?_⟩
    rintro s ⟨⟩
    exact ⟨(assertFamilyBinding_ok hfamily).1, (bindPrivatePdaPosition_ok hbound).1⟩

theorem syncClaim_binds {program : ProgramId} {pre : AccountWithMetadata} {post : AccountPostState} {left : Account}
    (h : syncClaim sha256 identities st program pre post = .ok (left, st')) :
    Keeps st st' ∧ BoundFrom st st' pre.accountId (fun _ x => x.1 = program ∧ post.claim = .some (.pda x.2)) ∧
      ∀ s, post.claim = .some (.pda s) → ClaimEntered identities st' pre.accountId (program, s) := by
  obtain ⟨-, hsame, -⟩ := syncClaim_ok h
  unfold syncClaim at h
  split at h
  next hnone =>
    cases h
    refine ⟨.refl st, .same rfl, ?_⟩
    intro s hs
    rw [hnone] at hs
    cases hs
  next claim hclaim =>
    simp only [bind_ok_iff, expect_ok_iff] at h
    obtain ⟨_, -, pos, hpos, identity, hidentity, h⟩ := h
    obtain ⟨hlt, hid, -⟩ := List.findIdx?_eq_some_iff_getElem.mp hpos
    have hfiled : FiledAt st pos pre.accountId := ⟨_, List.getElem?_eq_getElem hlt, of_decide_eq_true hid⟩
    have hfiled' : FiledAt st' pos pre.accountId := hfiled.mono (by rw [hsame.preStates])
    simp only [hclaim, Option.some.injEq]
    split at h <;> rw [bind_ok_iff] at h <;> obtain ⟨st₁, hst₁, h⟩ := h <;> cases h
    next hpub =>
      obtain ⟨hkeeps, hbound, hfamily⟩ := claimPublic_binds hst₁
      exact ⟨hkeeps, .same hbound, fun s hs => ⟨hfamily s hs, pos, identity, hfiled', hidentity, .inl hpub⟩⟩
    next =>
      obtain ⟨hkeeps, hfrom, hfamily⟩ := claimPrivate_binds hfiled hst₁
      refine ⟨hkeeps, hfrom, ?_⟩
      intro s hs
      obtain ⟨hfam, hbound⟩ := hfamily s hs
      exact ⟨hfam, pos, identity, hfiled', hidentity, .inr hbound⟩

/-! ## One output -/

/-- Why a position is bound: a seed of the caller, a supplied seed, or a claim. -/
def BoundBy (identities : List InputAccountIdentity) (program : ProgramId) (caller : Option ProgramId)
    (seeds : List PdaSeed) (post : AccountPostState) (pos : Nat) (x : ProgramId × PdaSeed) : Prop :=
  (caller = .some x.1 ∧ x.2 ∈ seeds ∨ identities[pos]?.bind (·.suppliedSeed) = .some (x.2, x.1)) ∨
    x.1 = program ∧ post.claim = .some (.pda x.2)

/-- Every filed account with a supplied seed is bound to it. -/
def SuppliedBound (identities : List InputAccountIdentity) (st : ExecutionState) : Prop :=
  ∀ pos s p, pos < st.preStates.length → identities[pos]?.bind (·.suppliedSeed) = .some (s, p) →
    st.privatePdaBoundPositions.lookup pos = .some (p, s)

/-- **What one account of an output does to the tables.** -/
structure Binds (sha256 : Bytes → Bytes32) (identities : List InputAccountIdentity) (program : ProgramId)
    (caller : Option ProgramId) (seeds : List PdaSeed) (st : ExecutionState)
    (pp : AccountWithMetadata × AccountPostState) (st' : ExecutionState) : Prop where
  keeps : Keeps st st'
  origin : BoundFrom st st' pp.1.accountId (BoundBy identities program caller seeds pp.2)
  claimed : ∀ s, pp.2.claim = .some (.pda s) → ClaimEntered identities st' pp.1.accountId (program, s)
  matched : (st.postStates.lookup pp.1.accountId).isSome → ∃ pos, FiledAt st pos pp.1.accountId ∧
    ∀ m, matchedCallerSeed sha256 st pp.1.accountId pos caller seeds = .some m → Entered st' pp.1.accountId pos m
  supplied : SuppliedBound identities st → SuppliedBound identities st'

theorem BoundFrom.imp {why why' : Nat → ProgramId × PdaSeed → Prop} (h : BoundFrom st st' id why)
    (himp : ∀ pos x, why pos x → why' pos x) : BoundFrom st st' id why' := by
  intro pos x hx
  exact (h pos x hx).imp_right fun hnew => ⟨himp pos x hnew.1, hnew.2⟩

theorem syncState_binds {program : ProgramId} {caller : Option ProgramId} {seeds : List PdaSeed}
    {pp : AccountWithMetadata × AccountPostState}
    (h : syncState sha256 identities program caller seeds st pp = .ok st') :
    Binds sha256 identities program caller seeds st pp st' := by
  rw [syncState] at h
  dsimp only at h
  split at h <;> simp only [bind_ok_iff, pure_ok_iff, Prod.exists] at h <;>
    obtain ⟨st₁, hst₁, left, st₂, hclaim, rfl⟩ := h
  next known hknown =>
    obtain ⟨hkeeps, hfrom, pos, hfiled, hentered⟩ := syncSeen_binds hst₁
    obtain ⟨⟨-, hpre, -, -⟩, -⟩ := syncSeen_ok hknown hst₁
    obtain ⟨-, hsame, -⟩ := syncClaim_ok hclaim
    obtain ⟨hkeeps', hfrom', hclaimed⟩ := syncClaim_binds hclaim
    have horigin := hfrom.trans hfrom' (by rw [hsame.preStates]) hkeeps'
    refine ⟨⟨(hkeeps.trans hkeeps').families, (hkeeps.trans hkeeps').positions⟩, ?_, hclaimed, ?_, ?_⟩
    · exact horigin.imp fun pos x hwhy => hwhy.imp_left .inl
    · exact fun _ => ⟨pos, hfiled, fun m hm => (hentered m hm).keep ⟨hkeeps'.families, hkeeps'.positions⟩⟩
    · intro hsupplied pos s p hlt hs
      rw [hsame.preStates, hpre] at hlt
      exact (hkeeps.trans hkeeps').positions (hsupplied pos s p hlt hs)
  next hunknown =>
    obtain ⟨hkeeps, hfrom, hpre, hbound⟩ := syncFresh_binds hst₁
    obtain ⟨-, hsame, -⟩ := syncClaim_ok hclaim
    obtain ⟨hkeeps', hfrom', hclaimed⟩ := syncClaim_binds hclaim
    have horigin := hfrom.trans hfrom' (by rw [hsame.preStates]) hkeeps'
    refine ⟨⟨(hkeeps.trans hkeeps').families, (hkeeps.trans hkeeps').positions⟩, ?_, hclaimed, ?_, ?_⟩
    · exact horigin.imp fun pos x hwhy => hwhy.imp_left .inr
    · intro hknown
      rw [hunknown] at hknown
      cases hknown
    · intro hsupplied pos s p hlt hs
      rw [hsame.preStates, hpre, List.length_append, List.length_singleton] at hlt
      by_cases hold : pos < st.preStates.length
      · exact (hkeeps.trans hkeeps').positions (hsupplied pos s p hold hs)
      · obtain rfl : pos = st.preStates.length := by omega
        exact hkeeps'.positions (hbound s p hs)

/-- **What one output does to the tables**, account by account. -/
structure OutputBinds (sha256 : Bytes → Bytes32) (identities : List InputAccountIdentity) (program : ProgramId)
    (caller : Option ProgramId) (seeds : List PdaSeed) (st : ExecutionState)
    (pps : List (AccountWithMetadata × AccountPostState)) (st' : ExecutionState) : Prop where
  keeps : Keeps st st'
  origin : ∀ {pos x}, st'.privatePdaBoundPositions.lookup pos = .some x →
    st.privatePdaBoundPositions.lookup pos = .some x ∨ ∃ pp ∈ pps, BoundBy identities program caller seeds pp.2 pos x ∧
      FiledAt st' pos pp.1.accountId ∧ st'.pdaFamilyBinding.lookup x = .some pp.1.accountId
  claimed : ∀ pp ∈ pps, ∀ s, pp.2.claim = .some (.pda s) → ClaimEntered identities st' pp.1.accountId (program, s)
  matched : ∀ pp ∈ pps, (st.postStates.lookup pp.1.accountId).isSome → ∃ pos, FiledAt st pos pp.1.accountId ∧
    ∀ m, matchedCallerSeed sha256 st pp.1.accountId pos caller seeds = .some m → Entered st' pp.1.accountId pos m
  supplied : SuppliedBound identities st → SuppliedBound identities st'

theorem outputBinds_of_fold {program : ProgramId} {caller : Option ProgramId} {seeds : List PdaSeed} :
    ∀ {pps : List (AccountWithMetadata × AccountPostState)} {st st' : ExecutionState},
      (pps.map (·.1.accountId)).Nodup → pps.foldlM (syncState sha256 identities program caller seeds) st = .ok st' →
        OutputBinds sha256 identities program caller seeds st pps st'
  | [], st, st', _, h => by
    cases h
    exact ⟨.refl st, fun hx => .inl hx, by simp, by simp, fun hs => hs⟩
  | pp :: pps, st, st', hn, h => by
    rw [List.foldlM_cons, bind_ok_iff] at h
    obtain ⟨st₁, hst₁, h⟩ := h
    rw [List.map_cons, List.nodup_cons] at hn
    have hs := syncState_ok hst₁
    have hb := syncState_binds hst₁
    have ih := outputBinds_of_fold hn.2 h
    have hpre : st₁.preStates <+: st'.preStates := by
      obtain ⟨new, hnew, -⟩ := (accepted_of_fold hn.2 h).growth
      exact ⟨new, hnew.symm⟩
    have hne : ∀ qq ∈ pps, pp.1.accountId ≠ qq.1.accountId := fun qq hqq he =>
      hn.1 (List.mem_map.mpr ⟨qq, hqq, he.symm⟩)
    refine ⟨hb.keeps.trans ih.keeps, ?_, ?_, ?_, fun hsupplied => ih.supplied (hb.supplied hsupplied)⟩
    · intro pos x hx
      rcases ih.origin hx with hold | ⟨qq, hqq, hnew⟩
      · rcases hb.origin pos x hold with hold | ⟨hwhy, hfiled, hfamily⟩
        · exact .inl hold
        · exact .inr ⟨pp, List.mem_cons_self, hwhy, hfiled.mono hpre, ih.keeps.families hfamily⟩
      · exact .inr ⟨qq, List.mem_cons_of_mem _ hqq, hnew⟩
    · intro qq hqq s hclaim
      rcases List.mem_cons.mp hqq with rfl | hqq
      · exact (hb.claimed s hclaim).mono hpre ih.keeps
      · exact ih.claimed qq hqq s hclaim
    · intro qq hqq hknown
      rcases List.mem_cons.mp hqq with rfl | hqq
      · obtain ⟨pos, hfiled, hentered⟩ := hb.matched hknown
        exact ⟨pos, hfiled, fun m hm => (hentered m hm).keep ih.keeps⟩
      · -- the accounts before it in the output are others
        rw [← hs.lookup_other (hne qq hqq)] at hknown
        obtain ⟨pos, ⟨a, ha, hid⟩, hentered⟩ := ih.matched qq hqq hknown
        refine ⟨pos, ⟨a, hs.filed_other (hid ▸ hne qq hqq) ha, hid⟩, ?_⟩
        intro m hm
        exact hentered m (by rw [matchedCallerSeed_congr hs.npk]; exact hm)

end Lez.Circuit
