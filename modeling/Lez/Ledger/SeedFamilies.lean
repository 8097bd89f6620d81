/-
One seed, one account. A program and a seed derive a whole family of account
ids, a public one and a private one for every key; a transaction may resolve
the pair to one of them only. The circuit enters every resolution in a table
(`Recorded`): a claim by seed, an account handed on by a seed of the caller,
a seed supplied with the input. So two accounts resolved by one pair are the
same, and a private PDA is resolved by one pair, the one it is bound to.
-/
import Lez.Circuit.Families
import Lez.Lib.History
import Lez.Programs.MsigHost
import Lez.Trace.Private

namespace Lez

open Circuit

/-- The call was made with a seed of the caller's. -/
def Executed.Passed (e : Executed) (p : ProgramId) (s : PdaSeed) : Prop :=
  ∃ f ∈ e.path.head?, f.caller = p ∧ s ∈ f.call.pdaSeeds

/-- **An account is resolved by a program and a seed**: a call of the program claims it by the seed; the program
hands it to a call by the seed, as its public PDA after it was seen or as the private PDA of its position; or the
input supplies the pair for its position. -/
inductive Resolved (H : Host) (identities : List InputAccountIdentity) (calls : List Executed) (st : ExecutionState)
    (id : AccountId) (p : ProgramId) (s : PdaSeed) : Prop
  | claimed {e : Executed} {pp : AccountWithMetadata × AccountPostState} : e ∈ calls → e.program = p →
      pp ∈ e.changes → pp.1.accountId = id → pp.2.claim = .some (.pda s) → Resolved H identities calls st id p s
  | handedPublic {l₁ l₂ : List Executed} {e : Executed} : calls = l₁ ++ e :: l₂ → (∃ e' ∈ l₁, id ∈ e'.accountIds) →
      id ∈ e.accountIds → e.Passed p s → id = forPublicPda H.sha256 p s → Resolved H identities calls st id p s
  | handedPrivate {e : Executed} {pos : Nat} {npk : NullifierPublicKey} {identifier : Identifier} : e ∈ calls →
      id ∈ e.accountIds → e.Passed p s → FiledAt st pos id →
      identities[pos]?.bind (·.npkIfPrivatePda H.sha256) = .some (npk, identifier) →
      id = forPrivatePda H.sha256 p s npk identifier → Resolved H identities calls st id p s
  | supplied {pos : Nat} : FiledAt st pos id → identities[pos]?.bind (·.suppliedSeed) = .some (s, p) →
      Resolved H identities calls st id p s

/-! ## What the tables record -/

/-- Why a position is bound, over all the calls so far. -/
def BoundIn (identities : List InputAccountIdentity) (calls : List Executed) (id : AccountId) (pos : Nat)
    (x : ProgramId × PdaSeed) : Prop :=
  (∃ e ∈ calls, id ∈ e.accountIds ∧ e.Passed x.1 x.2) ∨ identities[pos]?.bind (·.suppliedSeed) = .some (x.2, x.1) ∨
    ∃ e ∈ calls, e.program = x.1 ∧ ∃ pp ∈ e.changes, pp.1.accountId = id ∧ pp.2.claim = .some (.pda x.2)

/-- An account seen before and named again has the caller's seeds entered for it. -/
def HandedEntered (H : Host) (st : ExecutionState) (before : List Executed) (e : Executed) : Prop :=
  ∀ id ∈ e.accountIds, (∃ e' ∈ before, id ∈ e'.accountIds) → ∃ pos, FiledAt st pos id ∧
    ∀ f ∈ e.path.head?, ∀ m, matchedCallerSeed H.sha256 st id pos (.some f.caller) f.call.pdaSeeds = .some m →
      Entered st id pos m

/-- **The tables after these calls.** -/
structure Recorded (H : Host) (identities : List InputAccountIdentity) (calls : List Executed)
    (st : ExecutionState) : Prop where
  seen : ∀ id, (st.postStates.lookup id).isSome ↔ ∃ e ∈ calls, id ∈ e.accountIds
  claimed : ∀ e ∈ calls, ∀ pp ∈ e.changes, ∀ s, pp.2.claim = .some (.pda s) →
    ClaimEntered identities st pp.1.accountId (e.program, s)
  handed : History.Always (HandedEntered H st) calls
  supplied : SuppliedBound identities st
  origin : ∀ {pos x}, st.privatePdaBoundPositions.lookup pos = .some x → ∃ id, FiledAt st pos id ∧
    st.pdaFamilyBinding.lookup x = .some id ∧ BoundIn identities calls id pos x

section
variable {H : Host} {identities : List InputAccountIdentity} {st st' : ExecutionState} {calls : List Executed}

theorem acceptOutput_binds {call : ChainedCall} {caller : Option ProgramId} {out : ProgramOutput}
    (h : acceptOutput H identities st call caller out = .ok st') :
    OutputBinds H.sha256 identities call.programId caller call.pdaSeeds st (out.preStates.zip out.postStates) st' := by
  simp only [acceptOutput, bind_ok_iff, ensure_ok_iff, mapError_ok_iff] at h
  obtain ⟨-, -, -, -, -, -, -, -, _, hvalid, hsync⟩ := h
  have hv := validateExecution_ok hvalid
  exact outputBinds_of_fold (zip_ids hv.length ▸ hv.nodup) hsync

theorem BoundIn.mono {calls' : List Executed} {id : AccountId} {pos : Nat} {x : ProgramId × PdaSeed}
    (h : BoundIn identities calls id pos x) (hcalls : calls ⊆ calls') : BoundIn identities calls' id pos x := by
  rcases h with ⟨e, he, h⟩ | h | ⟨e, he, h⟩
  · exact .inl ⟨e, hcalls he, h⟩
  · exact .inr (.inl h)
  · exact .inr (.inr ⟨e, hcalls he, h⟩)

theorem HandedEntered.keep {before : List Executed} {e : Executed} (h : HandedEntered H st before e)
    (hpre : st.preStates <+: st'.preStates) (hnpk : st'.privatePdaNpkByPosition = st.privatePdaNpkByPosition)
    (hkeeps : Keeps st st') : HandedEntered H st' before e := by
  intro id hid hbefore
  obtain ⟨pos, hfiled, hentered⟩ := h id hid hbefore
  refine ⟨pos, hfiled.mono hpre, ?_⟩
  intro f hf m hm
  rw [matchedCallerSeed_congr hnpk] at hm
  exact (hentered f hf m hm).keep hkeeps

section
variable {p : Awaited} {out : ProgramOutput}

/-- The call's frame is the caller and its seeds. -/
theorem Awaited.Linked.passed (hlinked : p.Linked) {c : ProgramId} {s : PdaSeed} (hcaller : p.caller = .some c)
    (hs : s ∈ p.call.pdaSeeds) : (p.executed out).Passed c s := by
  refine ⟨⟨c, p.call⟩, ?_, rfl, hs⟩
  have hhead : (p.executed out).path.head? = p.caller.map fun c => ⟨c, p.call⟩ := hlinked
  rw [hhead, hcaller]
  rfl

/-- **One round of the loop** is recorded. -/
theorem Recorded.next (hr : Recorded H identities calls st)
    (h : acceptOutput H identities st p.call p.caller out = .ok st') (hlinked : p.Linked) :
    Recorded H identities (calls ++ [p.executed out]) st' := by
  have hchecks := acceptOutput_ok h
  have hb := acceptOutput_binds h
  have hpre : st.preStates <+: st'.preStates := by
    obtain ⟨new, hnew, -⟩ := hchecks.accepted.growth
    exact ⟨new, hnew.symm⟩
  have hnpk := hchecks.accepted.npk
  refine ⟨hchecks.seen hr.seen, ?_, ?_, hb.supplied hr.supplied, ?_⟩
  · intro e he pp hpp s hclaim
    rcases List.mem_append.mp he with he | he
    · exact (hr.claimed e he pp hpp s hclaim).mono hpre hb.keeps
    · cases List.mem_singleton.mp he
      exact hb.claimed pp hpp s hclaim
  · refine History.always_snoc (hr.handed.imp fun _ _ hh => hh.keep hpre hnpk hb.keeps) ?_
    intro id hid hbefore
    obtain ⟨a, ha, rfl⟩ := List.mem_map.mp hid
    obtain ⟨pp, hpp, rfl⟩ := hchecks.change ha
    obtain ⟨pos, hfiled, hentered⟩ := hb.matched pp hpp ((hr.seen _).mpr hbefore)
    refine ⟨pos, hfiled.mono hpre, ?_⟩
    intro f hf m hm
    have hhead : (p.executed out).path.head? = p.caller.map fun c => ⟨c, p.call⟩ := hlinked
    rw [hhead, Option.mem_map] at hf
    obtain ⟨c, hc, rfl⟩ := hf
    rw [matchedCallerSeed_congr hnpk] at hm
    exact hentered m (Option.mem_def.mp hc ▸ hm)
  · intro pos x hx
    rcases hb.origin hx with hold | ⟨pp, hpp, hwhy, hfiled, hfamily⟩
    · obtain ⟨id, hfiled, hfamily, hbound⟩ := hr.origin hold
      exact ⟨id, hfiled.mono hpre, hb.keeps.families hfamily, hbound.mono (List.subset_append_left _ _)⟩
    · refine ⟨pp.1.accountId, hfiled, hfamily, ?_⟩
      have hlast : p.executed out ∈ calls ++ [p.executed out] := by simp
      have hnamed : pp.1.accountId ∈ (p.executed out).accountIds :=
        List.mem_map.mpr ⟨pp.1, (List.of_mem_zip hpp).1, rfl⟩
      rcases hwhy with (⟨hcaller, hs⟩ | hsupplied) | ⟨hprogram, hclaim⟩
      · exact .inl ⟨_, hlast, hnamed, hlinked.passed hcaller hs⟩
      · exact .inr (.inl hsupplied)
      · exact .inr (.inr ⟨_, hlast, hprogram.symm, pp, hpp, rfl, hclaim⟩)

end

/-- **A whole run** is recorded. -/
theorem Replay.recorded {q : List Awaited} {outs : List ProgramOutput} {es : List Executed}
    (h : Replay H identities q outs st es st') (hq : ∀ p ∈ q, p.Linked) (hr : Recorded H identities calls st) :
    Recorded H identities (calls ++ es) st' := by
  induction h generalizing calls with
  | nil => simpa using hr
  | @cons p rest out outs es st st₁ st' haccept hrest ih =>
    simpa using ih (Awaited.linked_next hq) (hr.next haccept (hq p List.mem_cons_self))

end

/-! ## Accepted inputs -/

/-- **The derived state of an accepted input**: each account is filed at one position, the tables record the calls,
a bound position derives its account, and no private PDA is left unbound. -/
structure Derived (H : Host) (i : PrivacyPreservingCircuitInput) (st : ExecutionState) : Prop where
  derived : deriveFromOutputs H i.accountIdentities i.programId i.programOutputs = .ok st
  filed : Filed st
  length : i.accountIdentities.length = st.preStates.length
  recorded : Recorded H i.accountIdentities (circuitCalls i) st
  bound : Bound H.sha256 i.accountIdentities st
  all : ∀ pos identity, i.accountIdentities[pos]? = .some identity → identity.isPrivatePda = true →
    ∃ x, st.privatePdaBoundPositions.lookup pos = .some x

section
variable {H : Host} {i : PrivacyPreservingCircuitInput} {output : PrivacyPreservingCircuitOutput} {st : ExecutionState}

theorem deriveFromOutputs_all {identities : List InputAccountIdentity} {programId : ProgramId} {outs : List ProgramOutput}
    (h : deriveFromOutputs H identities programId outs = .ok st) {pos : Nat} {identity : InputAccountIdentity}
    (hget : identities[pos]? = .some identity) (hpda : identity.isPrivatePda = true) :
    ∃ x, st.privatePdaBoundPositions.lookup pos = .some x := by
  simp only [deriveFromOutputs, bind_ok_iff, ensure_ok_iff, expect_ok_iff, pure_ok_iff, Prod.exists] at h
  obtain ⟨block, time, -, first, -, st', left, -, -, -, _, hall, _, -, rfl⟩ := h
  have hmem : (identity, pos) ∈ identities.zipIdx := List.mem_zipIdx_iff_getElem?.mpr hget
  have hpos := ensure_ok_iff.mp (forM_ok_iff.mp hall _ hmem)
  exact Option.isSome_iff_exists.mp (hpos.resolve_left (not_not_intro hpda))

theorem circuit_derived (h : circuit H i = .ok output) : ∃ st, Derived H i st := by
  obtain ⟨st, hparts⟩ := circuit_parts h
  have hderived := hparts.derived
  obtain ⟨call, block, time, hreplay⟩ := deriveFromOutputs_replay hderived
  have hstart : Recorded H i.accountIdentities []
      ⟨[], ∅, block, time, ∅, ∅, npkByPosition H i.accountIdentities, ∅⟩ := by
    refine ⟨by simp, by simp, History.always_nil, ?_, ?_⟩
    · intro pos s p hlt
      simp at hlt
    · intro pos x hx
      simp at hx
  have hroot : ∀ p ∈ [(⟨call, .none, []⟩ : Awaited)], p.Linked := by
    intro p hp
    rw [List.mem_singleton.mp hp]
    rfl
  refine ⟨st, hderived, ?_, hparts.length, ?_, deriveFromOutputs_bound hderived, fun pos identity hget hpda =>
    deriveFromOutputs_all hderived hget hpda⟩
  · exact hreplay.filed ⟨by simp, by simp⟩
  · exact hreplay.recorded hroot hstart

/-- An account has one position. -/
theorem Filed.position_eq (h : Filed st) {pos pos' : Nat} {id : AccountId} (hpos : FiledAt st pos id)
    (hpos' : FiledAt st pos' id) : pos = pos' := by
  obtain ⟨a, ha, rfl⟩ := hpos
  obtain ⟨b, hb, hid⟩ := hpos'
  have hmap : (st.preStates.map (·.accountId))[pos]? = .some a.accountId := by rw [List.getElem?_map, ha]; rfl
  have hmap' : (st.preStates.map (·.accountId))[pos']? = .some a.accountId := by
    rw [List.getElem?_map, hb, Option.map_some, hid]
  obtain ⟨hlt, hget⟩ := List.getElem?_eq_some_iff.mp hmap
  obtain ⟨hlt', hget'⟩ := List.getElem?_eq_some_iff.mp hmap'
  exact (List.Nodup.getElem_inj_iff h.nodup).mp (hget.trans hget'.symm)

end

/-! ## The hashes in play -/

/-- The pairs an input may resolve an account by. -/
def seedPairs (i : PrivacyPreservingCircuitInput) : List (ProgramId × PdaSeed) :=
  ((circuitCalls i).flatMap fun e =>
    (e.path.head?.toList.flatMap fun f => f.call.pdaSeeds.map fun s => (f.caller, s)) ++
      e.output.postStates.filterMap fun post => match post.claim with
        | .some (.pda s) => .some (e.program, s)
        | _ => .none) ++
    i.accountIdentities.filterMap fun identity => identity.suppliedSeed.map fun x => (x.2, x.1)

/-- What the account ids of these pairs are hashes of. -/
def pdaPreimages (H : Host) (i : PrivacyPreservingCircuitInput) : List Bytes :=
  (seedPairs i).flatMap fun x => publicPdaPreimage x.1 x.2 ::
    i.accountIdentities.filterMap fun identity =>
      (identity.npkIfPrivatePda H.sha256).map fun key => privatePdaPreimage x.1 x.2 key.1 key.2

section
variable {H : Host} {i : PrivacyPreservingCircuitInput} {output : PrivacyPreservingCircuitOutput} {st : ExecutionState}
  {id : AccountId} {p : ProgramId} {s : PdaSeed}

theorem Executed.Passed.mem_seedPairs {e : Executed} (h : e.Passed p s) (he : e ∈ circuitCalls i) :
    (p, s) ∈ seedPairs i := by
  obtain ⟨f, hf, rfl, hs⟩ := h
  refine List.mem_append_left _ (List.mem_flatMap.mpr ⟨e, he, List.mem_append_left _ (List.mem_flatMap.mpr ⟨f, ?_, ?_⟩)⟩)
  · exact Option.mem_toList.mpr hf
  · exact List.mem_map.mpr ⟨s, hs, rfl⟩

theorem claimed_mem_seedPairs {e : Executed} {pp : AccountWithMetadata × AccountPostState} (he : e ∈ circuitCalls i)
    (hpp : pp ∈ e.changes) (hclaim : pp.2.claim = .some (.pda s)) : (e.program, s) ∈ seedPairs i := by
  refine List.mem_append_left _ (List.mem_flatMap.mpr ⟨e, he, List.mem_append_right _ (List.mem_filterMap.mpr ?_)⟩)
  exact ⟨pp.2, (List.of_mem_zip hpp).2, by rw [hclaim]⟩

theorem supplied_mem_seedPairs {pos : Nat}
    (h : i.accountIdentities[pos]?.bind (·.suppliedSeed) = .some (s, p)) : (p, s) ∈ seedPairs i := by
  obtain ⟨identity, hidentity, h⟩ := Option.bind_eq_some_iff.mp h
  exact List.mem_append_right _ (List.mem_filterMap.mpr ⟨identity, List.mem_of_getElem? hidentity, by rw [h]; rfl⟩)

theorem BoundIn.mem_seedPairs {pos : Nat} {x : ProgramId × PdaSeed}
    (h : BoundIn i.accountIdentities (circuitCalls i) id pos x) : x ∈ seedPairs i := by
  rcases h with ⟨e, he, -, hpassed⟩ | h | ⟨e, he, hprogram, pp, hpp, -, hclaim⟩
  · exact hpassed.mem_seedPairs he
  · exact supplied_mem_seedPairs h
  · obtain ⟨q, t⟩ := x
    cases hprogram
    exact claimed_mem_seedPairs he hpp hclaim

theorem publicPda_mem (h : (p, s) ∈ seedPairs i) : publicPdaPreimage p s ∈ pdaPreimages H i :=
  List.mem_flatMap.mpr ⟨_, h, List.mem_cons_self⟩

theorem privatePda_mem {pos : Nat} {npk : NullifierPublicKey} {identifier : Identifier} (h : (p, s) ∈ seedPairs i)
    (hnpk : i.accountIdentities[pos]?.bind (·.npkIfPrivatePda H.sha256) = .some (npk, identifier)) :
    privatePdaPreimage p s npk identifier ∈ pdaPreimages H i := by
  obtain ⟨identity, hidentity, hnpk⟩ := Option.bind_eq_some_iff.mp hnpk
  refine List.mem_flatMap.mpr ⟨_, h, List.mem_cons_of_mem _ (List.mem_filterMap.mpr ?_)⟩
  exact ⟨identity, List.mem_of_getElem? hidentity, by rw [hnpk]; rfl⟩

/-- The two forms of a PDA differ in length. -/
theorem publicPdaPreimage_ne_privatePdaPreimage {q : ProgramId} {t : PdaSeed} {npk : NullifierPublicKey}
    {identifier : Identifier} : publicPdaPreimage p s ≠ privatePdaPreimage q t npk identifier := by
  intro h
  have hl := congrArg List.length h
  rw [privatePdaPreimage_length] at hl
  simp [publicPdaPreimage, ascii] at hl

/-- The account of a bound position is the one of its pair. -/
theorem Derived.family (hd : Derived H i st) {pos : Nat} {x : ProgramId × PdaSeed}
    (hx : st.privatePdaBoundPositions.lookup pos = .some x)
    (hfiled : FiledAt st pos id) : st.pdaFamilyBinding.lookup x = .some id := by
  obtain ⟨id', hfiled', hfamily, -⟩ := hd.recorded.origin hx
  obtain ⟨a, ha, rfl⟩ := hfiled
  obtain ⟨b, hb, rfl⟩ := hfiled'
  cases ha.symm.trans hb
  exact hfamily

section
variable (hinj : Set.InjOn H.sha256 {b | b ∈ pdaPreimages H i}) (hd : Derived H i st)
include hinj hd

/-- A private PDA is derived by the pair it is bound to and by no other. -/
theorem Derived.pair_eq {pos : Nat} {x : ProgramId × PdaSeed} {npk : NullifierPublicKey} {identifier : Identifier}
    (hx : st.privatePdaBoundPositions.lookup pos = .some x) (hfiled : FiledAt st pos id)
    (hnpk : i.accountIdentities[pos]?.bind (·.npkIfPrivatePda H.sha256) = .some (npk, identifier))
    (hpair : (p, s) ∈ seedPairs i) (hid : id = forPrivatePda H.sha256 p s npk identifier) : x = (p, s) := by
  obtain ⟨q, t⟩ := x
  obtain ⟨_, -, -, hbound⟩ := hd.recorded.origin hx
  obtain ⟨a, npk', identifier', ha, hnpk', hderives⟩ := hd.bound.derives hx
  obtain ⟨b, hb, rfl⟩ := hfiled
  cases ha.symm.trans hb
  cases hnpk.symm.trans hnpk'
  have hpre := hinj (privatePda_mem hbound.mem_seedPairs hnpk) (privatePda_mem hpair hnpk) (hderives.symm.trans hid)
  have hkinds : accountPreimage npk (.pda q t identifier) = accountPreimage npk (.pda p s identifier) := hpre
  cases (accountPreimage_inj hkinds).2
  rfl

/-- No public PDA of a pair in play is a private one. -/
theorem Derived.not_public {pos : Nat} {x : ProgramId × PdaSeed}
    (hx : st.privatePdaBoundPositions.lookup pos = .some x) (hfiled : FiledAt st pos id) (hpair : (p, s) ∈ seedPairs i) :
    id ≠ forPublicPda H.sha256 p s := by
  intro hid
  obtain ⟨q, t⟩ := x
  obtain ⟨_, -, -, hbound⟩ := hd.recorded.origin hx
  obtain ⟨a, npk, identifier, ha, hnpk, hderives⟩ := hd.bound.derives hx
  obtain ⟨b, hb, rfl⟩ := hfiled
  cases ha.symm.trans hb
  have hpre := hinj (publicPda_mem hpair) (privatePda_mem hbound.mem_seedPairs hnpk) (hid.symm.trans hderives)
  exact publicPdaPreimage_ne_privatePdaPreimage hpre

/-- An account handed on as the public PDA of a seed has that seed entered for it. -/
theorem Derived.handed {l₁ l₂ : List Executed} {e : Executed} (hcalls : circuitCalls i = l₁ ++ e :: l₂)
    (hbefore : ∃ e' ∈ l₁, id ∈ e'.accountIds) (hid : id ∈ e.accountIds) (hpassed : e.Passed p s)
    (hpublic : id = forPublicPda H.sha256 p s) : st.pdaFamilyBinding.lookup (p, s) = .some id := by
  have hpair := hpassed.mem_seedPairs (i := i) (by simp [hcalls])
  obtain ⟨pos, hfiled, hentered⟩ := hd.recorded.handed l₁ e l₂ hcalls id hid hbefore
  obtain ⟨f, hf, rfl, hs⟩ := hpassed
  -- some seed of the caller matches, if not this one then one before it
  have hsome : (matchedCallerSeed H.sha256 st id pos (.some f.caller) f.call.pdaSeeds).isSome := by
    rw [matchedCallerSeed, Option.bind_some, List.findSome?_isSome_iff]
    exact ⟨s, hs, by rw [if_pos hpublic.symm]; rfl⟩
  obtain ⟨⟨t, isPrivateForm, c⟩, hm⟩ := Option.isSome_iff_exists.mp hsome
  obtain ⟨hc, ht, hform⟩ := matchedCallerSeed_mem hm
  obtain ⟨hfamily, hbound⟩ := hentered f hf _ hm
  cases hc
  cases isPrivateForm with
  | true => exact absurd hpublic (hd.not_public hinj (hbound rfl) hfiled hpair)
  | false =>
    have hpair' : (f.caller, t) ∈ seedPairs i := Executed.Passed.mem_seedPairs ⟨f, hf, rfl, ht⟩ (by simp [hcalls])
    have hpre := hinj (publicPda_mem hpair') (publicPda_mem hpair) ((hform rfl).trans hpublic)
    obtain ⟨-, rfl⟩ := publicPdaPreimage_inj hpre
    exact hfamily

/-- Every resolution is in the table of families. -/
theorem Resolved.family (h : Resolved H i.accountIdentities (circuitCalls i) st id p s) :
    st.pdaFamilyBinding.lookup (p, s) = .some id := by
  cases h with
  | claimed he hprogram hpp hid hclaim =>
    subst hprogram hid
    exact (hd.recorded.claimed _ he _ hpp s hclaim).1
  | handedPublic hcalls hbefore hid hpassed hpublic => exact hd.handed hinj hcalls hbefore hid hpassed hpublic
  | @handedPrivate e pos npk identifier he hid hpassed hfiled hnpk hprivate =>
    obtain ⟨identity, hidentity, hkey⟩ := Option.bind_eq_some_iff.mp hnpk
    have hpda : identity.isPrivatePda = true := by cases identity <;> first | rfl | cases hkey
    obtain ⟨x, hx⟩ := hd.all pos identity hidentity hpda
    cases hd.pair_eq hinj hx hfiled hnpk (hpassed.mem_seedPairs he) hprivate
    exact hd.family hx hfiled
  | supplied hfiled hsupplied =>
    obtain ⟨a, ha, hid⟩ := hfiled
    have hx := hd.recorded.supplied _ s p (List.getElem?_eq_some_iff.mp ha).1 hsupplied
    exact hd.family hx ⟨a, ha, hid⟩

/-- A private PDA is resolved by the pair it is bound to only. -/
theorem Resolved.pair_eq (h : Resolved H i.accountIdentities (circuitCalls i) st id p s) {pos : Nat}
    {x : ProgramId × PdaSeed} (hx : st.privatePdaBoundPositions.lookup pos = .some x) (hfiled : FiledAt st pos id) :
    x = (p, s) := by
  cases h with
  | claimed he hprogram hpp hid hclaim =>
    subst hprogram hid
    obtain ⟨-, pos', identity, hfiled', hidentity, hbound⟩ := hd.recorded.claimed _ he _ hpp s hclaim
    cases hd.filed.position_eq hfiled hfiled'
    obtain ⟨-, npk, identifier, -, hnpk, -⟩ := hd.bound.derives hx
    rw [hidentity, Option.bind_some] at hnpk
    have hprivate : ¬identity.isPublic = true := by
      cases identity <;> first | (simp [InputAccountIdentity.isPublic]; done) | cases hnpk
    exact Option.some.inj (hx.symm.trans (hbound.resolve_left hprivate))
  | handedPublic hcalls hbefore hid hpassed hpublic =>
    exact absurd hpublic (hd.not_public hinj hx hfiled (hpassed.mem_seedPairs (by simp [hcalls])))
  | handedPrivate he hid hpassed hfiled' hnpk hprivate =>
    cases hd.filed.position_eq hfiled hfiled'
    exact hd.pair_eq hinj hx hfiled hnpk (hpassed.mem_seedPairs he) hprivate
  | supplied hfiled' hsupplied =>
    cases hd.filed.position_eq hfiled hfiled'
    obtain ⟨a, ha, -⟩ := hfiled
    have hs := hd.recorded.supplied _ s p (List.getElem?_eq_some_iff.mp ha).1 hsupplied
    exact Option.some.inj (hx.symm.trans hs)

end

/-- A binding is a resolution. -/
theorem Derived.resolved (hd : Derived H i st) {pos : Nat} (hx : st.privatePdaBoundPositions.lookup pos = .some (p, s))
    (hfiled : FiledAt st pos id) : Resolved H i.accountIdentities (circuitCalls i) st id p s := by
  obtain ⟨id', hfiled', -, hbound⟩ := hd.recorded.origin hx
  obtain ⟨a, npk, identifier, ha, hnpk, hderives⟩ := hd.bound.derives hx
  obtain ⟨b, hb, rfl⟩ := hfiled
  obtain ⟨c, hc, rfl⟩ := hfiled'
  cases ha.symm.trans hb
  cases ha.symm.trans hc
  rcases hbound with ⟨e, he, hid, hpassed⟩ | hsupplied | ⟨e, he, hprogram, pp, hpp, hid, hclaim⟩
  · exact .handedPrivate he hid hpassed ⟨a, ha, rfl⟩ hnpk hderives
  · exact .supplied ⟨a, ha, rfl⟩ hsupplied
  · exact .claimed he hprogram hpp hid hclaim

/-- **One seed, one account.** In a transaction the circuit accepts, two
accounts claimed by a program and seed, handed on by them or supplied with
them are the same; and each private PDA ends bound to a program and a seed
that derive its id from the key and identifier of its position, is resolved
by them, and by no other pair. -/
theorem one_account_per_seed (hinj : Set.InjOn H.sha256 {b | b ∈ pdaPreimages H i}) (h : circuit H i = .ok output) :
    ∃ st, deriveFromOutputs H i.accountIdentities i.programId i.programOutputs = .ok st ∧
      (∀ id id' p s, Resolved H i.accountIdentities (circuitCalls i) st id p s →
        Resolved H i.accountIdentities (circuitCalls i) st id' p s → id = id') ∧
      ∀ pos identity, i.accountIdentities[pos]? = .some identity → identity.isPrivatePda = true →
        ∃ id npk identifier p s, FiledAt st pos id ∧ identity.npkIfPrivatePda H.sha256 = .some (npk, identifier) ∧
          st.privatePdaBoundPositions.lookup pos = .some (p, s) ∧ id = forPrivatePda H.sha256 p s npk identifier ∧
          Resolved H i.accountIdentities (circuitCalls i) st id p s ∧
          ∀ p' s', Resolved H i.accountIdentities (circuitCalls i) st id p' s' → (p', s') = (p, s) := by
  obtain ⟨st, hd⟩ := circuit_derived h
  refine ⟨st, hd.derived, ?_, ?_⟩
  · intro id id' p s hid hid'
    exact Option.some.inj ((hid.family hinj hd).symm.trans (hid'.family hinj hd))
  · intro pos identity hidentity hpda
    obtain ⟨⟨p, s⟩, hx⟩ := hd.all pos identity hidentity hpda
    obtain ⟨a, npk, identifier, ha, hnpk, hderives⟩ := hd.bound.derives hx
    rw [hidentity, Option.bind_some] at hnpk
    have hfiled : FiledAt st pos a.accountId := ⟨a, ha, rfl⟩
    exact ⟨a.accountId, npk, identifier, p, s, hfiled, hnpk, hx, hderives, hd.resolved hx hfiled,
      fun p' s' hr => (hr.pair_eq hinj hd hx hfiled).symm⟩

end

section
open Reference

namespace Sample

/-- A program that claims its accounts by a seed and hands them on by it. -/
def delegator (target : ProgramId) : Guest := fun self caller pre data =>
  .ok { ProgramOutput.new self caller data pre (pre.map fun a => ⟨a.account, .some (.pda seed)⟩) with
    chainedCalls := [⟨target,
      pre.map fun a => ⟨{ a.account with programOwner := self }, true, a.accountId⟩, data, [seed]⟩] }

/-- The private PDA of the delegator's seed for a key. -/
def delegatedId : AccountId := bytes32OfNat 0x33ce1c9984ff9cf80466edc4e9ca49519bfb56f60cde6c556eaf34f45eb0aab1

/-- A new private PDA, claimed by its program and handed to another. -/
def privateDelegation : PrivacyPreservingCircuitInput where
  programOutputs :=
    (delegator (programId 101) (programId 100) .none [⟨Account.default, false, delegatedId⟩] []).toOption.toList ++
    (idle (programId 101) (.some (programId 100))
      [⟨{ Account.default with programOwner := programId 100 }, true, delegatedId⟩] []).toOption.toList
  accountIdentities := [.privatePdaInit [] 0 (bytes32OfNat 5) (ByteVec.fill 32 1) 0 .none]
  programId := programId 100

def privateDelegationHost : MsigHost :=
  host { programs := fun id => if id = programId 100 then delegator (programId 101) else idle }

end Sample

open Sample

theorem delegation_one_account :
    ∃ st, deriveFromOutputs privateDelegationHost.toHost privateDelegation.accountIdentities privateDelegation.programId
        privateDelegation.programOutputs = .ok st ∧
      st.privatePdaBoundPositions.lookup 0 = .some (programId 100, seed) ∧
      Resolved privateDelegationHost.toHost privateDelegation.accountIdentities (circuitCalls privateDelegation) st
        delegatedId (programId 100) seed ∧
      ∀ id, Resolved privateDelegationHost.toHost privateDelegation.accountIdentities (circuitCalls privateDelegation) st
        id (programId 100) seed → id = delegatedId := by
  have hrun : (circuit privateDelegationHost.toHost privateDelegation).toOption.isSome = true ∧
      ((pdaPreimages privateDelegationHost.toHost privateDelegation).dedup.map Sha256.hash).Nodup ∧
      (deriveFromOutputs privateDelegationHost.toHost privateDelegation.accountIdentities privateDelegation.programId
        privateDelegation.programOutputs).toOption.map (·.preStates.map (·.accountId)) = .some [delegatedId] ∧
      ∃ e ∈ circuitCalls privateDelegation, e.program = programId 100 ∧
        ∃ pp ∈ e.changes, pp.1.accountId = delegatedId ∧ pp.2.claim = .some (.pda seed) := by
    decide +kernel
  obtain ⟨output, houtput⟩ := Option.isSome_iff_exists.mp hrun.1
  have hinj : Set.InjOn Sha256.hash {b | b ∈ pdaPreimages privateDelegationHost.toHost privateDelegation} := by
    intro a ha b hb heq
    exact List.inj_on_of_nodup_map hrun.2.1 (List.mem_dedup.mpr ha) (List.mem_dedup.mpr hb) heq
  obtain ⟨st, hderived, hone, hbound⟩ := one_account_per_seed hinj (toOption_eq_some.mp houtput)
  obtain ⟨-, -, hpre, e, he, hprogram, pp, hpp, hid, hclaim⟩ := hrun
  have hclaimed : Resolved privateDelegationHost.toHost privateDelegation.accountIdentities
      (circuitCalls privateDelegation) st delegatedId (programId 100) seed := .claimed he hprogram hpp hid hclaim
  obtain ⟨id, npk, identifier, p, s, ⟨a, ha, rfl⟩, -, hx, -, -, honly⟩ := hbound 0 _ rfl rfl
  -- the one account is filed first
  have hfirst : a.accountId = delegatedId := by
    rw [hderived, Except.toOption, Option.map_some, Option.some.injEq] at hpre
    have hget := congrArg (·[0]?) hpre
    rw [List.getElem?_map, ha] at hget
    exact Option.some.inj hget
  have hpair := honly (programId 100) seed (hfirst ▸ hclaimed)
  exact ⟨st, hderived, hpair ▸ hx, hclaimed, fun id hr => hone id delegatedId (programId 100) seed hr hclaimed⟩

end

end Lez
