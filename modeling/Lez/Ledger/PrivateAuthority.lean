/-
Authority over private PDAs. The ledger sees no private account, so nobody
but the circuit can tell whether a call may have one as authorized; and the
circuit takes the flag of the first call that names the account as it finds
it, keeps one set of authorized accounts for the transaction, and asks for
the authority's seed once, anywhere in the call tree. `TracksPda` tells the
flag of every later call exactly, and with it when every call that has the
account as authorized stands under its authority program.
-/
import Lez.Ledger.PrivateAuthorization
import Lez.Ledger.SeedFamilies

namespace Lez

open Circuit

/-- The account as the first of these calls to name it has it. -/
def firstNamed (calls : List Executed) (id : AccountId) : Option AccountWithMetadata :=
  (calls.flatMap (·.output.preStates)).find? fun a => a.accountId = id

/-- The first of these calls to name the account has it as authorized. -/
def FirstAuthorized (calls : List Executed) (id : AccountId) : Prop :=
  ∃ a ∈ firstNamed calls id, a.isAuthorized = true

/-- The caller passed a seed the account derives from in this very call, publicly or with its key. -/
def Executed.HandedPda (sha256 : Bytes → Bytes32) (npk : NullifierPublicKey) (identifier : Identifier) (e : Executed)
    (id : AccountId) : Prop :=
  e.HandedBySeed sha256 id ∨ ∃ p s, e.Passed p s ∧ id = forPrivatePda sha256 p s npk identifier

/-- One of these calls was handed the account after an earlier one had used it. -/
def GrantedPda (sha256 : Bytes → Bytes32) (npk : NullifierPublicKey) (identifier : Identifier) (calls : List Executed)
    (id : AccountId) : Prop :=
  History.Sometime (fun before e =>
    (∃ e' ∈ before, id ∈ e'.accountIds) ∧ id ∈ e.accountIds ∧ e.HandedPda sha256 npk identifier id) calls

/-- A call of the authority program, or one below a call it made with the seed. -/
def Executed.UnderAuthority (e : Executed) (p : ProgramId) (s : PdaSeed) : Prop :=
  e.program = p ∨ ∃ f ∈ e.path, f.caller = p ∧ s ∈ f.call.pdaSeeds

instance (e : Executed) (p : ProgramId) (s : PdaSeed) : Decidable (e.UnderAuthority p s) :=
  inferInstanceAs (Decidable (_ ∨ _))

/-- A private PDA of the input with its key, bound to its authority program and seed. -/
structure PrivatePda (H : Host) (i : PrivacyPreservingCircuitInput) (st : ExecutionState) (id : AccountId)
    (npk : NullifierPublicKey) (identifier : Identifier) (p : ProgramId) (s : PdaSeed) (pos : Nat) : Prop where
  filed : FiledAt st pos id
  key : i.accountIdentities[pos]?.bind (·.npkIfPrivatePda H.sha256) = .some (npk, identifier)
  bound : st.privatePdaBoundPositions.lookup pos = .some (p, s)
  derived : id = forPrivatePda H.sha256 p s npk identifier

/-! ## First namings -/

section
variable {calls : List Executed} {e : Executed} {id : AccountId}

theorem firstNamed_snoc : firstNamed (calls ++ [e]) id =
    (firstNamed calls id).or (e.output.preStates.find? fun a => a.accountId = id) := by
  simp [firstNamed, List.flatMap_append, List.find?_append]

theorem firstNamed_eq_none : firstNamed calls id = .none ↔ ¬∃ e ∈ calls, id ∈ e.accountIds := by
  simp only [firstNamed, List.find?_eq_none, List.mem_flatMap, decide_eq_true_eq, Executed.accountIds, List.mem_map]
  constructor
  · rintro h ⟨e, he, a, ha, hid⟩
    exact h a ⟨e, he, ha⟩ hid
  · rintro h a ⟨e, he, ha⟩ hid
    exact h ⟨e, he, a, ha, hid⟩

theorem FirstAuthorized.named (h : FirstAuthorized calls id) : ∃ e ∈ calls, id ∈ e.accountIds := by
  by_contra hnot
  obtain ⟨a, ha, -⟩ := h
  rw [firstNamed_eq_none.mpr hnot] at ha
  cases ha

/-- Once named, the first naming stays. -/
theorem firstNamed_seen (h : ∃ e ∈ calls, id ∈ e.accountIds) : firstNamed (calls ++ [e]) id = firstNamed calls id := by
  rw [firstNamed_snoc]
  cases hfirst : firstNamed calls id with
  | none => exact absurd h (firstNamed_eq_none.mp hfirst)
  | some a => rfl

theorem firstNamed_other (h : id ∉ e.accountIds) : firstNamed (calls ++ [e]) id = firstNamed calls id := by
  have hnone : e.output.preStates.find? (fun a => a.accountId = id) = .none := by
    rw [List.find?_eq_none]
    intro a ha hid
    exact h (List.mem_map.mpr ⟨a, ha, of_decide_eq_true hid⟩)
  rw [firstNamed_snoc, hnone, Option.or_none]

/-- A call that names the account first. -/
theorem firstNamed_fresh (h : ¬∃ e ∈ calls, id ∈ e.accountIds) (hnodup : e.accountIds.Nodup) {a : AccountWithMetadata}
    (ha : a ∈ e.output.preStates) (hid : a.accountId = id) : firstNamed (calls ++ [e]) id = .some a := by
  rw [firstNamed_snoc, firstNamed_eq_none.mpr h, Option.none_or]
  obtain ⟨b, hb⟩ : ∃ b, e.output.preStates.find? (fun a => a.accountId = id) = .some b := by
    rw [← Option.isSome_iff_exists, List.find?_isSome]
    exact ⟨a, ha, decide_eq_true hid⟩
  have hidb := of_decide_eq_true (List.find?_some (p := fun a : AccountWithMetadata => decide (a.accountId = id)) hb)
  rw [hb, List.inj_on_of_nodup_map hnodup (List.mem_of_find?_eq_some hb) ha (hidb.trans hid.symm)]

end

/-! ## What the circuit tracks -/

section
variable {H : Host} {identities : List InputAccountIdentity} {st st' : ExecutionState} {id : AccountId}
  {npk : NullifierPublicKey} {identifier : Identifier} {calls : List Executed}

/-- At a position with a key either derivation matches. -/
theorem matchedCallerSeed_pda {pos : Nat} (h : st.privatePdaNpkByPosition.lookup pos = .some (npk, identifier))
    (caller : Option ProgramId) (seeds : List PdaSeed) :
    (matchedCallerSeed H.sha256 st id pos caller seeds).isSome ↔ ∃ c ∈ caller, ∃ seed ∈ seeds,
      id = forPublicPda H.sha256 c seed ∨ id = forPrivatePda H.sha256 c seed npk identifier := by
  cases caller with
  | none => simp [matchedCallerSeed]
  | some c =>
    simp only [matchedCallerSeed, h, Option.bind_some, List.findSome?_isSome_iff, Option.mem_some_iff, exists_eq_left']
    refine exists_congr fun seed => and_congr_right fun _ => ?_
    by_cases hpublic : forPublicPda H.sha256 c seed = id
    · simp [hpublic]
    · by_cases hprivate : forPrivatePda H.sha256 c seed npk identifier = id
      · simp [hpublic, hprivate]
      · simp [hpublic, hprivate, eq_comm (a := id)]

theorem Awaited.Linked.handedPda {p : Awaited} (h : p.Linked) (out : ProgramOutput) :
    (p.executed out).HandedPda H.sha256 npk identifier id ↔ ∃ c ∈ p.caller, ∃ seed ∈ p.call.pdaSeeds,
      id = forPublicPda H.sha256 c seed ∨ id = forPrivatePda H.sha256 c seed npk identifier := by
  have hhead : (p.executed out).path.head? = p.caller.map fun c => ⟨c, p.call⟩ := h
  unfold Executed.HandedPda Executed.Passed
  rw [h.handed, hhead]
  cases p.caller with
  | none => simp
  | some c =>
    simp only [Option.map_some, Option.mem_some_iff, exists_eq_left']
    constructor
    · rintro (⟨s, hs, hid⟩ | ⟨q, s, ⟨rfl, hs⟩, hid⟩)
      · exact ⟨s, hs, .inl hid⟩
      · exact ⟨s, hs, .inr hid⟩
    · rintro ⟨s, hs, hid | hid⟩
      · exact .inl ⟨s, hs, hid⟩
      · exact .inr ⟨c, s, ⟨rfl, hs⟩, hid⟩

/-- The state after these calls, as far as authorization of one private PDA goes. -/
structure TracksPda (H : Host) (npk : NullifierPublicKey) (identifier : Identifier) (id : AccountId)
    (calls : List Executed) (st : ExecutionState) : Prop where
  seen : ∀ id, (st.postStates.lookup id).isSome ↔ ∃ e ∈ calls, id ∈ e.accountIds
  first : ∀ a ∈ st.preStates, a.accountId = id → firstNamed calls id = .some a
  granted : GrantedPda H.sha256 npk identifier calls id → id ∈ st.authorizedAccounts
  authorized : id ∈ st.authorizedAccounts → FirstAuthorized calls id ∨ GrantedPda H.sha256 npk identifier calls id

/-- The account stands at a position with its key. -/
def Keyed (npk : NullifierPublicKey) (identifier : Identifier) (id : AccountId) (st : ExecutionState) : Prop :=
  ∀ pos, FiledAt st pos id → st.privatePdaNpkByPosition.lookup pos = .some (npk, identifier)

section
variable {p : Awaited} {out : ProgramOutput} (h : OutputChecks H st p.call p.caller out st')
  (ht : TracksPda H npk identifier id calls st) (hlinked : p.Linked) (hkeyed : Keyed npk identifier id st')
include h ht hlinked hkeyed

/-- The flag a call has the account with, and its standing after the round. -/
theorem OutputChecks.flagPda {a : AccountWithMetadata} (ha : a ∈ out.preStates) (hid : a.accountId = id) :
    (a.isAuthorized = true ↔ FirstAuthorized (calls ++ [p.executed out]) id ∨
      GrantedPda H.sha256 npk identifier calls id ∨
      (∃ e ∈ calls, id ∈ e.accountIds) ∧ (p.executed out).HandedPda H.sha256 npk identifier id) ∧
    (id ∈ st'.authorizedAccounts → a.isAuthorized = true) ∧
    ((∃ e ∈ calls, id ∈ e.accountIds) → a.isAuthorized = true → id ∈ st'.authorizedAccounts) := by
  subst hid
  obtain ⟨pp, hpp, rfl⟩ := h.change ha
  have hpre : st.preStates <+: st'.preStates := by
    obtain ⟨new, hnew, -⟩ := h.accepted.growth
    exact ⟨new, hnew.symm⟩
  rcases h.accepted.accounts pp hpp with ⟨hknown, ⟨first, pos, hget, hfirst, hiff⟩, hauth⟩ | ⟨hunknown, hfiled, hauth⟩
  · have hseen := (ht.seen pp.1.accountId).mp (by simp [hknown])
    have hkey : st.privatePdaNpkByPosition.lookup pos = .some (npk, identifier) := by
      rw [← h.accepted.npk]
      exact hkeyed pos (FiledAt.mono ⟨first, hget, hfirst⟩ hpre)
    have hnamed := ht.first first (List.mem_of_getElem? hget) hfirst
    have hflag : FirstAuthorized calls pp.1.accountId ↔ first.isAuthorized = true := by
      simp [FirstAuthorized, hnamed]
    have hsame : FirstAuthorized (calls ++ [p.executed out]) pp.1.accountId ↔ FirstAuthorized calls pp.1.accountId := by
      unfold FirstAuthorized
      rw [firstNamed_seen hseen]
    refine ⟨?_, hauth.mp, fun _ => hauth.mpr⟩
    rw [hiff, matchedCallerSeed_pda hkey, ← hlinked.handedPda out, hsame, hflag]
    constructor
    · rintro (hin | hflagged | hhanded)
      · rcases ht.authorized hin with hf | hg
        · exact .inl (hflag.mp hf)
        · exact .inr (.inl hg)
      · exact .inl hflagged
      · exact .inr (.inr ⟨hseen, hhanded⟩)
    · rintro (hflagged | hg | ⟨-, hhanded⟩)
      · exact .inr (.inl hflagged)
      · exact .inl (ht.granted hg)
      · exact .inr (.inr hhanded)
  · -- the first call to name the account is asked for nothing
    have hnew : ¬∃ e ∈ calls, pp.1.accountId ∈ e.accountIds := by
      rw [← ht.seen, hunknown]
      simp
    have hgrant : ¬GrantedPda H.sha256 npk identifier calls pp.1.accountId := by
      rintro ⟨l₁, e, l₂, rfl, -, hid, -⟩
      exact hnew ⟨e, by simp, hid⟩
    have hfirst := firstNamed_fresh (e := p.executed out) hnew h.valid.nodup ha rfl
    refine ⟨?_, ?_, fun hseen => absurd hseen hnew⟩
    · simp [FirstAuthorized, hfirst, hgrant, hnew]
    · intro hin
      rcases ht.authorized (hauth.mp hin) with hf | hg
      · exact absurd hf.named hnew
      · exact absurd hg hgrant

/-- **One round of the loop** keeps track. -/
theorem OutputChecks.tracksPda : TracksPda H npk identifier id (calls ++ [p.executed out]) st' := by
  have hgranted : GrantedPda H.sha256 npk identifier (calls ++ [p.executed out]) id ↔
      GrantedPda H.sha256 npk identifier calls id ∨ (∃ e ∈ calls, id ∈ e.accountIds) ∧
        id ∈ (p.executed out).accountIds ∧ (p.executed out).HandedPda H.sha256 npk identifier id :=
    History.sometime_snoc
  by_cases hid : id ∈ (p.executed out).accountIds
  · obtain ⟨a, ha, haid⟩ := List.mem_map.mp hid
    obtain ⟨hflag, hstanding, hset⟩ := h.flagPda ht hlinked hkeyed ha haid
    refine ⟨h.seen ht.seen, ?_, ?_, ?_⟩
    · intro b hb hbid
      obtain ⟨new, hnew, -, hfrom⟩ := h.accepted.growth
      rw [hnew] at hb
      rcases List.mem_append.mp hb with hold | hnew
      · have hnamed := ht.first b hold hbid
        have hseen : ∃ e ∈ calls, id ∈ e.accountIds := by
          by_contra hnot
          rw [firstNamed_eq_none.mpr hnot] at hnamed
          cases hnamed
        rw [firstNamed_seen hseen, hnamed]
      · obtain ⟨⟨pp, hpp, rfl⟩, hnone⟩ := hfrom b hnew
        refine firstNamed_fresh (e := p.executed out) ?_ h.valid.nodup (List.of_mem_zip hpp).1 hbid
        rw [← ht.seen, ← hbid, hnone]
        simp
    · intro hg
      rcases hgranted.mp hg with hold | ⟨hseen, -, hhanded⟩
      · have hseen : ∃ e ∈ calls, id ∈ e.accountIds := by
          obtain ⟨l₁, e, l₂, rfl, -, hide, -⟩ := hold
          exact ⟨e, by simp, hide⟩
        exact hset hseen (hflag.mpr (.inr (.inl hold)))
      · exact hset hseen (hflag.mpr (.inr (.inr ⟨hseen, hhanded⟩)))
    · intro hin
      rcases hflag.mp (hstanding hin) with hf | hg | ⟨hseen, hhanded⟩
      · exact .inl hf
      · exact .inr (hgranted.mpr (.inl hg))
      · exact .inr (hgranted.mpr (.inr ⟨hseen, hid, hhanded⟩))
  · have hother := (h.other hid).2
    have hsame : firstNamed (calls ++ [p.executed out]) id = firstNamed calls id := firstNamed_other hid
    refine ⟨h.seen ht.seen, ?_, ?_, ?_⟩
    · intro b hb hbid
      obtain ⟨new, hnew, -, hfrom⟩ := h.accepted.growth
      rw [hnew] at hb
      rcases List.mem_append.mp hb with hold | hnew
      · rw [hsame]
        exact ht.first b hold hbid
      · obtain ⟨⟨pp, hpp, rfl⟩, -⟩ := hfrom b hnew
        exact absurd (List.mem_map.mpr ⟨pp.1, (List.of_mem_zip hpp).1, hbid⟩) hid
    · intro hg
      rcases hgranted.mp hg with hold | ⟨-, hnamed, -⟩
      · exact hother.mpr (ht.granted hold)
      · exact absurd hnamed hid
    · intro hin
      unfold FirstAuthorized
      rw [hsame]
      exact (ht.authorized (hother.mp hin)).imp_right fun hg => hgranted.mpr (.inl hg)

end

/-- **The flag of a private PDA, in every call.** -/
theorem Replay.flagsPda {q : List Awaited} {outs : List ProgramOutput} {es : List Executed}
    (h : Replay H identities q outs st es st') (hq : ∀ p ∈ q, p.Linked) (ht : TracksPda H npk identifier id calls st)
    (hkeyed : Keyed npk identifier id st') :
    ∀ l₁ e l₂, es = l₁ ++ e :: l₂ → ∀ a ∈ e.output.preStates, a.accountId = id →
      (a.isAuthorized = true ↔ FirstAuthorized (calls ++ l₁ ++ [e]) id ∨
        GrantedPda H.sha256 npk identifier (calls ++ l₁) id ∨
        (∃ e' ∈ calls ++ l₁, id ∈ e'.accountIds) ∧ e.HandedPda H.sha256 npk identifier id) := by
  induction h generalizing calls with
  | nil =>
    intro l₁ e l₂ heq
    simp at heq
  | @cons p rest out outs es st st₁ st' haccept hrest ih =>
    have hround := acceptOutput_ok haccept
    have hlinked := hq p List.mem_cons_self
    have hkeyed₁ : Keyed npk identifier id st₁ := by
      intro pos hfiled
      rw [← hrest.npk]
      exact hkeyed pos (hfiled.mono hrest.grows)
    intro l₁ e l₂ heq
    cases l₁ with
    | nil =>
      cases heq
      rw [List.append_nil]
      intro a ha hid
      exact (hround.flagPda ht hlinked hkeyed₁ ha hid).1
    | cons e₁ l₁ =>
      cases heq
      simpa using ih (Awaited.linked_next hq) (hround.tracksPda ht hlinked hkeyed₁) hkeyed l₁ e l₂ rfl

end

/-! ## Accepted inputs -/

section
variable {H : Host} {i : PrivacyPreservingCircuitInput} {output : PrivacyPreservingCircuitOutput} {st : ExecutionState}
  {id : AccountId} {npk : NullifierPublicKey} {identifier : Identifier} {p : ProgramId} {s : PdaSeed} {pos : Nat}

/-- The flags of a private PDA in the calls behind an accepted input. -/
theorem Derived.flags (hd : Derived H i st) (hpda : PrivatePda H i st id npk identifier p s pos) :
    ∀ l₁ e l₂, circuitCalls i = l₁ ++ e :: l₂ → ∀ a ∈ e.output.preStates, a.accountId = id →
      (a.isAuthorized = true ↔ FirstAuthorized (l₁ ++ [e]) id ∨ GrantedPda H.sha256 npk identifier l₁ id ∨
        (∃ e' ∈ l₁, id ∈ e'.accountIds) ∧ e.HandedPda H.sha256 npk identifier id) := by
  obtain ⟨call, block, time, hreplay⟩ := deriveFromOutputs_replay hd.derived
  have hstart : TracksPda H npk identifier id []
      ⟨[], ∅, block, time, ∅, ∅, npkByPosition H i.accountIdentities, ∅⟩ := by
    refine ⟨by simp, by simp, ?_, by simp⟩
    intro hg
    exact absurd hg History.not_sometime_nil
  have hroot : ∀ p ∈ [(⟨call, .none, []⟩ : Awaited)], p.Linked := by
    intro p hp
    rw [List.mem_singleton.mp hp]
    rfl
  have hkeyed : Keyed npk identifier id st := by
    intro pos' hfiled
    cases hd.filed.position_eq hpda.filed hfiled
    rw [hd.bound.npk]
    exact hpda.key
  intro l₁ e l₂ hcalls a ha hid
  simpa using hreplay.flagsPda hroot hstart hkeyed l₁ e l₂ hcalls a ha hid

/-- A call handed the account by a seed of the caller was handed it by the authority, unless in public form. -/
theorem Derived.handed_under (hd : Derived H i st) (hpda : PrivatePda H i st id npk identifier p s pos)
    {l₁ l₂ : List Executed} {e : Executed} (hcalls : circuitCalls i = l₁ ++ e :: l₂) (hid : id ∈ e.accountIds)
    (hbefore : ∃ e' ∈ l₁, id ∈ e'.accountIds) (hhanded : e.HandedPda H.sha256 npk identifier id) :
    e.HandedBySeed H.sha256 id ∨ e.UnderAuthority p s := by
  rcases hhanded with hpublic | ⟨q, t, ⟨f, hf, rfl, ht⟩, hprivate⟩
  · exact .inl hpublic
  obtain ⟨pos', hfiled, hentered⟩ := hd.recorded.handed l₁ e l₂ hcalls id hid hbefore
  cases hd.filed.position_eq hpda.filed hfiled
  have hkey : st.privatePdaNpkByPosition.lookup pos = .some (npk, identifier) := by
    rw [hd.bound.npk]
    exact hpda.key
  have hsome : (matchedCallerSeed H.sha256 st id pos (.some f.caller) f.call.pdaSeeds).isSome :=
    (matchedCallerSeed_pda hkey _ _).mpr ⟨f.caller, rfl, t, ht, .inr hprivate⟩
  obtain ⟨⟨t', isPrivateForm, c⟩, hm⟩ := Option.isSome_iff_exists.mp hsome
  obtain ⟨hc, ht', hform⟩ := matchedCallerSeed_mem hm
  cases hc
  cases isPrivateForm with
  | false => exact .inl ⟨f, hf, t', ht', (hform rfl).symm⟩
  | true =>
    have hbound := (hentered f hf _ hm).2 rfl
    cases hpda.bound.symm.trans hbound
    exact .inr (.inr ⟨f, List.mem_of_mem_head? hf, rfl, ht'⟩)

/-- **When private PDAs are used under their authority only.** In an input
the circuit accepts, every call that has a private PDA as authorized is one
of its authority program or below a call that program made with the seed,
exactly when this holds of each call that names the account from where the
first call to name it has it as authorized, after a call that was handed it
by a seed of its caller, and where a seed of the caller derives its id as
that of a public PDA. -/
theorem private_pda_authority_iff (h : circuit H i = .ok output) :
    ∃ st, deriveFromOutputs H i.accountIdentities i.programId i.programOutputs = .ok st ∧
      ((∀ e ∈ circuitCalls i, ∀ a ∈ e.output.preStates, a.isAuthorized = true →
          ∀ npk identifier p s pos, PrivatePda H i st a.accountId npk identifier p s pos → e.UnderAuthority p s) ↔
        ∀ id npk identifier p s pos, PrivatePda H i st id npk identifier p s pos →
          ∀ l₁ e l₂, circuitCalls i = l₁ ++ e :: l₂ → id ∈ e.accountIds →
            FirstAuthorized (l₁ ++ [e]) id ∨ GrantedPda H.sha256 npk identifier l₁ id ∨
              (∃ e' ∈ l₁, id ∈ e'.accountIds) ∧ e.HandedBySeed H.sha256 id →
            e.UnderAuthority p s) := by
  obtain ⟨st, hd⟩ := circuit_derived h
  refine ⟨st, hd.derived, ?_, ?_⟩
  · intro hsafe id npk identifier p s pos hpda l₁ e l₂ hcalls hid hwhy
    obtain ⟨a, ha, rfl⟩ := List.mem_map.mp hid
    refine hsafe e (by simp [hcalls]) a ha ?_ npk identifier p s pos hpda
    refine (hd.flags hpda l₁ e l₂ hcalls a ha rfl).mpr ?_
    exact hwhy.imp_right fun hlater => hlater.imp_right fun hpublic => ⟨hpublic.1, .inl hpublic.2⟩
  · intro hcond e he a ha hauth npk identifier p s pos hpda
    obtain ⟨l₁, l₂, hcalls⟩ := List.append_of_mem he
    have hid : a.accountId ∈ e.accountIds := List.mem_map.mpr ⟨a, ha, rfl⟩
    have hneed := hcond a.accountId npk identifier p s pos hpda l₁ e l₂ hcalls hid
    rcases (hd.flags hpda l₁ e l₂ hcalls a ha rfl).mp hauth with hfirst | hgranted | ⟨hbefore, hhanded⟩
    · exact hneed (.inl hfirst)
    · exact hneed (.inr (.inl hgranted))
    · rcases hd.handed_under hpda hcalls hid hbefore hhanded with hpublic | hunder
      · exact hneed (.inr (.inr ⟨hbefore, hpublic⟩))
      · exact hunder

end

section
open Reference

namespace Sample

/-- A private PDA of a program, for the key of `purseNsk`, with funds. -/
def pdaPurse (balance : U128) : AccountWithMetadata :=
  ⟨funded balance, true, bytes32OfNat 0x2611bc11062de6cdb49c180cc85a78efa20d4049862357eb32ebdbdbeea3cf12⟩

def purseNsk : NullifierSecretKey := ByteVec.fill 32 3

def pursePayee (balance : U128) : AccountWithMetadata := ⟨funded balance, false, bytes32OfNat 9⟩

/-- A program of the key's holder: it spends the first of its accounts, then calls the authority with it. -/
def purseSpender : Guest := caller fun
  | a :: b :: _ => [⟨transferId, [a, b], Serde.transferCodec.encode (.transfer 50), []⟩,
      ⟨programId 100, [{ a with account := { a.account with balance := a.account.balance - 50 } }], [], []⟩]
  | _ => []

/-- The authority program shows its PDA to another program, and does no more. -/
def purseShowing : Guest := delegating (programId 102) [] [seed]

/-- The purse is emptied before its authority is called. -/
def purseSpending : PrivacyPreservingCircuitInput where
  programOutputs :=
    (purseSpender (programId 101) .none [pdaPurse 50, pursePayee 0] []).toOption.toList ++
    (AuthenticatedTransfer.main Serde.transferCodec transferId (.some (programId 101)) [pdaPurse 50, pursePayee 0]
      (Serde.transferCodec.encode (.transfer 50))).toOption.toList ++
    (purseShowing (programId 100) (.some (programId 101)) [pdaPurse 0] []).toOption.toList ++
    (idle (programId 102) (.some (programId 100)) [pdaPurse 0] []).toOption.toList
  accountIdentities := [.privatePdaUpdate [] 0 (ByteVec.fill 32 1) purseNsk (0, []) 0 .none, .public]
  programId := programId 101

def purseSpendingHost : MsigHost :=
  host
    { programs := fun id =>
        if id = programId 101 then purseSpender else if id = programId 100 then purseShowing else idle }

end Sample

open Sample

theorem key_holder_spends_pda :
    ∃ output st, circuit purseSpendingHost.toHost purseSpending = .ok output ∧
      deriveFromOutputs purseSpendingHost.toHost purseSpending.accountIdentities purseSpending.programId
        purseSpending.programOutputs = .ok st ∧
      (∃ npk, PrivatePda purseSpendingHost.toHost purseSpending st (pdaPurse 50).accountId npk 0 (programId 100) seed 0) ∧
      ∃ e ∈ circuitCalls purseSpending, e.program = transferId ∧ pdaPurse 50 ∈ e.output.preStates ∧
        ¬e.UnderAuthority (programId 100) seed := by
  have hrun : (circuit purseSpendingHost.toHost purseSpending).toOption.isSome = true ∧
      ((deriveFromOutputs purseSpendingHost.toHost purseSpending.accountIdentities purseSpending.programId
        purseSpending.programOutputs).toOption.any fun st =>
          decide ((st.preStates[0]?).map (·.accountId) = .some (pdaPurse 50).accountId ∧
            st.privatePdaBoundPositions.lookup 0 = .some (programId 100, seed))) = true ∧
      (pdaPurse 50).accountId =
        forPrivatePda Sha256.hash (programId 100) seed (nullifierPublicKey Sha256.hash purseNsk) 0 ∧
      ∃ e ∈ circuitCalls purseSpending, e.program = transferId ∧ pdaPurse 50 ∈ e.output.preStates ∧
        ¬e.UnderAuthority (programId 100) seed := by
    decide +kernel
  obtain ⟨haccepted, hderived, hid, hcall⟩ := hrun
  obtain ⟨output, houtput⟩ := Option.isSome_iff_exists.mp haccepted
  obtain ⟨st, hst, hfacts⟩ := (Option.any_eq_true _ _).mp hderived
  obtain ⟨hfirst, hbound⟩ := of_decide_eq_true hfacts
  obtain ⟨a, ha, haid⟩ := Option.map_eq_some_iff.mp hfirst
  exact ⟨output, st, toOption_eq_some.mp houtput, toOption_eq_some.mp hst,
    ⟨_, ⟨a, ha, haid⟩, rfl, hbound, hid⟩, hcall⟩

theorem delegated_pda_under_authority :
    ∃ st, deriveFromOutputs privateDelegationHost.toHost privateDelegation.accountIdentities privateDelegation.programId
        privateDelegation.programOutputs = .ok st ∧
      (∃ e ∈ circuitCalls privateDelegation, ∃ a ∈ e.output.preStates, a.isAuthorized = true) ∧
      ∀ e ∈ circuitCalls privateDelegation, ∀ a ∈ e.output.preStates, a.isAuthorized = true →
        ∀ npk identifier p s pos,
          PrivatePda privateDelegationHost.toHost privateDelegation st a.accountId npk identifier p s pos →
            e.UnderAuthority p s := by
  have hrun : (circuit privateDelegationHost.toHost privateDelegation).toOption.isSome = true ∧
      (deriveFromOutputs privateDelegationHost.toHost privateDelegation.accountIdentities privateDelegation.programId
        privateDelegation.programOutputs).toOption.map (·.privatePdaBoundPositions.lookup 0) =
          .some (.some (programId 100, seed)) ∧
      (∃ e ∈ circuitCalls privateDelegation, ∃ a ∈ e.output.preStates, a.isAuthorized = true) ∧
      ∀ e ∈ circuitCalls privateDelegation, e.UnderAuthority (programId 100) seed := by
    decide +kernel
  obtain ⟨haccepted, hlookup, hflag, hcalls⟩ := hrun
  obtain ⟨output, houtput⟩ := Option.isSome_iff_exists.mp haccepted
  obtain ⟨st, hderived, hiff⟩ := private_pda_authority_iff (toOption_eq_some.mp houtput)
  rw [hderived, Except.toOption, Option.map_some, Option.some.injEq] at hlookup
  refine ⟨st, hderived, hflag, hiff.mpr ?_⟩
  intro id npk identifier p s pos hpda l₁ e l₂ hsplit _ _
  -- the input has one account, bound to the seed of its program
  have hpos : pos = 0 := by
    obtain ⟨identity, hidentity, -⟩ := Option.bind_eq_some_iff.mp hpda.key
    have hlt := (List.getElem?_eq_some_iff.mp hidentity).1
    simp only [privateDelegation, List.length_singleton] at hlt
    omega
  subst hpos
  cases hlookup.symm.trans hpda.bound
  exact hcalls e (by simp [hsplit])

end

end Lez
