/-
Authorization in the circuit, against the public path. The circuit keeps one
set of authorized accounts for the whole transaction where the ledger keeps
one for each caller. For a public account the flag a call may have it with is
told exactly (`Replay.flags`): a signer's, or that of an account granted to
this call or to any before it, on its path or not.
-/
import Lez.Lib.History
import Lez.Programs.MsigHost
import Lez.Trace.Chain

namespace Lez

open Circuit

/-- The caller passed a seed the account derives from in this very call. -/
def Executed.HandedBySeed (sha256 : Bytes → Bytes32) (e : Executed) (id : AccountId) : Prop :=
  ∃ f ∈ e.path.head?, ∃ seed ∈ f.call.pdaSeeds, id = forPublicPda sha256 f.caller seed

theorem Executed.HandedBySeed.authority {sha256 : Bytes → Bytes32} {e : Executed} {id : AccountId}
    (h : e.HandedBySeed sha256 id) (signers : List AccountId) : PathAuthority sha256 signers e.path id := by
  obtain ⟨f, hf, seed, hseed, rfl⟩ := h
  exact .inr ⟨f, List.mem_of_mem_head? hf, seed, hseed, rfl⟩

/-- Among these calls, in the order they ran, one was handed the account by a
seed after an earlier one had used it. -/
def Granted (sha256 : Bytes → Bytes32) (calls : List Executed) (id : AccountId) : Prop :=
  ∃ l₁ e l₂, calls = l₁ ++ e :: l₂ ∧ (∃ e' ∈ l₁, id ∈ e'.accountIds) ∧ id ∈ e.accountIds ∧ e.HandedBySeed sha256 id

section
variable {sha256 : Bytes → Bytes32} {id : AccountId}

theorem Granted.seen {calls : List Executed} (h : Granted sha256 calls id) : ∃ e ∈ calls, id ∈ e.accountIds := by
  obtain ⟨l₁, e, l₂, rfl, -, hid, -⟩ := h
  exact ⟨e, by simp, hid⟩

theorem not_granted_nil : ¬Granted sha256 [] id := by
  intro h
  obtain ⟨e, he, -⟩ := h.seen
  cases he

/-- Whether the last call makes a difference. -/
theorem granted_append {calls : List Executed} {e : Executed} : Granted sha256 (calls ++ [e]) id ↔
    Granted sha256 calls id ∨ ((∃ e' ∈ calls, id ∈ e'.accountIds) ∧ id ∈ e.accountIds ∧ e.HandedBySeed sha256 id) :=
  History.sometime_snoc (P := fun (before : List Executed) (e : Executed) =>
    (∃ e' ∈ before, id ∈ e'.accountIds) ∧ id ∈ e.accountIds ∧ e.HandedBySeed sha256 id)

end

/-! ## What the circuit tracks -/

/-- The public accounts among those filed: authorized when they signed, and at
a position without an npk. -/
structure PublicAt (accounts signers : List AccountId) (st : ExecutionState) : Prop where
  flag : ∀ a ∈ st.preStates, a.accountId ∈ accounts → (a.isAuthorized = true ↔ a.accountId ∈ signers)
  position : ∀ pos a, st.preStates[pos]? = .some a → a.accountId ∈ accounts →
    st.privatePdaNpkByPosition.lookup pos = .none

/-- The state after these calls, as far as authorization of public accounts goes. -/
structure Tracks (sha256 : Bytes → Bytes32) (accounts signers : List AccountId) (calls : List Executed)
    (st : ExecutionState) : Prop where
  seen : ∀ id, (st.postStates.lookup id).isSome ↔ ∃ e ∈ calls, id ∈ e.accountIds
  authorized : ∀ id ∈ accounts, id ∉ signers → (id ∈ st.authorizedAccounts ↔ Granted sha256 calls id)

section
variable {H : Host} {identities : List InputAccountIdentity} {accounts signers : List AccountId}
  {st st' : ExecutionState}

theorem Awaited.Linked.handed {p : Awaited} (h : p.Linked) (out : ProgramOutput) (id : AccountId) :
    (p.executed out).HandedBySeed H.sha256 id ↔
      ∃ c ∈ p.caller, ∃ seed ∈ p.call.pdaSeeds, id = forPublicPda H.sha256 c seed := by
  have hhead : (p.executed out).path.head? = p.caller.map fun c => ⟨c, p.call⟩ := h
  unfold Executed.HandedBySeed
  rw [hhead]
  cases p.caller <;> simp

/-- Without an npk at its position only a public derivation matches an account. -/
theorem matchedCallerSeed_public {pos : Nat} (h : st.privatePdaNpkByPosition.lookup pos = .none) (id : AccountId)
    (caller : Option ProgramId) (seeds : List PdaSeed) :
    (matchedCallerSeed H.sha256 st id pos caller seeds).isSome ↔
      ∃ c ∈ caller, ∃ seed ∈ seeds, id = forPublicPda H.sha256 c seed := by
  cases caller with
  | none => simp [matchedCallerSeed]
  | some c =>
    simp only [matchedCallerSeed, h, Option.bind_some, List.findSome?_isSome_iff, Option.mem_some_iff, exists_eq_left']
    refine exists_congr fun seed => and_congr_right fun _ => ?_
    split <;> simp_all [eq_comm]

/-- Earlier states file fewer accounts. -/
theorem PublicAt.before (h : PublicAt accounts signers st') (hpre : st.preStates <+: st'.preStates)
    (hnpk : st'.privatePdaNpkByPosition = st.privatePdaNpkByPosition) : PublicAt accounts signers st := by
  refine ⟨fun a ha => h.flag a (hpre.subset ha), ?_⟩
  intro pos a hget
  rw [← hnpk]
  refine h.position pos a ?_
  obtain ⟨new, hnew⟩ := hpre
  rw [← hnew, List.getElem?_append_left (List.getElem?_eq_some_iff.mp hget).1]
  exact hget

section
variable {p : Awaited} {out : ProgramOutput} {calls : List Executed}
  (h : OutputChecks H st p.call p.caller out st') (ht : Tracks H.sha256 accounts signers calls st)
include h ht

/-- The flag a public account of the output has, and its standing after the round. -/
theorem OutputChecks.flag (hlinked : p.Linked) (hpublic : PublicAt accounts signers st') {a : AccountWithMetadata}
    (ha : a ∈ out.preStates) (hpub : a.accountId ∈ accounts) :
    (a.isAuthorized = true ↔ a.accountId ∈ signers ∨ Granted H.sha256 (calls ++ [p.executed out]) a.accountId) ∧
      (a.accountId ∉ signers → (a.accountId ∈ st'.authorizedAccounts ↔
        Granted H.sha256 (calls ++ [p.executed out]) a.accountId)) := by
  have hbefore : PublicAt accounts signers st := by
    obtain ⟨new, hnew, -⟩ := h.accepted.growth
    exact hpublic.before ⟨new, hnew.symm⟩ h.accepted.npk
  have hnamed : a.accountId ∈ (p.executed out).accountIds := List.mem_map.mpr ⟨a, ha, rfl⟩
  obtain ⟨pp, hpp, rfl⟩ := h.change ha
  rcases h.accepted.accounts pp hpp with ⟨hknown, ⟨first, pos, hget, hfirst, hiff⟩, hauth⟩ | ⟨hunknown, hfiled, hauth⟩
  · have hseen := (ht.seen pp.1.accountId).mp (by simp [hknown])
    have hsigned := hbefore.flag first (List.mem_of_getElem? hget) (hfirst ▸ hpub)
    rw [matchedCallerSeed_public (hbefore.position pos first hget (hfirst ▸ hpub)), ← hlinked.handed out,
      hsigned, hfirst] at hiff
    have hgrant : Granted H.sha256 (calls ++ [p.executed out]) pp.1.accountId ↔
        Granted H.sha256 calls pp.1.accountId ∨ (p.executed out).HandedBySeed H.sha256 pp.1.accountId := by
      rw [granted_append]
      simp [hseen, hnamed]
    rw [hauth, hiff, hgrant]
    by_cases hs : pp.1.accountId ∈ signers
    · simp [hs]
    · simp [hs, ht.authorized _ hpub hs]
  · -- nobody can have been granted an account that was not seen
    have hnew : ¬∃ e ∈ calls, pp.1.accountId ∈ e.accountIds := by
      rw [← ht.seen, hunknown]
      simp
    have hnot : ¬Granted H.sha256 (calls ++ [p.executed out]) pp.1.accountId := by
      rw [granted_append]
      rintro (hg | ⟨hg, -⟩)
      · exact hnew hg.seen
      · exact hnew hg
    refine ⟨by simp [hpublic.flag _ hfiled hpub, hnot], ?_⟩
    intro hs
    rw [hauth, ht.authorized _ hpub hs]
    exact iff_of_false (fun hg => hnew hg.seen) hnot

/-- **One round of the loop** keeps track. -/
theorem OutputChecks.tracks (hlinked : p.Linked) (hpublic : PublicAt accounts signers st') :
    Tracks H.sha256 accounts signers (calls ++ [p.executed out]) st' := by
  refine ⟨h.seen ht.seen, ?_⟩
  intro id hpub hs
  by_cases hid : id ∈ (p.executed out).accountIds
  · obtain ⟨a, ha, rfl⟩ := List.mem_map.mp hid
    exact (h.flag ht hlinked hpublic ha hpub).2 hs
  · rw [(h.other hid).2, ht.authorized id hpub hs, granted_append]
    simp [hid]

end

theorem Replay.npk {q : List Awaited} {outs : List ProgramOutput} {es : List Executed}
    (h : Replay H identities q outs st es st') : st'.privatePdaNpkByPosition = st.privatePdaNpkByPosition := by
  induction h with
  | nil => rfl
  | cons haccept _ ih => exact ih.trans (acceptOutput_ok haccept).accepted.npk

/-- **The flag of a public account, in every call**: the signers', and what
was granted to the call or before it. -/
theorem Replay.flags {q : List Awaited} {outs : List ProgramOutput} {es calls : List Executed}
    (h : Replay H identities q outs st es st') (hq : ∀ p ∈ q, p.Linked)
    (ht : Tracks H.sha256 accounts signers calls st) (hpublic : PublicAt accounts signers st') :
    ∀ l₁ e l₂, es = l₁ ++ e :: l₂ → ∀ a ∈ e.output.preStates, a.accountId ∈ accounts →
      (a.isAuthorized = true ↔ a.accountId ∈ signers ∨ Granted H.sha256 (calls ++ l₁ ++ [e]) a.accountId) := by
  induction h generalizing calls with
  | nil =>
    intro l₁ e l₂ heq
    simp at heq
  | @cons p rest out outs es st st₁ st' haccept hrest ih =>
    have hround := acceptOutput_ok haccept
    have hlinked := hq p List.mem_cons_self
    have hnext := hpublic.before hrest.grows hrest.npk
    intro l₁ e l₂ heq
    cases l₁ with
    | nil =>
      cases heq
      rw [List.append_nil]
      intro a ha hpub
      exact (hround.flag ht hlinked hnext ha hpub).1
    | cons e₁ l₁ =>
      cases heq
      simpa using ih (Awaited.linked_next hq) (hround.tracks ht hlinked hnext) hpublic l₁ e l₂ rfl

/-! ## Accepted transactions -/

theorem npkByPosition_public {pos : Nat} {identity : InputAccountIdentity} (hget : identities[pos]? = .some identity)
    (hpub : identity.isPublic = true) : (npkByPosition H identities).lookup pos = .none := by
  have hnone : (npkByPosition H identities).lookup pos = (∅ : Table Nat (NullifierPublicKey × Identifier)).lookup pos := by
    refine Table.lookup_writeAll_not ?_
    rintro kv hkv rfl
    obtain ⟨⟨identity', pos⟩, hip, hnpk⟩ := List.mem_filterMap.mp hkv
    obtain ⟨npk, hnpk, rfl⟩ := Option.map_eq_some_iff.mp hnpk
    have hsame : identities[pos]? = .some identity' := List.mem_zipIdx_iff_getElem?.mp hip
    cases hget.symm.trans hsame
    cases identity with
    | «public» => cases hnpk
    | _ => cases hpub
  rw [hnone]
  rfl

/-- The public accounts of the message stand at positions with identity `Public`. -/
theorem Explains.position {s : V03State} {tx : PrivacyPreservingTransaction} (h : Explains H s tx st identities)
    {pos : Nat} {a : AccountWithMetadata} (hget : st.preStates[pos]? = .some a)
    (hpub : a.accountId ∈ tx.message.publicAccountIds) :
    ∃ identity, identities[pos]? = .some identity ∧ identity.isPublic = true := by
  have ha := h.first_seen (List.mem_of_getElem? hget) hpub
  have hmem : a ∈ publicStates (identities.zip st.preStates) := by
    rw [ha, h.pre]
    exact List.mem_map_of_mem hpub
  obtain ⟨⟨identity, b⟩, hip, rfl⟩ := List.mem_map.mp hmem
  obtain ⟨hzip, hidentity⟩ := List.mem_filter.mp hip
  obtain ⟨k, hk⟩ := List.mem_iff_getElem?.mp hzip
  obtain ⟨hleft, hright⟩ := List.getElem?_zip_eq_some.mp hk
  -- no account is filed at two positions
  have hkpos : k = pos := by
    obtain ⟨_, hb⟩ := List.getElem?_eq_some_iff.mp hright
    obtain ⟨_, hb'⟩ := List.getElem?_eq_some_iff.mp hget
    exact h.filed.nodup.of_map.getElem_inj_iff.mp (hb.trans hb'.symm)
  subst hkpos
  exact ⟨identity, hleft, hidentity⟩

theorem CircuitRun.publicAt {i : PrivacyPreservingCircuitInput} {s : V03State} {tx : PrivacyPreservingTransaction}
    {start : ExecutionState} (h : CircuitRun H i (expectedCircuitOutput H tx s) start st) :
    PublicAt tx.message.publicAccountIds (signerAccountIds H tx.signaturesAndPublicKeys) st := by
  have hex := h.explains
  refine ⟨?_, ?_⟩
  · intro a ha hpub
    rw [hex.first_seen ha hpub]
    simp [signedPreState]
  · intro pos a hget hpub
    obtain ⟨identity, hidentity, hpublic⟩ := hex.position hget hpub
    obtain ⟨_, hreplay⟩ := h.replay
    rw [hreplay.npk, h.start.2.2.2]
    exact npkByPosition_public hidentity hpublic

/-- The flags of the public accounts in the calls behind an accepted transaction. -/
theorem privacy_flags {i : PrivacyPreservingCircuitInput} {s : V03State} {tx : PrivacyPreservingTransaction}
    (h : circuit H i = .ok (expectedCircuitOutput H tx s)) :
    ∀ l₁ e l₂, circuitCalls i = l₁ ++ e :: l₂ →
      ∀ a ∈ e.output.preStates, a.accountId ∈ tx.message.publicAccountIds →
        (a.isAuthorized = true ↔ a.accountId ∈ signerAccountIds H tx.signaturesAndPublicKeys ∨
          Granted H.sha256 (l₁ ++ [e]) a.accountId) := by
  obtain ⟨start, st, hrun⟩ := circuit_ok h
  obtain ⟨call, hreplay⟩ := hrun.replay
  obtain ⟨-, hpost, hauth, -⟩ := hrun.start
  have hstart : Tracks H.sha256 tx.message.publicAccountIds (signerAccountIds H tx.signaturesAndPublicKeys) [] start := by
    refine ⟨by simp [hpost], ?_⟩
    intro id _ _
    rw [hauth]
    exact iff_of_false (by simp) not_granted_nil
  have hroot : ∀ p ∈ [(⟨call, .none, []⟩ : Awaited)], p.Linked := by
    intro p hp
    rw [List.mem_singleton.mp hp]
    rfl
  exact hreplay.flags hroot hstart hrun.publicAt

/-- **Where the circuit agrees with the public path.** Behind the proof of an
accepted privacy-preserving transaction is a run of the circuit, and in every
such run each call has public accounts as authorized on the strength of its own
path alone, exactly when no call uses a public account that was granted to
an earlier one without having authority over it from its own path. -/
theorem privacy_authorization_agrees_iff
    (hsound : ProofsSound H)
    {s : V03State} {tx : PrivacyPreservingTransaction} {blockId : BlockId} {timestamp : Timestamp} {diff : StateDiff}
    (h : fromPrivacyPreservingTransaction H tx s blockId timestamp = .ok diff) :
    (∃ i, circuit H i = .ok (expectedCircuitOutput H tx s)) ∧
    ∀ i, circuit H i = .ok (expectedCircuitOutput H tx s) →
      ((∀ e ∈ circuitCalls i, ∀ a ∈ e.output.preStates, a.accountId ∈ tx.message.publicAccountIds →
          a.isAuthorized = true →
          PathAuthority H.sha256 (signerAccountIds H tx.signaturesAndPublicKeys) e.path a.accountId) ↔
        ∀ l₁ e l₂, circuitCalls i = l₁ ++ e :: l₂ → ∀ id ∈ e.accountIds, id ∈ tx.message.publicAccountIds →
          Granted H.sha256 l₁ id →
          PathAuthority H.sha256 (signerAccountIds H tx.signaturesAndPublicKeys) e.path id) := by
  refine ⟨hsound _ _ (fromPrivacyPreservingTransaction_ok h).2, ?_⟩
  intro i hi
  have hflags := privacy_flags hi
  constructor
  · intro hagrees l₁ e l₂ hcalls id hid hpub hgranted
    obtain ⟨a, ha, rfl⟩ := List.mem_map.mp hid
    refine hagrees e (by simp [hcalls]) a ha hpub ((hflags l₁ e l₂ hcalls a ha hpub).mpr (.inr ?_))
    exact granted_append.mpr (.inl hgranted)
  · intro hconfined e he a ha hpub hauth
    obtain ⟨l₁, l₂, hcalls⟩ := List.append_of_mem he
    rcases (hflags l₁ e l₂ hcalls a ha hpub).mp hauth with hsigner | hgranted
    · exact .inl hsigner
    · rcases granted_append.mp hgranted with hearlier | ⟨-, -, hhanded⟩
      · exact hconfined l₁ e l₂ hcalls a.accountId (List.mem_map.mpr ⟨a, ha, rfl⟩) hpub hearlier
      · exact hhanded.authority _

end

section
open Reference

namespace Sample

/-- The account the program of these transactions derives from its seed. -/
def shared : AccountWithMetadata := ⟨Account.default, false, forPublicPda Sha256.hash (programId 100) seed⟩

/-- A private account that is new, for a transaction that has to have one. -/
def newcomer : AccountWithMetadata :=
  ⟨Account.default, false, forRegularPrivateAccount Sha256.hash (ByteVec.fill 32 9) 0⟩

/-- A program that calls another once for each list of seeds, the first of its
accounts marked as authorized each time. -/
def granting (seeds : List (List PdaSeed)) : Guest := caller fun
  | a :: _ => seeds.map fun s => ⟨programId 101, [{ a with isAuthorized := true }], [], s⟩
  | [] => []

/-- The outputs of the program and of its callees, and their accounts. -/
def grants (seeds : List (List PdaSeed)) : PrivacyPreservingCircuitInput where
  programOutputs :=
    (granting seeds (programId 100) .none [shared, newcomer] []).toOption.toList ++ seeds.flatMap fun _ =>
      (idle (programId 101) (.some (programId 100)) [{ shared with isAuthorized := true }] []).toOption.toList
  accountIdentities := [.public, .privateUnauthorized [] 0 (ByteVec.fill 32 9) (ByteVec.fill 32 1) 0]
  programId := programId 100

def grantsHost (seeds : List (List PdaSeed)) : MsigHost := host
  { programs := fun id => if id = programId 100 then granting seeds else idle
    proven := [([], grants seeds)] }

end Sample

open Sample

theorem sibling_keeps_grant :
    ∃ tx diff, fromPrivacyPreservingTransaction (grantsHost [[seed], []]).toHost tx committedLedger 0 0 = .ok diff ∧
      circuit (grantsHost [[seed], []]).toHost (grants [[seed], []]) =
        .ok (expectedCircuitOutput (grantsHost [[seed], []]).toHost tx committedLedger) ∧
      (∃ e ∈ circuitCalls (grants [[seed], []]), ∃ a ∈ e.output.preStates, a.accountId ∈ tx.message.publicAccountIds ∧
        a.isAuthorized = true ∧ ¬PathAuthority Sha256.hash [] e.path a.accountId) ∧
      -- the ledger turns the same calls down
      fromPublicTransaction (grantsHost [[seed], []]).toHost
        (unsigned (programId 100) [shared.accountId, newcomer.accountId] []) committedLedger 0 0 =
          .error (.invalidProgramBehavior (.invalidAccountAuthorization shared.accountId)) := by
  have hrun : (proved (grantsHost [[seed], []]).toHost (grants [[seed], []])).any (fun tx => decide (
      (fromPrivacyPreservingTransaction (grantsHost [[seed], []]).toHost tx committedLedger 0 0).isOk = true ∧
      circuit (grantsHost [[seed], []]).toHost (grants [[seed], []]) =
        .ok (expectedCircuitOutput (grantsHost [[seed], []]).toHost tx committedLedger) ∧
      ∃ e ∈ circuitCalls (grants [[seed], []]), ∃ a ∈ e.output.preStates, a.accountId ∈ tx.message.publicAccountIds ∧
        a.isAuthorized = true ∧ ¬PathAuthority Sha256.hash [] e.path a.accountId)) = true := by
    simp only [proved, grantsHost, host_packed, grants, shared, newcomer, Sha256.hash_eq_packed]
    decide +kernel
  have hpublic : (fromPublicTransaction (grantsHost [[seed], []]).toHost
      (unsigned (programId 100) [shared.accountId, newcomer.accountId] []) committedLedger 0 0).map (fun _ => ()) =
        .error (.invalidProgramBehavior (.invalidAccountAuthorization shared.accountId)) := by
    decide +kernel
  obtain ⟨tx, -, hfacts⟩ := (Option.any_eq_true _ _).mp hrun
  obtain ⟨hok, hcircuit, hcall⟩ := of_decide_eq_true hfacts
  obtain ⟨diff, hdiff⟩ := isOk_iff.mp hok
  exact ⟨tx, diff, hdiff, hcircuit, hcall, map_error_iff.mp hpublic⟩

theorem single_grant_agrees :
    ∃ tx diff, fromPrivacyPreservingTransaction (grantsHost [[seed]]).toHost tx committedLedger 0 0 = .ok diff ∧
      (∃ e ∈ circuitCalls (grants [[seed]]), ∃ a ∈ e.output.preStates, a.isAuthorized = true) ∧
      ∀ e ∈ circuitCalls (grants [[seed]]), ∀ a ∈ e.output.preStates, a.accountId ∈ tx.message.publicAccountIds →
        a.isAuthorized = true → PathAuthority Sha256.hash
          (signerAccountIds (grantsHost [[seed]]).toHost tx.signaturesAndPublicKeys) e.path a.accountId := by
  have hrun : (proved (grantsHost [[seed]]).toHost (grants [[seed]])).any (fun tx => decide (
      (fromPrivacyPreservingTransaction (grantsHost [[seed]]).toHost tx committedLedger 0 0).isOk = true ∧
      circuit (grantsHost [[seed]]).toHost (grants [[seed]]) =
        .ok (expectedCircuitOutput (grantsHost [[seed]]).toHost tx committedLedger) ∧
      (∃ e ∈ circuitCalls (grants [[seed]]), ∃ a ∈ e.output.preStates, a.isAuthorized = true) ∧
      ∀ e ∈ (circuitCalls (grants [[seed]])).tail, ∀ id ∈ e.accountIds, PathAuthority Sha256.hash
        (signerAccountIds (grantsHost [[seed]]).toHost tx.signaturesAndPublicKeys) e.path id)) = true := by
    simp only [proved, grantsHost, host_packed, grants, shared, newcomer, Sha256.hash_eq_packed]
    decide +kernel
  obtain ⟨tx, -, hfacts⟩ := (Option.any_eq_true _ _).mp hrun
  obtain ⟨hok, hcircuit, hflag, htail⟩ := of_decide_eq_true hfacts
  obtain ⟨diff, hdiff⟩ := isOk_iff.mp hok
  refine ⟨tx, diff, hdiff, hflag, ?_⟩
  refine ((privacy_authorization_agrees_iff (grantsHost [[seed]]).proof_sound hdiff).2 _ hcircuit).mpr ?_
  -- nothing is granted before the first call, and the second has the seed on its path
  intro l₁ e l₂ hcalls id hid _ hgranted
  cases l₁ with
  | nil => exact absurd hgranted not_granted_nil
  | cons e₁ l₁ => exact htail e (by simp [hcalls]) id hid

end

end Lez
