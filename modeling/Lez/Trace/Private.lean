/-
The calls behind a privacy-preserving transaction. The circuit answers a work
list of calls with the outputs it is given, in order; `replayCalls` is that
pairing, with paths. On the public accounts of the message an accepted
transaction's calls are a sequence of effects, from the state before to the
diff (`privacy_effects`), as a public transaction's are.
-/
import Lez.Circuit.Facts
import Lez.State.Transition
import Lez.Trace.Msig

namespace Lez

open Circuit

/-- A call the circuit awaits an output for. -/
structure Awaited where
  call : ChainedCall
  caller : Option ProgramId
  path : List Frame

namespace Awaited

def entry (p : Awaited) : ChainedCall × Option ProgramId := (p.call, p.caller)

def executed (p : Awaited) (out : ProgramOutput) : Executed := ⟨p.call, p.path, out⟩

def callees (p : Awaited) (out : ProgramOutput) : List Awaited :=
  out.chainedCalls.map fun c => ⟨c, .some p.call.programId, ⟨p.call.programId, c⟩ :: p.path⟩

theorem entry_callees (p : Awaited) (out : ProgramOutput) (rest : List Awaited) :
    (out.chainedCalls.map fun c => (c, Option.some p.call.programId)) ++ rest.map entry =
      (p.callees out ++ rest).map entry := by
  simp [callees, entry]

end Awaited

/-- An awaited call stands at the end of its path. -/
def Awaited.Linked (p : Awaited) : Prop := p.path.head? = p.caller.map fun c => ⟨c, p.call⟩

/-- The calls awaited after a round stand at the ends of their paths when those before it did. -/
theorem Awaited.linked_next {p : Awaited} {rest : List Awaited} {out : ProgramOutput}
    (h : ∀ c ∈ p :: rest, c.Linked) : ∀ c ∈ p.callees out ++ rest, c.Linked := by
  intro c hc
  rcases List.mem_append.mp hc with hc | hc
  · obtain ⟨cc, -, rfl⟩ := List.mem_map.mp hc
    rfl
  · exact h c (List.mem_cons_of_mem _ hc)

/-- The calls with the outputs that answer them. -/
def replayCalls : List Awaited → List ProgramOutput → List Executed
  | p :: rest, out :: outs => p.executed out :: replayCalls (p.callees out ++ rest) outs
  | _, _ => []

/-- The calls of a circuit input. -/
def circuitCalls (i : PrivacyPreservingCircuitInput) : List Executed :=
  match i.programOutputs.head? with
  | .some first => replayCalls [⟨Circuit.initialCall i.programId first, .none, []⟩] i.programOutputs
  | .none => []

/-- The loop as a relation: awaited calls, outputs, the state before, the calls, the state after. -/
inductive Replay (H : Host) (identities : List InputAccountIdentity) :
    List Awaited → List ProgramOutput → ExecutionState → List Executed → ExecutionState → Prop
  | nil (st : ExecutionState) : Replay H identities [] [] st [] st
  | cons {p : Awaited} {rest : List Awaited} {out : ProgramOutput} {outs : List ProgramOutput} {es : List Executed}
      {st st' st'' : ExecutionState} : acceptOutput H identities st p.call p.caller out = .ok st' →
      Replay H identities (p.callees out ++ rest) outs st' es st'' →
      Replay H identities (p :: rest) (out :: outs) st (p.executed out :: es) st''

section
variable {H : Host} {identities : List InputAccountIdentity} {st st' : ExecutionState}

theorem replay_of_runOutputs : ∀ {budget : Nat} {q : List Awaited} {outs : List ProgramOutput}
    {st st' : ExecutionState}, runOutputs H identities budget (q.map Awaited.entry) outs st = .ok (st', []) →
      Replay H identities q outs st (replayCalls q outs) st'
  | budget, [], outs, st, st', h => by
    have hnil : runOutputs H identities budget [] outs st = .ok (st, outs) := by cases budget <;> rfl
    rw [List.map_nil, hnil] at h
    cases h
    exact .nil st
  | 0, p :: rest, outs, st, st', h => by cases h
  | budget + 1, p :: rest, [], st, st', h => by cases h
  | budget + 1, p :: rest, out :: outs, st, st', h => by
    rw [List.map_cons, Awaited.entry, runOutputs, bind_ok_iff] at h
    obtain ⟨st₁, haccept, h⟩ := h
    dsimp only at h
    rw [p.entry_callees] at h
    exact .cons haccept (replay_of_runOutputs h)

/-! ## One output -/

/-- **What one round of the loop did.** -/
structure OutputChecks (H : Host) (st : ExecutionState) (call : ChainedCall) (caller : Option ProgramId)
    (out : ProgramOutput) (st' : ExecutionState) : Prop where
  data : call.instructionData = out.instructionData
  receipt : H.receipt call.programId out = true
  self : out.selfProgramId = call.programId
  valid : ValidExecution call.programId out
  accepted : Accepted H.sha256 call.programId caller call.pdaSeeds st (out.preStates.zip out.postStates) st'
  caller : out.callerProgramId = caller

theorem zip_ids {pre : List AccountWithMetadata} {post : List AccountPostState} (h : pre.length = post.length) :
    (pre.zip post).map (·.1.accountId) = pre.map (·.accountId) := by
  have hfst : (pre.zip post).map (·.1) = pre := List.map_fst_zip h.le
  calc (pre.zip post).map (·.1.accountId) = ((pre.zip post).map (·.1)).map (·.accountId) := by rw [List.map_map]; rfl
    _ = pre.map (·.accountId) := by rw [hfst]

theorem acceptOutput_ok {call : ChainedCall} {caller : Option ProgramId} {out : ProgramOutput}
    (h : acceptOutput H identities st call caller out = .ok st') : OutputChecks H st call caller out st' := by
  simp only [acceptOutput, bind_ok_iff, ensure_ok_iff, mapError_ok_iff] at h
  obtain ⟨-, hdata, -, hreceipt, -, hself, -, hcaller, _, hvalid, hsync⟩ := h
  have hv := validateExecution_ok hvalid
  exact ⟨hdata, hreceipt, hself, hv, accepted_of_fold (zip_ids hv.length ▸ hv.nodup) hsync, hcaller⟩

section
variable {p : Awaited} {out : ProgramOutput} (h : OutputChecks H st p.call p.caller out st')
include h

/-- Every account of an output has its post state. -/
theorem OutputChecks.change {a : AccountWithMetadata} (ha : a ∈ out.preStates) :
    ∃ pp ∈ out.preStates.zip out.postStates, pp.1 = a := by
  rw [← List.mem_map, List.map_fst_zip h.valid.length.le]
  exact ha

/-- An account that is not in the output stands as before. -/
theorem OutputChecks.other {id : AccountId} (hid : id ∉ (p.executed out).accountIds) :
    st'.postStates.lookup id = st.postStates.lookup id ∧
      (id ∈ st'.authorizedAccounts ↔ id ∈ st.authorizedAccounts) := by
  refine h.accepted.others id ?_
  rintro pp hpp rfl
  exact hid (List.mem_map.mpr ⟨pp.1, (List.of_mem_zip hpp).1, rfl⟩)

/-- The accounts seen after a round are those the calls so far name. -/
theorem OutputChecks.seen {calls : List Executed}
    (hseen : ∀ id, (st.postStates.lookup id).isSome ↔ ∃ e ∈ calls, id ∈ e.accountIds) (id : AccountId) :
    (st'.postStates.lookup id).isSome ↔ ∃ e ∈ calls ++ [p.executed out], id ∈ e.accountIds := by
  by_cases hid : id ∈ (p.executed out).accountIds
  · obtain ⟨a, ha, rfl⟩ := List.mem_map.mp hid
    obtain ⟨pp, hpp, rfl⟩ := h.change ha
    exact iff_of_true (by simp [h.accepted.posts pp hpp]) ⟨_, by simp, hid⟩
  · rw [(h.other hid).1, hseen]
    simp [or_and_right, exists_or, hid]

end

/-- Accounts are filed once, when they are first seen. -/
structure Filed (st : ExecutionState) : Prop where
  seen : ∀ id, (st.postStates.lookup id).isSome ↔ id ∈ st.preStates.map (·.accountId)
  nodup : (st.preStates.map (·.accountId)).Nodup

theorem Filed.next {program : ProgramId} {caller : Option ProgramId} {seeds : List PdaSeed}
    {pps : List (AccountWithMetadata × AccountPostState)} (hf : Filed st)
    (h : Accepted H.sha256 program caller seeds st pps st') : Filed st' := by
  obtain ⟨new, hnew, hnodup, hfrom⟩ := h.growth
  refine ⟨?_, ?_⟩
  · intro id
    by_cases hid : ∃ pp ∈ pps, pp.1.accountId = id
    · obtain ⟨pp, hpp, rfl⟩ := hid
      have hfiled : pp.1.accountId ∈ st'.preStates.map (·.accountId) := by
        rcases h.accounts pp hpp with hseen | hfresh
        · rw [hnew, List.map_append]
          exact List.mem_append_left _ ((hf.seen _).mp (by simp [hseen.known]))
        · exact List.mem_map.mpr ⟨pp.1, hfresh.filed, rfl⟩
      exact iff_of_true (by simp [h.posts pp hpp]) hfiled
    · have hout : id ∉ new.map (·.accountId) := by
        intro hmem
        obtain ⟨a, ha, rfl⟩ := List.mem_map.mp hmem
        obtain ⟨⟨pp, hpp, rfl⟩, -⟩ := hfrom a ha
        exact hid ⟨pp, hpp, rfl⟩
      rw [(h.others id fun pp hpp he => hid ⟨pp, hpp, he⟩).1, hf.seen, hnew, List.map_append, List.mem_append]
      exact (or_iff_left hout).symm
  · rw [hnew, List.map_append]
    refine List.nodup_append.mpr ⟨hf.nodup, hnodup, ?_⟩
    rintro x hx y hy rfl
    obtain ⟨a, ha, rfl⟩ := List.mem_map.mp hy
    have hsome := (hf.seen _).mpr hx
    rw [(hfrom a ha).2] at hsome
    cases hsome

/-! ## Effects on the public accounts -/

/-- The public accounts of the message as the outputs so far left them. -/
def circuitView (accounts : List AccountId) (σ : View) (st : ExecutionState) : View := fun id =>
  if id ∈ accounts then (st.postStates.lookup id).getD (σ id) else σ id

/-- The execution state agrees with the ledger on what it first saw of these accounts. -/
def AgreesOn (accounts : List AccountId) (σ : View) (st : ExecutionState) : Prop :=
  ∀ a ∈ st.preStates, a.accountId ∈ accounts → a.account = σ a.accountId

/-- A round of the loop is an effect on the public accounts. -/
theorem OutputChecks.effect {accounts : List AccountId} {σ : View} {p : Awaited} {out : ProgramOutput}
    (h : OutputChecks H st p.call p.caller out st') (hagree : AgreesOn accounts σ st') :
    CallEffect (· ∈ accounts) (p.executed out) (circuitView accounts σ st) (circuitView accounts σ st') := by
  have hacc := h.accepted
  refine ⟨h.self, h.valid, ?_, ?_, fun pp hpp _ => hacc.claims pp hpp, ?_⟩
  · intro a ha hpub
    obtain ⟨pp, hpp, rfl⟩ := h.change ha
    rw [circuitView, if_pos hpub]
    rcases hacc.accounts pp hpp with hseen | hfresh
    · rw [hseen.known, Option.getD_some]
    · rw [hfresh.unknown, Option.getD_none]
      exact hagree pp.1 hfresh.filed hpub
  · intro pp hpp hpub
    rw [circuitView, if_pos hpub, hacc.posts pp hpp]
    rfl
  · intro id hid
    unfold circuitView
    split
    next hpub => rw [(h.other fun hmem => hid ⟨hmem, hpub⟩).1]
    next => rfl

theorem Replay.grows {q : List Awaited} {outs : List ProgramOutput} {es : List Executed}
    (h : Replay H identities q outs st es st') : st.preStates <+: st'.preStates := by
  induction h with
  | nil => exact List.prefix_rfl
  | cons haccept _ ih =>
    obtain ⟨new, hnew, -, -⟩ := (acceptOutput_ok haccept).accepted.growth
    exact List.IsPrefix.trans ⟨new, hnew.symm⟩ ih

theorem Replay.filed {q : List Awaited} {outs : List ProgramOutput} {es : List Executed}
    (h : Replay H identities q outs st es st') (hf : Filed st) : Filed st' := by
  induction h with
  | nil => exact hf
  | cons haccept _ ih => exact ih (hf.next (acceptOutput_ok haccept).accepted)

theorem Replay.calleesFollow {q : List Awaited} {outs : List ProgramOutput} {es : List Executed}
    (h : Replay H identities q outs st es st') : CalleesFollow es := by
  induction h with
  | nil =>
    intro before e after c cs hes
    simp at hes
  | @cons p rest out outs es st st' st'' _ hrest ih =>
    intro before e after c cs hes hc
    cases before with
    | nil =>
      cases hes
      rw [Awaited.callees, show out.chainedCalls = c :: cs from hc, List.map_cons, List.cons_append] at hrest
      cases hrest with
      | cons haccept _ => exact ⟨_, _, rfl, rfl, rfl⟩
    | cons e₀ before =>
      cases hes
      exact ih before e after c cs rfl hc

/-- **The replayed outputs are a sequence of effects** on the public accounts,
once what was first seen of them is what the ledger has. -/
theorem Replay.effects {accounts : List AccountId} {σ : View} {q : List Awaited} {outs : List ProgramOutput}
    {es : List Executed} (h : Replay H identities q outs st es st') (hagree : AgreesOn accounts σ st') :
    Effects (· ∈ accounts) es (circuitView accounts σ st) (circuitView accounts σ st') := by
  induction h with
  | nil => exact .nil _
  | cons haccept hrest ih =>
    exact .cons ((acceptOutput_ok haccept).effect fun a ha => hagree a (hrest.grows.subset ha)) (ih hagree)

end

theorem Replay.ran {H : MsigHost} {identities : List InputAccountIdentity} {q : List Awaited}
    {outs : List ProgramOutput} {es : List Executed} {st st' : ExecutionState}
    (h : Replay H.toHost identities q outs st es st') : ∀ e ∈ es, Ran H e := by
  induction h with
  | nil => simp
  | @cons p rest out outs es st st' st'' haccept _ ih =>
    have hchecks := acceptOutput_ok haccept
    intro e he
    rcases List.mem_cons.mp he with rfl | he
    · refine ⟨?_, ?_, fun _ => hchecks.data.symm⟩
      · intro hp
        exact H.receipt_msig out (hp ▸ hchecks.receipt)
      · intro hp
        exact H.receipt_transfer out (hp ▸ hchecks.receipt)
    · exact ih e he

/-! ## The circuit's output -/

/-- The accounts a list of identities has as public. -/
def publicStates (items : List (InputAccountIdentity × AccountWithMetadata)) : List AccountWithMetadata :=
  (items.filter (·.1.isPublic)).map (·.2)

section
variable {H : Host} {st : ExecutionState}

/-- The private half of the output leaves the public one. -/
theorem emitPrivateOutput_ok {acc acc' : Emitted} {post : Account} {p : PrivateOutput}
    (h : emitPrivateOutput H acc post p = .ok acc') :
    acc'.1.publicPreStates = acc.1.publicPreStates ∧ acc'.1.publicPostStates = acc.1.publicPostStates := by
  simp only [emitPrivateOutput, bind_ok_iff, pure_ok_iff] at h
  obtain ⟨_, -, rfl⟩ := h
  exact ⟨rfl, rfl⟩

/-- The output lists the public accounts in order, as first seen and as left. -/
theorem emitAccounts_ok : ∀ {items : List ((InputAccountIdentity × AccountWithMetadata) × Nat)} {acc acc' : Emitted},
    items.foldlM (emitAccount H st) acc = .ok acc' → ∃ posts : List Account,
      acc'.1.publicPreStates = acc.1.publicPreStates ++ publicStates (items.map (·.1)) ∧
      acc'.1.publicPostStates = acc.1.publicPostStates ++ posts ∧
      posts.map .some = (publicStates (items.map (·.1))).map fun a => st.postStates.lookup a.accountId
  | [], acc, acc', h => by
    cases h
    exact ⟨[], by simp [publicStates]⟩
  | ((identity, pre), pos) :: items, acc, acc', h => by
    rw [List.foldlM_cons, bind_ok_iff] at h
    obtain ⟨acc₁, hemit, h⟩ := h
    obtain ⟨posts, hpre, hpost, hleft⟩ := emitAccounts_ok h
    simp only [emitAccount, bind_ok_iff, expect_ok_iff] at hemit
    obtain ⟨post, hlookup, hemit⟩ := hemit
    split at hemit
    next hpub =>
      cases hemit
      refine ⟨post :: posts, ?_, ?_, ?_⟩
      · rw [hpre]
        simp [publicStates, hpub]
      · rw [hpost]
        simp
      · simp only [publicStates, List.map_cons, hpub, List.filter_cons_of_pos, hlookup]
        exact congrArg _ hleft
    next hpriv =>
      rw [bind_ok_iff] at hemit
      obtain ⟨p, -, hemit⟩ := hemit
      obtain ⟨h₁, h₂⟩ := emitPrivateOutput_ok hemit
      have hskip : publicStates ((((identity, pre), pos) :: items).map (·.1)) = publicStates (items.map (·.1)) := by
        simp [publicStates, hpriv]
      exact ⟨posts, by rw [hpre, h₁, hskip], by rw [hpost, h₂], by rw [hskip]; exact hleft⟩

/-- **What a run of the circuit is**: the outputs replay, and the output lists
the public accounts. -/
structure CircuitRun (H : Host) (i : PrivacyPreservingCircuitInput) (output : PrivacyPreservingCircuitOutput)
    (start st : ExecutionState) : Prop where
  replay : ∃ call, Replay H i.accountIdentities [⟨call, .none, []⟩] i.programOutputs start (circuitCalls i) st
  start : start.preStates = [] ∧ start.postStates = ∅ ∧ start.authorizedAccounts = ∅ ∧
    start.privatePdaNpkByPosition = npkByPosition H i.accountIdentities
  length : i.accountIdentities.length = st.preStates.length
  publicPre : output.publicPreStates = publicStates (i.accountIdentities.zip st.preStates)
  publicPost : output.publicPostStates.map .some =
    (publicStates (i.accountIdentities.zip st.preStates)).map fun a => st.postStates.lookup a.accountId

/-- The two halves of `main`: the state derived from the outputs and the loop over its accounts. -/
structure CircuitParts (H : Host) (i : PrivacyPreservingCircuitInput) (output : PrivacyPreservingCircuitOutput)
    (st : ExecutionState) : Prop where
  derived : deriveFromOutputs H i.accountIdentities i.programId i.programOutputs = .ok st
  length : i.accountIdentities.length = st.preStates.length
  emitted : ∃ n, ((i.accountIdentities.zip st.preStates).zipIdx).foldlM (emitAccount H st)
    (⟨[], [], [], [], [], st.blockValidityWindow, st.timestampValidityWindow⟩, 0) = .ok (output, n)

theorem circuit_parts {i : PrivacyPreservingCircuitInput} {output : PrivacyPreservingCircuitOutput}
    (h : circuit H i = .ok output) : ∃ st, CircuitParts H i output st := by
  simp only [circuit, computeCircuitOutput, bind_ok_iff, ensure_ok_iff, pure_ok_iff, Prod.exists] at h
  obtain ⟨st, hderived, -, hlen, acc, n, hemit, rfl⟩ := h
  exact ⟨st, hderived, hlen, n, hemit⟩

/-- The state the circuit derives is that of a replay from nothing. -/
theorem deriveFromOutputs_replay {i : PrivacyPreservingCircuitInput}
    (h : deriveFromOutputs H i.accountIdentities i.programId i.programOutputs = .ok st) :
    ∃ call block time, Replay H i.accountIdentities [⟨call, .none, []⟩] i.programOutputs
      ⟨[], ∅, block, time, ∅, ∅, npkByPosition H i.accountIdentities, ∅⟩ (circuitCalls i) st := by
  simp only [deriveFromOutputs, bind_ok_iff, ensure_ok_iff, expect_ok_iff, pure_ok_iff, Prod.exists] at h
  obtain ⟨block, time, -, first, hfirst, st', left, hrun, -, rfl, _, -, _, -, rfl⟩ := h
  have hreplay := replay_of_runOutputs (q := [⟨Circuit.initialCall i.programId first, .none, []⟩]) hrun
  have hcalls : circuitCalls i = replayCalls [⟨Circuit.initialCall i.programId first, .none, []⟩] i.programOutputs := by
    rw [circuitCalls, hfirst]
  exact ⟨_, block, time, hcalls ▸ hreplay⟩

theorem CircuitParts.run {i : PrivacyPreservingCircuitInput} {output : PrivacyPreservingCircuitOutput}
    (h : CircuitParts H i output st) : ∃ start, CircuitRun H i output start st := by
  obtain ⟨hderived, hlen, n, hemit⟩ := h
  obtain ⟨call, block, time, hreplay⟩ := deriveFromOutputs_replay hderived
  obtain ⟨posts, hpre, hpost, hleft⟩ := emitAccounts_ok hemit
  have hfst : ((i.accountIdentities.zip st.preStates).zipIdx).map (·.1) = i.accountIdentities.zip st.preStates := by
    simp
  rw [hfst] at hpre hleft
  refine ⟨_, ⟨call, hreplay⟩, ⟨rfl, rfl, rfl, rfl⟩, hlen, ?_, ?_⟩
  · rw [hpre, List.nil_append]
  · rw [hpost, List.nil_append]
    exact hleft

theorem circuit_ok {i : PrivacyPreservingCircuitInput} {output : PrivacyPreservingCircuitOutput}
    (h : circuit H i = .ok output) : ∃ start st, CircuitRun H i output start st := by
  obtain ⟨st, hparts⟩ := circuit_parts h
  obtain ⟨start, hrun⟩ := hparts.run
  exact ⟨start, st, hrun⟩

/-! ## The whole transaction -/

/-- What acceptance of a privacy-preserving transaction means, apart from its proof. -/
structure PrivacyAccepted (H : Host) (tx : PrivacyPreservingTransaction) (diff : StateDiff) : Prop where
  nodup : tx.message.publicAccountIds.Nodup
  publicDiff : diff.publicDiff =
    Table.writeAll ∅ (tx.message.publicAccountIds.zip tx.message.publicPostStates)
  signers : diff.signerAccountIds = signerAccountIds H tx.signaturesAndPublicKeys
  program : diff.program = .none

theorem fromPrivacyPreservingTransaction_ok {tx : PrivacyPreservingTransaction} {s : V03State} {blockId : BlockId}
    {timestamp : Timestamp} {diff : StateDiff}
    (h : fromPrivacyPreservingTransaction H tx s blockId timestamp = .ok diff) :
    PrivacyAccepted H tx diff ∧ H.proofValid tx.proof (expectedCircuitOutput H tx s) = true := by
  simp only [fromPrivacyPreservingTransaction, bind_ok_iff, ensure_ok_iff, pure_ok_iff] at h
  obtain ⟨-, -, -, hnodup, -, -, -, -, -, -, -, -, -, -, -, -, -, hproof, -, -, -, -, rfl⟩ := h
  exact ⟨⟨Multiset.coe_nodup.mp (Multiset.toFinset_card_eq_card_iff_nodup.mp hnodup), rfl, rfl, rfl⟩, hproof⟩

/-- A run of the circuit behind an accepted transaction: what it lists as
public is what the ledger has. -/
structure Explains (H : Host) (s : V03State) (tx : PrivacyPreservingTransaction) (st : ExecutionState)
    (identities : List InputAccountIdentity) : Prop where
  filed : Filed st
  length : identities.length = st.preStates.length
  pre : publicStates (identities.zip st.preStates) =
    tx.message.publicAccountIds.map (signedPreState s (signerAccountIds H tx.signaturesAndPublicKeys))
  post : tx.message.publicPostStates.map .some = tx.message.publicAccountIds.map st.postStates.lookup

theorem CircuitRun.explains {i : PrivacyPreservingCircuitInput} {s : V03State} {tx : PrivacyPreservingTransaction}
    {start st : ExecutionState} (h : CircuitRun H i (expectedCircuitOutput H tx s) start st) :
    Explains H s tx st i.accountIdentities := by
  obtain ⟨⟨_, hreplay⟩, ⟨hpre, hpost, -, -⟩, hlen, hpublicPre, hpublicPost⟩ := h
  have hfiled : Filed start := ⟨by simp [hpre, hpost], by simp [hpre]⟩
  refine ⟨hreplay.filed hfiled, hlen, hpublicPre.symm, ?_⟩
  rw [← hpublicPre] at hpublicPost
  simpa [expectedCircuitOutput, signedPreState, Function.comp_def] using hpublicPost

/-- An account of the message was first seen as the ledger has it, authorized when it signed. -/
theorem Explains.first_seen {s : V03State} {tx : PrivacyPreservingTransaction} {identities : List InputAccountIdentity}
    (h : Explains H s tx st identities) {a : AccountWithMetadata} (ha : a ∈ st.preStates)
    (hpub : a.accountId ∈ tx.message.publicAccountIds) :
    a = signedPreState s (signerAccountIds H tx.signaturesAndPublicKeys) a.accountId := by
  have hmem : signedPreState s (signerAccountIds H tx.signaturesAndPublicKeys) a.accountId ∈
      publicStates (identities.zip st.preStates) := h.pre ▸ List.mem_map_of_mem hpub
  obtain ⟨ip, hip, heq⟩ := List.mem_map.mp hmem
  have hfiled : ip.2 ∈ st.preStates := (List.of_mem_zip (List.mem_filter.mp hip).1).2
  refine (List.inj_on_of_nodup_map h.filed.nodup hfiled ha ?_).symm.trans heq
  rw [heq]
  rfl

/-- What the outputs left of the public accounts is what the diff says. -/
theorem Explains.view {s : V03State} {tx : PrivacyPreservingTransaction} {identities : List InputAccountIdentity}
    {diff : StateDiff} (h : Explains H s tx st identities) (hacc : PrivacyAccepted H tx diff) :
    circuitView tx.message.publicAccountIds (viewOf s ∅) st = viewOf s diff.publicDiff := by
  funext id
  have hlen : tx.message.publicPostStates.length = tx.message.publicAccountIds.length := by
    simpa using congrArg List.length h.post
  have hkeys : ((tx.message.publicAccountIds.zip tx.message.publicPostStates).map (·.1)).Nodup := by
    rw [List.map_fst_zip hlen.ge]
    exact hacc.nodup
  rw [hacc.publicDiff]
  by_cases hpub : id ∈ tx.message.publicAccountIds
  · obtain ⟨k, hk, rfl⟩ := List.getElem_of_mem hpub
    have hk' : k < tx.message.publicPostStates.length := hlen ▸ hk
    have hleft : .some tx.message.publicPostStates[k] = st.postStates.lookup tx.message.publicAccountIds[k] := by
      have hget := congrArg (fun l => l[k]?) h.post
      simpa [hk, hk'] using hget
    have hpair : (tx.message.publicAccountIds[k], tx.message.publicPostStates[k]) ∈
        tx.message.publicAccountIds.zip tx.message.publicPostStates := by
      have hz : k < (tx.message.publicAccountIds.zip tx.message.publicPostStates).length := by simp [hk, hk']
      simpa using List.getElem_mem hz
    rw [circuitView, if_pos hpub, ← hleft, viewOf_writeAll_mem hkeys hpair, Option.getD_some]
  · rw [circuitView, if_neg hpub, viewOf_writeAll_not]
    rintro ⟨id', post⟩ hkv rfl
    exact hpub (List.of_mem_zip hkv).1

/-- **An accepted privacy-preserving transaction is a sequence of effects** on
its public accounts, whichever circuit input is behind its proof. -/
theorem privacy_effects {i : PrivacyPreservingCircuitInput} {s : V03State} {tx : PrivacyPreservingTransaction}
    {diff : StateDiff} (hacc : PrivacyAccepted H tx diff) (hcircuit : circuit H i = .ok (expectedCircuitOutput H tx s)) :
    Effects (· ∈ tx.message.publicAccountIds) (circuitCalls i) (viewOf s ∅) (viewOf s diff.publicDiff) := by
  obtain ⟨start, st, hrun⟩ := circuit_ok hcircuit
  have hex := hrun.explains
  obtain ⟨_, hreplay⟩ := hrun.replay
  have hagree : AgreesOn tx.message.publicAccountIds (viewOf s ∅) st := by
    intro a ha hpub
    rw [hex.first_seen ha hpub]
    rfl
  have hstart : circuitView tx.message.publicAccountIds (viewOf s ∅) start = viewOf s ∅ := by
    funext id
    simp [circuitView, hrun.start.2.1]
  have heff := hreplay.effects hagree
  rwa [hstart, hex.view hacc] at heff

end

end Lez
