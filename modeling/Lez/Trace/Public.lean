/-
The calls a public transaction executes. `traceCalls` walks the work list of
`runCalls` with the path of each pending call beside it; an accepted
transaction's trace is a sequence of effects from the state before to the
diff (`Exec.effects`), and `Exec.pending` is the induction for facts about
pending calls that callees inherit. `applyStateDiff_account` takes the diff to
the next state.
-/
import Lez.State.PublicTransaction
import Lez.Trace.Effect

namespace Lez

/-- An entry of the work list, with its path. -/
structure Pending where
  call : ChainedCall
  caller : CallerData
  path : List Frame

namespace Pending

def entry (p : Pending) : ChainedCall × CallerData := (p.call, p.caller)

def executed (p : Pending) (out : ProgramOutput) : Executed := ⟨p.call, p.path, out⟩

/-- The entries its output pushes. -/
def callees (p : Pending) (out : ProgramOutput) : List Pending :=
  out.chainedCalls.map fun c => ⟨c, p.caller.forCallees p.call.programId out, ⟨p.call.programId, c⟩ :: p.path⟩

theorem entry_callees (p : Pending) (out : ProgramOutput) (rest : List Pending) :
    (out.chainedCalls.map fun c => (c, p.caller.forCallees p.call.programId out)) ++ rest.map entry =
      (p.callees out ++ rest).map entry := by
  simp [callees, entry]

end Pending

/-- The account as the calls so far left it. -/
def viewOf (s : V03State) (diff : Diff) : View := fun id => diff.getD id (s.getAccountById id)

@[simp] theorem viewOf_empty (s : V03State) : viewOf s ∅ = s.getAccountById := rfl

section
variable (H : Host) (s : V03State) (blockId : BlockId) (timestamp : Timestamp)

/-- The calls `runCalls` executes, in order. -/
def traceCalls : Nat → List Pending → Diff → List Executed
  | 0, _, _ => []
  | _ + 1, [], _ => []
  | budget + 1, p :: rest, diff =>
    match executeCall H s blockId timestamp diff p.call p.caller with
    | .ok (out, diff) => p.executed out :: traceCalls budget (p.callees out ++ rest) diff
    | .error _ => []

/-- The entry the loop starts with. -/
def initialPending (tx : PublicTransaction) : Pending := ⟨(initialCall H s tx).1, (initialCall H s tx).2, []⟩

/-- The calls of a public transaction. -/
def publicCalls (tx : PublicTransaction) : List Executed :=
  traceCalls H s blockId timestamp (maxNumberChainedCalls + 1) [initialPending H s tx] ∅

/-- The loop as a relation: pending entries, the diff before, the calls, the diff after. -/
inductive Exec : List Pending → Diff → List Executed → Diff → Prop
  | nil (diff : Diff) : Exec [] diff [] diff
  | cons {p : Pending} {rest : List Pending} {out : ProgramOutput} {es : List Executed} {d d' d'' : Diff} :
      executeCall H s blockId timestamp d p.call p.caller = .ok (out, d') →
      Exec (p.callees out ++ rest) d' es d'' → Exec (p :: rest) d (p.executed out :: es) d''

end

section
variable {H : Host} {s : V03State} {blockId : BlockId} {timestamp : Timestamp}

theorem exec_of_runCalls : ∀ {budget : Nat} {q : List Pending} {d d' : Diff},
    runCalls H s blockId timestamp budget (q.map Pending.entry) d = .ok d' →
      Exec H s blockId timestamp q d (traceCalls H s blockId timestamp budget q d) d'
  | budget, [], d, d', h => by
    rw [List.map_nil, runCalls] at h
    cases h
    cases budget <;> exact .nil d
  | 0, p :: rest, d, d', h => by simp [runCalls] at h
  | budget + 1, p :: rest, d, d', h => by
    rw [List.map_cons, Pending.entry, runCalls, bind_ok_iff] at h
    obtain ⟨⟨out, d₁⟩, hcall, h⟩ := h
    dsimp only at h
    rw [p.entry_callees] at h
    rw [traceCalls, hcall]
    exact .cons hcall (exec_of_runCalls h)

/-- **Facts that callees inherit hold of every pending call.** -/
theorem Exec.pending (P : Pending → Prop) {q : List Pending} {d d' : Diff} {es : List Executed}
    (h : Exec H s blockId timestamp q d es d')
    (inherit : ∀ p d out d', P p → executeCall H s blockId timestamp d p.call p.caller = .ok (out, d') →
      ∀ c ∈ p.callees out, P c)
    (hq : ∀ p ∈ q, P p) :
    ∀ e ∈ es, ∃ p d out d', P p ∧ executeCall H s blockId timestamp d p.call p.caller = .ok (out, d') ∧
      e = p.executed out := by
  induction h with
  | nil => simp
  | @cons p rest out es d d' d'' hcall _ ih =>
    intro e he
    rcases List.mem_cons.mp he with rfl | he
    · exact ⟨p, d, out, d', hq p List.mem_cons_self, hcall, rfl⟩
    · refine ih (fun c hc => ?_) e he
      rcases List.mem_append.mp hc with hc | hc
      · exact inherit p d out d' (hq p List.mem_cons_self) hcall c hc
      · exact hq c (List.mem_cons_of_mem _ hc)

/-- Every executed call is the first one or was made by an executed one. -/
theorem Exec.parent {q : List Pending} {d d' : Diff} {es log : List Executed}
    (h : Exec H s blockId timestamp q d es d')
    (hq : ∀ p ∈ q, p.path = [] ∨ ∃ e ∈ log, (p.call, p.path) ∈ e.callees) :
    ∀ e ∈ es, e.path = [] ∨ ∃ parent ∈ log ++ es, (e.call, e.path) ∈ parent.callees := by
  induction h generalizing log with
  | nil => simp
  | @cons p rest out es d d' d'' hcall _ ih =>
    have hnext : ∀ c ∈ p.callees out ++ rest,
        c.path = [] ∨ ∃ e ∈ log ++ [p.executed out], (c.call, c.path) ∈ e.callees := by
      intro c hc
      rcases List.mem_append.mp hc with hc | hc
      · obtain ⟨cc, hcc, rfl⟩ := List.mem_map.mp hc
        exact .inr ⟨p.executed out, by simp, List.mem_map.mpr ⟨cc, hcc, rfl⟩⟩
      · rcases hq c (List.mem_cons_of_mem _ hc) with hn | ⟨e, he, hce⟩
        · exact .inl hn
        · exact .inr ⟨e, List.mem_append_left _ he, hce⟩
    intro e he
    rcases List.mem_cons.mp he with rfl | he
    · rcases hq p List.mem_cons_self with hn | ⟨e', he', hc⟩
      · exact .inl hn
      · exact .inr ⟨e', List.mem_append_left _ he', hc⟩
    · simpa using ih hnext e he

theorem Exec.calleesFollow {q : List Pending} {d d' : Diff} {es : List Executed}
    (h : Exec H s blockId timestamp q d es d') : CalleesFollow es := by
  induction h with
  | nil =>
    intro before e after c cs hes
    simp at hes
  | @cons p rest out es d d' d'' _ hrest ih =>
    intro before e after c cs hes hc
    cases before with
    | nil =>
      cases hes
      rw [Pending.callees, show out.chainedCalls = c :: cs from hc, List.map_cons, List.cons_append] at hrest
      cases hrest with
      | cons hcall _ => exact ⟨_, _, rfl, rfl, rfl⟩
    | cons e₀ before =>
      cases hes
      exact ih before e after c cs rfl hc

/-- **Every step of a path was an executed call's.** In a list of calls where
each is a first one or made by another, a step of a path and the steps above
it are a callee of a call of the list. -/
theorem ancestor_of_step {es : List Executed}
    (hparent : ∀ e ∈ es, e.path = [] ∨ ∃ parent ∈ es, (e.call, e.path) ∈ parent.callees) :
    ∀ (n : Nat) (e : Executed), e ∈ es → e.path.length = n → ∀ (f : Frame) (fs : List Frame), f :: fs <:+ e.path →
      ∃ g ∈ es, (f.call, f :: fs) ∈ g.callees
  | 0, e, _, hn, f, fs, hsuffix => by
    rw [List.length_eq_zero_iff.mp hn] at hsuffix
    simp at hsuffix
  | n + 1, e, he, hn, f, fs, hsuffix => by
    rcases hparent e he with hnil | ⟨parent, hmem, hcallee⟩
    · rw [hnil] at hn
      simp at hn
    obtain ⟨hc, hpath⟩ := Executed.mem_callees.mp hcallee
    rw [hpath] at hsuffix hn
    rcases List.suffix_cons_iff.mp hsuffix with hwhole | habove
    · cases hwhole
      exact ⟨parent, hmem, Executed.mem_callees.mpr ⟨hc, rfl⟩⟩
    · exact ancestor_of_step hparent n parent hmem (by simpa using hn) f fs habove

/-! ## One call -/

theorem settleClaim_ok {p : ProgramId} {pp : AccountWithMetadata × AccountPostState} {r : AccountId × Account}
    (h : settleClaim H p pp = .ok r) :
    r = (pp.1.accountId, pp.2.settled p) ∧
      (pp.2.claim ≠ .none → pp.2.account.programOwner = defaultProgramId) ∧
      (pp.2.claim = .some .authorized → pp.1.isAuthorized = true) ∧
      ∀ seed, pp.2.claim = .some (.pda seed) → pp.1.accountId = forPublicPda H.sha256 p seed := by
  unfold settleClaim at h
  unfold AccountPostState.settled
  split at h
  next hclaim =>
    cases h
    simp [hclaim]
  next claim hclaim =>
    rw [bind_ok_iff] at h
    obtain ⟨_, howner, h⟩ := h
    rw [ensure_ok_iff] at howner
    split at h
    next =>
      simp only [bind_ok_iff, ensure_ok_iff, pure_ok_iff] at h
      obtain ⟨-, hauth, rfl⟩ := h
      simp [hclaim, howner, hauth]
    next seed =>
      simp only [bind_ok_iff, ensure_ok_iff, pure_ok_iff] at h
      obtain ⟨-, hpda, rfl⟩ := h
      simp [hclaim, howner, hpda]

/-- **What one round of the loop did.** -/
structure CallChecks (H : Host) (s : V03State) (d : Diff) (call : ChainedCall) (caller : CallerData)
    (out : ProgramOutput) (d' : Diff) : Prop where
  ran : H.guest call.programId call.programId caller.programId call.preStates call.instructionData = .ok out
  deployed : (s.programs.lookup call.programId).isSome
  pre : ∀ a ∈ out.preStates, a.account = viewOf s d a.accountId
  flags : ∀ a ∈ out.preStates, a.isAuthorized = true ↔ caller.authorizes H call.pdaSeeds a.accountId
  self : out.selfProgramId = call.programId
  caller : out.callerProgramId = caller.programId
  valid : ValidExecution call.programId out
  claims : ∀ pp ∈ out.preStates.zip out.postStates,
    (pp.2.claim ≠ .none → pp.2.account.programOwner = defaultProgramId) ∧
      (pp.2.claim = .some .authorized → pp.1.isAuthorized = true) ∧
      ∀ seed, pp.2.claim = .some (.pda seed) → pp.1.accountId = forPublicPda H.sha256 call.programId seed
  diff : d' = d.writeAll ((out.preStates.zip out.postStates).map fun pp =>
    (pp.1.accountId, pp.2.settled call.programId))

theorem checkPreState_ok {d : Diff} {call : ChainedCall} {caller : CallerData} {a : AccountWithMetadata} {u : Unit}
    (h : checkPreState H s d call caller a = .ok u) :
    a.account = viewOf s d a.accountId ∧
      (a.isAuthorized = true ↔ caller.authorizes H call.pdaSeeds a.accountId) := by
  simp only [checkPreState, bind_ok_iff, ensure_ok_iff] at h
  obtain ⟨-, hacc, -, h₁, h₂⟩ := h
  refine ⟨hacc, ?_, ?_⟩
  · intro ha
    exact h₁.resolve_left fun hn => hn ha
  · intro ha
    exact h₂.resolve_right fun hn => hn ha

theorem executeCall_ok {d d' : Diff} {call : ChainedCall} {caller : CallerData} {out : ProgramOutput}
    (h : executeCall H s blockId timestamp d call caller = .ok (out, d')) :
    CallChecks H s d call caller out d' := by
  simp only [executeCall, bind_ok_iff, expect_ok_iff, mapError_ok_iff, ensure_ok_iff, pure_ok_iff,
    Prod.mk.injEq] at h
  obtain ⟨prog, hprog, out', hran, _, hpre, -, hself, -, hcaller, _, hvalid, -, -, settled, hsettled, rfl, rfl⟩ := h
  have hid := s.keyed _ _ hprog
  rw [hid] at hran
  obtain ⟨hmap, hall⟩ := mapM_ok_eq_map (fun pp r hr => (settleClaim_ok hr).1) hsettled
  have hpre' := fun a ha => checkPreState_ok (forM_ok_iff.mp hpre a ha)
  exact ⟨hran, by simp [hprog], fun a ha => (hpre' a ha).1, fun a ha => (hpre' a ha).2, hself, hcaller,
    validateExecution_ok hvalid, fun pp hpp => (settleClaim_ok (hall pp hpp)).2, by rw [hmap]⟩

theorem settleClaim_settled {p : ProgramId} {pp : AccountWithMetadata × AccountPostState}
    (howner : pp.2.claim ≠ .none → pp.2.account.programOwner = defaultProgramId)
    (hauth : pp.2.claim = .some .authorized → pp.1.isAuthorized = true)
    (hpda : ∀ seed, pp.2.claim = .some (.pda seed) → pp.1.accountId = forPublicPda H.sha256 p seed) :
    settleClaim H p pp = .ok (pp.1.accountId, pp.2.settled p) := by
  unfold settleClaim AccountPostState.settled
  cases hclaim : pp.2.claim with
  | none => rfl
  | some claim =>
    have howner' := howner (by simp [hclaim])
    cases claim with
    | authorized => simp [map_ok_iff, bind_ok_iff, ensure_ok_iff, howner', hauth hclaim]
    | pda seed => simp [map_ok_iff, bind_ok_iff, ensure_ok_iff, howner', hpda seed hclaim]

/-- **A call that passes the checks is executed**, in a block its windows admit. -/
theorem CallChecks.executeCall {d d' : Diff} {call : ChainedCall} {caller : CallerData} {out : ProgramOutput}
    (h : CallChecks H s d call caller out d') (hshort : out.preStates.length < 2 ^ 128)
    (hblock : out.blockValidityWindow.isValidFor blockId) (htime : out.timestampValidityWindow.isValidFor timestamp) :
    executeCall H s blockId timestamp d call caller = .ok (out, d') := by
  obtain ⟨program, hprogram⟩ := Option.isSome_iff_exists.mp h.deployed
  have hid := s.keyed _ _ hprogram
  have hpre : out.preStates.forM (checkPreState H s d call caller) = .ok () := by
    refine forM_ok_iff.mpr fun a ha => ?_
    have hflag := h.flags a ha
    simp only [checkPreState, bind_ok_iff, ensure_ok_iff]
    exact ⟨(), h.pre a ha, (), by rw [hflag]; exact (Classical.em _).symm, by rw [hflag]; exact Classical.em _⟩
  have hsettled : (out.preStates.zip out.postStates).mapM (settleClaim H call.programId) =
      .ok ((out.preStates.zip out.postStates).map fun pp => (pp.1.accountId, pp.2.settled call.programId)) :=
    mapM_ok_of_forall fun pp hpp =>
      settleClaim_settled (h.claims pp hpp).1 (h.claims pp hpp).2.1 (h.claims pp hpp).2.2
  simp only [Lez.executeCall, bind_ok_iff, expect_ok_iff, mapError_ok_iff, ensure_ok_iff, pure_ok_iff]
  exact ⟨program, hprogram, out, hid ▸ h.ran, (), hpre, (), h.self, (), h.caller, (), h.valid.validateExecution hshort,
    (), ⟨hblock, htime⟩, _, hsettled, by rw [h.diff]⟩

/-- The view after a batch of writes to distinct accounts. -/
theorem viewOf_writeAll_mem {d : Diff} {kvs : List (AccountId × Account)} (hn : (kvs.map (·.1)).Nodup)
    {id : AccountId} {a : Account} (hm : (id, a) ∈ kvs) : viewOf s (d.writeAll kvs) id = a := by
  simp [viewOf, Table.getD, Table.lookup_writeAll_mem hn hm]

theorem viewOf_writeAll_not {d : Diff} {kvs : List (AccountId × Account)} {id : AccountId}
    (hm : ∀ kv ∈ kvs, kv.1 ≠ id) : viewOf s (d.writeAll kvs) id = viewOf s d id := by
  simp [viewOf, Table.getD, Table.lookup_writeAll_not hm]

/-- A round of the loop is an effect on the accounts as it found them. -/
theorem CallChecks.effect {d d' : Diff} {p : Pending} {out : ProgramOutput}
    (h : CallChecks H s d p.call p.caller out d') :
    CallEffect (fun _ => True) (p.executed out) (viewOf s d) (viewOf s d') := by
  have hkeys : ((out.preStates.zip out.postStates).map fun pp => pp.1.accountId) = out.preStates.map (·.accountId) := by
    have hfst : (out.preStates.zip out.postStates).map (·.1) = out.preStates :=
      List.map_fst_zip h.valid.length.le
    rw [← hfst, List.map_map, hfst]
    rfl
  refine ⟨h.self, h.valid, fun a ha _ => h.pre a ha, ?_, fun pp hpp _ => (h.claims pp hpp).1, ?_⟩
  · intro pp hpp _
    rw [h.diff]
    refine viewOf_writeAll_mem ?_ (List.mem_map.mpr ⟨pp, hpp, rfl⟩)
    simpa [Function.comp_def, hkeys] using h.valid.nodup
  · intro id hid
    rw [h.diff]
    refine viewOf_writeAll_not ?_
    intro kv hkv heq
    obtain ⟨pp, hpp, rfl⟩ := List.mem_map.mp hkv
    exact hid ⟨heq ▸ List.mem_map.mpr ⟨pp.1, (List.of_mem_zip hpp).1, rfl⟩, trivial⟩

/-- **The trace of the loop is a sequence of effects.** -/
theorem Exec.effects {q : List Pending} {d d' : Diff} {es : List Executed}
    (h : Exec H s blockId timestamp q d es d') : Effects (fun _ => True) es (viewOf s d) (viewOf s d') := by
  induction h with
  | nil => exact .nil _
  | cons hcall _ ih => exact .cons (executeCall_ok hcall).effect ih

/-! ## The whole transaction -/

/-- What acceptance of a public transaction means. -/
structure PublicAccepted (H : Host) (tx : PublicTransaction) (s : V03State) (blockId : BlockId)
    (timestamp : Timestamp) (diff : StateDiff) : Prop where
  signatures : ∀ sk ∈ tx.signaturesAndPublicKeys, H.signatureValid sk.1 (tx.message.hash H) sk.2 = true
  exec : Exec H s blockId timestamp [initialPending H s tx] ∅ (publicCalls H s blockId timestamp tx) diff.publicDiff
  signers : diff.signerAccountIds = signerAccountIds H tx.signaturesAndPublicKeys
  program : diff.program = .none

theorem fromPublicTransaction_ok {tx : PublicTransaction} {diff : StateDiff}
    (h : fromPublicTransaction H tx s blockId timestamp = .ok diff) :
    PublicAccepted H tx s blockId timestamp diff := by
  simp only [fromPublicTransaction, bind_ok_iff, ensure_ok_iff, pure_ok_iff] at h
  obtain ⟨-, -, -, -, -, hsigs, -, -, d, hrun, -, -, rfl⟩ := h
  refine ⟨?_, ?_, rfl, rfl⟩
  · simpa [signaturesAreValidFor] using hsigs
  · exact exec_of_runCalls (q := [initialPending H s tx]) hrun

end

/-! ## Applying a diff -/

section
variable {H : Host} {s s' : V03State} {diff : StateDiff}

theorem incrementNonce_getD {t t' : Table AccountId Account} {signer : AccountId}
    (h : incrementNonce t signer = .some t') (id : AccountId) :
    ∃ n, t'.getD id Account.default = { t.getD id Account.default with nonce := n } ∧
      (id ≠ signer → n = (t.getD id Account.default).nonce) := by
  unfold incrementNonce at h
  dsimp only at h
  split at h
  next =>
    cases h
    by_cases hid : id = signer
    · subst hid
      refine ⟨_, by rw [Table.getD, AList.lookup_insert, Option.getD_some], ?_⟩
      intro hne
      exact absurd rfl hne
    · exact ⟨_, by rw [Table.getD, AList.lookup_insert_ne hid]; rfl, fun _ => rfl⟩
  next => cases h

theorem incrementNonces_getD : ∀ {signers : List AccountId} {t t' : Table AccountId Account},
    signers.foldlM incrementNonce t = .some t' → ∀ id,
      ∃ n, t'.getD id Account.default = { t.getD id Account.default with nonce := n } ∧
        (id ∉ signers → n = (t.getD id Account.default).nonce)
  | [], t, t', h, id => by
    cases h
    exact ⟨_, rfl, fun _ => rfl⟩
  | signer :: signers, t, t', h, id => by
    rw [List.foldlM_cons, Option.bind_eq_bind, Option.bind_eq_some_iff] at h
    obtain ⟨u, hu, h⟩ := h
    obtain ⟨m, hm, hm'⟩ := incrementNonce_getD hu id
    obtain ⟨n, hn, hn'⟩ := incrementNonces_getD h id
    refine ⟨n, by rw [hn, hm], ?_⟩
    intro hid
    rw [List.mem_cons, not_or] at hid
    rw [hn' hid.2, hm, ← hm' hid.1]

/-- **Applying a diff** gives every account the diff's version of it; signers'
nonces move, nobody else's does. -/
theorem applyStateDiff_account (h : s.applyStateDiff H diff = .some s') (id : AccountId) :
    ∃ n, s'.getAccountById id = { viewOf s diff.publicDiff id with nonce := n } ∧
      (id ∉ diff.signerAccountIds → n = (viewOf s diff.publicDiff id).nonce) := by
  simp only [V03State.applyStateDiff, Option.bind_eq_bind, Option.bind_eq_some_iff] at h
  obtain ⟨t, ht, c, -, hs'⟩ := h
  have hpub : s'.publicState = t := by
    rw [← Option.some.inj hs']
    cases diff.program <;> rfl
  obtain ⟨n, hn, hn'⟩ := incrementNonces_getD ht id
  rw [Table.getD_writeAll_toPairs] at hn hn'
  refine ⟨n, ?_, hn'⟩
  rw [V03State.getAccountById, hpub]
  exact hn

end

end Lez
