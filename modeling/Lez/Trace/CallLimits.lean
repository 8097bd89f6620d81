/-
The prover and the two verifiers on a tree of calls. `execute_and_prove` runs
the programs and collects their outputs for the circuit. Its work list is the
one of the circuit and of a public transaction, so all three walk the tree
depth first, but its counter is compared with `>=` where theirs are compared
with `<=`: it gives up one call earlier. It also checks nothing of what it
runs, so it gives up at the limit where the others have refused one of the
calls before it.
-/
import Lez.Circuit.Output
import Lez.Lib.Worklist
import Lez.Trace.Private

namespace Lez

open Circuit Worklist

/-! ## The prover -/

/-- The errors of `execute_and_prove`. A journal that does not decode is an execution that failed. -/
inductive ProveError
  | programProveFailed (text : String)
  | undeclaredProgramDependency (programId : ProgramId)
  | maxChainedCallsDepthExceeded
  | circuitProvingError (panic : Panic)
deriving DecidableEq

structure ProgramWithDependencies where
  program : Program
  dependencies : Table ProgramId Program

/-- An entry of the prover's work list. -/
structure ProverCall where
  call : ChainedCall
  program : Program
  caller : Option ProgramId

section
variable (H : Host) (dependencies : Table ProgramId Program)

def executeAndProveProgram (p : ProverCall) : Except ProveError ProgramOutput :=
  (H.guest p.program.id p.program.id p.caller p.call.preStates p.call.instructionData).mapError .programProveFailed

/-- The calls of an output go to the front of the list, the last one first. -/
def pushCalls (caller : ProgramId) (calls : List ChainedCall) (rest : List ProverCall) :
    Except ProveError (List ProverCall) :=
  calls.reverse.foldlM (fun queue call => do
    let program ← expect (.undeclaredProgramDependency call.programId) (dependencies.lookup call.programId)
    pure (⟨call, program, .some caller⟩ :: queue)) rest

/-- The `while` loop; `budget` is the number of calls `chain_calls_counter` still allows. -/
def proveCalls : Nat → List ProverCall → List ProgramOutput → Except ProveError (List ProgramOutput)
  | _, [], outs => .ok outs
  | 0, _ :: _, _ => .error .maxChainedCallsDepthExceeded
  | budget + 1, p :: rest, outs => do
    let out ← executeAndProveProgram H p
    let queue ← pushCalls dependencies p.call.programId out.chainedCalls rest
    proveCalls budget queue (outs ++ [out])

/-- The calls the loop executes, in order, with their outputs. -/
def provedCalls : Nat → List ProverCall → List (ProverCall × ProgramOutput)
  | _, [] => []
  | 0, _ :: _ => []
  | budget + 1, p :: rest =>
    match executeAndProveProgram H p with
    | .error _ => []
    | .ok out =>
      match pushCalls dependencies p.call.programId out.chainedCalls rest with
      | .error _ => [(p, out)]
      | .ok queue => (p, out) :: provedCalls budget queue

end

/-- The entry the prover starts with. -/
def ProgramWithDependencies.initialCall (program : ProgramWithDependencies) (preStates : List AccountWithMetadata)
    (data : InstructionData) : ProverCall :=
  ⟨⟨program.program.id, preStates, data, []⟩, program.program, .none⟩

/-- The first calls of the tree below a call, in the prover's order. -/
def ProgramWithDependencies.firstCalls (H : Host) (program : ProgramWithDependencies) (root : ChainedCall) (n : Nat) :
    List (ProverCall × ProgramOutput) :=
  provedCalls H program.dependencies n [program.initialCall root.preStates root.instructionData]

def executeAndProve (H : Host) (preStates : List AccountWithMetadata) (data : InstructionData)
    (identities : List InputAccountIdentity) (program : ProgramWithDependencies) :
    Except ProveError PrivacyPreservingCircuitOutput := do
  let outs ← proveCalls H program.dependencies maxNumberChainedCalls [program.initialCall preStates data] []
  (circuit H ⟨outs, identities, program.program.id⟩).mapError .circuitProvingError

/-! ## The rounds of the three loops -/

section
variable (H : Host)

/-- A round of a public transaction. -/
def publicRound (s : V03State) (blockId : BlockId) (timestamp : Timestamp) (d : Diff) (p : Pending)
    (out : ProgramOutput) (d' : Diff) : Prop :=
  executeCall H s blockId timestamp d p.call p.caller = .ok (out, d')

/-- A round of the circuit: it takes the next output. -/
def circuitRound (identities : List InputAccountIdentity) (before : ExecutionState × List ProgramOutput)
    (p : Awaited) (out : ProgramOutput) (after : ExecutionState × List ProgramOutput) : Prop :=
  before.2 = out :: after.2 ∧ acceptOutput H identities before.1 p.call p.caller out = .ok after.1

/-- A round of the prover; its state is the outputs so far. -/
def proverRound (dependencies : Table ProgramId Program) (outs : List ProgramOutput) (p : ProverCall)
    (out : ProgramOutput) (outs' : List ProgramOutput) : Prop :=
  executeAndProveProgram H p = .ok out ∧ (∀ c ∈ out.chainedCalls, (dependencies.lookup c.programId).isSome) ∧
    outs' = outs ++ [out]

end

/-- The entry of a call that an output makes. -/
def calledBy (dependencies : Table ProgramId Program) (caller : ProgramId) (c : ChainedCall) : ProverCall :=
  ⟨c, (dependencies.lookup c.programId).getD ⟨c.programId, []⟩, .some caller⟩

/-- The entries an output pushes. -/
def ProverCall.callees (dependencies : Table ProgramId Program) (p : ProverCall) (out : ProgramOutput) :
    List ProverCall :=
  out.chainedCalls.map (calledBy dependencies p.call.programId)

/-- The tree below a call has more than `n` calls. -/
def ProgramWithDependencies.CallsMoreThan (H : Host) (program : ProgramWithDependencies) (root : ChainedCall)
    (n : Nat) : Prop :=
  MoreThan (proverRound H program.dependencies) (ProverCall.callees program.dependencies) n
    [program.initialCall root.preStates root.instructionData] []

/-! ## The prover's loop -/

section
variable {H : Host} {dependencies : Table ProgramId Program}

theorem pushCalls_ok {caller : ProgramId} {calls : List ChainedCall} (rest : List ProverCall)
    (h : ∀ c ∈ calls, (dependencies.lookup c.programId).isSome) :
    pushCalls dependencies caller calls rest = .ok (calls.map (calledBy dependencies caller) ++ rest) := by
  have hpush : ∀ queue, ∀ c ∈ calls.reverse, (do
      let program ← expect (.undeclaredProgramDependency c.programId) (dependencies.lookup c.programId)
      pure (⟨c, program, .some caller⟩ :: queue) : Except ProveError _) =
        .ok (calledBy dependencies caller c :: queue) := by
    intro queue c hc
    obtain ⟨program, hprogram⟩ := Option.isSome_iff_exists.mp (h c (List.mem_reverse.mp hc))
    simp [calledBy, hprogram, expect]
  rw [pushCalls, foldlM_ok_of_forall hpush, List.foldl_reverse, List.foldr_cons_eq_append]

theorem pushCalls_found {caller : ProgramId} {calls : List ChainedCall} {rest queue : List ProverCall}
    (h : pushCalls dependencies caller calls rest = .ok queue) :
    ∀ c ∈ calls, (dependencies.lookup c.programId).isSome := by
  intro c hc
  obtain ⟨_, _, hstep⟩ := foldlM_ok_forall h c (List.mem_reverse.mpr hc)
  rw [bind_ok_iff] at hstep
  obtain ⟨program, hprogram, -⟩ := hstep
  rw [expect_ok_iff.mp hprogram]
  rfl

theorem pushCalls_ne_limit {caller : ProgramId} {calls : List ChainedCall} {rest : List ProverCall} :
    pushCalls dependencies caller calls rest ≠ .error .maxChainedCallsDepthExceeded :=
  foldlM_ne_error fun _ _ => bind_ne_error (expect_ne_error (by simp)) fun _ => pure_ne_error

theorem proveCalls_bounded : Bounded (proverRound H dependencies) (ProverCall.callees dependencies)
    (proveCalls H dependencies) (.error .maxChainedCallsDepthExceeded) where
  nil n outs := by cases n <;> simp [proveCalls]
  spent p rest outs := rfl
  next := by
    intro p out outs outs' hround n rest
    obtain ⟨hrun, hfound, houts⟩ := hround
    have hpush := @pushCalls_ok dependencies p.call.programId _ rest hfound
    simp only [proveCalls, hrun, hpush, houts, bind, Except.bind]
    rfl
  stuck := by
    intro p outs hnone n rest hlimit
    rw [proveCalls, bind_error_iff] at hlimit
    rcases hlimit with hfails | ⟨out, hrun, hlimit⟩
    · exact mapError_ne_error (by simp) hfails
    · rcases bind_error_iff.mp hlimit with hfails | ⟨queue, hqueue, -⟩
      · exact pushCalls_ne_limit hfails
      · exact hnone ⟨out, _, hrun, pushCalls_found hqueue, rfl⟩

/-- Guests are functions, so a round has one outcome. -/
theorem proverRound_unique {p : ProverCall} {out out' : ProgramOutput} {outs outs₁ outs₂ : List ProgramOutput}
    (h : proverRound H dependencies outs p out outs₁) (h' : proverRound H dependencies outs p out' outs₂) :
    out = out' ∧ outs₁ = outs₂ := by
  have hout : out = out' := Except.ok.inj (h.1.symm.trans h'.1)
  exact ⟨hout, by rw [h.2.2, h'.2.2, hout]⟩

theorem provedCalls_cons {n : Nat} {p : ProverCall} {rest : List ProverCall} {out : ProgramOutput}
    (hrun : executeAndProveProgram H p = .ok out)
    (hfound : ∀ c ∈ out.chainedCalls, (dependencies.lookup c.programId).isSome) :
    provedCalls H dependencies (n + 1) (p :: rest) =
      (p, out) :: provedCalls H dependencies n (p.callees dependencies out ++ rest) := by
  rw [provedCalls, hrun]
  dsimp only
  rw [pushCalls_ok rest hfound]
  rfl

theorem mem_provedCalls {n : Nat} {p : ProverCall} {rest : List ProverCall} {out : ProgramOutput}
    (hrun : executeAndProveProgram H p = .ok out) : (p, out) ∈ provedCalls H dependencies (n + 1) (p :: rest) := by
  rw [provedCalls, hrun]
  dsimp only
  split <;> simp

/-- A smaller budget executes the beginning. -/
theorem provedCalls_take : ∀ {m n : Nat} {q : List ProverCall}, m ≤ n →
    provedCalls H dependencies m q = (provedCalls H dependencies n q).take m
  | m, n, [], _ => by cases m <;> cases n <;> simp [provedCalls]
  | 0, n, p :: rest, _ => by simp [provedCalls]
  | m + 1, n + 1, p :: rest, hmn => by
    rw [provedCalls, provedCalls]
    split
    next => rfl
    next out _ =>
      split
      next => simp
      next queue _ => rw [List.take_succ_cons, ← provedCalls_take (Nat.le_of_succ_le_succ hmn)]

/-- What the prover executes is a walk, where the programs called are found. -/
theorem provedCalls_rounds : ∀ {n : Nat} {q : List ProverCall} {outs : List ProgramOutput},
    (∀ e ∈ provedCalls H dependencies n q, ∀ c ∈ e.2.chainedCalls, (dependencies.lookup c.programId).isSome) →
      ∃ left outs', Rounds (proverRound H dependencies) (ProverCall.callees dependencies) q outs
        (provedCalls H dependencies n q) left outs'
  | n, [], outs, _ => ⟨[], outs, by cases n <;> exact .stop _ _⟩
  | 0, p :: rest, outs, _ => ⟨p :: rest, outs, .stop _ _⟩
  | n + 1, p :: rest, outs, hfound => by
    cases hrun : executeAndProveProgram H p with
    | error e =>
      rw [provedCalls, hrun]
      exact ⟨_, outs, .stop _ _⟩
    | ok out =>
      have hcalls := hfound _ (mem_provedCalls hrun)
      rw [provedCalls_cons hrun hcalls] at hfound ⊢
      obtain ⟨left, outs', hrest⟩ := provedCalls_rounds fun e he => hfound e (List.mem_cons_of_mem _ he)
      exact ⟨left, outs', .next ⟨hrun, hcalls, rfl⟩ hrest⟩

/-- A walk is what the prover executes first. -/
theorem take_provedCalls {q left : List ProverCall} {outs outs' : List ProgramOutput}
    {log : List (ProverCall × ProgramOutput)}
    (h : Rounds (proverRound H dependencies) (ProverCall.callees dependencies) q outs log left outs') :
    ∀ {n : Nat}, log.length ≤ n → (provedCalls H dependencies n q).take log.length = log := by
  induction h with
  | stop => simp
  | next hround _ ih =>
    intro n hn
    cases n with
    | zero => simp at hn
    | succ n =>
      rw [provedCalls_cons hround.1 hround.2.1, List.length_cons, List.take_succ_cons, ih (by simpa using hn)]

/-- After a walk the tree has more calls when something is left. -/
theorem moreThan_iff_left {q left : List ProverCall} {outs outs' : List ProgramOutput}
    {log : List (ProverCall × ProgramOutput)}
    (h : Rounds (proverRound H dependencies) (ProverCall.callees dependencies) q outs log left outs') :
    MoreThan (proverRound H dependencies) (ProverCall.callees dependencies) log.length q outs ↔ left ≠ [] := by
  constructor
  · rintro ⟨log', left', outs₂, h', hlength, hleft⟩
    rwa [(h.unique h' hlength.symm proverRound_unique).2]
  · intro hleft
    exact ⟨log, left, outs', h, rfl, hleft⟩

end

/-! ## The loop of a public transaction -/

section
variable {H : Host} {s : V03State} {blockId : BlockId} {timestamp : Timestamp}

theorem executeCall_ne_limit {d : Diff} {call : ChainedCall} {caller : CallerData} :
    executeCall H s blockId timestamp d call caller ≠ .error .maxChainedCallsDepthExceeded := by
  have hpre : ∀ pre, checkPreState H s d call caller pre ≠ .error .maxChainedCallsDepthExceeded := by
    intro pre
    exact bind_ne_error (ensure_ne_error (by simp)) fun _ =>
      bind_ne_error (ensure_ne_error (by simp)) fun _ => ensure_ne_error (by simp)
  have hsettle : ∀ pp, settleClaim H call.programId pp ≠ .error .maxChainedCallsDepthExceeded := by
    intro pp
    unfold settleClaim
    split
    · simp
    · refine bind_ne_error (ensure_ne_error (by simp)) fun _ => ?_
      dsimp only
      split
      · exact bind_ne_error (ensure_ne_error (by simp)) fun _ => pure_ne_error
      · exact bind_ne_error (ensure_ne_error (by simp)) fun _ => pure_ne_error
  exact bind_ne_error (expect_ne_error (by simp)) fun _ => bind_ne_error (mapError_ne_error (by simp)) fun _ =>
    bind_ne_error (forM_ne_error hpre) fun _ => bind_ne_error (ensure_ne_error (by simp)) fun _ =>
    bind_ne_error (ensure_ne_error (by simp)) fun _ => bind_ne_error (mapError_ne_error (by simp)) fun _ =>
    bind_ne_error (ensure_ne_error (by simp)) fun _ => bind_ne_error (mapM_ne_error hsettle) fun _ => pure_ne_error

theorem runCalls_bounded : Bounded (publicRound H s blockId timestamp) Pending.callees
    (fun n q d => runCalls H s blockId timestamp n (q.map Pending.entry) d)
    (.error .maxChainedCallsDepthExceeded) where
  nil n d := by cases n <;> simp [runCalls]
  spent p rest d := rfl
  next := by
    intro p out d d' hround n rest
    rw [List.map_cons, Pending.entry, runCalls, show executeCall _ _ _ _ _ _ _ = _ from hround,
      ← p.entry_callees]
    rfl
  stuck := by
    intro p d hnone n rest hlimit
    rw [List.map_cons, Pending.entry, runCalls, bind_error_iff] at hlimit
    rcases hlimit with hfails | ⟨⟨out, d'⟩, hcall, -⟩
    · exact executeCall_ne_limit hfails
    · exact hnone ⟨out, d', hcall⟩

/-- What a public transaction executes is a walk. -/
theorem traceCalls_rounds : ∀ {n : Nat} {q : List Pending} {d : Diff}, ∃ log left d',
    Rounds (publicRound H s blockId timestamp) Pending.callees q d log left d' ∧
      traceCalls H s blockId timestamp n q d = log.map (fun e => e.1.executed e.2) ∧ log.length ≤ n
  | 0, q, d => ⟨[], q, d, .stop q d, rfl, Nat.le_refl 0⟩
  | n + 1, [], d => ⟨[], [], d, .stop [] d, rfl, Nat.zero_le _⟩
  | n + 1, p :: rest, d => by
    cases hcall : executeCall H s blockId timestamp d p.call p.caller with
    | error e => exact ⟨[], _, d, .stop _ d, by rw [traceCalls, hcall]; rfl, Nat.zero_le _⟩
    | ok od =>
      obtain ⟨log, left, d', hrest, htrace, hlength⟩ := @traceCalls_rounds n (p.callees od.1 ++ rest) od.2
      refine ⟨(p, od.1) :: log, left, d', .next hcall hrest, ?_, Nat.succ_le_succ hlength⟩
      rw [traceCalls, hcall]
      exact congrArg _ htrace

/-- The checks of a public transaction before its calls. -/
structure ChecksBeforeCalls (H : Host) (s : V03State) (tx : PublicTransaction) : Prop where
  distinct : tx.message.accountIds.toFinset.card = tx.message.accountIds.length
  counted : tx.message.nonces.length = tx.signaturesAndPublicKeys.length
  signed : signaturesAreValidFor H (tx.message.hash H) tx.signaturesAndPublicKeys
  nonces : checkNonces s (signerAccountIds H tx.signaturesAndPublicKeys) tx.message.nonces = .ok ()

/-- The transaction and its first `n` calls pass the other checks of a public transaction. -/
structure PublicPasses (H : Host) (s : V03State) (blockId : BlockId) (timestamp : Timestamp) (tx : PublicTransaction)
    (n : Nat) : Prop where
  before : ChecksBeforeCalls H s tx
  calls : Makes (publicRound H s blockId timestamp) Pending.callees n [initialPending H s tx] ∅

/-- A public transaction is refused for the limit when its loop is. -/
theorem fromPublicTransaction_limit_iff {tx : PublicTransaction} :
    fromPublicTransaction H tx s blockId timestamp = .error .maxChainedCallsDepthExceeded ↔
      ChecksBeforeCalls H s tx ∧ MoreThan (publicRound H s blockId timestamp) Pending.callees
        (maxNumberChainedCalls + 1) [initialPending H s tx] ∅ := by
  have hnonces : checkNonces s (signerAccountIds H tx.signaturesAndPublicKeys) tx.message.nonces ≠
      .error .maxChainedCallsDepthExceeded := forM_ne_error fun _ => ensure_ne_error (by simp)
  have hafter : ∀ diff : Diff, diff.toPairs.forM (checkClaimed s) ≠ .error .maxChainedCallsDepthExceeded :=
    fun diff => forM_ne_error fun _ => ensure_ne_error (by simp)
  rw [← runCalls_bounded.limit_iff]
  simp only [fromPublicTransaction, bind_error_iff, ensure_error_iff, ensure_ok_iff, hnonces, hafter, reduceCtorEq,
    and_false, false_or, exists_const, pure_ne_error, or_false]
  constructor
  · rintro ⟨hdistinct, hcounted, hsigned, _, hchecked, hlimit⟩
    exact ⟨⟨hdistinct, hcounted, hsigned, hchecked⟩, hlimit⟩
  · rintro ⟨hchecks, hlimit⟩
    exact ⟨hchecks.distinct, hchecks.counted, hchecks.signed, (), hchecks.nonces, hlimit⟩

end

/-! ## The loop of the circuit -/

section
variable {H : Host} {identities : List InputAccountIdentity}

/-- The text the circuit stops at the limit with. -/
def circuitLimit : Panic := .plain "Max chained calls depth is exceeded"

theorem assertFamilyBinding_ne_limit {bindings : Table (ProgramId × PdaSeed) AccountId} {programId : ProgramId}
    {seed : PdaSeed} {id : AccountId} : assertFamilyBinding bindings programId seed id ≠ .error circuitLimit := by
  unfold assertFamilyBinding
  split
  · simp
  · exact bind_ne_error (ensure_ne_error (by simp [circuitLimit])) fun _ => pure_ne_error

theorem bindPrivatePdaPosition_ne_limit {map : Table Nat (ProgramId × PdaSeed)} {pos : Nat} {programId : ProgramId}
    {seed : PdaSeed} : bindPrivatePdaPosition map pos programId seed ≠ .error circuitLimit := by
  unfold bindPrivatePdaPosition
  split
  · simp
  · exact bind_ne_error (ensure_ne_error (by simp [circuitLimit])) fun _ => pure_ne_error

theorem syncSeen_ne_limit {st : ExecutionState} {known : Account} {caller : Option ProgramId} {seeds : List PdaSeed}
    {pre : AccountWithMetadata} : syncSeen H.sha256 st known caller seeds pre ≠ .error circuitLimit := by
  have hrecord : ∀ pos matched, recordBindings st pre.accountId pos matched ≠ .error circuitLimit := by
    intro pos matched
    unfold recordBindings
    split
    · simp
    · refine bind_ne_error assertFamilyBinding_ne_limit fun _ => ?_
      dsimp only
      split
      · exact bind_ne_error bindPrivatePdaPosition_ne_limit fun _ => pure_ne_error
      · exact pure_ne_error
  refine bind_ne_error (ensure_ne_error (by simp [circuitLimit])) fun _ =>
    bind_ne_error (expect_ne_error (by simp [circuitLimit])) fun known => bind_ne_error ?_ fun _ =>
      bind_ne_error (ensure_ne_error (by simp [circuitLimit])) fun _ => pure_ne_error
  refine bind_ne_error (hrecord _ _) fun _ => ?_
  split
  · exact pure_ne_error
  · split
    · exact pure_ne_error
    · exact pure_ne_error

theorem syncFresh_ne_limit {st : ExecutionState} {pre : AccountWithMetadata} :
    syncFresh H.sha256 identities st pre ≠ .error circuitLimit := by
  refine bind_ne_error ?_ fun seed => ?_
  · unfold externalSeed
    split
    · exact bind_ne_error (ensure_ne_error (by simp [circuitLimit])) fun _ => pure_ne_error
    · exact bind_ne_error (ensure_ne_error (by simp [circuitLimit])) fun _ => pure_ne_error
    · simp
  · dsimp only
    split
    · exact pure_ne_error
    · exact bind_ne_error (ensure_ne_error (by simp [circuitLimit])) fun _ =>
        bind_ne_error bindPrivatePdaPosition_ne_limit fun _ =>
          bind_ne_error assertFamilyBinding_ne_limit fun _ => pure_ne_error

theorem syncClaim_ne_limit {st : ExecutionState} {programId : ProgramId} {pre : AccountWithMetadata}
    {post : AccountPostState} : syncClaim H.sha256 identities st programId pre post ≠ .error circuitLimit := by
  have hpublic : ∀ claim, claimPublic H.sha256 st programId pre claim ≠ .error circuitLimit := by
    intro claim
    cases claim with
    | authorized => exact bind_ne_error (ensure_ne_error (by simp [circuitLimit])) fun _ => pure_ne_error
    | pda seed =>
      exact bind_ne_error (ensure_ne_error (by simp [circuitLimit])) fun _ =>
        bind_ne_error assertFamilyBinding_ne_limit fun _ => pure_ne_error
  have hprivate : ∀ pos claim, claimPrivate H.sha256 st programId pos pre claim ≠ .error circuitLimit := by
    intro pos claim
    cases claim with
    | authorized => simp [claimPrivate]
    | pda seed =>
      exact bind_ne_error (expect_ne_error (by simp [circuitLimit])) fun _ =>
        bind_ne_error (ensure_ne_error (by simp [circuitLimit])) fun _ =>
          bind_ne_error bindPrivatePdaPosition_ne_limit fun _ =>
            bind_ne_error assertFamilyBinding_ne_limit fun _ => pure_ne_error
  unfold syncClaim
  split
  · simp
  · refine bind_ne_error (ensure_ne_error (by simp [circuitLimit])) fun _ =>
      bind_ne_error (expect_ne_error (by simp [circuitLimit])) fun _ =>
        bind_ne_error (expect_ne_error (by simp [circuitLimit])) fun _ => ?_
    dsimp only
    split
    · exact bind_ne_error (hpublic _) fun _ => pure_ne_error
    · exact bind_ne_error (hprivate _ _) fun _ => pure_ne_error

theorem acceptOutput_ne_limit {st : ExecutionState} {call : ChainedCall} {caller : Option ProgramId}
    {out : ProgramOutput} : acceptOutput H identities st call caller out ≠ .error circuitLimit := by
  refine bind_ne_error (ensure_ne_error (by simp [circuitLimit])) fun _ =>
    bind_ne_error (ensure_ne_error (by simp [circuitLimit])) fun _ =>
    bind_ne_error (ensure_ne_error (by simp [circuitLimit])) fun _ =>
    bind_ne_error (ensure_ne_error (by simp [circuitLimit])) fun _ =>
    bind_ne_error (mapError_ne_error (by simp [circuitLimit])) fun _ => foldlM_ne_error fun st pp => ?_
  unfold syncState
  dsimp only
  split
  · exact bind_ne_error syncSeen_ne_limit fun _ => bind_ne_error syncClaim_ne_limit fun _ => pure_ne_error
  · exact bind_ne_error syncFresh_ne_limit fun _ => bind_ne_error syncClaim_ne_limit fun _ => pure_ne_error

theorem runOutputs_bounded : Bounded (circuitRound H identities) Awaited.callees
    (fun n q st => runOutputs H identities n (q.map Awaited.entry) st.2 st.1) (.error circuitLimit) where
  nil n st := by cases n <;> simp [runOutputs]
  spent p rest st := rfl
  next := by
    intro p out st st' hround n rest
    obtain ⟨houts, haccept⟩ := hround
    rw [houts, List.map_cons, Awaited.entry, runOutputs, haccept, ← p.entry_callees]
    rfl
  stuck := by
    intro p st hnone n rest hlimit
    obtain ⟨st, outs⟩ := st
    cases outs with
    | nil => simp [runOutputs, Awaited.entry, circuitLimit] at hlimit
    | cons out outs =>
      rw [List.map_cons, Awaited.entry, runOutputs, bind_error_iff] at hlimit
      rcases hlimit with hfails | ⟨st', haccept, -⟩
      · exact acceptOutput_ne_limit hfails
      · exact hnone ⟨out, (st', outs), rfl, haccept⟩

theorem circuitRounds_outputs {q left : List Awaited} {st st' : ExecutionState × List ProgramOutput}
    {log : List (Awaited × ProgramOutput)} (h : Rounds (circuitRound H identities) Awaited.callees q st log left st') :
    st.2 = log.map Prod.snd ++ st'.2 := by
  induction h with
  | stop => simp
  | next hround _ ih => simp [hround.1, ih]

variable (H identities) in
/-- What the circuit's loop starts with for these outputs. -/
structure CircuitStart (programId : ProgramId) (outs : List ProgramOutput) (p : Awaited) (st : ExecutionState) :
    Prop where
  windows : outputWindows outs = .ok (st.blockValidityWindow, st.timestampValidityWindow)
  state : st = ⟨[], ∅, st.blockValidityWindow, st.timestampValidityWindow, ∅, ∅, npkByPosition H identities, ∅⟩
  call : ∃ first, outs.head? = .some first ∧ p = ⟨Circuit.initialCall programId first, .none, []⟩

variable (H identities) in
/-- The outputs and the first `n` calls pass the other checks of the circuit. -/
def CircuitPasses (programId : ProgramId) (outs : List ProgramOutput) (n : Nat) : Prop :=
  ∃ p st, CircuitStart H identities programId outs p st ∧
    Makes (circuitRound H identities) Awaited.callees n [p] (st, outs)

/-- The circuit panics for the limit when its loop does. -/
theorem deriveFromOutputs_limit_iff {programId : ProgramId} {outs : List ProgramOutput} :
    deriveFromOutputs H identities programId outs = .error circuitLimit ↔
      ∃ p st, CircuitStart H identities programId outs p st ∧
        MoreThan (circuitRound H identities) Awaited.callees (maxNumberChainedCalls + 1) [p] (st, outs) := by
  have hwindows : outputWindows outs ≠ .error circuitLimit :=
    bind_ne_error (expect_ne_error (by simp [circuitLimit])) fun _ =>
      bind_ne_error (expect_ne_error (by simp [circuitLimit])) fun _ => pure_ne_error
  have hfirst : expect (Panic.plain "No program outputs provided") outs.head? ≠ .error circuitLimit :=
    expect_ne_error (by simp [circuitLimit])
  have hafter : ∀ (st : ExecutionState) (left : List ProgramOutput), (do
      ensure (left = []) (Panic.plain "Inner call without a chained call found")
      identities.zipIdx.forM fun ip =>
        ensure (¬ip.1.isPrivatePda ∨ (st.privatePdaBoundPositions.lookup ip.2).isSome)
          (Panic.position "private PDA pre_state has no proven (seed, npk) binding via Claim::Pda or caller pda_seeds"
            ip.2)
      st.preStates.forM (checkModifiedClaimed st)
      pure st : Except Panic ExecutionState) ≠ .error circuitLimit := by
    intro st left
    refine bind_ne_error (ensure_ne_error (by simp [circuitLimit])) fun _ =>
      bind_ne_error (forM_ne_error fun _ => ensure_ne_error (by simp [circuitLimit])) fun _ =>
        bind_ne_error (forM_ne_error fun pre => ?_) fun _ => pure_ne_error
    unfold checkModifiedClaimed
    split
    · exact bind_ne_error (expect_ne_error (by simp [circuitLimit])) fun _ =>
        ensure_ne_error (by simp [circuitLimit])
    · simp
  constructor
  · intro hlimit
    unfold deriveFromOutputs at hlimit
    rcases bind_error_iff.mp hlimit with h | ⟨⟨block, time⟩, hw, hlimit⟩
    · exact absurd h hwindows
    rcases bind_error_iff.mp hlimit with h | ⟨first, hf, hlimit⟩
    · exact absurd h hfirst
    rcases bind_error_iff.mp hlimit with h | ⟨⟨st, left⟩, -, hlimit⟩
    · exact ⟨_, _, ⟨hw, rfl, first, expect_ok_iff.mp hf, rfl⟩, runOutputs_bounded.limit_iff.mp h⟩
    · exact absurd hlimit (hafter st left)
  · rintro ⟨p, st, ⟨hw, hst, first, hf, rfl⟩, hmore⟩
    have hloop := runOutputs_bounded.limit_iff.mpr hmore
    rw [hst] at hloop
    unfold deriveFromOutputs
    refine bind_error_iff.mpr (.inr ⟨_, hw, bind_error_iff.mpr (.inr ⟨first, expect_ok_iff.mpr hf, ?_⟩)⟩)
    exact bind_error_iff.mpr (.inl hloop)

end

/-! ## One tree, three walks -/

/-- A program of the dependencies, under its own id. -/
def Declared (dependencies : Table ProgramId Program) (id : ProgramId) : Prop :=
  ∃ program, dependencies.lookup id = .some program ∧ program.id = id

/-- The prover runs the call that the public transaction runs. -/
def SameCall (p : Pending) (y : ProverCall) : Prop :=
  y.call = p.call ∧ y.caller = p.caller.programId ∧ y.program.id = p.call.programId

/-- The circuit awaits the call that the prover runs. The accounts and data of its first call are those of the
first output. -/
def Awaits (y : ProverCall) (a : Awaited) : Prop :=
  a.call.programId = y.call.programId ∧ a.caller = y.caller ∧ (a.path = [] ∨ a.call = y.call)

section
variable {H : Host} {dependencies : Table ProgramId Program}

theorem sameCall_initial {s : V03State} {tx : PublicTransaction} {program : ProgramWithDependencies}
    (hprogram : program.program.id = tx.message.programId) :
    SameCall (initialPending H s tx) (program.initialCall (initialPending H s tx).call.preStates
      (initialPending H s tx).call.instructionData) :=
  ⟨by rw [ProgramWithDependencies.initialCall, hprogram]; rfl, rfl, hprogram⟩

theorem SameCall.callees {p : Pending} {y : ProverCall} {out : ProgramOutput} (h : SameCall p y)
    (hdeclared : ∀ c ∈ out.chainedCalls, Declared dependencies c.programId) :
    List.Forall₂ SameCall (p.callees out) (y.callees dependencies out) := by
  rw [Pending.callees, ProverCall.callees, List.forall₂_map_left_iff, List.forall₂_map_right_iff, List.forall₂_same]
  intro c hc
  obtain ⟨program, hlookup, hid⟩ := hdeclared c hc
  exact ⟨rfl, by rw [h.1]; rfl, by simp [calledBy, hlookup, hid]⟩

theorem Awaits.callees {y : ProverCall} {a : Awaited} (out : ProgramOutput) (h : Awaits y a) :
    List.Forall₂ Awaits (y.callees dependencies out) (a.callees out) := by
  rw [ProverCall.callees, Awaited.callees, List.forall₂_map_left_iff, List.forall₂_map_right_iff, List.forall₂_same]
  intro c _
  exact ⟨rfl, congrArg _ h.1, .inr rfl⟩

theorem Declared.found {id : ProgramId} (h : Declared dependencies id) : (dependencies.lookup id).isSome := by
  obtain ⟨program, hlookup, -⟩ := h
  rw [hlookup]
  rfl

/-- **The prover makes the rounds of a public transaction** when the programs called are declared. -/
theorem prover_rounds {s : V03State} {blockId : BlockId} {timestamp : Timestamp} {q left : List Pending} {d d' : Diff}
    {log : List (Pending × ProgramOutput)}
    (h : Rounds (publicRound H s blockId timestamp) Pending.callees q d log left d') :
    ∀ {n : Nat} {q' : List ProverCall} (outs : List ProgramOutput), log.length ≤ n → List.Forall₂ SameCall q q' →
      (∀ e ∈ provedCalls H dependencies n q', ∀ c ∈ e.2.chainedCalls, Declared dependencies c.programId) →
      ∃ log' left' outs', Rounds (proverRound H dependencies) (ProverCall.callees dependencies) q' outs log' left' outs' ∧
        List.Forall₂ (fun e e' => SameCall e.1 e'.1 ∧ e.2 = e'.2) log log' ∧ List.Forall₂ SameCall left left' := by
  induction h with
  | stop q d =>
    intro n q' outs _ hq _
    exact ⟨[], q', outs, .stop q' outs, .nil, hq⟩
  | @next p out rest left log d d₁ d' hround hrest ih =>
    intro n q' outs hn hq hdeclared
    cases hq with
    | @cons _ y _ rest' hsame hq =>
      cases n with
      | zero => simp at hn
      | succ n =>
        have hrun : executeAndProveProgram H y = .ok out := by
          rw [executeAndProveProgram, hsame.2.2, hsame.1, hsame.2.1, (executeCall_ok hround).ran]
          rfl
        have hcalls := hdeclared _ (mem_provedCalls hrun)
        have hfound := fun c hc => (hcalls c hc).found
        rw [provedCalls_cons hrun hfound] at hdeclared
        obtain ⟨log', left', outs', hrest', hlog, hleft⟩ := ih (outs ++ [out]) (Nat.le_of_succ_le_succ hn)
          (List.rel_append (hsame.callees hcalls) hq) fun e he => hdeclared e (List.mem_cons_of_mem _ he)
        exact ⟨_, left', outs', .next ⟨hrun, hfound, rfl⟩ hrest', .cons ⟨hsame, rfl⟩ hlog, hleft⟩

/-- **The circuit awaits the calls of the prover**, in the order of the outputs. -/
theorem replayCalls_provedCalls : ∀ {n : Nat} {q : List ProverCall} {awaited : List Awaited},
    List.Forall₂ Awaits q awaited →
      (∀ e ∈ provedCalls H dependencies n q, ∀ c ∈ e.2.chainedCalls, (dependencies.lookup c.programId).isSome) →
      List.Forall₂ (fun y e => Awaits y.1 ⟨e.call, y.1.caller, e.path⟩ ∧ e.output = y.2)
        (provedCalls H dependencies n q) (replayCalls awaited ((provedCalls H dependencies n q).map Prod.snd))
  | n, [], awaited, hq, _ => by
    cases hq
    cases n <;> exact .nil
  | 0, p :: rest, awaited, _, _ => by
    cases awaited <;> exact .nil
  | n + 1, p :: rest, awaited, hq, hfound => by
    cases hq with
    | @cons _ a _ awaited hawaits hq =>
      cases hrun : executeAndProveProgram H p with
      | error e =>
        rw [provedCalls, hrun]
        exact .nil
      | ok out =>
        have hcalls := hfound _ (mem_provedCalls hrun)
        rw [provedCalls_cons hrun hcalls] at hfound ⊢
        refine .cons ⟨⟨hawaits.1, rfl, hawaits.2.2⟩, rfl⟩ ?_
        exact replayCalls_provedCalls (List.rel_append (hawaits.callees out) hq)
          fun e he => hfound e (List.mem_cons_of_mem _ he)

end

/-! ## The limits -/

/-- The prover fails with the limit when its loop does. -/
theorem executeAndProve_limit_iff {H : Host} {root : ChainedCall} {identities : List InputAccountIdentity}
    {program : ProgramWithDependencies} :
    executeAndProve H root.preStates root.instructionData identities program = .error .maxChainedCallsDepthExceeded ↔
      program.CallsMoreThan H root maxNumberChainedCalls := by
  rw [ProgramWithDependencies.CallsMoreThan, ← proveCalls_bounded.limit_iff, executeAndProve, bind_error_iff]
  refine or_iff_left ?_
  rintro ⟨outs, -, hfails⟩
  exact mapError_ne_error (by simp) hfails

section
variable {H : Host} {s : V03State} {blockId : BlockId} {timestamp : Timestamp} {tx : PublicTransaction}
  {program : ProgramWithDependencies} {identities : List InputAccountIdentity} {n : Nat}

/-- A public transaction is refused for the limit when the tree has more calls than it may have and the first ones
pass its other checks. -/
theorem public_limit_iff (hprogram : program.program.id = tx.message.programId) (hn : maxNumberChainedCalls + 1 ≤ n)
    (hdeclared : ∀ e ∈ program.firstCalls H (initialPending H s tx).call n, ∀ c ∈ e.2.chainedCalls,
      Declared program.dependencies c.programId) :
    fromPublicTransaction H tx s blockId timestamp = .error .maxChainedCallsDepthExceeded ↔
      PublicPasses H s blockId timestamp tx (maxNumberChainedCalls + 1) ∧
        program.CallsMoreThan H (initialPending H s tx).call (maxNumberChainedCalls + 1) := by
  rw [fromPublicTransaction_limit_iff, moreThan_iff_makes
    (P := program.CallsMoreThan H (initialPending H s tx).call (maxNumberChainedCalls + 1))]
  · exact ⟨fun h => ⟨⟨h.1, h.2.1⟩, h.2.2⟩, fun h => ⟨h.1.before, h.1.calls, h.2⟩⟩
  · intro log left d hrounds hlength
    obtain ⟨log', left', outs', hprover, hlog, hleft⟩ :=
      prover_rounds hrounds [] (hlength ▸ hn) (.cons (sameCall_initial hprogram) .nil) hdeclared
    rw [ProgramWithDependencies.CallsMoreThan, ← hlength, hlog.length_eq, moreThan_iff_left hprover, ne_nil_iff_of_forall₂ hleft]

/-- The circuit panics for the limit when the tree has more calls than it may have and the first ones pass its
other checks. -/
theorem circuit_limit_iff {root : ChainedCall} (hn : maxNumberChainedCalls + 1 ≤ n)
    (hfound : ∀ e ∈ program.firstCalls H root n, ∀ c ∈ e.2.chainedCalls,
      (program.dependencies.lookup c.programId).isSome) :
    deriveFromOutputs H identities program.program.id ((program.firstCalls H root n).map Prod.snd) =
        .error circuitLimit ↔
      CircuitPasses H identities program.program.id ((program.firstCalls H root n).map Prod.snd)
          (maxNumberChainedCalls + 1) ∧
        program.CallsMoreThan H root (maxNumberChainedCalls + 1) := by
  have hmore : ∀ {p st}, CircuitStart H identities program.program.id ((program.firstCalls H root n).map Prod.snd) p st →
      (MoreThan (circuitRound H identities) Awaited.callees (maxNumberChainedCalls + 1) [p]
          (st, (program.firstCalls H root n).map Prod.snd) ↔
        Makes (circuitRound H identities) Awaited.callees (maxNumberChainedCalls + 1) [p]
            (st, (program.firstCalls H root n).map Prod.snd) ∧
          program.CallsMoreThan H root (maxNumberChainedCalls + 1)) := by
    intro p st hstart
    refine moreThan_iff_makes ?_
    intro log left t hrounds hlength
    -- the outputs it has taken are those of the tree's first calls
    have houts := circuitRounds_outputs hrounds
    dsimp only at houts
    have htake : ((program.firstCalls H root n).take (maxNumberChainedCalls + 1)).map Prod.snd = log.map Prod.snd := by
      rw [List.map_take, houts, ← hlength, ← List.length_map (f := Prod.snd), List.take_left]
    rw [ProgramWithDependencies.firstCalls, ← provedCalls_take hn] at htake
    have hlength' := congrArg List.length htake
    simp only [List.length_map] at hlength'
    obtain ⟨left', outs', hprover⟩ := @provedCalls_rounds H program.dependencies (maxNumberChainedCalls + 1)
      [program.initialCall root.preStates root.instructionData] [] (by
        intro e he
        rw [provedCalls_take hn] at he
        exact hfound e (List.mem_of_mem_take he))
    obtain ⟨first, -, rfl⟩ := hstart.call
    obtain ⟨-, hleft⟩ := hprover.same Awaits Awaits.callees hrounds (.cons ⟨rfl, rfl, .inl rfl⟩ .nil) htake
    rw [ProgramWithDependencies.CallsMoreThan, ← hlength, ← hlength', moreThan_iff_left hprover, ne_nil_iff_of_forall₂ hleft]
  rw [deriveFromOutputs_limit_iff, CircuitPasses]
  constructor
  · rintro ⟨p, st, hstart, hlimit⟩
    obtain ⟨hmakes, hcalls⟩ := (hmore hstart).mp hlimit
    exact ⟨⟨p, st, hstart, hmakes⟩, hcalls⟩
  · rintro ⟨⟨p, st, hstart, hmakes⟩, hcalls⟩
    exact ⟨p, st, hstart, (hmore hstart).mpr ⟨hmakes, hcalls⟩⟩

/-- **The three walks agree, and where their limits do.** Take the first calls of any tree, at least as many as a
public transaction may have, whose programs the prover has. Prover, circuit and public transaction execute its calls
in one order, depth first. The prover fails with the limit exactly when the others refuse the tree for it if and only
if the tree has at most `MAX_NUMBER_CHAINED_CALLS` calls, or more than `MAX_NUMBER_CHAINED_CALLS + 1` of which the
first ones pass the other checks of both. -/
theorem call_limits_agree_iff (hprogram : program.program.id = tx.message.programId)
    (hn : maxNumberChainedCalls + 1 ≤ n)
    (hdeclared : ∀ e ∈ program.firstCalls H (initialPending H s tx).call n, ∀ c ∈ e.2.chainedCalls,
      Declared program.dependencies c.programId) :
    let root := (initialPending H s tx).call
    let calls := program.firstCalls H root n
    let executed := publicCalls H s blockId timestamp tx
    let proved := executeAndProve H root.preStates root.instructionData identities program
    (program.firstCalls H root maxNumberChainedCalls = calls.take maxNumberChainedCalls ∧
      List.Forall₂ (fun e y => e.call = y.1.call ∧ e.output = y.2) executed (calls.take executed.length) ∧
      List.Forall₂ (fun y e => Awaits y.1 ⟨e.call, y.1.caller, e.path⟩ ∧ e.output = y.2) calls
        (circuitCalls ⟨calls.map Prod.snd, identities, program.program.id⟩) ∧
      (∀ outs, Rounds (proverRound H program.dependencies) (ProverCall.callees program.dependencies)
          [program.initialCall root.preStates root.instructionData] [] calls [] outs →
        Preorder (ProverCall.callees program.dependencies)
          [program.initialCall root.preStates root.instructionData] calls)) ∧
    (((proved = .error .maxChainedCallsDepthExceeded ↔
          fromPublicTransaction H tx s blockId timestamp = .error .maxChainedCallsDepthExceeded) ∧
        (proved = .error .maxChainedCallsDepthExceeded ↔
          deriveFromOutputs H identities program.program.id (calls.map Prod.snd) = .error circuitLimit)) ↔
      ¬program.CallsMoreThan H root maxNumberChainedCalls ∨
        program.CallsMoreThan H root (maxNumberChainedCalls + 1) ∧
          PublicPasses H s blockId timestamp tx (maxNumberChainedCalls + 1) ∧
          CircuitPasses H identities program.program.id (calls.map Prod.snd) (maxNumberChainedCalls + 1)) := by
  intro root calls executed proved
  have hfound : ∀ e ∈ calls, ∀ c ∈ e.2.chainedCalls, (program.dependencies.lookup c.programId).isSome :=
    fun e he c hc => (hdeclared e he c hc).found
  refine ⟨⟨provedCalls_take (Nat.le_trans (Nat.le_succ _) hn), ?_, ?_, fun outs h => h.preorder⟩, ?_⟩
  · obtain ⟨log, left, d, hrounds, htrace, hlength⟩ :=
      @traceCalls_rounds H s blockId timestamp (maxNumberChainedCalls + 1) [initialPending H s tx] ∅
    obtain ⟨log', left', outs', hprover, hlog, -⟩ :=
      prover_rounds hrounds [] (Nat.le_trans hlength hn) (.cons (sameCall_initial hprogram) .nil) hdeclared
    have hexecuted : executed = log.map fun e => e.1.executed e.2 := htrace
    have hfirst := take_provedCalls hprover (hlog.length_eq ▸ Nat.le_trans hlength hn)
    rw [hexecuted, List.length_map, hlog.length_eq, show calls.take log'.length = log' from hfirst,
      List.forall₂_map_left_iff]
    exact hlog.imp fun e y h => ⟨h.1.1.symm, h.2⟩
  · have hreplay := @replayCalls_provedCalls H program.dependencies n
      [program.initialCall root.preStates root.instructionData]
    rw [circuitCalls]
    cases hcalls : calls with
    | nil => exact .nil
    | cons e es =>
      rw [← hcalls]
      have hhead : (calls.map Prod.snd).head? = .some e.2 := by rw [hcalls]; rfl
      dsimp only
      rw [hhead]
      exact hreplay (.cons ⟨rfl, rfl, .inl rfl⟩ .nil) hfound
  · have hless : program.CallsMoreThan H root (maxNumberChainedCalls + 1) →
        program.CallsMoreThan H root maxNumberChainedCalls := by
      rintro ⟨log, left, outs, hrounds, hlength, -⟩
      exact hrounds.moreThan (by omega)
    rw [show proved = .error .maxChainedCallsDepthExceeded ↔ program.CallsMoreThan H root maxNumberChainedCalls from
      executeAndProve_limit_iff, public_limit_iff hprogram hn hdeclared, circuit_limit_iff hn hfound]
    tauto

end

/-! ## A program that counts down -/

namespace Sample

open Reference (programId host ledger unsigned)

/-- A program that calls itself as often as its instruction says. -/
def countdownCalls (self : ProgramId) : InstructionData → List ChainedCall
  | n :: _ => if n = 0 then [] else [⟨self, [], [n - 1], []⟩]
  | [] => []

def countdown : Guest := fun self caller pre data =>
  .ok { ProgramOutput.new self caller data pre (pre.map fun a => .new a.account) with
    chainedCalls := countdownCalls self data }

def countdownId : ProgramId := programId 30

def countdownHost : Host := (host { programs := fun _ => countdown }).toHost

def countdownLedger : V03State := ledger [] [countdownId]

def countdownFrom (n : UInt32) : PublicTransaction := unsigned countdownId [] [n]

def countdownProgram : ProgramWithDependencies := ⟨⟨countdownId, []⟩, Table.writeAll ∅ [(countdownId, ⟨countdownId, []⟩)]⟩

def countdownCall (n : UInt32) : ChainedCall := ⟨countdownId, [], [n], []⟩

end Sample

open Sample in
/-- A countdown from one: two calls, and nobody comes to the limit. -/
theorem two_calls_agree :
    (executeAndProve countdownHost [] [1] [] countdownProgram = .error .maxChainedCallsDepthExceeded ↔
        fromPublicTransaction countdownHost (countdownFrom 1) countdownLedger 1 1 =
          .error .maxChainedCallsDepthExceeded) ∧
      (executeAndProve countdownHost [] [1] [] countdownProgram = .error .maxChainedCallsDepthExceeded ↔
        deriveFromOutputs countdownHost [] countdownId
          ((countdownProgram.firstCalls countdownHost (countdownCall 1) 11).map Prod.snd) = .error circuitLimit) := by
  have hself : ∀ e ∈ countdownProgram.firstCalls countdownHost (countdownCall 1) 11, ∀ c ∈ e.2.chainedCalls,
      c.programId = countdownId := by
    decide +kernel
  have hlookup : countdownProgram.dependencies.lookup countdownId = .some ⟨countdownId, []⟩ := by decide +kernel
  have hdeclared : ∀ e ∈ countdownProgram.firstCalls countdownHost (countdownCall 1) 11, ∀ c ∈ e.2.chainedCalls,
      Declared countdownProgram.dependencies c.programId := by
    intro e he c hc
    rw [hself e he c hc]
    exact ⟨_, hlookup, rfl⟩
  have hfew : ¬countdownProgram.CallsMoreThan countdownHost (countdownCall 1) maxNumberChainedCalls := by
    rw [ProgramWithDependencies.CallsMoreThan, ← proveCalls_bounded.limit_iff]
    decide +kernel
  exact (@call_limits_agree_iff countdownHost countdownLedger 1 1 (countdownFrom 1) countdownProgram [] 11 rfl
    (by decide) hdeclared).2.mpr (.inl hfew)

open Sample in
/-- Eleven calls: the public transaction and the circuit take them, the prover does not. -/
theorem eleven_calls_refused_by_prover :
    let calls := publicCalls countdownHost countdownLedger 1 1 (countdownFrom 10)
    calls.length = maxNumberChainedCalls + 1 ∧
      (fromPublicTransaction countdownHost (countdownFrom 10) countdownLedger 1 1).isOk = true ∧
      (circuit countdownHost ⟨calls.map (·.output), [], countdownId⟩).isOk = true ∧
      executeAndProve countdownHost [] [10] [] countdownProgram = .error .maxChainedCallsDepthExceeded := by
  decide +kernel

end Lez
