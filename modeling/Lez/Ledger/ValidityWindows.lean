/-
Validity windows. The circuit commits to one window for the block and one for
the time, the largest lower and the smallest upper bound of its outputs; the
public path holds every output against its own. A value is in the committed
window exactly when it is in every output's, so a proven transaction and a
public one with the same outputs are good at the same heights and times.
-/
import Lez.Programs.MsigHost
import Lez.Trace.Private
import Lez.Trace.Public

namespace Lez

/-! ## Bounds of words -/

instance lawfulOrderMaxUInt64 : Std.LawfulOrderMax UInt64 where
  max_eq_or a b := by
    change (if a ≤ b then b else a) = a ∨ (if a ≤ b then b else a) = b
    split
    next => exact .inr rfl
    next => exact .inl rfl
  max_le_iff a b c := by
    change (if a ≤ b then b else a) ≤ c ↔ a ≤ c ∧ b ≤ c
    simp only [UInt64.le_iff_toNat_le]
    split <;> omega

instance lawfulOrderMinUInt64 : Std.LawfulOrderMin UInt64 where
  min_eq_or a b := by
    change (if a ≤ b then a else b) = a ∨ (if a ≤ b then a else b) = b
    split
    next => exact .inl rfl
    next => exact .inr rfl
  le_min_iff a b c := by
    change a ≤ (if b ≤ c then b else c) ↔ a ≤ b ∧ a ≤ c
    simp only [UInt64.le_iff_toNat_le]
    split <;> omega

/-- The largest of some lower bounds holds exactly when each of them does. -/
theorem max?_all_le {l : List UInt64} {b : UInt64} :
    l.max?.all (fun s => decide (s ≤ b)) = true ↔ ∀ s ∈ l, s ≤ b := by
  cases h : l.max? with
  | none => simp [List.max?_eq_none_iff.mp h]
  | some m =>
    rw [Option.all_some, decide_eq_true_eq]
    exact List.max?_le_iff h

theorem min?_all_lt {l : List UInt64} {b : UInt64} :
    l.min?.all (fun e => decide (b < e)) = true ↔ ∀ e ∈ l, b < e := by
  cases h : l.min? with
  | none => simp [List.min?_eq_none_iff.mp h]
  | some m =>
    obtain ⟨hm, hle⟩ := List.min?_eq_some_iff.mp h
    rw [Option.all_some, decide_eq_true_eq]
    constructor
    · intro hb e he
      have hle := hle e he
      rw [UInt64.lt_iff_toNat_lt] at *
      rw [UInt64.le_iff_toNat_le] at hle
      omega
    · intro hall
      exact hall m hm

/-! ## The intersection -/

section
variable {α : Type} {window : α → ValidityWindow UInt64} {outs : List α}

/-- The bounds the circuit takes of some windows are met by what is in each of them. -/
theorem intersection_valid_iff (b : UInt64) :
    (ValidityWindow.mk (outs.filterMap fun o => (window o).start).max?
      (outs.filterMap fun o => (window o).stop).min?).isValidFor b = true ↔
      ∀ o ∈ outs, (window o).isValidFor b = true := by
  simp only [ValidityWindow.isValidFor, Bool.and_eq_true, max?_all_le, min?_all_lt, List.mem_filterMap]
  constructor
  · rintro ⟨hstart, hstop⟩ o ho
    constructor
    · rw [Option.all_eq_true]
      intro s hs
      exact decide_eq_true (hstart s ⟨o, ho, hs⟩)
    · rw [Option.all_eq_true]
      intro e he
      exact decide_eq_true (hstop e ⟨o, ho, he⟩)
  · intro h
    constructor
    · rintro s ⟨o, ho, hs⟩
      have hall := (h o ho).1
      rw [hs] at hall
      simpa using hall
    · rintro e ⟨o, ho, he⟩
      have hall := (h o ho).2
      rw [he] at hall
      simpa using hall

theorem tryFrom_eq_some {start stop : Option UInt64} {w : ValidityWindow UInt64}
    (h : ValidityWindow.tryFrom start stop = .some w) : w = ⟨start, stop⟩ := by
  unfold ValidityWindow.tryFrom at h
  split at h
  next =>
    split at h
    next => cases h
    next =>
      cases h
      rfl
  next =>
    cases h
    rfl

/-- A window that is refused has nothing in it. -/
theorem tryFrom_eq_none {start stop : Option UInt64} (h : ValidityWindow.tryFrom start stop = .none) (b : UInt64) :
    (ValidityWindow.mk start stop).isValidFor b = false := by
  unfold ValidityWindow.tryFrom at h
  split at h
  next s e =>
    split at h
    next hle =>
      by_contra hvalid
      simp only [ValidityWindow.isValidFor, Option.all_some, Bool.not_eq_false, Bool.and_eq_true,
        decide_eq_true_eq, UInt64.le_iff_toNat_le, UInt64.lt_iff_toNat_lt] at hvalid hle
      omega
    next => cases h
  next => cases h

end

namespace Circuit

/-- The value is in the block window of each output; and in the time window of each. -/
def BlockValid (outs : List ProgramOutput) (b : BlockId) : Prop :=
  ∀ out ∈ outs, out.blockValidityWindow.isValidFor b = true

def TimeValid (outs : List ProgramOutput) (t : Timestamp) : Prop :=
  ∀ out ∈ outs, out.timestampValidityWindow.isValidFor t = true

def emptyBlocks : Panic :=
  .plain "There should be non empty intersection in the program output block validity windows"

def emptyTimes : Panic :=
  .plain "There should be non empty intersection in the program output timestamp validity windows"

section
variable {H : Host} {outs : List ProgramOutput} {block : BlockValidityWindow} {time : TimestampValidityWindow}

theorem outputWindows_ok (h : outputWindows outs = .ok (block, time)) :
    (∀ b, block.isValidFor b = true ↔ BlockValid outs b) ∧ ∀ t, time.isValidFor t = true ↔ TimeValid outs t := by
  simp only [outputWindows, bind_ok_iff, expect_ok_iff, pure_ok_iff, Prod.mk.injEq] at h
  obtain ⟨block', hblock, time', htime, rfl, rfl⟩ := h
  rw [tryFrom_eq_some hblock, tryFrom_eq_some htime]
  exact ⟨intersection_valid_iff, intersection_valid_iff⟩

/-- The circuit refuses the outputs for one of the two reasons, and then that intersection is empty. -/
theorem outputWindows_error {e : Panic} (h : outputWindows outs = .error e) :
    (e = emptyBlocks ∧ ∀ b, ¬BlockValid outs b) ∨ (e = emptyTimes ∧ ∀ t, ¬TimeValid outs t) := by
  unfold outputWindows at h
  cases hblock : ValidityWindow.tryFrom (outs.filterMap (·.blockValidityWindow.start)).max?
      (outs.filterMap (·.blockValidityWindow.stop)).min? with
  | none =>
    rw [hblock] at h
    cases h
    refine .inl ⟨rfl, fun b hb => ?_⟩
    have hvalid := (intersection_valid_iff b).mpr hb
    rw [tryFrom_eq_none hblock b] at hvalid
    cases hvalid
  | some block =>
    cases htime : ValidityWindow.tryFrom (outs.filterMap (·.timestampValidityWindow.start)).max?
        (outs.filterMap (·.timestampValidityWindow.stop)).min? with
    | none =>
      rw [hblock, htime] at h
      cases h
      refine .inr ⟨rfl, fun t ht => ?_⟩
      have hvalid := (intersection_valid_iff t).mpr ht
      rw [tryFrom_eq_none htime t] at hvalid
      cases hvalid
    | some time =>
      rw [hblock, htime] at h
      cases h

end

/-! ## The windows of the output -/

/-- The two windows, which nothing after the first lines of `derive_from_outputs` writes. -/
def ExecutionState.windows (st : ExecutionState) : BlockValidityWindow × TimestampValidityWindow :=
  (st.blockValidityWindow, st.timestampValidityWindow)

section
variable {H : Host} {identities : List InputAccountIdentity} {st st' : ExecutionState}

theorem recordBindings_windows {id : AccountId} {pos : Nat} {m : Option (PdaSeed × Bool × ProgramId)}
    (h : recordBindings st id pos m = .ok st') : st'.windows = st.windows := by
  unfold recordBindings at h
  split at h
  next =>
    cases h
    rfl
  next =>
    rw [bind_ok_iff] at h
    obtain ⟨_, -, h⟩ := h
    dsimp only at h
    split at h <;> simp only [bind_ok_iff, pure_ok_iff] at h <;> obtain ⟨_, -, rfl⟩ := h <;> rfl

theorem syncSeen_windows {known : Account} {caller : Option ProgramId} {seeds : List PdaSeed}
    {pre : AccountWithMetadata} (h : syncSeen H.sha256 st known caller seeds pre = .ok st') :
    st'.windows = st.windows := by
  simp only [syncSeen, resolveAuthorizationAndRecordBindings, bind_ok_iff, pure_ok_iff, Prod.exists] at h
  obtain ⟨-, -, first, pos, -, flag, st₁, ⟨st₂, hbind, h⟩, -, -, rfl⟩ := h
  rw [← recordBindings_windows hbind]
  split at h
  next =>
    cases h
    rfl
  next => split at h <;> cases h <;> rfl

theorem syncFresh_windows {pre : AccountWithMetadata} (h : syncFresh H.sha256 identities st pre = .ok st') :
    st'.windows = st.windows := by
  rw [syncFresh, bind_ok_iff] at h
  obtain ⟨seed, -, h⟩ := h
  dsimp only at h
  split at h
  next =>
    cases h
    rfl
  next =>
    simp only [bind_ok_iff, pure_ok_iff] at h
    obtain ⟨_, -, _, -, _, -, _, rfl, rfl⟩ := h
    rfl

theorem syncClaim_windows {program : ProgramId} {pre : AccountWithMetadata} {post : AccountPostState} {left : Account}
    (h : syncClaim H.sha256 identities st program pre post = .ok (left, st')) : st'.windows = st.windows := by
  unfold syncClaim at h
  split at h
  next =>
    cases h
    rfl
  next claim _ =>
    simp only [bind_ok_iff] at h
    obtain ⟨-, -, pos, -, identity, -, h⟩ := h
    split at h <;> rw [bind_ok_iff] at h <;> obtain ⟨st₁, hst₁, h⟩ := h <;> cases h <;> cases claim
    all_goals
      simp only [claimPublic, claimPrivate, bind_ok_iff, pure_ok_iff] at hst₁
      grind [ExecutionState.windows]

theorem syncState_windows {program : ProgramId} {caller : Option ProgramId} {seeds : List PdaSeed}
    {pp : AccountWithMetadata × AccountPostState}
    (h : syncState H.sha256 identities program caller seeds st pp = .ok st') : st'.windows = st.windows := by
  rw [syncState] at h
  dsimp only at h
  split at h <;> simp only [bind_ok_iff, pure_ok_iff, Prod.exists] at h
  next =>
    obtain ⟨st₁, hseen, left, st₂, hclaim, rfl⟩ := h
    exact (syncClaim_windows hclaim).trans (syncSeen_windows hseen)
  next =>
    obtain ⟨st₁, hfresh, left, st₂, hclaim, rfl⟩ := h
    exact (syncClaim_windows hclaim).trans (syncFresh_windows hfresh)

theorem acceptOutput_windows {call : ChainedCall} {caller : Option ProgramId} {out : ProgramOutput}
    (h : acceptOutput H identities st call caller out = .ok st') : st'.windows = st.windows := by
  simp only [acceptOutput, bind_ok_iff] at h
  obtain ⟨-, -, -, -, -, -, -, -, -, -, h⟩ := h
  exact foldlM_keeps (fun _ _ _ => syncState_windows) h

theorem runOutputs_windows : ∀ {budget : Nat} {q : List (ChainedCall × Option ProgramId)}
    {outs left : List ProgramOutput} {st st' : ExecutionState},
    runOutputs H identities budget q outs st = .ok (st', left) → st'.windows = st.windows
  | 0, [], _, _, _, _, h | _ + 1, [], _, _, _, _, h => by
    cases h
    rfl
  | 0, _ :: _, _, _, _, _, h | _ + 1, _ :: _, [], _, _, _, h => by cases h
  | budget + 1, (call, caller) :: rest, out :: outs, left, st, st', h => by
    rw [runOutputs, bind_ok_iff] at h
    obtain ⟨st₁, haccept, h⟩ := h
    exact (runOutputs_windows h).trans (acceptOutput_windows haccept)

theorem emitAccount_windows {acc acc' : Emitted} {item : (InputAccountIdentity × AccountWithMetadata) × Nat}
    (h : emitAccount H st acc item = .ok acc') :
    (acc'.1.blockValidityWindow, acc'.1.timestampValidityWindow) =
      (acc.1.blockValidityWindow, acc.1.timestampValidityWindow) := by
  simp only [emitAccount, emitPrivateOutput, bind_ok_iff] at h
  obtain ⟨post, -, h⟩ := h
  split at h
  next =>
    cases h
    rfl
  next =>
    simp only [bind_ok_iff, pure_ok_iff] at h
    obtain ⟨_, -, _, -, rfl⟩ := h
    rfl

/-- The output carries the intersections of the windows of the program outputs. -/
theorem circuit_windows {i : PrivacyPreservingCircuitInput} {output : PrivacyPreservingCircuitOutput}
    (h : circuit H i = .ok output) :
    outputWindows i.programOutputs = .ok (output.blockValidityWindow, output.timestampValidityWindow) := by
  obtain ⟨st, hderived, -, n, hemit⟩ := circuit_parts h
  have hout := foldlM_keeps (g := fun acc => (acc.1.blockValidityWindow, acc.1.timestampValidityWindow))
    (fun _ _ _ => emitAccount_windows) hemit
  simp only [deriveFromOutputs, bind_ok_iff, ensure_ok_iff, expect_ok_iff, pure_ok_iff, Prod.exists] at hderived
  obtain ⟨block, time, hwindows, first, -, st', left, hrun, -, -, -, -, -, -, rfl⟩ := hderived
  have hst := runOutputs_windows hrun
  simp only [ExecutionState.windows, Prod.mk.injEq] at hst hout
  rw [hwindows, hout.1, hout.2, hst.1, hst.2]

end

end Circuit

/-! ## Heights and times -/

open Circuit

section
variable {H : Host} {s : V03State} {blockId blockId' : BlockId} {timestamp timestamp' : Timestamp}

/-- Acceptance of a proven transaction depends on the height and the time by its windows alone. -/
theorem privacy_accepted_iff {tx : PrivacyPreservingTransaction}
    (h : (fromPrivacyPreservingTransaction H tx s blockId timestamp).isOk = true) :
    (fromPrivacyPreservingTransaction H tx s blockId' timestamp').isOk = true ↔
      tx.message.blockValidityWindow.isValidFor blockId' = true ∧
        tx.message.timestampValidityWindow.isValidFor timestamp' = true := by
  simp only [isOk_iff, fromPrivacyPreservingTransaction, bind_ok_iff, ensure_ok_iff, pure_ok_iff] at h ⊢
  obtain ⟨diff, u₁, h₁, u₂, h₂, u₃, h₃, u₄, h₄, u₅, h₅, u₆, h₆, u₇, h₇, u₈, -, hrest⟩ := h
  constructor
  · rintro ⟨-, -, -, -, -, -, -, -, -, -, -, -, -, -, -, -, hwindows, -⟩
    exact hwindows
  · intro hwindows
    exact ⟨diff, u₁, h₁, u₂, h₂, u₃, h₃, u₄, h₄, u₅, h₅, u₆, h₆, u₇, h₇, u₈, hwindows, hrest⟩

/-- The output is good for the height and the time. -/
def ProgramOutput.ValidAt (out : ProgramOutput) (blockId : BlockId) (timestamp : Timestamp) : Prop :=
  out.blockValidityWindow.isValidFor blockId = true ∧ out.timestampValidityWindow.isValidFor timestamp = true

/-- So does a call of the public path. -/
theorem executeCall_at {d d' : Diff} {call : ChainedCall} {caller : CallerData} {out : ProgramOutput}
    (h : executeCall H s blockId timestamp d call caller = .ok (out, d')) {r : ProgramOutput × Diff} :
    executeCall H s blockId' timestamp' d call caller = .ok r ↔ r = (out, d') ∧ out.ValidAt blockId' timestamp' := by
  simp only [executeCall, bind_ok_iff, ensure_ok_iff, expect_ok_iff, pure_ok_iff] at h ⊢
  obtain ⟨program, hprogram, out', hout, u₁, h₁, u₂, h₂, u₃, h₃, u₄, h₄, u₅, -, settled, hsettled, heq⟩ := h
  cases heq
  constructor
  · rintro ⟨program', hprogram', out'', hout', -, -, -, -, -, -, -, -, -, hwindows, settled', hsettled', rfl⟩
    cases hprogram.symm.trans hprogram'
    cases hout.symm.trans hout'
    cases hsettled.symm.trans hsettled'
    exact ⟨rfl, hwindows⟩
  · rintro ⟨rfl, hwindows⟩
    exact ⟨program, hprogram, out, hout, u₁, h₁, u₂, h₂, u₃, h₃, u₄, h₄, u₅, hwindows, settled, hsettled, rfl⟩

theorem runCalls_at : ∀ {budget : Nat} {q : List Pending} {d d' : Diff},
    runCalls H s blockId timestamp budget (q.map Pending.entry) d = .ok d' →
      ∀ {d''}, runCalls H s blockId' timestamp' budget (q.map Pending.entry) d = .ok d'' ↔
        d'' = d' ∧ ∀ e ∈ traceCalls H s blockId timestamp budget q d, e.output.ValidAt blockId' timestamp'
  | budget, [], d, d', h, d'' => by
    rw [List.map_nil, runCalls] at h ⊢
    cases h
    cases budget <;> simp [traceCalls, eq_comm]
  | 0, p :: rest, d, d', h, d'' => by simp [runCalls] at h
  | budget + 1, p :: rest, d, d', h, d'' => by
    rw [List.map_cons, Pending.entry, runCalls, bind_ok_iff] at h ⊢
    obtain ⟨⟨out, d₁⟩, hcall, h⟩ := h
    dsimp only at h
    rw [p.entry_callees] at h
    have ih := @runCalls_at budget _ _ _ h d''
    rw [traceCalls, hcall]
    simp only [executeCall_at hcall, List.forall_mem_cons]
    constructor
    · rintro ⟨_, ⟨rfl, hvalid⟩, hrun⟩
      dsimp only at hrun
      rw [p.entry_callees] at hrun
      obtain ⟨rfl, hrest⟩ := ih.mp hrun
      exact ⟨rfl, hvalid, hrest⟩
    · rintro ⟨rfl, hvalid, hrest⟩
      refine ⟨_, ⟨rfl, hvalid⟩, ?_⟩
      dsimp only
      rw [p.entry_callees]
      exact ih.mpr ⟨rfl, hrest⟩

/-- And so does a public transaction, by the windows of its outputs. -/
theorem public_accepted_iff {tx : PublicTransaction}
    (h : (fromPublicTransaction H tx s blockId timestamp).isOk = true) :
    (fromPublicTransaction H tx s blockId' timestamp').isOk = true ↔
      ∀ e ∈ publicCalls H s blockId timestamp tx, e.output.ValidAt blockId' timestamp' := by
  simp only [isOk_iff, fromPublicTransaction, bind_ok_iff, ensure_ok_iff, pure_ok_iff] at h ⊢
  obtain ⟨diff, u₁, h₁, u₂, h₂, u₃, h₃, u₄, h₄, d, hrun, hrest⟩ := h
  have hat := @runCalls_at H s blockId blockId' timestamp timestamp' _ [initialPending H s tx] _ _ hrun
  constructor
  · rintro ⟨-, -, -, -, -, -, -, -, -, d', hrun', -⟩
    exact (hat.mp hrun').2
  · intro hvalid
    exact ⟨diff, u₁, h₁, u₂, h₂, u₃, h₃, u₄, h₄, d, hat.mpr ⟨rfl, hvalid⟩, hrest⟩

/-- **Validity windows combine exactly.** What the circuit accepts it commits with windows that hold
exactly the values every output's window holds; what it refuses for an empty intersection has no such
value; so a proven transaction is accepted at the heights and times at which the public path accepts
calls with the same outputs. -/
theorem windows_combine_exactly (i : PrivacyPreservingCircuitInput) :
    (∀ output, circuit H i = .ok output →
      (∀ b, output.blockValidityWindow.isValidFor b = true ↔ BlockValid i.programOutputs b) ∧
      (∀ t, output.timestampValidityWindow.isValidFor t = true ↔ TimeValid i.programOutputs t)) ∧
    (∀ e, outputWindows i.programOutputs = .error e → circuit H i = .error e ∧
      ((e = emptyBlocks ∧ ∀ b, ¬BlockValid i.programOutputs b) ∨
        (e = emptyTimes ∧ ∀ t, ¬TimeValid i.programOutputs t))) ∧
    ∀ tx s b₀ t₀ tx' s' b₁ t₁, circuit H i = .ok (expectedCircuitOutput H tx s) →
      (fromPrivacyPreservingTransaction H tx s b₀ t₀).isOk = true →
      (fromPublicTransaction H tx' s' b₁ t₁).isOk = true →
      (publicCalls H s' b₁ t₁ tx').map (·.output) = i.programOutputs →
      ∀ b t, (fromPrivacyPreservingTransaction H tx s b t).isOk = true ↔
        (fromPublicTransaction H tx' s' b t).isOk = true := by
  refine ⟨fun output h => outputWindows_ok (circuit_windows h), ?_, ?_⟩
  · intro e h
    refine ⟨?_, outputWindows_error h⟩
    rw [circuit, deriveFromOutputs, h]
    rfl
  · intro tx s b₀ t₀ tx' s' b₁ t₁ hcircuit hprivacy hpublic houts b t
    obtain ⟨hblock, htime⟩ := outputWindows_ok (circuit_windows hcircuit)
    rw [privacy_accepted_iff hprivacy, public_accepted_iff hpublic]
    refine (and_congr (hblock b) (htime t)).trans ?_
    simp only [BlockValid, TimeValid, ← houts, List.mem_map, ProgramOutput.ValidAt]
    constructor
    · rintro ⟨hb, ht⟩ e he
      exact ⟨hb _ ⟨e, he, rfl⟩, ht _ ⟨e, he, rfl⟩⟩
    · intro h
      constructor
      · rintro _ ⟨e, he, rfl⟩
        exact (h e he).1
      · rintro _ ⟨e, he, rfl⟩
        exact (h e he).2

end

section
open Reference

namespace Sample

/-- A program good for some heights that makes the given calls. -/
def timed (window : BlockValidityWindow) (calls : List AccountWithMetadata → List ChainedCall) : Guest :=
  fun self caller pre data => (Reference.caller calls self caller pre data).map fun out =>
    { out with blockValidityWindow := window }

/-- The program 100 is good for the heights 5 to 9, and calls one that is good from 7 on. -/
def timedHost (proven : List (Bytes × PrivacyPreservingCircuitInput)) : MsigHost :=
  host {
    proven := proven
    programs := fun id =>
      if id = programId 100 then timed ⟨.some 5, .some 10⟩ fun pre => [⟨programId 101, pre, [], []⟩]
      else timed ⟨.some 7, .none⟩ fun _ => [] }

def visitor : AccountWithMetadata :=
  ⟨Account.default, false, forRegularPrivateAccount Sha256.hash (bytes32OfNat 5) 1⟩

/-- The calls on the visitor as a new private account. -/
def timedVisit : PrivacyPreservingCircuitInput where
  programOutputs :=
    ((timedHost []).guest (programId 100) (programId 100) .none [visitor] []).toOption.toList ++
      ((timedHost []).guest (programId 101) (programId 101) (.some (programId 100)) [visitor] []).toOption.toList
  accountIdentities := [.privateUnauthorized [] 0 (bytes32OfNat 5) (ByteVec.fill 32 3) 1]
  programId := programId 100

/-- The same calls on the visitor as an account of the ledger. -/
def timedPublic : PublicTransaction := unsigned (programId 100) [visitor.accountId] []

def timedLedger : V03State :=
  { ledger [] [programId 100, programId 101] with
    commitmentSet := ⟨⟨[bytes32OfNat 0], 1, 0⟩, ∅, {dummyCommitmentHash}⟩ }

end Sample

open Sample

theorem timed_visit_windows :
    ∃ tx, circuit (timedHost [([], timedVisit)]).toHost timedVisit =
        .ok (expectedCircuitOutput (timedHost [([], timedVisit)]).toHost tx timedLedger) ∧
      ∀ b t, (fromPrivacyPreservingTransaction (timedHost [([], timedVisit)]).toHost tx timedLedger b t).isOk = true ↔
        (fromPublicTransaction (timedHost [([], timedVisit)]).toHost timedPublic timedLedger b t).isOk = true := by
  have hrun : ((circuit (timedHost [([], timedVisit)]).toHost timedVisit).toOption.any fun out =>
      let tx : PrivacyPreservingTransaction := ⟨⟨[], [], [], out.encryptedPrivatePostStates, out.newCommitments,
        out.newNullifiers, out.blockValidityWindow, out.timestampValidityWindow⟩, [], []⟩
      decide (out = expectedCircuitOutput (timedHost [([], timedVisit)]).toHost tx timedLedger) &&
        (fromPrivacyPreservingTransaction (timedHost [([], timedVisit)]).toHost tx timedLedger 8 0).isOk) = true := by
    rw [timedHost, host_packed]
    decide +kernel
  have hpublic : (fromPublicTransaction (timedHost [([], timedVisit)]).toHost timedPublic timedLedger 8 0).isOk = true ∧
      (publicCalls (timedHost [([], timedVisit)]).toHost timedLedger 8 0 timedPublic).map (·.output) =
        timedVisit.programOutputs := by
    decide +kernel
  obtain ⟨out, hout, h⟩ := (Option.any_eq_true _ _).mp hrun
  obtain ⟨heq, haccepted⟩ := (Bool.and_eq_true _ _).mp h
  have hcircuit := (toOption_eq_some.mp hout).trans (congrArg _ (of_decide_eq_true heq))
  exact ⟨_, hcircuit,
    (windows_combine_exactly timedVisit).2.2 _ _ 8 0 _ _ 8 0 hcircuit haccepted hpublic.1 hpublic.2⟩

end

end Lez
