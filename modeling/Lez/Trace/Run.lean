/-
Runs of the ledger: transactions of the three kinds one after the other, and
the log of every call they executed. Of a privacy-preserving transaction the
log has the calls of a circuit input behind its proof, any such input. On
public accounts a run is a `History`, calls and nonce increments in turn, and
`History.before` gives the accounts as each logged call found them.
-/
import Lez.Trace.Private

namespace Lez

open Circuit

/-- A logged call, and which accounts are public in its transaction. -/
structure Entry where
  call : Executed
  isPublic : AccountId → Bool

/-- The entries of a public transaction. -/
def publicEntries (calls : List Executed) : List Entry := calls.map fun e => ⟨e, fun _ => true⟩

/-- The entries of a privacy-preserving transaction with these public accounts. -/
def privacyEntries (accounts : List AccountId) (calls : List Executed) : List Entry :=
  calls.map fun e => ⟨e, fun id => decide (id ∈ accounts)⟩

/-- An accepted transaction: the state before, its calls, the state after. -/
inductive Step (H : Host) (s : V03State) : List Entry → V03State → Prop
  | publicTx {tx : PublicTransaction} {blockId : BlockId} {timestamp : Timestamp} {s' : V03State} :
      s.transitionFromPublicTransaction H tx blockId timestamp = .some s' →
      Step H s (publicEntries (publicCalls H s blockId timestamp tx)) s'
  | privacyTx {tx : PrivacyPreservingTransaction} {blockId : BlockId} {timestamp : Timestamp} {s' : V03State}
      {i : PrivacyPreservingCircuitInput} :
      s.transitionFromPrivacyPreservingTransaction H tx blockId timestamp = .some s' →
      circuit H i = .ok (expectedCircuitOutput H tx s) →
      Step H s (privacyEntries tx.message.publicAccountIds (circuitCalls i)) s'
  | deployment {bytecode : Bytes} {s' : V03State} :
      s.transitionFromProgramDeploymentTransaction H bytecode = .some s' → Step H s [] s'

/-- Accepted transactions one after the other. -/
inductive Run (H : Host) (s : V03State) : List Entry → V03State → Prop
  | start : Run H s [] s
  | next {log es : List Entry} {s' s'' : V03State} : Run H s log s' → Step H s' es s'' → Run H s (log ++ es) s''

theorem Run.append {H : Host} {s s' s'' : V03State} {log later : List Entry} (h : Run H s log s')
    (hlater : Run H s' later s'') : Run H s (log ++ later) s'' := by
  induction hlater with
  | start => simpa using h
  | next _ hstep ih => simpa using ih.next hstep

theorem CalleesFollow.entries {calls : List Executed} (h : CalleesFollow calls) {isPublic : AccountId → Bool}
    {before after : List Entry} {en : Entry} (hes : (calls.map fun e => ⟨e, isPublic⟩) = before ++ en :: after)
    {c : ChainedCall} {cs : List ChainedCall} (hc : en.call.output.chainedCalls = c :: cs) :
    ∃ f rest, after = f :: rest ∧ f.call.call = c ∧ f.call.path = ⟨en.call.program, c⟩ :: en.call.path ∧
      f.isPublic = en.isPublic := by
  obtain ⟨l₁, l₂, rfl, rfl, hl₂⟩ := List.map_eq_append_iff.mp hes
  obtain ⟨e, l₃, rfl, rfl, rfl⟩ := List.map_eq_cons_iff.mp hl₂
  obtain ⟨f, rest, rfl, hcall, hpath⟩ := h l₁ e l₃ c cs rfl hc
  exact ⟨_, _, List.map_cons, hcall, hpath, rfl⟩

theorem Step.callee_follows {H : Host} {s s' : V03State} {before after : List Entry} {en : Entry}
    (h : Step H s (before ++ en :: after) s') {c : ChainedCall} {cs : List ChainedCall}
    (hc : en.call.output.chainedCalls = c :: cs) :
    ∃ f rest, after = f :: rest ∧ f.call.call = c ∧ f.call.path = ⟨en.call.program, c⟩ :: en.call.path ∧
      f.isPublic = en.isPublic := by
  generalize hes : before ++ en :: after = es at h
  cases h with
  | publicTx htx =>
    obtain ⟨diff, hok, -⟩ := V03State.settle_eq_some.mp htx
    exact (fromPublicTransaction_ok hok).exec.calleesFollow.entries hes.symm hc
  | privacyTx _ hcircuit =>
    obtain ⟨_, _, hrun⟩ := circuit_ok hcircuit
    obtain ⟨_, hreplay⟩ := hrun.replay
    exact hreplay.calleesFollow.entries hes.symm hc
  | deployment => simp at hes

/-- The first call that a logged call makes is the next one logged, in the same transaction. -/
theorem Run.callee_follows {H : Host} {s s' : V03State} {log before after : List Entry} {en : Entry}
    (h : Run H s log s') (hlog : log = before ++ en :: after) {c : ChainedCall} {cs : List ChainedCall}
    (hc : en.call.output.chainedCalls = c :: cs) :
    ∃ f rest, after = f :: rest ∧ f.call.call = c ∧ f.call.path = ⟨en.call.program, c⟩ :: en.call.path ∧
      f.isPublic = en.isPublic := by
  induction h generalizing after with
  | start => simp at hlog
  | @next log es s' s'' _ hstep ih =>
    rcases List.append_eq_append_iff.mp hlog with ⟨l, -, rfl⟩ | ⟨l, rfl, hl⟩
    · exact hstep.callee_follows hc
    · cases l with
      | nil =>
        have hes : es = [] ++ en :: after := hl.symm
        exact (hes ▸ hstep).callee_follows hc
      | cons e l =>
        cases hl
        obtain ⟨f, rest, rfl, hf⟩ := ih rfl
        exact ⟨f, rest ++ es, rfl, hf⟩

/-! ## Genesis -/

section
variable {H : Host} {initialData : List (AccountId × U128)} {initialPrivate : List (Commitment × Nullifier)}
  {genesis : Timestamp} {s : V03State}

theorem foldl_insertProgram_publicState : ∀ (ps : List Program) (s : V03State),
    (ps.foldl V03State.insertProgram s).publicState = s.publicState
  | [], _ => rfl
  | p :: ps, s => foldl_insertProgram_publicState ps (s.insertProgram p)

theorem foldl_insertProgram_lookup {id : ProgramId} : ∀ {ps : List Program} {s : V03State},
    (∃ p ∈ ps, p.id = id) ∨ (s.programs.lookup id).isSome → ((ps.foldl V03State.insertProgram s).programs.lookup id).isSome
  | [], s, h => by simpa using h
  | p :: ps, s, h => by
    have hnext : (∃ q ∈ ps, q.id = id) ∨ ((s.insertProgram p).programs.lookup id).isSome := by
      by_cases hp : id = p.id
      · subst hp
        exact .inr (by simp [V03State.insertProgram])
      · rcases h with ⟨q, hq, hid⟩ | h
        · rcases List.mem_cons.mp hq with rfl | hq
          · exact absurd hid.symm hp
          · exact .inl ⟨q, hq, hid⟩
        · exact .inr (by simpa [V03State.insertProgram, AList.lookup_insert_ne hp] using h)
    rw [List.foldl_cons]
    exact foldl_insertProgram_lookup hnext

theorem genesis_publicState (h : newWithGenesisAccounts H initialData initialPrivate genesis = .some s) :
    s.publicState = Table.writeAll ∅ (genesisAccounts H initialData genesis) := by
  simp only [newWithGenesisAccounts, Option.bind_eq_bind, Option.bind_eq_some_iff] at h
  obtain ⟨_, -, _, -, _, -, h⟩ := h
  rw [← Option.some.inj h]
  exact foldl_insertProgram_publicState _ _

/-- Genesis accounts belong to the transfer program or the clock and have no nonce. -/
theorem genesis_lookup (h : newWithGenesisAccounts H initialData initialPrivate genesis = .some s) {id : AccountId}
    {a : Account} (hl : s.publicState.lookup id = .some a) :
    (a.programOwner = H.authenticatedTransfer.id ∨ a.programOwner = H.clock.id) ∧ a.nonce = 0 := by
  rw [genesis_publicState h] at hl
  have hmem := (Table.lookup_writeAll_some hl).resolve_right (by simp)
  simp only [genesisAccounts, systemAccounts, List.mem_append, List.mem_map, List.mem_cons, List.not_mem_nil, or_false,
    Prod.mk.injEq] at hmem
  rcases hmem with (⟨_, -, -, rfl⟩ | ⟨-, rfl⟩ | ⟨-, rfl⟩) | ⟨_, -, -, rfl⟩
  · exact ⟨.inl rfl, rfl⟩
  · exact ⟨.inl rfl, rfl⟩
  · exact ⟨.inl rfl, rfl⟩
  · exact ⟨.inr rfl, rfl⟩

theorem genesis_transfer_deployed (h : newWithGenesisAccounts H initialData initialPrivate genesis = .some s) :
    (s.programs.lookup H.authenticatedTransfer.id).isSome := by
  simp only [newWithGenesisAccounts, Option.bind_eq_bind, Option.bind_eq_some_iff] at h
  obtain ⟨_, -, _, -, _, -, h⟩ := h
  rw [← Option.some.inj h]
  exact foldl_insertProgram_lookup (.inl ⟨H.authenticatedTransfer, by simp, rfl⟩)

end

/-! ## Computed runs -/

/-- Public transactions one after the other, computed: the calls and the last state. -/
def runPublic (H : Host) : V03State → List PublicTransaction → Option (List Executed × V03State)
  | s, [] => .some ([], s)
  | s, tx :: txs => do
    let s' ← s.transitionFromPublicTransaction H tx 0 0
    let (es, s'') ← runPublic H s' txs
    pure (publicCalls H s 0 0 tx ++ es, s'')

theorem run_of_runPublic {H : Host} : ∀ {txs : List PublicTransaction} {s s' : V03State} {es : List Executed},
    runPublic H s txs = .some (es, s') → Run H s (publicEntries es) s'
  | [], s, s', es, h => by
    cases h
    exact .start
  | tx :: txs, s, s', es, h => by
    simp only [runPublic, Option.bind_eq_bind, Option.bind_eq_some_iff, Prod.exists] at h
    obtain ⟨s₁, hs₁, es', s₂, hrest, h⟩ := h
    cases h
    have hfirst : Run H s (publicEntries (publicCalls H s 0 0 tx)) s₁ := Run.start.next (.publicTx hs₁)
    simpa [publicEntries] using hfirst.append (run_of_runPublic hrest)

/-- Genesis, deployments, then public transactions, computed. -/
def runFromGenesis (H : Host) (initialData : List (AccountId × U128)) (bytecodes : List Bytes)
    (txs : List PublicTransaction) : Option (List Executed × V03State) := do
  let s₀ ← newWithGenesisAccounts H initialData [] 0
  let s₁ ← bytecodes.foldlM (fun s b => s.transitionFromProgramDeploymentTransaction H b) s₀
  runPublic H s₁ txs

theorem run_of_deployments {H : Host} : ∀ {bytecodes : List Bytes} {s s' : V03State},
    bytecodes.foldlM (fun s b => s.transitionFromProgramDeploymentTransaction H b) s = .some s' → Run H s [] s'
  | [], s, s', h => by
    cases h
    exact .start
  | b :: bs, s, s', h => by
    rw [List.foldlM_cons, Option.bind_eq_bind, Option.bind_eq_some_iff] at h
    obtain ⟨s₁, hs₁, h⟩ := h
    have hfirst : Run H s [] s₁ := Run.start.next (.deployment hs₁)
    exact hfirst.append (run_of_deployments h)

theorem run_of_runFromGenesis {H : Host} {initialData : List (AccountId × U128)} {bytecodes : List Bytes}
    {txs : List PublicTransaction} {es : List Executed} {s : V03State}
    (h : runFromGenesis H initialData bytecodes txs = .some (es, s)) :
    ∃ s₀, newWithGenesisAccounts H initialData [] 0 = .some s₀ ∧ Run H s₀ (publicEntries es) s := by
  simp only [runFromGenesis, Option.bind_eq_bind, Option.bind_eq_some_iff] at h
  obtain ⟨s₀, hs₀, s₁, hs₁, h⟩ := h
  exact ⟨s₀, hs₀, (run_of_deployments hs₁).append (run_of_runPublic h)⟩

/-! ## Histories of the public accounts -/

/-- Two views that differ in nonces only. -/
def SameButNonces (σ σ' : View) : Prop := ∀ id, ∃ n, σ' id = { σ id with nonce := n }

inductive History (H : MsigHost) (σ₀ : View) : List Entry → View → Prop
  | start : History H σ₀ [] σ₀
  | call {log : List Entry} {en : Entry} {σ σ' : View} : History H σ₀ log σ →
      CallEffect (fun id => en.isPublic id = true) en.call σ σ' → Ran H en.call → History H σ₀ (log ++ [en]) σ'
  | nonces {log : List Entry} {σ σ' : View} : History H σ₀ log σ → SameButNonces σ σ' → History H σ₀ log σ'

section
variable {H : MsigHost} {σ₀ σ σ' : View} {log : List Entry}

theorem History.effects {isPublic : AccountId → Bool} {es : List Executed} (h : History H σ₀ log σ)
    (heff : Effects (fun id => isPublic id = true) es σ σ') (hran : ∀ e ∈ es, Ran H e) :
    History H σ₀ (log ++ es.map fun e => ⟨e, isPublic⟩) σ' := by
  induction heff generalizing log with
  | nil => simpa using h
  | @cons e es σ τ σ' he _ ih =>
    have hnext : History H σ₀ (log ++ [⟨e, isPublic⟩]) τ := h.call he (hran e List.mem_cons_self)
    simpa using ih hnext fun e' he' => hran e' (List.mem_cons_of_mem _ he')

theorem applyStateDiff_sameButNonces {s s' : V03State} {diff : StateDiff} {H : Host}
    (h : s.applyStateDiff H diff = .some s') : SameButNonces (viewOf s diff.publicDiff) s'.getAccountById := by
  intro id
  obtain ⟨n, hn, -⟩ := applyStateDiff_account h id
  exact ⟨n, hn⟩

theorem deployment_sameButNonces {s s' : V03State} {bytecode : Bytes} {H : Host}
    (h : s.transitionFromProgramDeploymentTransaction H bytecode = .some s') :
    SameButNonces s.getAccountById s'.getAccountById := by
  obtain ⟨diff, hok, happly⟩ := V03State.settle_eq_some.mp h
  have hempty : diff.publicDiff = ∅ := by
    simp only [fromProgramDeploymentTransaction, bind_ok_iff, pure_ok_iff] at hok
    obtain ⟨_, -, _, -, rfl⟩ := hok
    rfl
  simpa [hempty] using applyStateDiff_sameButNonces happly

theorem History.step {s s' : V03State} {es : List Entry} (h : History H σ₀ log s.getAccountById)
    (hstep : Step H.toHost s es s') : History H σ₀ (log ++ es) s'.getAccountById := by
  cases hstep with
  | @publicTx tx blockId timestamp s' ht =>
    obtain ⟨diff, hok, happly⟩ := V03State.settle_eq_some.mp ht
    have hacc := fromPublicTransaction_ok hok
    have heff : Effects (fun _ => true = true) (publicCalls H.toHost s blockId timestamp tx)
        s.getAccountById (viewOf s diff.publicDiff) := by
      simpa using hacc.exec.effects
    exact (h.effects heff hacc.exec.ran).nonces (applyStateDiff_sameButNonces happly)
  | @privacyTx tx blockId timestamp s' i ht hcircuit =>
    obtain ⟨diff, hok, happly⟩ := V03State.settle_eq_some.mp ht
    obtain ⟨start, st, hrun⟩ := circuit_ok hcircuit
    obtain ⟨_, hreplay⟩ := hrun.replay
    have heff : Effects (fun id => decide (id ∈ tx.message.publicAccountIds) = true) (circuitCalls i)
        s.getAccountById (viewOf s diff.publicDiff) := by
      simpa using privacy_effects (fromPrivacyPreservingTransaction_ok hok).1 hcircuit
    exact (h.effects heff hreplay.ran).nonces (applyStateDiff_sameButNonces happly)
  | @deployment bytecode s' ht =>
    simpa using h.nonces (deployment_sameButNonces ht)

/-- **A run is a history of the public accounts.** -/
theorem Run.history {s s' : V03State} (h : Run H.toHost s log s') :
    History H s.getAccountById log s'.getAccountById := by
  induction h with
  | start => exact .start
  | next _ hstep ih => exact ih.step hstep

/-- The accounts as a logged call found and left them. -/
theorem History.before (h : History H σ₀ log σ) {before after : List Entry} {en : Entry}
    (hlog : log = before ++ en :: after) :
    ∃ τ τ', History H σ₀ before τ ∧ CallEffect (fun id => en.isPublic id = true) en.call τ τ' ∧ Ran H en.call ∧
      History H τ' after σ := by
  induction h generalizing after with
  | start => simp at hlog
  | @call log en' σ σ' hlog' heff hran ih =>
    rcases List.eq_nil_or_concat after with rfl | ⟨after', last, rfl⟩
    · obtain ⟨rfl, hen⟩ := List.append_inj' hlog rfl
      cases hen
      exact ⟨σ, σ', hlog', heff, hran, .start⟩
    · have hsplit : log ++ [en'] = (before ++ en :: after') ++ [last] := by simpa using hlog
      obtain ⟨hinit, hlast⟩ := List.append_inj' hsplit rfl
      cases hlast
      obtain ⟨τ, τ', h₁, h₂, h₃, h₄⟩ := ih hinit
      exact ⟨τ, τ', h₁, h₂, h₃, by simpa using h₄.call heff hran⟩
  | nonces _ hsame ih =>
    obtain ⟨τ, τ', h₁, h₂, h₃, h₄⟩ := ih hlog
    exact ⟨τ, τ', h₁, h₂, h₃, h₄.nonces hsame⟩

/-- Without calls only nonces move. -/
theorem History.quiet (h : History H σ₀ log σ) (hlog : log = []) : SameButNonces σ₀ σ := by
  induction h with
  | start => exact fun id => ⟨_, rfl⟩
  | call => simp at hlog
  | nonces _ hsame ih =>
    intro id
    obtain ⟨n, hn⟩ := ih hlog id
    obtain ⟨m, hm⟩ := hsame id
    exact ⟨m, by rw [hm, hn]⟩

end

end Lez
