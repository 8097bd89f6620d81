/-
Executed calls and what one of them does to the public accounts, told once
for both kinds of transaction. `CallEffect` is everything the ledger and the
circuit enforce of a call; `CallEffect.touched` is the inversion every
invariant of the public state is proved from, and `Effects` a sequence of
calls.
-/
import Lez.Core.ProgramFacts

namespace Lez

/-- A step down a call tree: `caller` made `call`. -/
structure Frame where
  caller : ProgramId
  call : ChainedCall
deriving DecidableEq

/-- A call that was executed: the call, the steps from it up to the root
(innermost first) and what the program answered. -/
structure Executed where
  call : ChainedCall
  path : List Frame
  output : ProgramOutput
deriving DecidableEq

namespace Executed

def program (e : Executed) : ProgramId := e.call.programId

/-- The accounts of the output. -/
def accountIds (e : Executed) : List AccountId := e.output.preStates.map (·.accountId)

/-- Pre-states with their post states. -/
def changes (e : Executed) : List (AccountWithMetadata × AccountPostState) :=
  e.output.preStates.zip e.output.postStates

/-- The calls it made, each with its path. -/
def callees (e : Executed) : List (ChainedCall × List Frame) :=
  e.output.chainedCalls.map fun c => (c, ⟨e.program, c⟩ :: e.path)

theorem mem_callees {e : Executed} {c : ChainedCall} {path : List Frame} :
    (c, path) ∈ e.callees ↔ c ∈ e.output.chainedCalls ∧ path = ⟨e.program, c⟩ :: e.path := by
  simp only [callees, List.mem_map, Prod.mk.injEq]
  constructor
  · rintro ⟨c, hc, rfl, rfl⟩
    exact ⟨hc, rfl⟩
  · rintro ⟨hc, rfl⟩
    exact ⟨c, hc, rfl, rfl⟩

end Executed

/-- Calls in the order of a work list: the first call one makes is the next one executed. -/
def CalleesFollow (calls : List Executed) : Prop :=
  ∀ before e after c cs, calls = before ++ e :: after → e.output.chainedCalls = c :: cs →
    ∃ f rest, after = f :: rest ∧ f.call = c ∧ f.path = ⟨e.program, c⟩ :: e.path

/-- **Authority that comes down a path**: a signer's, or of a seed that a
caller on the path passed in the call it made there. -/
def PathAuthority (sha256 : Bytes → Bytes32) (signers : List AccountId) (path : List Frame) (id : AccountId) : Prop :=
  id ∈ signers ∨ ∃ f ∈ path, ∃ seed ∈ f.call.pdaSeeds, id = forPublicPda sha256 f.caller seed

instance (sha256 : Bytes → Bytes32) (signers : List AccountId) (path : List Frame) (id : AccountId) :
    Decidable (PathAuthority sha256 signers path id) :=
  inferInstanceAs (Decidable (_ ∨ _))

theorem PathAuthority.cons {sha256 : Bytes → Bytes32} {signers : List AccountId} {path : List Frame} {id : AccountId}
    (h : PathAuthority sha256 signers path id) (f : Frame) : PathAuthority sha256 signers (f :: path) id := by
  rcases h with hs | ⟨g, hg, hseed⟩
  · exact .inl hs
  · exact .inr ⟨g, List.mem_cons_of_mem _ hg, hseed⟩

/-- The account a post state of a program leaves. -/
def AccountPostState.settled (p : AccountPostState) (program : ProgramId) : Account :=
  if p.claim.isSome then { p.account with programOwner := program } else p.account

/-- The public accounts. -/
abbrev View := AccountId → Account

/-- **What a call does to the public accounts** among those it names, `isPublic` of them. -/
structure CallEffect (isPublic : AccountId → Prop) (e : Executed) (σ σ' : View) : Prop where
  self : e.output.selfProgramId = e.program
  valid : ValidExecution e.program e.output
  pre : ∀ a ∈ e.output.preStates, isPublic a.accountId → a.account = σ a.accountId
  post : ∀ pp ∈ e.changes, isPublic pp.1.accountId → σ' pp.1.accountId = pp.2.settled e.program
  claim : ∀ pp ∈ e.changes, isPublic pp.1.accountId → pp.2.claim ≠ .none →
    pp.2.account.programOwner = defaultProgramId
  frame : ∀ id, ¬(id ∈ e.accountIds ∧ isPublic id) → σ' id = σ id

/-- What a call did to a public account it names: one change of the output,
and one that obeys the rules. -/
theorem CallEffect.named {isPublic : AccountId → Prop} {e : Executed} {σ σ' : View}
    (h : CallEffect isPublic e σ σ') {id : AccountId} (hid : id ∈ e.accountIds) (hpub : isPublic id) :
    ∃ pre post, (pre, post) ∈ e.changes ∧ pre.accountId = id ∧ pre.account = σ id ∧
      σ' id = post.settled e.program ∧ AccountRules e.program (σ id) post.account ∧
      (post.claim ≠ .none → σ id = Account.default) := by
  obtain ⟨pre, hpre, rfl⟩ := List.mem_map.mp hid
  obtain ⟨i, hi, hget⟩ := List.getElem_of_mem hpre
  have hi' : i < e.output.postStates.length := h.valid.length ▸ hi
  have hzip : (pre, e.output.postStates[i]) ∈ e.changes := by
    have hz : i < e.changes.length := by simp [Executed.changes, hi, hi']
    have hm : e.changes[i] ∈ e.changes := List.getElem_mem hz
    simpa [Executed.changes, hget] using hm
  have hσ := h.pre pre hpre hpub
  have hrules := hσ ▸ h.valid.rules _ hzip
  refine ⟨pre, e.output.postStates[i], hzip, rfl, hσ, h.post _ hzip hpub, hrules, ?_⟩
  intro hclaim
  exact hrules.default (h.claim _ hzip hpub hclaim)

/-- **What can have happened to an account**: nothing, or one change of the
output that obeys the rules. -/
theorem CallEffect.touched {isPublic : AccountId → Prop} {e : Executed} {σ σ' : View}
    (h : CallEffect isPublic e σ σ') (id : AccountId) :
    σ' id = σ id ∨ ∃ pre post, (pre, post) ∈ e.changes ∧ pre.accountId = id ∧ isPublic id ∧
      pre.account = σ id ∧ σ' id = post.settled e.program ∧ AccountRules e.program (σ id) post.account ∧
      (post.claim ≠ .none → σ id = Account.default) := by
  by_cases hid : id ∈ e.accountIds ∧ isPublic id
  · obtain ⟨pre, post, hmem, hpre, hrest⟩ := h.named hid.1 hid.2
    exact .inr ⟨pre, post, hmem, hpre, hid.2, hrest⟩
  · exact .inl (h.frame id hid)

section
variable {isPublic : AccountId → Prop} {e : Executed} {σ σ' : View}

/-- No call moves the nonce of an account. -/
theorem CallEffect.nonce (h : CallEffect isPublic e σ σ') (id : AccountId) : (σ' id).nonce = (σ id).nonce := by
  rcases h.touched id with hsame | ⟨pre, post, -, -, -, -, hpost, hrules, -⟩
  · rw [hsame]
  · rw [hpost, AccountPostState.settled]
    split <;> exact hrules.nonce

/-- An owned account keeps its owner. -/
theorem CallEffect.owner (h : CallEffect isPublic e σ σ') {id : AccountId}
    (howned : (σ id).programOwner ≠ defaultProgramId) : (σ' id).programOwner = (σ id).programOwner := by
  rcases h.touched id with hsame | ⟨pre, post, -, -, -, -, hpost, hrules, hclaim⟩
  · rw [hsame]
  · rw [hpost, AccountPostState.settled]
    split
    next hc =>
      have hdef := hclaim (by intro hn; simp [hn] at hc)
      exact absurd (by rw [hdef]; rfl) howned
    next => exact hrules.owner

/-- An owned account is written by its owner only: any other program leaves
its data and takes nothing from it. -/
theorem CallEffect.foreign (h : CallEffect isPublic e σ σ') {id : AccountId}
    (howned : (σ id).programOwner ≠ defaultProgramId) (hforeign : (σ id).programOwner ≠ e.program) :
    (σ' id).data = (σ id).data ∧ (σ id).balance ≤ (σ' id).balance := by
  have hnd : σ id ≠ Account.default := fun hd => howned (by rw [hd]; rfl)
  rcases h.touched id with hsame | ⟨pre, post, -, -, -, -, hpost, hrules, -⟩
  · rw [hsame]
    exact ⟨rfl, BitVec.le_refl _⟩
  · rw [hpost, AccountPostState.settled]
    split <;> exact ⟨hrules.data hforeign hnd, hrules.balance hforeign⟩

end

/-! ## Sequences of calls -/

/-- Calls one after the other. -/
inductive Effects (isPublic : AccountId → Prop) : List Executed → View → View → Prop
  | nil (σ : View) : Effects isPublic [] σ σ
  | cons {e : Executed} {es : List Executed} {σ σ' σ'' : View} :
      CallEffect isPublic e σ σ' → Effects isPublic es σ' σ'' → Effects isPublic (e :: es) σ σ''

/-- The accounts as a call of the sequence found and left them. -/
theorem Effects.before {isPublic : AccountId → Prop} {es : List Executed} {σ σ' : View} {e : Executed}
    (h : Effects isPublic es σ σ') (he : e ∈ es) :
    ∃ es₁ τ τ', Effects isPublic es₁ σ τ ∧ CallEffect isPublic e τ τ' := by
  induction h with
  | nil => simp at he
  | @cons e' es σ τ σ' heff _ ih =>
    rcases List.mem_cons.mp he with rfl | he
    · exact ⟨[], σ, τ, .nil σ, heff⟩
    · obtain ⟨es₁, υ, υ', hes₁, hcall⟩ := ih he
      exact ⟨e' :: es₁, υ, υ', .cons heff hes₁, hcall⟩

/-- An account that no call names stays as it is. -/
theorem Effects.frame {isPublic : AccountId → Prop} {es : List Executed} {σ σ' : View} {id : AccountId}
    (h : Effects isPublic es σ σ') (hnot : ∀ e ∈ es, id ∉ e.accountIds) : σ' id = σ id := by
  induction h with
  | nil => rfl
  | @cons e es σ τ σ' heff _ ih =>
    have hstep : τ id = σ id := heff.frame id fun hm => hnot e List.mem_cons_self hm.1
    rw [ih fun e' he' => hnot e' (List.mem_cons_of_mem _ he'), hstep]

/-- An owned account keeps its owner over a sequence. -/
theorem Effects.owner {isPublic : AccountId → Prop} {es : List Executed} {σ σ' : View} {id : AccountId}
    (h : Effects isPublic es σ σ') (howned : (σ id).programOwner ≠ defaultProgramId) :
    (σ' id).programOwner = (σ id).programOwner := by
  induction h with
  | nil => rfl
  | cons heff _ ih =>
    have hstep := heff.owner howned
    rw [ih (hstep ▸ howned), hstep]

end Lez
