/-
The data of a program's accounts. A call of another program leaves it, a
call of the program itself keeps an account, claims one that did not exist or
sees a stranger's that it cannot change (`SlotFate`). Over whole runs from
genesis, `Reached.invariant` reduces an invariant of the public accounts to
the calls of one transaction.
-/
import Lez.Trace.Run

namespace Lez

/-- The data of an account that belongs to the program. -/
def Account.ownedData (program : ProgramId) (a : Account) : Option Data :=
  if a.programOwner = program then .some a.data else .none

section
variable {isPublic : AccountId → Prop} {e : Executed} {σ σ' : View} {program : ProgramId}

theorem ownedData_eq_some {a : Account} {data : Data} :
    a.ownedData program = .some data ↔ a.programOwner = program ∧ a.data = data := by
  unfold Account.ownedData
  split
  next howner => simp [howner]
  next howner => simp [howner]

theorem ownedData_of_owner {a : Account} (h : a.programOwner = program) : a.ownedData program = .some a.data := if_pos h

theorem ownedData_of_stranger {a : Account} (h : a.programOwner ≠ program) : a.ownedData program = .none := if_neg h

theorem ownedData_default (hp : program ≠ defaultProgramId) : Account.default.ownedData program = .none :=
  ownedData_of_stranger (Ne.symm hp)

/-- The calls of others leave a program's accounts. -/
theorem CallEffect.ownedData_foreign (h : CallEffect isPublic e σ σ') (hp : program ≠ defaultProgramId)
    (hforeign : e.program ≠ program) (id : AccountId) : (σ' id).ownedData program = (σ id).ownedData program := by
  by_cases howned : (σ id).programOwner = program
  · have hown : (σ id).programOwner ≠ defaultProgramId := howned ▸ hp
    rw [ownedData_of_owner howned, ownedData_of_owner ((h.owner hown).trans howned),
      (h.foreign hown (by rw [howned]; exact Ne.symm hforeign)).1]
  · rw [ownedData_of_stranger howned]
    refine ownedData_of_stranger ?_
    rcases h.touched id with hsame | ⟨pre, post, -, -, -, -, hpost, hrules, -⟩
    · rwa [hsame]
    · rw [hpost, AccountPostState.settled]
      split
      next => exact hforeign
      next => exact hrules.owner ▸ howned

/-- **What a call of the program does with an account**, as far as its data is the program's. -/
inductive SlotFate (pre : Account) (post : AccountPostState) (before after : Option Data) : Prop
  | kept : pre ≠ Account.default → before = .some pre.data → after = .some post.account.data →
      SlotFate pre post before after
  | claimed : pre = Account.default → before = .none → after = .some post.account.data → SlotFate pre post before after
  | foreign : before = .none → after = .none → pre ≠ Account.default → post.account.data = pre.data →
      SlotFate pre post before after
  | unclaimed : pre = Account.default → post.claim = .none → before = .none → after = .none →
      SlotFate pre post before after

theorem CallEffect.fate (h : CallEffect isPublic e σ σ') (hp : e.program = program) (hne : program ≠ defaultProgramId)
    {pre : AccountWithMetadata} {post : AccountPostState} (hpp : (pre, post) ∈ e.changes)
    (hpub : isPublic pre.accountId) :
    SlotFate pre.account post ((σ pre.accountId).ownedData program) ((σ' pre.accountId).ownedData program) := by
  subst hp
  have hbefore : pre.account = σ pre.accountId := h.pre pre (List.of_mem_zip hpp).1 hpub
  have hafter := h.post _ hpp hpub
  have hrules := h.valid.rules _ hpp
  have hclaim := h.claim _ hpp hpub
  dsimp only at hafter hrules hclaim
  rw [← hbefore, hafter, AccountPostState.settled]
  by_cases howned : pre.account.programOwner = e.program
  · refine .kept (fun hdefault => hne (by rw [← howned, hdefault]; rfl)) (ownedData_of_owner howned) ?_
    split
    next => exact ownedData_of_owner rfl
    next => exact ownedData_of_owner (hrules.owner.trans howned)
  · by_cases hdefault : pre.account = Account.default
    · cases hc : post.claim with
      | none =>
        exact .unclaimed hdefault hc (ownedData_of_stranger howned) (ownedData_of_stranger (hrules.owner ▸ howned))
      | some c => exact .claimed hdefault (ownedData_of_stranger howned) (ownedData_of_owner rfl)
    · have hnone : post.claim = .none := by
        by_contra hsome
        exact hdefault (hrules.default (hclaim hsome))
      rw [hnone]
      exact .foreign (ownedData_of_stranger howned) (ownedData_of_stranger (hrules.owner ▸ howned)) hdefault
        (hrules.data howned hdefault)

end

/-! ## Runs -/

/-- A transaction of a run: a public one whose calls `Q` admits, or a deployment. -/
inductive LedgerStep (H : Host) (Q : PublicTransaction → List Executed → Prop) (s : V03State) : V03State → Prop
  | publicTx {tx : PublicTransaction} {blockId : BlockId} {timestamp : Timestamp} {s' : V03State} :
      s.transitionFromPublicTransaction H tx blockId timestamp = .some s' →
      Q tx (publicCalls H s blockId timestamp tx) → LedgerStep H Q s s'
  | deployment {bytecode : Bytes} {s' : V03State} :
      s.transitionFromProgramDeploymentTransaction H bytecode = .some s' → LedgerStep H Q s s'

/-- Reached from genesis by accepted public transactions and deployments. -/
def Reached (H : Host) (Q : PublicTransaction → List Executed → Prop) (s : V03State) : Prop :=
  ∃ initialData initialPrivate genesis s₀, newWithGenesisAccounts H initialData initialPrivate genesis = .some s₀ ∧
    Relation.ReflTransGen (LedgerStep H Q) s₀ s

section
variable {H : Host} {Q : PublicTransaction → List Executed → Prop} {s s' : V03State}

/-- At genesis every account that there is belongs to the transfer program or to the clock. -/
theorem genesis_owner {initialData : List (AccountId × U128)} {initialPrivate : List (Commitment × Nullifier)}
    {genesis : Timestamp} (h : newWithGenesisAccounts H initialData initialPrivate genesis = .some s) (id : AccountId) :
    s.getAccountById id = Account.default ∨ (s.getAccountById id).programOwner = H.authenticatedTransfer.id ∨
      (s.getAccountById id).programOwner = H.clock.id := by
  unfold V03State.getAccountById Table.getD
  cases hl : s.publicState.lookup id with
  | none => exact .inl rfl
  | some a => exact .inr (genesis_lookup h hl).1

/-- **Invariants of the public accounts over runs.** -/
theorem Reached.invariant {P : View → Prop} (h : Reached H Q s)
    (hgenesis : ∀ σ : View, (∀ id, σ id = Account.default ∨ (σ id).programOwner = H.authenticatedTransfer.id ∨
      (σ id).programOwner = H.clock.id) → P σ)
    (hnonce : ∀ σ σ' : View, SameButNonces σ σ' → P σ → P σ')
    (hcalls : ∀ s tx blockId timestamp diff, PublicAccepted H tx s blockId timestamp diff →
      Q tx (publicCalls H s blockId timestamp tx) → P s.getAccountById → P (viewOf s diff.publicDiff)) :
    P s.getAccountById := by
  obtain ⟨_, _, _, s₀, hs₀, hrun⟩ := h
  induction hrun with
  | refl => exact hgenesis _ (genesis_owner hs₀)
  | @tail s s' _ hstep ih =>
    cases hstep with
    | @publicTx tx blockId timestamp _ htx hq =>
      obtain ⟨diff, hok, happly⟩ := V03State.settle_eq_some.mp htx
      exact hnonce _ _ (applyStateDiff_sameButNonces happly) (hcalls s tx _ _ diff (fromPublicTransaction_ok hok) hq ih)
    | deployment htx => exact hnonce _ _ (deployment_sameButNonces htx) ih

/-! ## Computed runs -/

theorem steps_of_runPublic : ∀ {txs : List PublicTransaction} {s s' : V03State} {es : List Executed},
    runPublic H s txs = .some (es, s') → (∀ tx ∈ txs, ∀ calls : List Executed, (∀ e ∈ calls, e ∈ es) → Q tx calls) →
    Relation.ReflTransGen (LedgerStep H Q) s s'
  | [], s, s', es, h, _ => by
    cases h
    exact .refl
  | tx :: txs, s, s', es, h, hq => by
    simp only [runPublic, Option.bind_eq_bind, Option.bind_eq_some_iff, Prod.exists] at h
    obtain ⟨s₁, hs₁, es', s₂, hrest, h⟩ := h
    cases h
    have hfirst : LedgerStep H Q s s₁ := .publicTx hs₁ (hq tx List.mem_cons_self _ fun e he => List.mem_append_left _ he)
    refine Relation.ReflTransGen.head hfirst (steps_of_runPublic hrest ?_)
    intro tx' htx' calls hcalls
    exact hq tx' (List.mem_cons_of_mem _ htx') calls fun e he => List.mem_append_right _ (hcalls e he)

theorem steps_of_deployments : ∀ {bytecodes : List Bytes} {s s' : V03State},
    bytecodes.foldlM (fun s b => s.transitionFromProgramDeploymentTransaction H b) s = .some s' →
      Relation.ReflTransGen (LedgerStep H Q) s s'
  | [], s, s', h => by
    cases h
    exact .refl
  | b :: bs, s, s', h => by
    rw [List.foldlM_cons, Option.bind_eq_bind, Option.bind_eq_some_iff] at h
    obtain ⟨s₁, hs₁, h⟩ := h
    exact Relation.ReflTransGen.head (.deployment hs₁) (steps_of_deployments h)

theorem reached_of_run {initialData : List (AccountId × U128)} {bytecodes : List Bytes}
    {txs : List PublicTransaction} {es : List Executed} (h : runFromGenesis H initialData bytecodes txs = .some (es, s))
    (hq : ∀ tx ∈ txs, ∀ calls : List Executed, (∀ e ∈ calls, e ∈ es) → Q tx calls) : Reached H Q s := by
  simp only [runFromGenesis, Option.bind_eq_bind, Option.bind_eq_some_iff] at h
  obtain ⟨s₀, hs₀, s₁, hs₁, h⟩ := h
  exact ⟨_, _, _, s₀, hs₀, (steps_of_deployments hs₁).trans (steps_of_runPublic h hq)⟩

end

end Lez
