/-
Pools over runs. What is asked of the calls of a transaction (`SoundCalls`),
the invariant they keep (`Pools`), and the calls between two rounds of the
AMM: they have no authority over the accounts of a pool.
-/
import Lez.Amm.Pools

namespace Lez.Amm

open Token (TokenHolding TokenDefinition holdingIn definitionIn Books)

/-! ## What is asked of a transaction -/

/-- The account the AMM takes its token program from belongs to the token program: the user's first holding, and in
a swap the one that pays. -/
def Instruction.PaidInTokens (token : ProgramId) (pre : List AccountWithMetadata) : Instruction → Prop
  | swapExactInput _ _ tokenIn | swapExactOutput _ _ tokenIn =>
    ∀ pool vaultA vaultB userA userB p, pre = [pool, vaultA, vaultB, userA, userB] →
      PoolDefinition.tryFrom pool.account.data = .some p →
      (if tokenIn = p.definitionTokenAId then userA else userB).account.programOwner = token
  | newDefinition .. | addLiquidity .. | removeLiquidity .. =>
    ∀ a : PoolAccounts, pre = a.toList → a.userA.account.programOwner = token

/-- The larger id comes first. -/
def poolPreimage (a b : AccountId) : Bytes := if a.toList < b.toList then pairPreimage (b, a) else pairPreimage (a, b)

/-- The preimages of the ids that a new pool brings into play. -/
def newPoolPreimages (H : AmmHost) (amm : ProgramId) (pre : List AccountWithMetadata) : Set Bytes :=
  {q | ∃ a : PoolAccounts, ∃ holdingA holdingB, pre = a.toList ∧
    TokenHolding.tryFrom a.userA.account.data = .some holdingA ∧
    TokenHolding.tryFrom a.userB.account.data = .some holdingB ∧
    q ∈ [pairPreimage (a.pool.accountId, holdingA.definitionId), pairPreimage (a.pool.accountId, holdingB.definitionId),
      pairPreimage (a.pool.accountId, ByteVec.fill 32 0),
      publicPdaPreimage amm (H.sha256 (poolPreimage holdingA.definitionId holdingB.definitionId)),
      publicPdaPreimage H.amm.id (H.sha256 (poolPreimage holdingA.definitionId holdingB.definitionId))]}

/-- **What is asked of the calls of a transaction**: plain calls of the token program, calls of the AMM that pay in
tokens and meet `Cond`, and no preimage outside of `P`. -/
structure SoundCalls (H : AmmHost) (Cond : Instruction → PoolDefinition → Prop) (P : Set Bytes) (tx : PublicTransaction)
    (calls : List Executed) : Prop where
  plain : Token.PlainCalls H.toTokenHost tx calls
  paid : ∀ e ∈ calls, e.program = H.amm.id → ∀ i, H.readAmm e.call.instructionData = .some i →
    i.PaidInTokens H.token.id e.call.preStates
  cond : ∀ e ∈ calls, e.program = H.amm.id → ∀ i, H.readAmm e.call.instructionData = .some i →
    ∀ pool ∈ e.call.preStates.head?, ∀ p, PoolDefinition.tryFrom pool.account.data = .some p → Cond i p
  signers : ∀ sk ∈ tx.signaturesAndPublicKeys, publicKeyPreimage sk.2 ∈ P
  seeds : ∀ e ∈ calls, ∀ f ∈ e.path, ∀ seed ∈ f.call.pdaSeeds, publicPdaPreimage f.caller seed ∈ P
  pools : ∀ e ∈ calls, e.program = H.amm.id → ∀ a b amm,
    H.readAmm e.call.instructionData = .some (.newDefinition a b amm) → newPoolPreimages H amm e.call.preStates ⊆ P

/-- The invariant: the token program's books are in order, and so is every account of the AMM. -/
structure Pools (H : AmmHost) (P : Set Bytes) (J : PoolView → Prop) (σ : View) : Prop where
  books : Books H.token.id σ
  pools : ∀ id data, (σ id).ownedData H.amm.id = .some data →
    ∃ p, PoolDefinition.tryFrom data = .some p ∧ PoolOk H P σ id p ∧ J (p.view H.token.id σ)

section
variable {H : AmmHost} {Cond : Instruction → PoolDefinition → Prop} {J : PoolView → Prop} {P : Set Bytes} {s : V03State}
  {blockId : BlockId} {timestamp : Timestamp} {tx : PublicTransaction} {diff : StateDiff} {e : Executed} {σ σ' : View}

/-- **Authority over an account of a pool** is passed down by the AMM, for that pool: a call that the AMM did not
make for the pool has none. -/
theorem not_authorized (hacc : PublicAccepted H.toHost tx s blockId timestamp diff) (hfree : Set.InjOn H.sha256 P)
    (hsound : SoundCalls H Cond P tx (publicCalls H.toHost s blockId timestamp tx))
    (he : e ∈ publicCalls H.toHost s blockId timestamp tx) {pool t id : AccountId} (hd : Derived H P pool t id)
    (hpath : ∀ f ∈ e.path, f.caller = H.amm.id → ∀ seed ∈ f.call.pdaSeeds,
      ∃ pool' t', pool' ≠ pool ∧ seed = H.sha256 (pairPreimage (pool', t')) ∧ pairPreimage (pool', t') ∈ P) :
    ∀ a ∈ e.output.preStates, a.accountId = id → a.isAuthorized = false := by
  intro a ha hid
  by_contra hflag
  rw [Bool.not_eq_false] at hflag
  have hauth := hacc.authority e he a ha hflag
  rw [hid, hd.id] at hauth
  rcases hauth with hsigner | ⟨f, hf, seed, hseed, heq⟩
  · obtain ⟨sk, hsk, heq⟩ := List.mem_map.mp hsigner
    exact publicPdaPreimage_ne_publicKeyPreimage (hfree hd.seed (hsound.signers sk hsk) heq.symm)
  · obtain ⟨hcaller, rfl⟩ := publicPdaPreimage_inj (hfree hd.seed (hsound.seeds e he f hf seed hseed) heq)
    obtain ⟨pool', t', hne, hsame, hpair⟩ := hpath f hf hcaller.symm _ hseed
    exact hne (congrArg Prod.fst (pairPreimage_injective (hfree hd.pair hpair hsame))).symm

/-- The books after any call. -/
theorem Books.executed (hacc : PublicAccepted H.toHost tx s blockId timestamp diff)
    (hsound : SoundCalls H Cond P tx (publicCalls H.toHost s blockId timestamp tx))
    (he : e ∈ publicCalls H.toHost s blockId timestamp tx) (heff : CallEffect (fun _ => True) e σ σ')
    (h : Books H.token.id σ) : Books H.token.id σ' := by
  refine h.call heff H.token_ne_default ?_
  intro hp
  obtain ⟨i, hi, hans, hpre, -⟩ := Token.token_answered hacc he hp
  exact ⟨i, hans, hpre ▸ hsound.plain e he hp i hi⟩

/-- **Calls outside of the AMM's rounds** keep every pool. -/
theorem Pools.other (hkept : Kept Cond J) (hacc : PublicAccepted H.toHost tx s blockId timestamp diff)
    (hfree : Set.InjOn H.sha256 P) (hsound : SoundCalls H Cond P tx (publicCalls H.toHost s blockId timestamp tx))
    (he : e ∈ publicCalls H.toHost s blockId timestamp tx) (hp : e.program ≠ H.amm.id)
    (hpath : ∀ f ∈ e.path, f.caller ≠ H.amm.id) (heff : CallEffect (fun _ => True) e σ σ') (h : Pools H P J σ) :
    Pools H P J σ' := by
  refine ⟨Books.executed hacc hsound he heff h.books, ?_⟩
  intro id data hdata
  rw [heff.ownedData_foreign H.amm_ne_default hp] at hdata
  obtain ⟨p, hread, hok, hj⟩ := h.pools id data hdata
  obtain ⟨hok', hdrift⟩ := hok.call h.books heff
    (fun hp => by
      obtain ⟨i, -, hans, -, -⟩ := Token.token_answered hacc he hp
      exact ⟨i, hans⟩)
    fun t v hv => not_authorized hacc hfree hsound he hv fun f hf hcaller => absurd hcaller (hpath f hf)
  exact ⟨p, hread, hok', hkept.drift _ _ hdrift hj⟩

end

/-! ## A round, seen from the other pools -/

section
variable {H : AmmHost} {Cond : Instruction → PoolDefinition → Prop} {J : PoolView → Prop} {P : Set Bytes} {s : V03State}
  {blockId : BlockId} {timestamp : Timestamp} {tx : PublicTransaction} {diff : StateDiff} {g : Executed}
  {ts : List Executed} {σ σ₁ σ' : View} {poolId : AccountId}

/-- The calls of a round are the token program's, made by the AMM for one pool. -/
structure RoundCall (H : AmmHost) (P : Set Bytes) (log : List Executed) (g : Executed) (poolId : AccountId)
    (t : Executed) : Prop where
  executed : t ∈ log
  program : t.program = H.token.id
  path : t.path = ⟨H.amm.id, t.call⟩ :: g.path
  seeds : ∀ seed ∈ t.call.pdaSeeds, ∃ x, seed = H.sha256 (pairPreimage (poolId, x)) ∧ pairPreimage (poolId, x) ∈ P

/-- The rest of a round, seen from another pool. -/
theorem PoolOk.roundCalls (hacc : PublicAccepted H.toHost tx s blockId timestamp diff) (hfree : Set.InjOn H.sha256 P)
    (hsound : SoundCalls H Cond P tx (publicCalls H.toHost s blockId timestamp tx))
    (houtermost : ∀ f ∈ g.path, f.caller ≠ H.amm.id) {id : AccountId} (hne : poolId ≠ id) {p : PoolDefinition}
    (heffs : Effects (fun _ => True) ts σ₁ σ')
    (hcalls : ∀ t ∈ ts, RoundCall H P (publicCalls H.toHost s blockId timestamp tx) g poolId t)
    (hbooks : Books H.token.id σ₁) (hok : PoolOk H P σ₁ id p) :
    PoolOk H P σ' id p ∧ Drift (p.view H.token.id σ₁) (p.view H.token.id σ') := by
  induction heffs with
  | nil => exact ⟨hok, Drift.refl _⟩
  | @cons t ts σ₁ σ₂ σ' heff _ ih =>
    have ht := hcalls t List.mem_cons_self
    obtain ⟨i, -, hans, -, -⟩ := Token.token_answered hacc ht.executed ht.program
    obtain ⟨hok₂, hdrift⟩ := hok.call hbooks heff (fun _ => ⟨i, hans⟩) fun x v hv =>
      not_authorized hacc hfree hsound ht.executed hv fun f hf hcaller seed hseed => by
        rw [ht.path] at hf
        rcases List.mem_cons.mp hf with rfl | hf
        · obtain ⟨y, hy, hyP⟩ := ht.seeds seed hseed
          exact ⟨poolId, y, hne, hy, hyP⟩
        · exact absurd hcaller (houtermost f hf)
    obtain ⟨hok', hdrift'⟩ := ih (fun t' ht' => hcalls t' (List.mem_cons_of_mem _ ht'))
      (Books.executed hacc hsound ht.executed heff hbooks) hok₂
    exact ⟨hok', hdrift.trans hdrift'⟩

/-- The calls of a round leave the AMM's accounts and keep the books. -/
theorem Effects.roundCalls (hacc : PublicAccepted H.toHost tx s blockId timestamp diff)
    (hsound : SoundCalls H Cond P tx (publicCalls H.toHost s blockId timestamp tx))
    (heffs : Effects (fun _ => True) ts σ₁ σ')
    (hcalls : ∀ t ∈ ts, RoundCall H P (publicCalls H.toHost s blockId timestamp tx) g poolId t)
    (hbooks : Books H.token.id σ₁) :
    Books H.token.id σ' ∧ ∀ id, (σ' id).ownedData H.amm.id = (σ₁ id).ownedData H.amm.id := by
  induction heffs with
  | nil => exact ⟨hbooks, fun _ => rfl⟩
  | @cons t ts σ₁ σ₂ σ' heff _ ih =>
    have ht := hcalls t List.mem_cons_self
    obtain ⟨hbooks', hsame⟩ := ih (fun t' ht' => hcalls t' (List.mem_cons_of_mem _ ht'))
      (Books.executed hacc hsound ht.executed heff hbooks)
    refine ⟨hbooks', ?_⟩
    intro id
    rw [hsame, heff.ownedData_foreign H.amm_ne_default (by rw [ht.program]; exact Ne.symm H.amm_ne_token)]

/-- The AMM writes the first account it gets and no other. -/
theorem rest_untouched {e : Executed} {pool : AccountWithMetadata} {rest : List AccountWithMetadata}
    {post : AccountPostState} (heff : CallEffect (fun _ => True) e σ σ') (hpre : e.output.preStates = pool :: rest)
    (hpost : e.output.postStates = post :: rest.map fun a => .new a.account) {id : AccountId}
    (hne : id ≠ pool.accountId) : σ' id = σ id := by
  rcases heff.touched id with hsame | ⟨a, q, hpp, rfl, -, hbefore, hafter, -⟩
  · exact hsame
  · rw [Executed.changes, hpre, hpost, List.zip_cons_cons] at hpp
    rcases List.mem_cons.mp hpp with hhead | hpp
    · cases hhead
      exact absurd rfl hne
    · have hzip : (rest.zip (rest.map fun a => AccountPostState.new a.account)) =
          rest.map fun a => (a, .new a.account) := by
        simpa using List.zip_map' (f := id) (g := fun a : AccountWithMetadata => AccountPostState.new a.account) (l := rest)
      rw [hzip] at hpp
      obtain ⟨b, -, heq⟩ := List.mem_map.mp hpp
      cases heq
      rw [hafter, ← hbefore]
      rfl

/-- **A round of the AMM**: what it does to its own pool is left to be shown, the other pools drift. -/
theorem Pools.round (hkept : Kept Cond J) (hacc : PublicAccepted H.toHost tx s blockId timestamp diff)
    (hfree : Set.InjOn H.sha256 P) (hsound : SoundCalls H Cond P tx (publicCalls H.toHost s blockId timestamp tx))
    (h : Pools H P J σ) {pool : AccountWithMetadata} {rest : List AccountWithMetadata} {post : AccountPostState}
    (hg : g ∈ publicCalls H.toHost s blockId timestamp tx) (hp : g.program = H.amm.id)
    (houtermost : ∀ f ∈ g.path, f.caller ≠ H.amm.id) (hpre : g.output.preStates = pool :: rest)
    (hpost : g.output.postStates = post :: rest.map fun a => .new a.account)
    (heff : CallEffect (fun _ => True) g σ σ₁) (heffs : Effects (fun _ => True) ts σ₁ σ')
    (hcalls : ∀ t ∈ ts, RoundCall H P (publicCalls H.toHost s blockId timestamp tx) g pool.accountId t)
    (hpool : ∀ data, (σ₁ pool.accountId).ownedData H.amm.id = .some data → ∃ q, PoolDefinition.tryFrom data = .some q ∧
      PoolOk H P σ' pool.accountId q ∧ J (q.view H.token.id σ')) : Pools H P J σ' := by
  have hbooks₁ := Books.executed hacc hsound hg heff h.books
  obtain ⟨hbooks', hsame⟩ := Effects.roundCalls hacc hsound heffs hcalls hbooks₁
  refine ⟨hbooks', ?_⟩
  intro id data hdata
  rw [hsame] at hdata
  by_cases hid : id = pool.accountId
  · subst hid
    exact hpool data hdata
  · rw [rest_untouched heff hpre hpost hid] at hdata
    obtain ⟨p, hread, hok, hj⟩ := h.pools id data hdata
    obtain ⟨hok₁, hdrift₁⟩ := hok.call h.books heff
      (fun hq => absurd (hp.symm.trans hq) H.amm_ne_token)
      fun x v hv => not_authorized hacc hfree hsound hg hv fun f hf hcaller => absurd hcaller (houtermost f hf)
    obtain ⟨hok', hdrift'⟩ := hok₁.roundCalls hacc hfree hsound houtermost (Ne.symm hid) heffs hcalls hbooks₁
    exact ⟨p, hread, hok', hkept.drift _ _ (hdrift₁.trans hdrift') hj⟩

end

end Lez.Amm
