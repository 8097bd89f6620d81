/-
The rounds of the AMM, instruction by instruction: its call writes the pool,
the token program's calls after it move the tokens, and together they are a
move of the abstract pool.
-/
import Lez.Amm.PoolRuns

namespace Lez.Amm

open Token (TokenHolding TokenDefinition holdingIn definitionIn Books Transfers)

theorem amount_lt (h : TokenHolding) : h.amount < 2 ^ 128 := by
  cases h with
  | fungible _ balance => exact balance.isLt
  | nftMaster _ printBalance => exact printBalance.isLt
  | nftPrintedCopy _ owned => cases owned <;> simp [TokenHolding.amount]

/-- A pool that is read and written differently is an account of the AMM. -/
theorem pool_written {pool : Account} {post : AccountPostState} {before after : Option Data}
    (hf : SlotFate pool post before after) {p q : PoolDefinition} (hp : PoolDefinition.tryFrom pool.data = .some p)
    (hq : PoolDefinition.tryFrom post.account.data = .some q) (hne : q ≠ p) :
    before = .some pool.data ∧ after = .some post.account.data := by
  have hnd : pool ≠ Account.default := by
    intro hdefault
    rw [hdefault] at hp
    cases hp
  cases hf with
  | kept _ hb ha => exact ⟨hb, ha⟩
  | claimed hdefault => exact absurd hdefault hnd
  | foreign _ _ _ hsame =>
    rw [hsame] at hq
    exact absurd (Option.some.inj (hq.symm.trans hp)) hne
  | unclaimed hdefault => exact absurd hdefault hnd

/-! ## The calls of a round -/

section
variable {H : AmmHost} {Cond : Instruction → PoolDefinition → Prop} {P : Set Bytes} {s : V03State} {blockId : BlockId}
  {timestamp : Timestamp} {tx : PublicTransaction} {diff : StateDiff} {g t : Executed} {ts : List Executed}
  {σ σ₁ σ' : View} {poolId : AccountId}

theorem roundCall_of_mem (hround : Round H.amm.id (publicCalls H.toHost s blockId timestamp tx) g ts σ σ')
    (hcallee : ∀ c ∈ g.output.chainedCalls, c.programId = H.token.id ∧
      ∀ seed ∈ c.pdaSeeds, ∃ x, seed = H.sha256 (pairPreimage (poolId, x)) ∧ pairPreimage (poolId, x) ∈ P) :
    ∀ t ∈ ts, RoundCall H P (publicCalls H.toHost s blockId timestamp tx) g poolId t := by
  intro t ht
  have hc : t.call ∈ g.output.chainedCalls := hround.calls ▸ List.mem_map.mpr ⟨t, ht, rfl⟩
  exact ⟨hround.made t ht, (hcallee _ hc).1, hround.paths t ht, (hcallee _ hc).2⟩

/-- A transfer that the AMM asked for. -/
theorem transfers_of_round (hacc : PublicAccepted H.toHost tx s blockId timestamp diff)
    (ht : t ∈ publicCalls H.toHost s blockId timestamp tx) (heff : CallEffect (fun _ => True) t σ σ')
    (hbooks : Books H.token.id σ) {first second : AccountWithMetadata} {amount : U128} {seeds : List PdaSeed}
    (hcall : t.call = tokenCall H.writeToken H.token.id [first, second] (.transfer amount) seeds) :
    Transfers H.token.id σ σ' first second amount := by
  obtain ⟨hp, hpre, hprocess⟩ := token_answered_call hacc ht (t := .transfer amount) trivial hcall
  obtain ⟨_, _, heq, htransfer⟩ := Token.process_transfer_ok hprocess
  cases heq
  exact Token.transfers_of_call heff hp H.token_ne_default hpre htransfer hbooks.tidy

/-- What the AMM reads of a holding of the token program. -/
theorem holding_read (heff : CallEffect (fun _ => True) g σ σ₁) {vault : AccountWithMetadata}
    (hmem : vault ∈ g.output.preStates) {h : TokenHolding} (hh : holdingIn H.token.id σ vault.accountId = .some h) :
    TokenHolding.tryFrom vault.account.data = .some h := by
  obtain ⟨data, hdata, hread⟩ := Option.bind_eq_some_iff.mp hh
  obtain ⟨-, rfl⟩ := ownedData_eq_some.mp hdata
  rw [heff.pre vault hmem trivial]
  exact hread

/-- The call of the AMM leaves the token program's accounts. -/
theorem token_data_kept (heff : CallEffect (fun _ => True) g σ σ₁) (hp : g.program = H.amm.id) :
    (∀ id, holdingIn H.token.id σ₁ id = holdingIn H.token.id σ id) ∧
      ∀ id, definitionIn H.token.id σ₁ id = definitionIn H.token.id σ id := by
  have hsame := heff.ownedData_foreign H.token_ne_default (by rw [hp]; exact H.amm_ne_token)
  exact ⟨fun id => by rw [holdingIn, hsame, holdingIn], fun id => by rw [definitionIn, hsame, definitionIn]⟩

/-- **The two transfers of a swap**, from a side's user to its vault and from the other vault to its user. -/
theorem swap_transfers (hacc : PublicAccepted H.toHost tx s blockId timestamp diff)
    (hsound : SoundCalls H Cond P tx (publicCalls H.toHost s blockId timestamp tx))
    (hround : Round H.amm.id (publicCalls H.toHost s blockId timestamp tx) g ts σ σ')
    (heffs : Effects (fun _ => True) ts σ₁ σ') (hbooks : Books H.token.id σ₁)
    {userD vaultD vaultW userW : AccountWithMetadata} {deposit withdraw : U128} {pool definitionId : AccountId}
    (hcalls : g.output.chainedCalls =
      swapCalls H.sha256 H.writeToken userD vaultD vaultW userW deposit withdraw pool definitionId)
    (hpaid : userD.account.programOwner = H.token.id)
    (hDW : vaultD.accountId ≠ vaultW.accountId) (hDu : vaultD.accountId ≠ userW.accountId)
    (hWu : vaultW.accountId ≠ userD.accountId) {hD hW : TokenHolding} {d : TokenDefinition} {lp : AccountId}
    (hreadD : holdingIn H.token.id σ₁ vaultD.accountId = .some hD)
    (hreadW : holdingIn H.token.id σ₁ vaultW.accountId = .some hW)
    (hd : definitionIn H.token.id σ₁ lp = .some d) :
    ∃ hD' hW', holdingIn H.token.id σ' vaultD.accountId = .some hD' ∧ hD'.definitionId = hD.definitionId ∧
      hD'.amount = hD.amount + deposit.toNat ∧ holdingIn H.token.id σ' vaultW.accountId = .some hW' ∧
      hW'.definitionId = hW.definitionId ∧ hW'.amount + withdraw.toNat = hW.amount ∧
      definitionIn H.token.id σ' lp = .some d := by
  have hmap := hround.calls
  rw [hcalls, swapCalls, hpaid] at hmap
  obtain ⟨t₁, rest, rfl, h₁, hmap⟩ := List.map_eq_cons_iff.mp hmap
  obtain ⟨t₂, rest, rfl, h₂, hmap⟩ := List.map_eq_cons_iff.mp hmap
  cases List.map_eq_nil_iff.mp hmap
  cases heffs with
  | @cons _ _ _ σ₂ _ heff₁ heffs =>
    cases heffs with
    | @cons _ _ _ σ₃ _ heff₂ heffs =>
      cases heffs
      have htr₁ := transfers_of_round hacc (hround.made t₁ (by simp)) heff₁ hbooks h₁
      have hbooks₂ := Books.executed hacc hsound (hround.made t₁ (by simp)) heff₁ hbooks
      have htr₂ := transfers_of_round hacc (hround.made t₂ (by simp)) heff₂ hbooks₂ h₂
      obtain ⟨hD', hreadD', hdefD, hamountD⟩ := htr₁.payee hD hreadD
      have hreadW₂ : holdingIn H.token.id σ₂ vaultW.accountId = .some hW := by
        rw [holdingIn, htr₁.frame _ hWu (Ne.symm hDW)]
        exact hreadW
      obtain ⟨hW', hreadW', hdefW, hamountW⟩ := htr₂.payer hW hreadW₂
      refine ⟨hD', hW', ?_, hdefD, hamountD, hreadW', hdefW, hamountW,
        htr₂.definitions lp d (htr₁.definitions lp d hd)⟩
      rw [holdingIn, htr₂.frame _ hDW hDu]
      exact hreadD'

end

/-! ## The pool of a round -/

/-- Nothing but amounts is changed. -/
structure SameAccounts (p q : PoolDefinition) : Prop where
  tokenA : q.definitionTokenAId = p.definitionTokenAId
  tokenB : q.definitionTokenBId = p.definitionTokenBId
  vaultA : q.vaultAId = p.vaultAId
  vaultB : q.vaultBId = p.vaultBId
  lp : q.liquidityPoolId = p.liquidityPoolId

section
variable {H : AmmHost} {Cond : Instruction → PoolDefinition → Prop} {J : PoolView → Prop} {P : Set Bytes} {s : V03State}
  {blockId : BlockId} {timestamp : Timestamp} {tx : PublicTransaction} {diff : StateDiff} {g : Executed}
  {ts : List Executed} {σ σ₁ σ' : View} {id : AccountId} {p q : PoolDefinition}

theorem PoolDefinition.view_eq {token : ProgramId} {hA hB : TokenHolding} {d : TokenDefinition}
    (hreadA : holdingIn token σ p.vaultAId = .some hA) (hdefA : hA.definitionId = p.definitionTokenAId)
    (hreadB : holdingIn token σ p.vaultBId = .some hB) (hdefB : hB.definitionId = p.definitionTokenBId)
    (hd : definitionIn token σ p.liquidityPoolId = .some d) :
    p.view token σ = ⟨p, hA.amount, hB.amount, d.supply .fungible⟩ := by
  rw [PoolDefinition.view, balanceIn_of_holding hreadA hdefA, balanceIn_of_holding hreadB hdefB,
    issuedIn_of_definition hd]

/-- A pool that is moved stays in order. -/
theorem PoolOk.moved (hok : PoolOk H P σ id p) (hsame : SameAccounts p q) {hA hB : TokenHolding} {d : TokenDefinition}
    (hreadA : holdingIn H.token.id σ' p.vaultAId = .some hA) (hdefA : hA.definitionId = p.definitionTokenAId)
    (hreadB : holdingIn H.token.id σ' p.vaultBId = .some hB) (hdefB : hB.definitionId = p.definitionTokenBId)
    (hd : definitionIn H.token.id σ' p.liquidityPoolId = .some d) :
    PoolOk H P σ' id q ∧ q.view H.token.id σ' = ⟨q, hA.amount, hB.amount, d.supply .fungible⟩ := by
  obtain ⟨htA, htB, hvA, hvB, hlp⟩ := hsame
  refine ⟨⟨hok.self, ?_, ?_, ?_, ⟨hA, ?_, ?_⟩, ⟨hB, ?_, ?_⟩, ⟨d, ?_⟩⟩, PoolDefinition.view_eq ?_ ?_ ?_ ?_ ?_⟩
  · rw [htA, hvA]
    exact hok.vaultA
  · rw [htB, hvB]
    exact hok.vaultB
  · rw [hlp]
    exact hok.lp
  all_goals simp only [htA, htB, hvA, hvB, hlp]; assumption

/-- The pool that is read and written differently was one in order. -/
theorem Pools.own (h : Pools H P J σ) (heff : CallEffect (fun _ => True) g σ σ₁) (hp : g.program = H.amm.id)
    {pool : AccountWithMetadata} {post : AccountPostState} (hpp : (pool, post) ∈ g.changes)
    (hread : PoolDefinition.tryFrom pool.account.data = .some p)
    (hwrite : PoolDefinition.tryFrom post.account.data = .some q) (hne : q ≠ p) :
    PoolOk H P σ pool.accountId p ∧ J (p.view H.token.id σ) ∧
      ∀ data, (σ₁ pool.accountId).ownedData H.amm.id = .some data → PoolDefinition.tryFrom data = .some q := by
  obtain ⟨hbefore, hafter⟩ := pool_written (heff.fate hp H.amm_ne_default hpp trivial) hread hwrite hne
  obtain ⟨p', hread', hok, hj⟩ := h.pools _ _ hbefore
  cases hread'.symm.trans hread
  refine ⟨hok, hj, ?_⟩
  intro data hdata
  rw [hafter] at hdata
  cases hdata
  exact hwrite

/-! ## Swaps -/

theorem Instruction.PaidInTokens.swap {token : ProgramId} {pre : List AccountWithMetadata} {i : Instruction}
    (h : i.PaidInTokens token pre) {tokenIn : AccountId} (hi : i.tokenIn = .some tokenIn)
    {pool vaultA vaultB userA userB : AccountWithMetadata} (hpre : pre = [pool, vaultA, vaultB, userA, userB])
    (hread : PoolDefinition.tryFrom pool.account.data = .some p) :
    (if tokenIn = p.definitionTokenAId then userA else userB).account.programOwner = token := by
  cases i with
  | newDefinition | addLiquidity | removeLiquidity => cases hi
  | swapExactInput | swapExactOutput =>
    cases hi
    exact h _ _ _ _ _ p hpre hread

theorem swap_callees {userD vaultD vaultW userW : AccountWithMetadata} {deposit withdraw : U128} {t : AccountId}
    (hpaid : userD.account.programOwner = H.token.id) (hpair : pairPreimage (id, t) ∈ P) :
    ∀ c ∈ swapCalls H.sha256 H.writeToken userD vaultD vaultW userW deposit withdraw id t,
      c.programId = H.token.id ∧
        ∀ seed ∈ c.pdaSeeds, ∃ x, seed = H.sha256 (pairPreimage (id, x)) ∧ pairPreimage (id, x) ∈ P := by
  simp only [swapCalls, hpaid, tokenCall, List.forall_mem_cons, List.not_mem_nil, false_implies, implies_true, and_true,
    true_and]
  exact ⟨t, rfl, hpair⟩

/-- A reserve that a vault covers does not overflow where the vault does not. -/
theorem reserve_fits {reserve deposit : U128} {h h' : TokenHolding} (hcovered : reserve.toNat ≤ h.amount)
    (hafter : h'.amount = h.amount + deposit.toNat) : reserve.toNat + deposit.toNat < 2 ^ 128 := by
  have := amount_lt h'
  omega

theorem covered_of_read (heff : CallEffect (fun _ => True) g σ σ₁) {vault : AccountWithMetadata}
    (hmem : vault ∈ g.output.preStates) {h : TokenHolding} (hh : holdingIn H.token.id σ vault.accountId = .some h)
    {reserve : U128} (hcovered : ∃ definitionId balance,
      TokenHolding.tryFrom vault.account.data = .some (.fungible definitionId balance) ∧ reserve ≤ balance) :
    reserve.toNat ≤ h.amount := by
  obtain ⟨_, _, hread, hle⟩ := hcovered
  cases (holding_read heff hmem hh).symm.trans hread
  exact hle

theorem sub_ne_self {a b : U128} (h : b ≠ 0) : a - b ≠ a := by
  intro heq
  exact h (by simpa [BitVec.sub_eq_iff_eq_add] using heq)

/-- **A swap** moves its pool. -/
theorem Pools.swap_round (hkept : Kept Cond J) (hacc : PublicAccepted H.toHost tx s blockId timestamp diff)
    (hfree : Set.InjOn H.sha256 P) (hsound : SoundCalls H Cond P tx (publicCalls H.toHost s blockId timestamp tx))
    (h : Pools H P J σ) (hround : Round H.amm.id (publicCalls H.toHost s blockId timestamp tx) g ts σ σ')
    {i : Instruction} (hi : H.readAmm g.call.instructionData = .some i) (hin : g.output.preStates = g.call.preStates)
    {tokenIn : AccountId} (htoken : i.tokenIn = .some tokenIn)
    (hprocess : process H.sha256 H.writeToken g.output.preStates i = .ok (g.output.postStates, g.output.chainedCalls)) :
    Pools H P J σ' := by
  obtain ⟨pool, vaultA, vaultB, userA, userB, hpre, hswap⟩ := process_swap_ok htoken hprocess
  obtain ⟨p, q, data, deposit, withdraw, hsetup, hdata, hpost, hside⟩ := swap_ok hswap
  obtain ⟨σ₁, heff, heffs⟩ := hround.effects
  have hpaid := (hsound.paid g hround.call hround.program i hi).swap htoken (hin ▸ hpre) hsetup.pool
  have hcond : Cond i p := hsound.cond g hround.call hround.program i hi pool (by rw [← hin, hpre]; rfl) p hsetup.pool
  have hpp : (pool, AccountPostState.new { pool.account with data := data }) ∈ g.changes := by
    simp [Executed.changes, hpre, hpost]
  have hids := heff.valid.nodup
  simp only [hpre, List.map_cons, List.map_nil, List.nodup_cons, List.mem_cons, List.not_mem_nil, or_false, not_or] at hids
  obtain ⟨-, ⟨hAB, hAuA, hAuB⟩, ⟨hBuA, hBuB⟩, -⟩ := hids
  have hne : q ≠ p := by
    intro heq
    rcases hside with ⟨-, hq, hside⟩ | ⟨-, -, hq, hside⟩
    · exact sub_ne_self (swapAmounts_pos hside.amounts) (congrArg PoolDefinition.reserveB (hq.symm.trans heq))
    · exact sub_ne_self (swapAmounts_pos hside.amounts) (congrArg PoolDefinition.reserveA (hq.symm.trans heq))
  obtain ⟨hok, hj, hafter⟩ := h.own heff hround.program hpp hsetup.pool hdata hne
  obtain ⟨hA, hreadA, hdefA⟩ := hok.holdingA
  obtain ⟨hB, hreadB, hdefB⟩ := hok.holdingB
  obtain ⟨d, hd⟩ := hok.definition
  rw [PoolDefinition.view_eq hreadA hdefA hreadB hdefB hd] at hj
  have hcoveredA := covered_of_read heff (by simp [hpre]) (hsetup.idA ▸ hreadA) hsetup.coveredA
  have hcoveredB := covered_of_read heff (by simp [hpre]) (hsetup.idB ▸ hreadB) hsetup.coveredB
  have hbooks₁ := Books.executed hacc hsound hround.call heff h.books
  obtain ⟨hholdings, hdefinitions⟩ := token_data_kept heff hround.program
  rcases hside with ⟨htoken, rfl, hside⟩ | ⟨hother, -, rfl, hside⟩
  · obtain ⟨holding, hholding, hcalls⟩ := hside.calls
    rw [if_pos htoken] at hpaid
    cases (holding_read heff (by simp [hpre]) (hsetup.idB ▸ hreadB)).symm.trans hholding
    obtain ⟨hA', hB', hreadA', hdefA', hamountA, hreadB', hdefB', hamountB, hd'⟩ :=
      swap_transfers hacc hsound hround heffs hbooks₁ hcalls hpaid hAB hAuB hBuA
        (by rw [hholdings, hsetup.idA]; exact hreadA) (by rw [hholdings, hsetup.idB]; exact hreadB)
        ((hdefinitions _).trans hd)
    have hfits := reserve_fits hcoveredA hamountA
    refine h.round hkept hacc hfree hsound hround.call hround.program hround.outermost hpre hpost heff heffs
      (roundCall_of_mem hround (hcalls ▸ swap_callees hpaid (hdefB ▸ hok.vaultB.pair))) ?_
    intro data' hdata'
    obtain ⟨hok', hview⟩ := hok.moved (q := { p with reserveA := p.reserveA + deposit, reserveB := p.reserveB - withdraw })
      ⟨rfl, rfl, rfl, rfl, rfl⟩ (hsetup.idA ▸ hreadA') (hdefA'.trans hdefA) (hsetup.idB ▸ hreadB') (hdefB'.trans hdefB) hd'
    refine ⟨_, hafter data' hdata', hok', ?_⟩
    rw [hview]
    exact hkept.move i _ _ hcond (.swapA hfits (swapAmounts_ok hside.amounts hfits).1 hamountA hamountB) hj
  · obtain ⟨holding, hholding, hcalls⟩ := hside.calls
    rw [if_neg hother] at hpaid
    cases (holding_read heff (by simp [hpre]) (hsetup.idA ▸ hreadA)).symm.trans hholding
    obtain ⟨hB', hA', hreadB', hdefB', hamountB, hreadA', hdefA', hamountA, hd'⟩ :=
      swap_transfers hacc hsound hround heffs hbooks₁ hcalls hpaid (Ne.symm hAB) hBuA hAuB
        (by rw [hholdings, hsetup.idB]; exact hreadB) (by rw [hholdings, hsetup.idA]; exact hreadA)
        ((hdefinitions _).trans hd)
    have hfits := reserve_fits hcoveredB hamountB
    refine h.round hkept hacc hfree hsound hround.call hround.program hround.outermost hpre hpost heff heffs
      (roundCall_of_mem hround (hcalls ▸ swap_callees hpaid (hdefA ▸ hok.vaultA.pair))) ?_
    intro data' hdata'
    obtain ⟨hok', hview⟩ := hok.moved (q := { p with reserveA := p.reserveA - withdraw, reserveB := p.reserveB + deposit })
      ⟨rfl, rfl, rfl, rfl, rfl⟩ (hsetup.idA ▸ hreadA') (hdefA'.trans hdefA) (hsetup.idB ▸ hreadB') (hdefB'.trans hdefB) hd'
    refine ⟨_, hafter data' hdata', hok', ?_⟩
    rw [hview]
    exact hkept.move i _ _ hcond (.swapB hfits (swapAmounts_ok hside.amounts hfits).1 hamountB hamountA) hj

/-! ## The calls of an instruction on liquidity -/

/-- The vaults and the liquidity token are none of the other accounts. -/
structure PoolAccounts.Distinct (a : PoolAccounts) : Prop where
  vaults : a.vaultA.accountId ≠ a.vaultB.accountId
  lpA : a.vaultA.accountId ≠ a.lp.accountId
  lpB : a.vaultB.accountId ≠ a.lp.accountId
  userLpA : a.vaultA.accountId ≠ a.userLp.accountId
  userLpB : a.vaultB.accountId ≠ a.userLp.accountId
  crossA : a.vaultA.accountId ≠ a.userB.accountId
  crossB : a.vaultB.accountId ≠ a.userA.accountId

theorem PoolAccounts.distinct {a : PoolAccounts} (h : (a.toList.map (·.accountId)).Nodup) : a.Distinct := by
  simp only [PoolAccounts.toList, List.map_cons, List.map_nil, List.nodup_cons, List.mem_cons, List.not_mem_nil, or_false,
    not_or] at h
  obtain ⟨-, ⟨hAB, hAlp, -, hAuB, hAuLp⟩, ⟨hBlp, hBuA, -, hBuLp⟩, -⟩ := h
  exact ⟨hAB, hAlp, hBlp, hAuLp, hBuLp, hAuB, hBuA⟩

theorem PoolAccounts.changes {a : PoolAccounts} {data : Data} {claim : Option Claim}
    (hpre : g.output.preStates = a.toList) (hpost : g.output.postStates = a.post data claim) :
    (a.pool, ⟨{ a.pool.account with data := data }, claim⟩) ∈ g.changes := by
  simp [Executed.changes, hpre, hpost, PoolAccounts.toList, PoolAccounts.post]

/-- A payment between two accounts, in either direction. -/
def Between (u v x y : AccountWithMetadata) : Prop :=
  x.accountId = u.accountId ∧ y.accountId = v.accountId ∨ x.accountId = v.accountId ∧ y.accountId = u.accountId

theorem Between.frame {token : ProgramId} {u v x y : AccountWithMetadata} {amount : U128} (h : Between u v x y)
    (ht : Transfers token σ σ' x y amount) (hu : id ≠ u.accountId) (hv : id ≠ v.accountId) : σ' id = σ id := by
  rcases h with ⟨hx, hy⟩ | ⟨hx, hy⟩
  · exact ht.frame id (hx ▸ hu) (hy ▸ hv)
  · exact ht.frame id (hx ▸ hv) (hy ▸ hu)

/-- The calls of an instruction on liquidity: one on the liquidity token, then the two payments. -/
structure LiquidityCalls (H : AmmHost) (a : PoolAccounts) (i : Token.Instruction)
    (fromB toB fromA toA : AccountWithMetadata) (amountA amountB : U128) (t : Executed) (σ₁ σ₂ σ₃ σ' : View) : Prop where
  effect : CallEffect (fun _ => True) t σ₁ σ₂
  program : t.program = H.token.id
  pre : t.output.preStates = [authorized a.lp, a.userLp]
  process : Token.process [authorized a.lp, a.userLp] i = .ok t.output.postStates
  payB : Transfers H.token.id σ₂ σ₃ fromB toB amountB
  payA : Transfers H.token.id σ₃ σ' fromA toA amountA
  /-- Vault A is as it was until its payment. -/
  beforeA : σ₃ a.vaultA.accountId = σ₁ a.vaultA.accountId
  beforeB : σ₂ a.vaultB.accountId = σ₁ a.vaultB.accountId
  afterB : σ' a.vaultB.accountId = σ₃ a.vaultB.accountId

theorem liquidity_calls (hacc : PublicAccepted H.toHost tx s blockId timestamp diff)
    (hsound : SoundCalls H Cond P tx (publicCalls H.toHost s blockId timestamp tx))
    (hround : Round H.amm.id (publicCalls H.toHost s blockId timestamp tx) g ts σ σ')
    (heffs : Effects (fun _ => True) ts σ₁ σ') (hbooks : Books H.token.id σ₁) {a : PoolAccounts} (hdistinct : a.Distinct)
    {i : Token.Instruction} (hi : i.OfAmm) {fromB toB fromA toA : AccountWithMetadata} {amountA amountB : U128}
    {seedsLp seedsA seedsB : List PdaSeed}
    (hcalls : g.output.chainedCalls =
      [tokenCall H.writeToken H.token.id [authorized a.lp, a.userLp] i seedsLp,
        tokenCall H.writeToken H.token.id [fromB, toB] (.transfer amountB) seedsB,
        tokenCall H.writeToken H.token.id [fromA, toA] (.transfer amountA) seedsA])
    (hB : Between a.userB a.vaultB fromB toB) (hA : Between a.userA a.vaultA fromA toA) :
    ∃ t σ₂ σ₃, LiquidityCalls H a i fromB toB fromA toA amountA amountB t σ₁ σ₂ σ₃ σ' := by
  have hmap := hround.calls
  rw [hcalls] at hmap
  obtain ⟨t₁, rest, rfl, h₁, hmap⟩ := List.map_eq_cons_iff.mp hmap
  obtain ⟨t₂, rest, rfl, h₂, hmap⟩ := List.map_eq_cons_iff.mp hmap
  obtain ⟨t₃, rest, rfl, h₃, hmap⟩ := List.map_eq_cons_iff.mp hmap
  cases List.map_eq_nil_iff.mp hmap
  have hmade := hround.made
  simp only [List.forall_mem_cons] at hmade
  obtain ⟨hmade₁, hmade₂, hmade₃, -⟩ := hmade
  cases heffs with
  | @cons _ _ _ σ₂ _ heff₁ heffs =>
    cases heffs with
    | @cons _ _ _ σ₃ _ heff₂ heffs =>
      cases heffs with
      | @cons _ _ _ σ₄ _ heff₃ heffs =>
        cases heffs
        have hbooks₂ := Books.executed hacc hsound hmade₁ heff₁ hbooks
        have hbooks₃ := Books.executed hacc hsound hmade₂ heff₂ hbooks₂
        obtain ⟨hp, hpre, hprocess⟩ := token_answered_call hacc hmade₁ hi h₁
        have hpayB := transfers_of_round hacc hmade₂ heff₂ hbooks₂ h₂
        have hpayA := transfers_of_round hacc hmade₃ heff₃ hbooks₃ h₃
        refine ⟨t₁, σ₂, σ₃, heff₁, hp, hpre, hprocess, hpayB, hpayA, ?_, ?_, ?_⟩
        · rw [hB.frame hpayB hdistinct.crossA hdistinct.vaults]
          exact Token.unnamed_pair heff₁ hpre hdistinct.lpA hdistinct.userLpA
        · exact Token.unnamed_pair heff₁ hpre hdistinct.lpB hdistinct.userLpB
        · exact hA.frame hpayA hdistinct.crossB hdistinct.vaults.symm

theorem liquidity_callees {pre₁ pre₂ pre₃ : List AccountWithMetadata} {i₁ i₂ i₃ : Token.Instruction}
    {seeds₁ seeds₂ seeds₃ : List PdaSeed}
    (hseeds : ∀ seed ∈ seeds₁ ++ seeds₂ ++ seeds₃,
      ∃ x, seed = H.sha256 (pairPreimage (id, x)) ∧ pairPreimage (id, x) ∈ P) :
    ∀ c ∈ [tokenCall H.writeToken H.token.id pre₁ i₁ seeds₁, tokenCall H.writeToken H.token.id pre₂ i₂ seeds₂,
        tokenCall H.writeToken H.token.id pre₃ i₃ seeds₃],
      c.programId = H.token.id ∧
        ∀ seed ∈ c.pdaSeeds, ∃ x, seed = H.sha256 (pairPreimage (id, x)) ∧ pairPreimage (id, x) ∈ P := by
  simp only [List.forall_mem_append] at hseeds
  simp only [tokenCall, List.forall_mem_cons, List.not_mem_nil, false_implies, implies_true, and_true, true_and]
  exact ⟨hseeds.1.1, hseeds.1.2, hseeds.2⟩

/-- **An instruction on the liquidity of a pool**, up to its amounts. -/
theorem Pools.liquidity_round (hkept : Kept Cond J) (hacc : PublicAccepted H.toHost tx s blockId timestamp diff)
    (hfree : Set.InjOn H.sha256 P) (hsound : SoundCalls H Cond P tx (publicCalls H.toHost s blockId timestamp tx))
    (h : Pools H P J σ) (hround : Round H.amm.id (publicCalls H.toHost s blockId timestamp tx) g ts σ σ')
    {a : PoolAccounts} {data : Data} (hpre : g.output.preStates = a.toList)
    (hpost : g.output.postStates = a.post data .none) (hsetup : LiquiditySetup a p)
    (hdata : PoolDefinition.tryFrom data = .some q) (hsame : SameAccounts p q) (hne : q ≠ p) {i : Token.Instruction}
    (hi : i.OfAmm) {fromB toB fromA toA : AccountWithMetadata} {amountA amountB : U128}
    {seedsLp seedsA seedsB : List PdaSeed}
    (hcalls : g.output.chainedCalls =
      [tokenCall H.writeToken H.token.id [authorized a.lp, a.userLp] i seedsLp,
        tokenCall H.writeToken H.token.id [fromB, toB] (.transfer amountB) seedsB,
        tokenCall H.writeToken H.token.id [fromA, toA] (.transfer amountA) seedsA])
    (hB : Between a.userB a.vaultB fromB toB) (hA : Between a.userA a.vaultA fromA toA)
    (hseeds : PoolOk H P σ a.pool.accountId p → ∀ seed ∈ seedsLp ++ seedsB ++ seedsA,
      ∃ x, seed = H.sha256 (pairPreimage (a.pool.accountId, x)) ∧ pairPreimage (a.pool.accountId, x) ∈ P)
    (hmove : ∀ t σ₁ σ₂ σ₃ hA hB d, CallEffect (fun _ => True) g σ σ₁ →
      LiquidityCalls H a i fromB toB fromA toA amountA amountB t σ₁ σ₂ σ₃ σ' →
      holdingIn H.token.id σ a.vaultA.accountId = .some hA → holdingIn H.token.id σ₃ a.vaultA.accountId = .some hA →
      holdingIn H.token.id σ a.vaultB.accountId = .some hB → holdingIn H.token.id σ₂ a.vaultB.accountId = .some hB →
      definitionIn H.token.id σ₁ a.lp.accountId = .some d →
      ∃ hA' hB' d' j, holdingIn H.token.id σ' a.vaultA.accountId = .some hA' ∧ hA'.definitionId = hA.definitionId ∧
        holdingIn H.token.id σ₃ a.vaultB.accountId = .some hB' ∧ hB'.definitionId = hB.definitionId ∧
        definitionIn H.token.id σ₂ a.lp.accountId = .some d' ∧ Cond j p ∧
        PoolMove j ⟨p, hA.amount, hB.amount, d.supply .fungible⟩ ⟨q, hA'.amount, hB'.amount, d'.supply .fungible⟩) :
    Pools H P J σ' := by
  obtain ⟨σ₁, heff, heffs⟩ := hround.effects
  obtain ⟨hok, hj, hafter⟩ := h.own heff hround.program (PoolAccounts.changes hpre hpost) hsetup.pool hdata hne
  obtain ⟨holdA, hreadA, hdefA⟩ := hok.holdingA
  obtain ⟨holdB, hreadB, hdefB⟩ := hok.holdingB
  obtain ⟨d, hd⟩ := hok.definition
  rw [PoolDefinition.view_eq hreadA hdefA hreadB hdefB hd] at hj
  rw [← hsetup.idA] at hreadA
  rw [← hsetup.idB] at hreadB
  rw [← hsetup.idLp] at hd
  obtain ⟨hholdings, hdefinitions⟩ := token_data_kept heff hround.program
  obtain ⟨t, σ₂, σ₃, hmade⟩ := liquidity_calls hacc hsound hround heffs
    (Books.executed hacc hsound hround.call heff h.books) (PoolAccounts.distinct (hpre ▸ heff.valid.nodup)) hi hcalls hB hA
  obtain ⟨holdA', holdB', d', j, hreadA', hdefA', hreadB', hdefB', hd', hcond, hmoved⟩ :=
    hmove t σ₁ σ₂ σ₃ holdA holdB d heff hmade hreadA
      (by rw [holdingIn, hmade.beforeA]; exact (hholdings _).trans hreadA) hreadB
      (by rw [holdingIn, hmade.beforeB]; exact (hholdings _).trans hreadB) ((hdefinitions _).trans hd)
  have hreadB' : holdingIn H.token.id σ' a.vaultB.accountId = .some holdB' := by
    rw [holdingIn, hmade.afterB]
    exact hreadB'
  have hd' := hmade.payA.definitions _ _ (hmade.payB.definitions _ _ hd')
  refine h.round hkept hacc hfree hsound hround.call hround.program hround.outermost hpre hpost heff heffs
    (roundCall_of_mem hround (hcalls ▸ liquidity_callees (hseeds hok))) ?_
  intro data' hdata'
  obtain ⟨hok', hview⟩ := hok.moved hsame (hsetup.idA ▸ hreadA') (hdefA'.trans hdefA) (hsetup.idB ▸ hreadB')
    (hdefB'.trans hdefB) (hsetup.idLp ▸ hd')
  refine ⟨_, hafter data' hdata', hok', ?_⟩
  rw [hview]
  exact hkept.move j _ _ hcond hmoved hj

/-- **An addition of liquidity** moves its pool. -/
theorem Pools.add_round (hkept : Kept Cond J) (hacc : PublicAccepted H.toHost tx s blockId timestamp diff)
    (hfree : Set.InjOn H.sha256 P) (hsound : SoundCalls H Cond P tx (publicCalls H.toHost s blockId timestamp tx))
    (h : Pools H P J σ) (hround : Round H.amm.id (publicCalls H.toHost s blockId timestamp tx) g ts σ σ')
    {minLp maxA maxB : U128} (hi : H.readAmm g.call.instructionData = .some (.addLiquidity minLp maxA maxB))
    (hin : g.output.preStates = g.call.preStates)
    (hprocess : process H.sha256 H.writeToken g.output.preStates (.addLiquidity minLp maxA maxB) =
      .ok (g.output.postStates, g.output.chainedCalls)) : Pools H P J σ' := by
  obtain ⟨a, hpre, hadd⟩ := process_addLiquidity_ok hprocess
  obtain ⟨p, depositA, depositB, lp, data, hadd, hdata, hpost⟩ := addLiquidity_ok hadd
  have hcalls := hadd.calls
  rw [hsound.paid g hround.call hround.program _ hi a (hin ▸ hpre)] at hcalls
  have hcond : Cond _ p := hsound.cond g hround.call hround.program _ hi a.pool (by rw [← hin, hpre]; rfl) p hadd.pool
  have hne : p.added depositA depositB lp ≠ p := by
    intro heq
    have hself : p.reserveA + depositA = p.reserveA := congrArg PoolDefinition.reserveA heq
    exact (addAmounts_pos hadd.amounts).1 (by simpa using hself)
  refine h.liquidity_round hkept hacc hfree hsound hround hpre hpost hadd.toLiquiditySetup hdata ⟨rfl, rfl, rfl, rfl, rfl⟩
    hne (i := .mint lp) trivial hcalls (.inl ⟨rfl, rfl⟩) (.inl ⟨rfl, rfl⟩) ?_ ?_
  · intro hok
    simp only [List.append_nil, List.mem_singleton, forall_eq]
    exact ⟨_, rfl, hok.lp.pair⟩
  · intro t σ₁ σ₂ σ₃ hA hB d heff hmade hreadA hreadA₃ hreadB hreadB₂ hd
    have hcoveredA := covered_of_read heff (by simp [hpre, PoolAccounts.toList]) hreadA hadd.coveredA
    have hcoveredB := covered_of_read heff (by simp [hpre, PoolAccounts.toList]) hreadB hadd.coveredB
    obtain ⟨_, _, heq, hmint⟩ := Token.process_mint_ok hmade.process
    cases heq
    obtain ⟨d', hd', hsupply⟩ := Token.mint_raises hmade.effect hmade.program H.token_ne_default hmade.pre hmint hd
    obtain ⟨hB', hreadB', hdefB', hamountB⟩ := hmade.payB.payee hB hreadB₂
    obtain ⟨hA', hreadA', hdefA', hamountA⟩ := hmade.payA.payee hA hreadA₃
    exact ⟨hA', hB', d', _, hreadA', hdefA', hreadB', hdefB', hd', hcond, .add hadd.amounts
      (reserve_fits hcoveredA hamountA) (reserve_fits hcoveredB hamountB) hamountA hamountB hsupply⟩

/-- **A removal of liquidity** moves its pool. -/
theorem Pools.remove_round (hkept : Kept Cond J) (hacc : PublicAccepted H.toHost tx s blockId timestamp diff)
    (hfree : Set.InjOn H.sha256 P) (hsound : SoundCalls H Cond P tx (publicCalls H.toHost s blockId timestamp tx))
    (h : Pools H P J σ) (hround : Round H.amm.id (publicCalls H.toHost s blockId timestamp tx) g ts σ σ')
    {amount minA minB : U128} (hi : H.readAmm g.call.instructionData = .some (.removeLiquidity amount minA minB))
    (hin : g.output.preStates = g.call.preStates)
    (hprocess : process H.sha256 H.writeToken g.output.preStates (.removeLiquidity amount minA minB) =
      .ok (g.output.postStates, g.output.chainedCalls)) : Pools H P J σ' := by
  obtain ⟨a, hpre, -, hremove⟩ := process_removeLiquidity_ok hprocess
  obtain ⟨p, withdrawA, withdrawB, lp, data, hremove, hdata, hpost⟩ := removeLiquidity_ok hremove
  obtain ⟨hamounts, hminA, -⟩ := removeAmounts_ok hremove.amounts
  have hcalls := hremove.calls
  rw [hsound.paid g hround.call hround.program _ hi a (hin ▸ hpre)] at hcalls
  have hcond : Cond _ p :=
    hsound.cond g hround.call hround.program _ hi a.pool (by rw [← hin, hpre]; rfl) p hremove.pool
  have hne : p.removed withdrawA withdrawB lp ≠ p := by
    intro heq
    refine sub_ne_self ?_ (congrArg PoolDefinition.reserveA heq)
    rintro rfl
    exact hremove.positive.1 (BitVec.le_zero_iff.mp hminA)
  refine h.liquidity_round hkept hacc hfree hsound hround hpre hpost hremove.toLiquiditySetup hdata
    ⟨rfl, rfl, rfl, rfl, rfl⟩ hne (i := .burn lp) trivial hcalls (.inr ⟨rfl, rfl⟩) (.inr ⟨rfl, rfl⟩) ?_ ?_
  · intro hok
    simp only [List.cons_append, List.nil_append, List.forall_mem_cons, List.not_mem_nil, false_implies, implies_true,
      and_true]
    exact ⟨⟨_, rfl, hok.lp.pair⟩, ⟨_, rfl, hok.vaultB.pair⟩, ⟨_, rfl, hok.vaultA.pair⟩⟩
  · intro t σ₁ σ₂ σ₃ hA hB d _ hmade _ hreadA₃ _ hreadB₂ hd
    obtain ⟨balance, hheld, hbalance⟩ := hremove.held
    obtain ⟨_, _, heq, hburn⟩ := Token.process_burn_ok hmade.process
    cases heq
    have hlp : lp.toNat ≤ p.liquidityPoolSupply.toNat := (Token.burn_of_fungible hburn hheld).trans hbalance
    obtain ⟨d', hd', hsupply⟩ :=
      Token.burn_lowers hmade.effect hmade.program H.token_ne_default hmade.pre hburn hheld hd
    obtain ⟨hB', hreadB', hdefB', hamountB⟩ := hmade.payB.payer hB hreadB₂
    obtain ⟨hA', hreadA', hdefA', hamountA⟩ := hmade.payA.payer hA hreadA₃
    exact ⟨hA', hB', d', _, hreadA', hdefA', hreadB', hdefB', hd', hcond,
      .remove hamounts hlp hamountA hamountB hsupply⟩

/-! ## New pools -/

theorem computePoolPdaSeed_ok {sha256 : Bytes → Bytes32} {a b : AccountId} {seed : PdaSeed}
    (h : computePoolPdaSeed sha256 a b = .ok seed) : seed = sha256 (poolPreimage a b) := by
  unfold computePoolPdaSeed at h
  unfold poolPreimage
  split at h
  next hlt =>
    cases h
    rw [if_pos hlt]
  next hlt =>
    rw [if_neg hlt]
    split at h
    next => cases h; rfl
    next => cases h

/-- The preimages that a new pool brings into play, one by one. -/
structure OpeningPreimages (H : AmmHost) (P : Set Bytes) (a : PoolAccounts) (amm : ProgramId)
    (holdingA holdingB : TokenHolding) (seed : PdaSeed) : Prop where
  pairA : pairPreimage (a.pool.accountId, holdingA.definitionId) ∈ P
  pairB : pairPreimage (a.pool.accountId, holdingB.definitionId) ∈ P
  pairLp : pairPreimage (a.pool.accountId, ByteVec.fill 32 0) ∈ P
  given : publicPdaPreimage amm seed ∈ P
  own : publicPdaPreimage H.amm.id seed ∈ P
  seedA : publicPdaPreimage H.amm.id (computeVaultPdaSeed H.sha256 a.pool.accountId holdingA.definitionId) ∈ P
  seedB : publicPdaPreimage H.amm.id (computeVaultPdaSeed H.sha256 a.pool.accountId holdingB.definitionId) ∈ P
  seedLp : publicPdaPreimage H.amm.id (computeLiquidityTokenPdaSeed H.sha256 a.pool.accountId) ∈ P

theorem opening_preimages (hsound : SoundCalls H Cond P tx (publicCalls H.toHost s blockId timestamp tx))
    (hround : Round H.amm.id (publicCalls H.toHost s blockId timestamp tx) g ts σ σ') {amountA amountB : U128}
    {amm : ProgramId} (hi : H.readAmm g.call.instructionData = .some (.newDefinition amountA amountB amm))
    {a : PoolAccounts} (hpre : g.call.preStates = a.toList) {holdingA holdingB : TokenHolding} {seed : PdaSeed}
    (hopen : Opening H.sha256 H.writeToken a amountA amountB amm holdingA holdingB seed q g.output.chainedCalls) :
    OpeningPreimages H P a amm holdingA holdingB seed := by
  have hnew : ∀ x ∈ [pairPreimage (a.pool.accountId, holdingA.definitionId),
      pairPreimage (a.pool.accountId, holdingB.definitionId), pairPreimage (a.pool.accountId, ByteVec.fill 32 0),
      publicPdaPreimage amm seed, publicPdaPreimage H.amm.id seed], x ∈ P := by
    intro x hx
    rw [computePoolPdaSeed_ok hopen.poolSeed] at hx
    exact hsound.pools g hround.call hround.program amountA amountB amm hi
      ⟨a, holdingA, holdingB, hpre, hopen.readA, hopen.readB, hx⟩
  -- the seeds that the AMM passes down are on the paths of its calls
  have hframe : ∀ c ∈ g.output.chainedCalls, ∀ seed ∈ c.pdaSeeds, publicPdaPreimage H.amm.id seed ∈ P := by
    intro c hc seed hseed
    rw [← hround.calls] at hc
    obtain ⟨t, ht, rfl⟩ := List.mem_map.mp hc
    exact hsound.seeds t (hround.made t ht) ⟨H.amm.id, t.call⟩ (by rw [hround.paths t ht]; simp) seed hseed
  simp only [hopen.calls, tokenCall, List.forall_mem_cons, List.not_mem_nil, false_implies, implies_true, and_true]
    at hframe
  exact ⟨hnew _ (by simp), hnew _ (by simp), hnew _ (by simp), hnew _ (by simp), hnew _ (by simp), hframe.2.2, hframe.2.1,
    hframe.1⟩

/-- A new pool is in order. -/
theorem opened_ok {amountA amountB : U128} {amm : ProgramId} {a : PoolAccounts} {holdingA holdingB : TokenHolding}
    {seed : PdaSeed} {calls : List ChainedCall} (hamm : amm = H.amm.id)
    (hopen : Opening H.sha256 H.writeToken a amountA amountB amm holdingA holdingB seed q calls)
    (hP : OpeningPreimages H P a amm holdingA holdingB seed) {hA hB : TokenHolding} {d : TokenDefinition}
    (hreadA : holdingIn H.token.id σ' a.vaultA.accountId = .some hA) (hdefA : hA.definitionId = holdingA.definitionId)
    (hreadB : holdingIn H.token.id σ' a.vaultB.accountId = .some hB) (hdefB : hB.definitionId = holdingB.definitionId)
    (hd : definitionIn H.token.id σ' a.lp.accountId = .some d) :
    PoolOk H P σ' a.pool.accountId q ∧ q.view H.token.id σ' = ⟨q, hA.amount, hB.amount, d.supply .fungible⟩ := by
  have hq := hopen.pool
  have hidA := hopen.idA
  have hidB := hopen.idB
  have hidLp := hopen.idLp
  have hself := hopen.idPool
  subst hq hamm
  exact ⟨⟨⟨seed, hself, hP.own⟩, ⟨hidA, hP.pairA, hP.seedA⟩, ⟨hidB, hP.pairB, hP.seedB⟩, ⟨hidLp, hP.pairLp, hP.seedLp⟩,
    ⟨hA, hreadA, hdefA⟩, ⟨hB, hreadB, hdefB⟩, ⟨d, hd⟩⟩, PoolDefinition.view_eq hreadA hdefA hreadB hdefB hd⟩

/-- **A new pool** is opened, or an empty one is opened again. -/
theorem Pools.open_round (hkept : Kept Cond J) (hacc : PublicAccepted H.toHost tx s blockId timestamp diff)
    (hfree : Set.InjOn H.sha256 P) (hsound : SoundCalls H Cond P tx (publicCalls H.toHost s blockId timestamp tx))
    (h : Pools H P J σ) (hround : Round H.amm.id (publicCalls H.toHost s blockId timestamp tx) g ts σ σ')
    {amountA amountB : U128} {amm : ProgramId}
    (hi : H.readAmm g.call.instructionData = .some (.newDefinition amountA amountB amm))
    (hin : g.output.preStates = g.call.preStates)
    (hprocess : process H.sha256 H.writeToken g.output.preStates (.newDefinition amountA amountB amm) =
      .ok (g.output.postStates, g.output.chainedCalls)) : Pools H P J σ' := by
  obtain ⟨a, hpre, hposA, hposB, hnew⟩ := process_newDefinition_ok hprocess
  obtain ⟨holdingA, holdingB, seed, q, data, hopen, hdata, hpost⟩ := newDefinition_ok hnew
  obtain ⟨σ₁, heff, heffs⟩ := hround.effects
  have hP := opening_preimages hsound hround hi (hin ▸ hpre) hopen
  have hcalls := hopen.calls
  rw [hsound.paid g hround.call hround.program _ hi a (hin ▸ hpre)] at hcalls
  obtain ⟨t, σ₂, σ₃, hmade⟩ := liquidity_calls hacc hsound hround heffs
    (Books.executed hacc hsound hround.call heff h.books) (PoolAccounts.distinct (hpre ▸ heff.valid.nodup))
    (i := if a.pool.account = Account.default then .newFungibleDefinition lpTokenName q.liquidityPoolSupply
      else .mint q.liquidityPoolSupply) (by split <;> trivial) hcalls (.inl ⟨rfl, rfl⟩) (.inl ⟨rfl, rfl⟩)
  obtain ⟨hB, hreadB, hdefB, hamountB⟩ := hmade.payB.arrives hposB holdingB hopen.readB
  obtain ⟨hA, hreadA, hdefA, hamountA⟩ := hmade.payA.arrives hposA holdingA hopen.readA
  have hreadB : holdingIn H.token.id σ' a.vaultB.accountId = .some hB := by
    rw [holdingIn, hmade.afterB]
    exact hreadB
  have hactive : q.active = true := by rw [hopen.pool]
  have hcoveredA : q.reserveA.toNat ≤ hA.amount := by rw [hopen.pool]; exact hamountA
  have hcoveredB : q.reserveB.toNat ≤ hB.amount := by rw [hopen.pool]; exact hamountB
  refine h.round hkept hacc hfree hsound hround.call hround.program hround.outermost hpre hpost heff heffs
    (roundCall_of_mem hround (hcalls ▸ liquidity_callees ?_)) ?_
  · simp only [List.cons_append, List.nil_append, List.forall_mem_cons, List.not_mem_nil, false_implies, implies_true,
      and_true]
    exact ⟨⟨_, rfl, hP.pairLp⟩, ⟨_, rfl, hP.pairB⟩, ⟨_, rfl, hP.pairA⟩⟩
  · intro data' hdata'
    have hpp := PoolAccounts.changes hpre hpost
    have hfate := heff.fate hround.program H.amm_ne_default hpp trivial
    have hprocess := hmade.process
    generalize hb : (σ a.pool.accountId).ownedData H.amm.id = before at hfate
    rw [hdata'] at hfate
    cases hfate with
    | foreign _ hnone => cases hnone
    | unclaimed _ _ _ hnone => cases hnone
    | claimed hdefault _ hafter =>
      -- a claim is to an account that derives from the caller
      have hderived := hacc.exec.claim_derived g hround.call _ hpp seed (by rw [hdefault]; rfl)
      rw [hround.program] at hderived
      have hamm : amm = H.amm.id :=
        (publicPdaPreimage_inj (hfree hP.given hP.own (hopen.idPool.symm.trans hderived))).1
      rw [if_pos hdefault] at hprocess
      obtain ⟨d, hd, hsupply⟩ :=
        Token.newFungibleDefinition_defines hmade.effect hmade.program H.token_ne_default hmade.pre hprocess
      have hd := hmade.payA.definitions _ _ (hmade.payB.definitions _ _ hd)
      obtain ⟨hok, hview⟩ := opened_ok hamm hopen hP hreadA hdefA hreadB hdefB hd
      refine ⟨q, ?_, hok, ?_⟩
      · rw [Option.some.inj hafter]
        exact hdata
      · rw [hview]
        exact hkept.opened _ ⟨hactive, hcoveredA, hcoveredB, hsupply⟩
    | kept hnd hbefore hafter =>
      obtain ⟨p, hread, hinactive⟩ := hopen.inactive hnd
      obtain ⟨p', hread', hok₀, hj⟩ := h.pools _ _ (hb.trans hbefore)
      cases hread'.symm.trans hread
      obtain ⟨seed', hself, hseed'⟩ := hok₀.self
      have hamm : amm = H.amm.id := (publicPdaPreimage_inj (hfree hP.given hseed' (hopen.idPool.symm.trans hself))).1
      have hlp : a.lp.accountId = p.liquidityPoolId := by
        rw [hopen.idLp, hok₀.lp.id, hamm]
        rfl
      obtain ⟨d₀, hd₀⟩ := hok₀.definition
      rw [if_neg hnd] at hprocess
      obtain ⟨_, _, heq, hmint⟩ := Token.process_mint_ok hprocess
      cases heq
      obtain ⟨d, hd, hsupply⟩ := Token.mint_raises hmade.effect hmade.program H.token_ne_default hmade.pre hmint
        ((token_data_kept heff hround.program).2 _ |>.trans (hlp ▸ hd₀))
      have hd := hmade.payA.definitions _ _ (hmade.payB.definitions _ _ hd)
      obtain ⟨hok, hview⟩ := opened_ok hamm hopen hP hreadA hdefA hreadB hdefB hd
      refine ⟨q, ?_, hok, ?_⟩
      · rw [Option.some.inj hafter]
        exact hdata
      · rw [hview]
        refine hkept.move _ _ _ (hsound.cond g hround.call hround.program _ hi a.pool (by rw [← hin, hpre]; rfl) p hread)
          (.reopen hinactive hactive hcoveredA hcoveredB ?_) hj
        rw [PoolDefinition.view, issuedIn_of_definition hd₀]
        exact hsupply

/-! ## Runs -/

/-- The calls of the AMM go to the token program. -/
theorem amm_callees (hacc : PublicAccepted H.toHost tx s blockId timestamp diff)
    (hsound : SoundCalls H Cond P tx (publicCalls H.toHost s blockId timestamp tx))
    (hg : g ∈ publicCalls H.toHost s blockId timestamp tx) (hp : g.program = H.amm.id) :
    ∀ c ∈ g.output.chainedCalls, c.programId = H.token.id := by
  obtain ⟨i, hi, hin, hprocess⟩ := amm_answered hacc hg hp
  have hpaid := hsound.paid g hg hp i hi
  have hliquidity : ∀ a : PoolAccounts, g.output.preStates = a.toList → ∀ {pre₁ pre₂ pre₃ i₁ i₂ i₃ seeds₁ seeds₂ seeds₃},
      g.output.chainedCalls = [tokenCall H.writeToken a.userA.account.programOwner pre₁ i₁ seeds₁,
        tokenCall H.writeToken a.userA.account.programOwner pre₂ i₂ seeds₂,
        tokenCall H.writeToken a.userA.account.programOwner pre₃ i₃ seeds₃] →
      a.userA.account.programOwner = H.token.id → ∀ c ∈ g.output.chainedCalls, c.programId = H.token.id := by
    intro a _ _ _ _ _ _ _ _ _ _ hcalls howner
    simp [hcalls, tokenCall, howner]
  have hswap : ∀ {tokenIn}, i.tokenIn = .some tokenIn → ∀ c ∈ g.output.chainedCalls, c.programId = H.token.id := by
    intro tokenIn htoken
    obtain ⟨pool, vaultA, vaultB, userA, userB, hpre, hswap⟩ := process_swap_ok htoken hprocess
    obtain ⟨p, q, data, deposit, withdraw, hsetup, -, -, hside⟩ := swap_ok hswap
    have hpaid := hpaid.swap htoken (hin ▸ hpre) hsetup.pool
    rcases hside with ⟨htoken, -, hside⟩ | ⟨hother, -, -, hside⟩
    · rw [if_pos htoken] at hpaid
      obtain ⟨_, -, hcalls⟩ := hside.calls
      simp [hcalls, swapCalls, tokenCall, hpaid]
    · rw [if_neg hother] at hpaid
      obtain ⟨_, -, hcalls⟩ := hside.calls
      simp [hcalls, swapCalls, tokenCall, hpaid]
  cases i with
  | newDefinition a b amm =>
    obtain ⟨a, hpre, -, -, hnew⟩ := process_newDefinition_ok hprocess
    obtain ⟨_, _, _, _, _, hopen, -, -⟩ := newDefinition_ok hnew
    exact hliquidity a hpre hopen.calls (hpaid a (hin ▸ hpre))
  | addLiquidity minLp maxA maxB =>
    obtain ⟨a, hpre, hadd⟩ := process_addLiquidity_ok hprocess
    obtain ⟨_, _, _, _, _, hadd, -, -⟩ := addLiquidity_ok hadd
    exact hliquidity a hpre hadd.calls (hpaid a (hin ▸ hpre))
  | removeLiquidity amount minA minB =>
    obtain ⟨a, hpre, -, hremove⟩ := process_removeLiquidity_ok hprocess
    obtain ⟨_, _, _, _, _, hremove, -, -⟩ := removeLiquidity_ok hremove
    exact hliquidity a hpre hremove.calls (hpaid a (hin ▸ hpre))
  | swapExactInput | swapExactOutput => exact hswap rfl

/-- **Every round of the AMM** keeps the pools. -/
theorem Pools.rounds (hkept : Kept Cond J) (hacc : PublicAccepted H.toHost tx s blockId timestamp diff)
    (hfree : Set.InjOn H.sha256 P) (hsound : SoundCalls H Cond P tx (publicCalls H.toHost s blockId timestamp tx))
    (hround : Round H.amm.id (publicCalls H.toHost s blockId timestamp tx) g ts σ σ') (h : Pools H P J σ) :
    Pools H P J σ' := by
  obtain ⟨i, hi, hin, hprocess⟩ := amm_answered hacc hround.call hround.program
  cases i with
  | newDefinition => exact h.open_round hkept hacc hfree hsound hround hi hin hprocess
  | addLiquidity => exact h.add_round hkept hacc hfree hsound hround hi hin hprocess
  | removeLiquidity => exact h.remove_round hkept hacc hfree hsound hround hi hin hprocess
  | swapExactInput | swapExactOutput => exact h.swap_round hkept hacc hfree hsound hround hi hin rfl hprocess

theorem Pools.nonces (hsame : SameButNonces σ σ') (h : Pools H P J σ) : Pools H P J σ' := by
  have hdata : ∀ program id, (σ' id).ownedData program = (σ id).ownedData program := by
    intro program id
    obtain ⟨n, hn⟩ := hsame id
    rw [hn]
    rfl
  refine ⟨h.books.nonces hsame, ?_⟩
  intro id data hd
  rw [hdata] at hd
  obtain ⟨p, hread, hok, hj⟩ := h.pools id data hd
  obtain ⟨hA, hreadA, hdefA⟩ := hok.holdingA
  obtain ⟨hB, hreadB, hdefB⟩ := hok.holdingB
  obtain ⟨d, hdef⟩ := hok.definition
  rw [PoolDefinition.view_eq hreadA hdefA hreadB hdefB hdef] at hj
  rw [holdingIn, ← hdata] at hreadA hreadB
  rw [definitionIn, ← hdata] at hdef
  obtain ⟨hok', hview⟩ := hok.moved (q := p) ⟨rfl, rfl, rfl, rfl, rfl⟩ hreadA hdefA hreadB hdefB hdef
  exact ⟨p, hread, hok', hview ▸ hj⟩

/-- **Pools over runs.** Whatever else is deployed, every account of the AMM is a pool in order. -/
theorem pools_reached (hkept : Kept Cond J) (hfree : Set.InjOn H.sha256 P)
    (h : Reached H.toHost (SoundCalls H Cond P) s) : Pools H P J s.getAccountById := by
  refine h.invariant ?_ (fun σ σ' => Pools.nonces) ?_
  · intro σ hgenesis
    have hnone : ∀ program, program ≠ defaultProgramId → program ≠ H.authenticatedTransfer.id → program ≠ H.clock.id →
        ∀ id, (σ id).ownedData program = .none := by
      intro program hdefault htransfer hclock id
      refine ownedData_of_stranger ?_
      rcases hgenesis id with hid | hid | hid
      · rw [hid]
        exact Ne.symm hdefault
      · rw [hid]
        exact Ne.symm htransfer
      · rw [hid]
        exact Ne.symm hclock
    refine ⟨Books.start (hnone _ H.token_ne_default H.token_ne_transfer H.token_ne_clock), ?_⟩
    intro id data hdata
    rw [hnone _ H.amm_ne_default H.amm_ne_transfer H.amm_ne_clock] at hdata
    cases hdata
  · intro s tx blockId timestamp diff hacc hsound hpools
    have hhub : ∀ e ∈ publicCalls H.toHost s blockId timestamp tx, e.program = H.amm.id →
        ∀ c ∈ e.output.chainedCalls, c.programId = H.token.id := fun e he hp => amm_callees hacc hsound he hp
    have hquiet : ∀ e ∈ publicCalls H.toHost s blockId timestamp tx, e.program = H.token.id →
        e.output.chainedCalls = [] := by
      intro e he hp
      obtain ⟨_, -, -, -, hquiet⟩ := Token.token_answered hacc he hp
      exact hquiet
    exact hacc.rounds
      (fun e σ σ' he hp hpath heff hσ => hσ.other hkept hacc hfree hsound he hp hpath heff)
      (fun g ts σ σ' hround hσ => hσ.rounds hkept hacc hfree hsound hround) hhub hquiet hpools

end

end Lez.Amm
