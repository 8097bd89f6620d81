/-
What an answer of the `amm` program says: the pool it read, the amounts, the
pool it wrote and the calls it makes.
-/
import Lez.Programs.Amm

namespace Lez.Amm

open Token (TokenHolding)

theorem PoolDefinition.tryFrom_eq_some {data : Data} {p : PoolDefinition} :
    PoolDefinition.tryFrom data = .some p ↔ data.1 = PoolDefinition.format.write p :=
  PoolDefinition.format.tryFromSlice_eq_some

theorem PoolDefinition.toData_ok {p : PoolDefinition} {data : Data} (h : p.toData = .ok data) :
    PoolDefinition.tryFrom data = .some p := by
  rw [PoolDefinition.toData, expect_ok_iff, Data.tryFrom_eq_some] at h
  exact PoolDefinition.tryFrom_eq_some.mpr h

theorem fungibleHolding_ok {invalid notFungible : String} {data : Data} {definitionId : AccountId} {balance : U128}
    (h : fungibleHolding invalid notFungible data = .ok (definitionId, balance)) :
    TokenHolding.tryFrom data = .some (.fungible definitionId balance) := by
  simp only [fungibleHolding, bind_ok_iff, expect_ok_iff] at h
  obtain ⟨holding, hread, h⟩ := h
  split at h
  next =>
    cases pure_ok_iff.mp h
    exact hread
  next => cases h

/-- The token a swap takes in. -/
def Instruction.tokenIn : Instruction → Option AccountId
  | swapExactInput _ _ tokenInId => .some tokenInId
  | swapExactOutput _ _ tokenInId => .some tokenInId
  | _ => .none

/-! ## Swaps -/

section
variable {sha256 : Bytes → Bytes32} {write : Token.Instruction → InstructionData}

/-- What `validate_swap_setup` passes. -/
structure SwapSetup (pool vaultA vaultB : AccountWithMetadata) (p : PoolDefinition) : Prop where
  pool : PoolDefinition.tryFrom pool.account.data = .some p
  active : p.active = true
  idA : vaultA.accountId = p.vaultAId
  idB : vaultB.accountId = p.vaultBId
  coveredA : ∃ definitionId balance, TokenHolding.tryFrom vaultA.account.data = .some (.fungible definitionId balance) ∧
    p.reserveA ≤ balance
  coveredB : ∃ definitionId balance, TokenHolding.tryFrom vaultB.account.data = .some (.fungible definitionId balance) ∧
    p.reserveB ≤ balance

theorem validateSwapSetup_ok {pool vaultA vaultB : AccountWithMetadata} {p : PoolDefinition}
    (h : validateSwapSetup pool vaultA vaultB = .ok p) : SwapSetup pool vaultA vaultB p := by
  simp only [validateSwapSetup, bind_ok_iff, expect_ok_iff, ensure_ok_iff, pure_ok_iff, Prod.exists] at h
  obtain ⟨p', hpool, -, hactive, -, hA, -, hB, dA, bA, hbA, -, hcA, dB, bB, hbB, -, hcB, rfl⟩ := h
  exact ⟨hpool, hactive, hA, hB, ⟨dA, bA, fungibleHolding_ok hbA, hcA⟩, ⟨dB, bB, fungibleHolding_ok hbB, hcB⟩⟩

/-- A swap in one direction: the amounts the reserves give, the calls between
the accounts of the two sides. -/
structure SwapSide (sha256 : Bytes → Bytes32) (write : Token.Instruction → InstructionData) (i : Instruction)
    (userDeposit vaultDeposit vaultWithdraw userWithdraw : AccountWithMetadata) (reserveDeposit reserveWithdraw : U128)
    (poolId : AccountId) (deposit withdraw : U128) (calls : List ChainedCall) : Prop where
  amounts : i.swapAmounts reserveDeposit reserveWithdraw = .ok (deposit, withdraw)
  calls : ∃ holding, TokenHolding.tryFrom vaultWithdraw.account.data = .some holding ∧
    calls = swapCalls sha256 write userDeposit vaultDeposit vaultWithdraw userWithdraw deposit withdraw poolId
      holding.definitionId

theorem swapLogic_ok {i : Instruction} {userDeposit vaultDeposit vaultWithdraw userWithdraw : AccountWithMetadata}
    {reserveDeposit reserveWithdraw deposit withdraw : U128} {poolId : AccountId} {calls : List ChainedCall}
    (h : swapLogic sha256 write i userDeposit vaultDeposit vaultWithdraw userWithdraw reserveDeposit reserveWithdraw
      poolId = .ok (calls, deposit, withdraw)) :
    SwapSide sha256 write i userDeposit vaultDeposit vaultWithdraw userWithdraw reserveDeposit reserveWithdraw poolId
      deposit withdraw calls := by
  simp only [swapLogic, bind_ok_iff, expect_ok_iff, pure_ok_iff, Prod.mk.injEq, Prod.exists] at h
  obtain ⟨d, w, hamounts, holding, hholding, rfl, rfl, rfl⟩ := h
  exact ⟨hamounts, holding, hholding, rfl⟩

/-- What a swap leaves: the pool with new reserves, everything else as it was. -/
theorem createSwapPostStates_ok {pool vaultA vaultB userA userB : AccountWithMetadata} {p : PoolDefinition}
    {depositA withdrawA depositB withdrawB : U128} {post : List AccountPostState}
    (h : createSwapPostStates pool p vaultA vaultB userA userB depositA withdrawA depositB withdrawB = .ok post) :
    ∃ data, PoolDefinition.tryFrom data = .some
        { p with reserveA := p.reserveA + depositA - withdrawA, reserveB := p.reserveB + depositB - withdrawB } ∧
      post = [.new { pool.account with data := data }, .new vaultA.account, .new vaultB.account, .new userA.account,
        .new userB.account] := by
  simp only [createSwapPostStates, bind_ok_iff, pure_ok_iff] at h
  obtain ⟨data, hdata, rfl⟩ := h
  exact ⟨data, PoolDefinition.toData_ok hdata, rfl⟩

/-- **A swap** has a covered, active pool and goes one of the two ways. -/
theorem swap_ok {i : Instruction} {pool vaultA vaultB userA userB : AccountWithMetadata} {tokenIn : AccountId}
    {post : List AccountPostState} {calls : List ChainedCall}
    (h : swap sha256 write i pool vaultA vaultB userA userB tokenIn = .ok (post, calls)) :
    ∃ p q data deposit withdraw, SwapSetup pool vaultA vaultB p ∧ PoolDefinition.tryFrom data = .some q ∧
      post = [.new { pool.account with data := data }, .new vaultA.account, .new vaultB.account, .new userA.account,
        .new userB.account] ∧
      (tokenIn = p.definitionTokenAId ∧
          q = { p with reserveA := p.reserveA + deposit, reserveB := p.reserveB - withdraw } ∧
          SwapSide sha256 write i userA vaultA vaultB userB p.reserveA p.reserveB pool.accountId deposit withdraw calls ∨
        tokenIn ≠ p.definitionTokenAId ∧ tokenIn = p.definitionTokenBId ∧
          q = { p with reserveA := p.reserveA - withdraw, reserveB := p.reserveB + deposit } ∧
          SwapSide sha256 write i userB vaultB vaultA userA p.reserveB p.reserveA pool.accountId deposit withdraw
            calls) := by
  rw [swap, bind_ok_iff] at h
  obtain ⟨p, hsetup, h⟩ := h
  have hsetup := validateSwapSetup_ok hsetup
  split at h
  next hA =>
    simp only [bind_ok_iff, pure_ok_iff, Prod.mk.injEq, Prod.exists] at h
    obtain ⟨calls', deposit, withdraw, hside, post', hpost, rfl, rfl⟩ := h
    obtain ⟨data, hdata, hpost⟩ := createSwapPostStates_ok hpost
    simp only [BitVec.ofNat_eq_ofNat, BitVec.sub_zero, BitVec.add_zero] at hdata
    exact ⟨p, _, data, deposit, withdraw, hsetup, hdata, hpost, .inl ⟨hA, rfl, swapLogic_ok hside⟩⟩
  next hA =>
    split at h
    next hB =>
      simp only [bind_ok_iff, pure_ok_iff, Prod.mk.injEq, Prod.exists] at h
      obtain ⟨calls', deposit, withdraw, hside, post', hpost, rfl, rfl⟩ := h
      obtain ⟨data, hdata, hpost⟩ := createSwapPostStates_ok hpost
      simp only [BitVec.ofNat_eq_ofNat, BitVec.sub_zero, BitVec.add_zero] at hdata
      exact ⟨p, _, data, deposit, withdraw, hsetup, hdata, hpost, .inr ⟨hA, hB, rfl, swapLogic_ok hside⟩⟩
    next => cases h

/-- A swap has five accounts. -/
theorem process_swap_ok {i : Instruction} {tokenIn : AccountId} (hi : i.tokenIn = .some tokenIn)
    {pre : List AccountWithMetadata} {post : List AccountPostState} {calls : List ChainedCall}
    (h : process sha256 write pre i = .ok (post, calls)) :
    ∃ pool vaultA vaultB userA userB, pre = [pool, vaultA, vaultB, userA, userB] ∧
      swap sha256 write i pool vaultA vaultB userA userB tokenIn = .ok (post, calls) := by
  cases i with
  | newDefinition | addLiquidity | removeLiquidity => cases hi
  | swapExactInput amountIn minOut tokenIn =>
    cases hi
    simp only [process] at h
    split at h
    next pool vaultA vaultB userA userB => exact ⟨pool, vaultA, vaultB, userA, userB, rfl, h⟩
    next => cases h
  | swapExactOutput amountOut maxIn tokenIn =>
    cases hi
    simp only [process] at h
    split at h
    next pool vaultA vaultB userA userB => exact ⟨pool, vaultA, vaultB, userA, userB, rfl, h⟩
    next => cases h

/-! ## The amounts of a swap -/

theorem swapWithdraw_ok {amountIn minOut reserveDeposit reserveWithdraw withdraw : U128}
    (h : swapWithdraw amountIn minOut reserveDeposit reserveWithdraw = .ok withdraw) :
    withdraw.toNat * (reserveDeposit + amountIn).toNat ≤ reserveWithdraw.toNat * amountIn.toNat := by
  simp only [swapWithdraw, quotient, bind_ok_iff, expect_ok_iff, ensure_ok_iff, pure_ok_iff] at h
  obtain ⟨product, hproduct, w, hw, -, -, -, -, rfl⟩ := h
  rw [← Checked.mul_eq_some.mp hproduct]
  exact Checked.div_mul_le hw

theorem exactOutputDeposit_ok {amountOut maxIn reserveDeposit reserveWithdraw deposit : U128}
    (h : exactOutputDeposit amountOut maxIn reserveDeposit reserveWithdraw = .ok deposit) :
    amountOut.toNat < reserveWithdraw.toNat ∧
      reserveDeposit.toNat * amountOut.toNat ≤ deposit.toNat * (reserveWithdraw.toNat - amountOut.toNat) := by
  simp only [exactOutputDeposit, bind_ok_iff, expect_ok_iff, ensure_ok_iff, pure_ok_iff] at h
  obtain ⟨-, -, -, hlt, product, hproduct, d, hd, -, -, rfl⟩ := h
  have hlt : amountOut.toNat < reserveWithdraw.toNat := hlt
  refine ⟨hlt, ?_⟩
  rw [← Checked.mul_eq_some.mp hproduct, ← BitVec.toNat_sub_of_le hlt.le]
  exact Checked.le_divCeil_mul hd

/-- **The amounts of a swap**: no more is withdrawn than there is, and what goes out of one
reserve is worth no more than what comes into the other. -/
theorem swapAmounts_ok {i : Instruction} {reserveDeposit reserveWithdraw deposit withdraw : U128}
    (h : i.swapAmounts reserveDeposit reserveWithdraw = .ok (deposit, withdraw))
    (hfits : reserveDeposit.toNat + deposit.toNat < 2 ^ 128) :
    withdraw.toNat ≤ reserveWithdraw.toNat ∧
      reserveDeposit.toNat * reserveWithdraw.toNat ≤
        (reserveDeposit.toNat + deposit.toNat) * (reserveWithdraw.toNat - withdraw.toNat) := by
  cases i with
  | newDefinition | addLiquidity | removeLiquidity => cases h
  | swapExactInput amountIn minOut tokenIn =>
    simp only [Instruction.swapAmounts, map_ok_iff, Prod.mk.injEq] at h
    obtain ⟨w, hw, rfl, rfl⟩ := h
    have hbound := swapWithdraw_ok hw
    rw [BitVec.toNat_add, Nat.mod_eq_of_lt hfits] at hbound
    have hle : w.toNat ≤ reserveWithdraw.toNat := by
      rcases Nat.eq_zero_or_pos (reserveDeposit.toNat + amountIn.toNat) with hz | hpos
      · -- the deposit is nothing, and the division by the empty reserve does not answer
        have hsum : reserveDeposit + amountIn = 0 := by
          apply BitVec.eq_of_toNat_eq
          rw [BitVec.toNat_add, Nat.mod_eq_of_lt hfits, hz]
          rfl
        simp only [swapWithdraw, quotient, hsum, Checked.div, ↓reduceIte, bind_ok_iff, expect_ok_iff] at hw
        obtain ⟨_, -, _, hdiv, -⟩ := hw
        cases hdiv
      · refine Nat.le_of_mul_le_mul_right (hbound.trans ?_) hpos
        exact Nat.mul_le_mul_left _ (by omega)
    refine ⟨hle, ?_⟩
    rw [Nat.mul_sub, Nat.add_mul]
    have hcomm : (reserveDeposit.toNat + amountIn.toNat) * w.toNat ≤ amountIn.toNat * reserveWithdraw.toNat := by
      rw [Nat.mul_comm, Nat.mul_comm amountIn.toNat]
      exact hbound
    omega
  | swapExactOutput amountOut maxIn tokenIn =>
    simp only [Instruction.swapAmounts, map_ok_iff, Prod.mk.injEq] at h
    obtain ⟨d, hd, rfl, rfl⟩ := h
    obtain ⟨hlt, hbound⟩ := exactOutputDeposit_ok hd
    refine ⟨hlt.le, ?_⟩
    have hsplit : reserveDeposit.toNat * reserveWithdraw.toNat =
        reserveDeposit.toNat * (reserveWithdraw.toNat - amountOut.toNat) + reserveDeposit.toNat * amountOut.toNat := by
      rw [← Nat.mul_add, Nat.sub_add_cancel hlt.le]
    rw [hsplit, Nat.add_mul]
    omega

theorem swapAmounts_pos {i : Instruction} {reserveDeposit reserveWithdraw deposit withdraw : U128}
    (h : i.swapAmounts reserveDeposit reserveWithdraw = .ok (deposit, withdraw)) : withdraw ≠ 0 := by
  cases i with
  | newDefinition | addLiquidity | removeLiquidity => cases h
  | swapExactInput amountIn minOut tokenIn =>
    simp only [Instruction.swapAmounts, swapWithdraw, map_ok_iff, bind_ok_iff, ensure_ok_iff, pure_ok_iff,
      Prod.mk.injEq] at h
    obtain ⟨w, ⟨_, -, _, -, -, -, -, hne, rfl⟩, rfl, rfl⟩ := h
    exact hne
  | swapExactOutput amountOut maxIn tokenIn =>
    simp only [Instruction.swapAmounts, exactOutputDeposit, map_ok_iff, bind_ok_iff, ensure_ok_iff, Prod.mk.injEq] at h
    obtain ⟨d, ⟨-, hne, -⟩, rfl, rfl⟩ := h
    exact hne

/-! ## Liquidity -/

/-- The accounts of an instruction on the liquidity of a pool. -/
structure PoolAccounts where
  pool : AccountWithMetadata
  vaultA : AccountWithMetadata
  vaultB : AccountWithMetadata
  lp : AccountWithMetadata
  userA : AccountWithMetadata
  userB : AccountWithMetadata
  userLp : AccountWithMetadata

def PoolAccounts.toList (a : PoolAccounts) : List AccountWithMetadata :=
  [a.pool, a.vaultA, a.vaultB, a.lp, a.userA, a.userB, a.userLp]

/-- What is left behind: the pool's data, and a claim to it or none. -/
def PoolAccounts.post (a : PoolAccounts) (data : Data) (claim : Option Claim) : List AccountPostState :=
  [⟨{ a.pool.account with data := data }, claim⟩, .new a.vaultA.account, .new a.vaultB.account, .new a.lp.account,
    .new a.userA.account, .new a.userB.account, .new a.userLp.account]

/-- The pool after `add_liquidity`. -/
def PoolDefinition.added (p : PoolDefinition) (a b lp : U128) : PoolDefinition :=
  { p with
    liquidityPoolSupply := p.liquidityPoolSupply + lp
    reserveA := p.reserveA + a
    reserveB := p.reserveB + b }

/-- The pool after `remove_liquidity`. -/
def PoolDefinition.removed (p : PoolDefinition) (a b lp : U128) : PoolDefinition :=
  { p with
    liquidityPoolSupply := p.liquidityPoolSupply - lp
    reserveA := p.reserveA - a
    reserveB := p.reserveB - b
    active := decide (p.liquidityPoolSupply - lp ≠ 0) }

/-- What `add_liquidity` and `remove_liquidity` check of the pool's accounts. -/
structure LiquiditySetup (a : PoolAccounts) (p : PoolDefinition) : Prop where
  pool : PoolDefinition.tryFrom a.pool.account.data = .some p
  idA : a.vaultA.accountId = p.vaultAId
  idB : a.vaultB.accountId = p.vaultBId
  idLp : a.lp.accountId = p.liquidityPoolId

/-- **An addition of liquidity**: covered reserves, deposits from the user and liquidity tokens minted. -/
structure Addition (sha256 : Bytes → Bytes32) (write : Token.Instruction → InstructionData) (a : PoolAccounts)
    (p : PoolDefinition) (minLp maxA maxB depositA depositB lp : U128) (calls : List ChainedCall) : Prop
    extends LiquiditySetup a p where
  coveredA : ∃ definitionId balance, TokenHolding.tryFrom a.vaultA.account.data = .some (.fungible definitionId balance) ∧
    p.reserveA ≤ balance
  coveredB : ∃ definitionId balance, TokenHolding.tryFrom a.vaultB.account.data = .some (.fungible definitionId balance) ∧
    p.reserveB ≤ balance
  amounts : addAmounts p minLp maxA maxB = .ok (depositA, depositB, lp)
  calls : calls =
    [tokenCall write a.userA.account.programOwner [authorized a.lp, a.userLp] (.mint lp)
        [computeLiquidityTokenPdaSeed sha256 a.pool.accountId],
      tokenCall write a.userA.account.programOwner [a.userB, a.vaultB] (.transfer depositB) [],
      tokenCall write a.userA.account.programOwner [a.userA, a.vaultA] (.transfer depositA) []]

theorem addLiquidity_ok {a : PoolAccounts} {minLp maxA maxB : U128} {post : List AccountPostState}
    {calls : List ChainedCall}
    (h : addLiquidity sha256 write a.pool a.vaultA a.vaultB a.lp a.userA a.userB a.userLp minLp maxA maxB =
      .ok (post, calls)) :
    ∃ p depositA depositB lp data, Addition sha256 write a p minLp maxA maxB depositA depositB lp calls ∧
      PoolDefinition.tryFrom data = .some (p.added depositA depositB lp) ∧ post = a.post data .none := by
  simp only [addLiquidity, bind_ok_iff, expect_ok_iff, ensure_ok_iff, pure_ok_iff, Prod.exists, Prod.mk.injEq] at h
  obtain ⟨p, hpool, -, hA, -, hLp, -, hB, -, -, dB, bB, hbB, dA, bA, hbA, -, -, -, -, -, hcA, -, hcB, xA, xB, lp, hx,
    data, hdata, rfl, rfl⟩ := h
  exact ⟨p, xA, xB, lp, data, ⟨⟨hpool, hA, hB, hLp.symm⟩, ⟨dA, bA, fungibleHolding_ok hbA, hcA⟩,
    ⟨dB, bB, fungibleHolding_ok hbB, hcB⟩, hx, rfl⟩, PoolDefinition.toData_ok hdata, rfl⟩

/-- **A removal of liquidity**: payments out of the vaults and liquidity tokens burned. -/
structure Removal (sha256 : Bytes → Bytes32) (write : Token.Instruction → InstructionData) (a : PoolAccounts)
    (p : PoolDefinition) (amount minA minB withdrawA withdrawB lp : U128) (calls : List ChainedCall) : Prop
    extends LiquiditySetup a p where
  active : p.active = true
  positive : minA ≠ 0 ∧ minB ≠ 0
  held : ∃ balance, TokenHolding.tryFrom a.userLp.account.data = .some (.fungible p.liquidityPoolId balance) ∧
    balance ≤ p.liquidityPoolSupply
  amounts : removeAmounts p amount minA minB = .ok (withdrawA, withdrawB, lp)
  calls : calls =
    [tokenCall write a.userA.account.programOwner [authorized a.lp, a.userLp] (.burn lp)
        [computeLiquidityTokenPdaSeed sha256 a.pool.accountId],
      tokenCall write a.userA.account.programOwner [authorized a.vaultB, a.userB] (.transfer withdrawB)
        [computeVaultPdaSeed sha256 a.pool.accountId p.definitionTokenBId],
      tokenCall write a.userA.account.programOwner [authorized a.vaultA, a.userA] (.transfer withdrawA)
        [computeVaultPdaSeed sha256 a.pool.accountId p.definitionTokenAId]]

theorem removeLiquidity_ok {a : PoolAccounts} {amount minA minB : U128} {post : List AccountPostState}
    {calls : List ChainedCall}
    (h : removeLiquidity sha256 write a.pool a.vaultA a.vaultB a.lp a.userA a.userB a.userLp amount minA minB =
      .ok (post, calls)) :
    ∃ p withdrawA withdrawB lp data, Removal sha256 write a p amount minA minB withdrawA withdrawB lp calls ∧
      PoolDefinition.tryFrom data = .some (p.removed withdrawA withdrawB lp) ∧ post = a.post data .none := by
  simp only [removeLiquidity, bind_ok_iff, expect_ok_iff, ensure_ok_iff, pure_ok_iff, Prod.exists, Prod.mk.injEq] at h
  obtain ⟨p, hpool, -, hactive, -, hLp, -, hA, -, hB, -, hminA, -, hminB, dLp, bLp, hbLp, -, hle, -, hid, wA, wB, lp, hw,
    data, hdata, rfl, rfl⟩ := h
  have hheld := fungibleHolding_ok hbLp
  rw [hid] at hheld
  exact ⟨p, wA, wB, lp, data, ⟨⟨hpool, hA, hB, hLp.symm⟩, hactive, ⟨hminA, hminB⟩, ⟨bLp, hheld, hle⟩, hw, rfl⟩,
    PoolDefinition.toData_ok hdata, rfl⟩

/-- **A new pool**: a pair without an active pool, accounts that derive from it, and the first deposits. -/
structure Opening (sha256 : Bytes → Bytes32) (write : Token.Instruction → InstructionData) (a : PoolAccounts)
    (amountA amountB : U128) (amm : ProgramId) (holdingA holdingB : TokenHolding) (seed : PdaSeed) (q : PoolDefinition)
    (calls : List ChainedCall) : Prop where
  readA : TokenHolding.tryFrom a.userA.account.data = .some holdingA
  readB : TokenHolding.tryFrom a.userB.account.data = .some holdingB
  poolSeed : computePoolPdaSeed sha256 holdingA.definitionId holdingB.definitionId = .ok seed
  idPool : a.pool.accountId = forPublicPda sha256 amm seed
  idA : a.vaultA.accountId = computeVaultPda sha256 amm a.pool.accountId holdingA.definitionId
  idB : a.vaultB.accountId = computeVaultPda sha256 amm a.pool.accountId holdingB.definitionId
  idLp : a.lp.accountId = computeLiquidityTokenPda sha256 amm a.pool.accountId
  inactive : a.pool.account ≠ Account.default →
    ∃ p, PoolDefinition.tryFrom a.pool.account.data = .some p ∧ p.active = false
  pool : q = ⟨holdingA.definitionId, holdingB.definitionId, a.vaultA.accountId, a.vaultB.accountId, a.lp.accountId,
    Checked.isqrt (amountA * amountB), amountA, amountB, 0, true⟩
  calls : calls =
    [tokenCall write a.userA.account.programOwner [authorized a.lp, a.userLp]
        (if a.pool.account = Account.default then .newFungibleDefinition lpTokenName q.liquidityPoolSupply
          else .mint q.liquidityPoolSupply)
        [computeLiquidityTokenPdaSeed sha256 a.pool.accountId],
      tokenCall write a.userA.account.programOwner [a.userB, authorized a.vaultB] (.transfer amountB)
        [computeVaultPdaSeed sha256 a.pool.accountId holdingB.definitionId],
      tokenCall write a.userA.account.programOwner [a.userA, authorized a.vaultA] (.transfer amountA)
        [computeVaultPdaSeed sha256 a.pool.accountId holdingA.definitionId]]

theorem isActive_ok {pool : Account} {active : Bool} (h : isActive pool = .ok active) :
    pool = Account.default ∨ ∃ p, PoolDefinition.tryFrom pool.data = .some p ∧ p.active = active := by
  unfold isActive at h
  split at h
  next hdefault => exact .inl hdefault
  next =>
    rw [map_ok_iff] at h
    obtain ⟨p, hp, rfl⟩ := h
    exact .inr ⟨p, expect_ok_iff.mp hp, rfl⟩

theorem newDefinition_ok {a : PoolAccounts} {amountA amountB : U128} {amm : ProgramId} {post : List AccountPostState}
    {calls : List ChainedCall}
    (h : newDefinition sha256 write a.pool a.vaultA a.vaultB a.lp a.userA a.userB a.userLp amountA amountB amm =
      .ok (post, calls)) :
    ∃ holdingA holdingB seed q data, Opening sha256 write a amountA amountB amm holdingA holdingB seed q calls ∧
      PoolDefinition.tryFrom data = .some q ∧
      post = a.post data (if a.pool.account.programOwner = defaultProgramId then .some (.pda seed) else .none) := by
  simp only [newDefinition, computePoolPda, bind_ok_iff, expect_ok_iff, ensure_ok_iff, pure_ok_iff, map_ok_iff,
    Prod.mk.injEq] at h
  obtain ⟨hA, hreadA, hB, hreadB, -, -, -, -, poolId, ⟨seed, hseed, rfl⟩, -, hpool, -, hidA, -, hidB, -, hidLp, active,
    hactive, -, rfl, data, hdata, seed', hseed', rfl, rfl⟩ := h
  cases hseed.symm.trans hseed'
  refine ⟨hA, hB, seed, _, data, ⟨hreadA, hreadB, hseed, hpool, hidA, hidB, hidLp, ?_, rfl, rfl⟩,
    PoolDefinition.toData_ok hdata, rfl⟩
  intro hne
  exact (isActive_ok hactive).resolve_left hne

theorem process_newDefinition_ok {pre : List AccountWithMetadata} {amountA amountB : U128} {amm : ProgramId}
    {post : List AccountPostState} {calls : List ChainedCall}
    (h : process sha256 write pre (.newDefinition amountA amountB amm) = .ok (post, calls)) :
    ∃ a : PoolAccounts, pre = a.toList ∧ amountA ≠ 0 ∧ amountB ≠ 0 ∧
      newDefinition sha256 write a.pool a.vaultA a.vaultB a.lp a.userA a.userB a.userLp amountA amountB amm =
        .ok (post, calls) := by
  simp only [process] at h
  split at h
  next pool vaultA vaultB lp userA userB userLp =>
    simp only [bind_ok_iff, ensure_ok_iff] at h
    obtain ⟨-, hA, -, hB, h⟩ := h
    exact ⟨⟨pool, vaultA, vaultB, lp, userA, userB, userLp⟩, rfl, hA, hB, h⟩
  next => cases h

/-- Instructions on liquidity have seven accounts. -/
theorem process_addLiquidity_ok {pre : List AccountWithMetadata} {minLp maxA maxB : U128}
    {post : List AccountPostState} {calls : List ChainedCall}
    (h : process sha256 write pre (.addLiquidity minLp maxA maxB) = .ok (post, calls)) :
    ∃ a : PoolAccounts, pre = a.toList ∧
      addLiquidity sha256 write a.pool a.vaultA a.vaultB a.lp a.userA a.userB a.userLp minLp maxA maxB =
        .ok (post, calls) := by
  simp only [process] at h
  split at h
  next pool vaultA vaultB lp userA userB userLp =>
    obtain ⟨_, -, h⟩ := bind_ok_iff.mp h
    exact ⟨⟨pool, vaultA, vaultB, lp, userA, userB, userLp⟩, rfl, h⟩
  next => cases h

theorem process_removeLiquidity_ok {pre : List AccountWithMetadata} {amount minA minB : U128}
    {post : List AccountPostState} {calls : List ChainedCall}
    (h : process sha256 write pre (.removeLiquidity amount minA minB) = .ok (post, calls)) :
    ∃ a : PoolAccounts, pre = a.toList ∧ amount ≠ 0 ∧
      removeLiquidity sha256 write a.pool a.vaultA a.vaultB a.lp a.userA a.userB a.userLp amount minA minB =
        .ok (post, calls) := by
  simp only [process] at h
  split at h
  next pool vaultA vaultB lp userA userB userLp =>
    obtain ⟨_, hne, h⟩ := bind_ok_iff.mp h
    exact ⟨⟨pool, vaultA, vaultB, lp, userA, userB, userLp⟩, rfl, ensure_ok_iff.mp hne, h⟩
  next => cases h

/-! ## The amounts of liquidity -/

/-- Liquidity tokens are paid for what comes in at no better than the price of the pool; the products may wrap. -/
theorem addAmounts_ok {p : PoolDefinition} {minLp maxA maxB depositA depositB lp : U128}
    (h : addAmounts p minLp maxA maxB = .ok (depositA, depositB, lp)) :
    lp.toNat * p.reserveA.toNat ≤ p.liquidityPoolSupply.toNat * depositA.toNat ∧
      lp.toNat * p.reserveB.toNat ≤ p.liquidityPoolSupply.toNat * depositB.toNat ∧
      depositA ≤ maxA ∧ depositB ≤ maxB := by
  simp only [addAmounts, quotient, bind_ok_iff, expect_ok_iff, ensure_ok_iff, pure_ok_iff, Prod.mk.injEq] at h
  obtain ⟨idealA, -, idealB, -, -, hmaxA, -, hmaxB, -, -, -, -, lpA, hlpA, lpB, hlpB, -, -, -, -, rfl, rfl, rfl⟩ := h
  have hA := Checked.div_mul_le hlpA
  have hB := Checked.div_mul_le hlpB
  rw [BitVec.toNat_mul] at hA hB
  have hA := hA.trans (Nat.mod_le _ _)
  have hB := hB.trans (Nat.mod_le _ _)
  refine ⟨?_, ?_, hmaxA, hmaxB⟩
  · split
    next => exact hA
    next hle =>
      have hlt : lpB.toNat ≤ lpA.toNat := (Nat.lt_of_not_le hle).le
      exact (Nat.mul_le_mul_right _ hlt).trans hA
  · split
    next hle =>
      have hle : lpA.toNat ≤ lpB.toNat := hle
      exact (Nat.mul_le_mul_right _ hle).trans hB
    next => exact hB

/-- Something is paid for and something is paid; a pool with nothing takes no addition. -/
theorem addAmounts_pos {p : PoolDefinition} {minLp maxA maxB depositA depositB lp : U128}
    (h : addAmounts p minLp maxA maxB = .ok (depositA, depositB, lp)) :
    depositA ≠ 0 ∧ lp ≠ 0 ∧ 0 < p.reserveA.toNat := by
  simp only [addAmounts, quotient, bind_ok_iff, expect_ok_iff, ensure_ok_iff, pure_ok_iff, Prod.mk.injEq] at h
  obtain ⟨_, -, _, -, -, -, -, -, -, hA, -, -, _, hlpA, _, -, -, hlp, -, -, rfl, rfl, rfl⟩ := h
  exact ⟨hA, hlp, (Checked.div_eq_some hlpA).1⟩

/-- What is paid out, and that exactly the amount asked for is burned where its product with the supply fits. -/
structure RemoveAmounts (p : PoolDefinition) (amount withdrawA withdrawB lp : U128) : Prop where
  supply : 0 < p.liquidityPoolSupply.toNat
  withdrawA : withdrawA.toNat * p.liquidityPoolSupply.toNat ≤ p.reserveA.toNat * amount.toNat
  withdrawB : withdrawB.toNat * p.liquidityPoolSupply.toNat ≤ p.reserveB.toNat * amount.toNat
  exact : lp = amount ↔ p.liquidityPoolSupply.toNat * amount.toNat < 2 ^ 128

theorem removeAmounts_ok {p : PoolDefinition} {amount minA minB withdrawA withdrawB lp : U128}
    (h : removeAmounts p amount minA minB = .ok (withdrawA, withdrawB, lp)) :
    RemoveAmounts p amount withdrawA withdrawB lp ∧ minA ≤ withdrawA ∧ minB ≤ withdrawB := by
  simp only [removeAmounts, quotient, bind_ok_iff, expect_ok_iff, ensure_ok_iff, pure_ok_iff, Prod.mk.injEq] at h
  obtain ⟨wA, hwA, wB, hwB, -, hminA, -, hminB, d, hd, rfl, rfl, rfl⟩ := h
  have hpos := (Checked.div_eq_some hd).1
  have hA := Checked.div_mul_le hwA
  have hB := Checked.div_mul_le hwB
  rw [BitVec.toNat_mul] at hA hB
  refine ⟨⟨hpos, hA.trans (Nat.mod_le _ _), hB.trans (Nat.mod_le _ _), ?_⟩, hminA, hminB⟩
  rw [Nat.mul_comm, ← Checked.mul_div_exact_iff hpos, BitVec.mul_comm amount, hd, Option.some.injEq]

end

end Lez.Amm
