/-
The `amm` program: pools of two tokens, their reserves and liquidity tokens.
It writes the pool account alone; the tokens move by the calls it makes, to
whatever program owns the user's account, with its authority over the vaults
and the liquidity token. Sums, differences and products of `u128` wrap unless
the source checks them; a panic of the guest is an error with its text.
-/
import Lez.Programs.Token

namespace Lez.Amm

open Borsh (Format)
open Token (TokenHolding)

structure PoolDefinition where
  definitionTokenAId : AccountId
  definitionTokenBId : AccountId
  vaultAId : AccountId
  vaultBId : AccountId
  liquidityPoolId : AccountId
  liquidityPoolSupply : U128
  reserveA : U128
  reserveB : U128
  fees : U128
  active : Bool
deriving DecidableEq

def PoolDefinition.format : Format PoolDefinition :=
  (Borsh.prod (Borsh.bytes 32) (Borsh.prod (Borsh.bytes 32) (Borsh.prod (Borsh.bytes 32) (Borsh.prod (Borsh.bytes 32)
      (Borsh.prod (Borsh.bytes 32) (Borsh.prod Borsh.u128 (Borsh.prod Borsh.u128 (Borsh.prod Borsh.u128
        (Borsh.prod Borsh.u128 Borsh.bool))))))))).map
    { toFun := fun (a, b, va, vb, lp, supply, ra, rb, fees, active) => ⟨a, b, va, vb, lp, supply, ra, rb, fees, active⟩
      invFun := fun p => (p.definitionTokenAId, p.definitionTokenBId, p.vaultAId, p.vaultBId, p.liquidityPoolId,
        p.liquidityPoolSupply, p.reserveA, p.reserveB, p.fees, p.active)
      left_inv := fun _ => rfl
      right_inv := fun _ => rfl }

/-- `TryFrom<&Data>`. -/
def PoolDefinition.tryFrom (data : Data) : Option PoolDefinition := PoolDefinition.format.tryFromSlice data.1

/-- `From<&PoolDefinition> for Data`. -/
def PoolDefinition.toData (p : PoolDefinition) : Except String Data :=
  expect "Token definition encoded data should fit into Data" (Data.tryFrom (PoolDefinition.format.write p))

inductive Instruction
  | newDefinition (tokenAAmount tokenBAmount : U128) (ammProgramId : ProgramId)
  | addLiquidity (minAmountLiquidity maxAmountToAddTokenA maxAmountToAddTokenB : U128)
  | removeLiquidity (removeLiquidityAmount minAmountToRemoveTokenA minAmountToRemoveTokenB : U128)
  | swapExactInput (swapAmountIn minAmountOut : U128) (tokenDefinitionIdIn : AccountId)
  | swapExactOutput (exactAmountOut maxAmountIn : U128) (tokenDefinitionIdIn : AccountId)
deriving DecidableEq

/-! ## Derived accounts -/

section
variable (sha256 : Bytes → Bytes32)

/-- The larger id comes first. -/
def computePoolPdaSeed (a b : AccountId) : Except String PdaSeed :=
  if a.toList < b.toList then .ok (sha256 (pairPreimage (b, a)))
  else if b.toList < a.toList then .ok (sha256 (pairPreimage (a, b)))
  else .error "Definitions match"

def computePoolPda (amm : ProgramId) (a b : AccountId) : Except String AccountId :=
  forPublicPda sha256 amm <$> computePoolPdaSeed sha256 a b

def computeVaultPdaSeed (poolId definitionTokenId : AccountId) : PdaSeed :=
  sha256 (pairPreimage (poolId, definitionTokenId))

def computeVaultPda (amm : ProgramId) (poolId definitionTokenId : AccountId) : AccountId :=
  forPublicPda sha256 amm (computeVaultPdaSeed sha256 poolId definitionTokenId)

def computeLiquidityTokenPdaSeed (poolId : AccountId) : PdaSeed := sha256 (pairPreimage (poolId, ByteVec.fill 32 0))

def computeLiquidityTokenPda (amm : ProgramId) (poolId : AccountId) : AccountId :=
  forPublicPda sha256 amm (computeLiquidityTokenPdaSeed sha256 poolId)

end

/-- The definition and the balance of a fungible holding. -/
def fungibleHolding (invalid notFungible : String) (data : Data) : Except String (AccountId × U128) := do
  match ← expect invalid (TokenHolding.tryFrom data) with
  | .fungible definitionId balance => pure (definitionId, balance)
  | _ => .error notFungible

/-- Division as the source writes it. -/
def quotient (a b : U128) : Except String U128 := expect "attempt to divide by zero" (Checked.div a b)

/-! ## Swaps -/

/-- What `swap_logic` withdraws for a deposit. -/
def swapWithdraw (swapAmountIn minAmountOut reserveDeposit reserveWithdraw : U128) : Except String U128 := do
  let product ← expect "reserve * amount_in overflows u128" (Checked.mul reserveWithdraw swapAmountIn)
  let withdrawAmount ← quotient product (reserveDeposit + swapAmountIn)
  ensure (minAmountOut ≤ withdrawAmount) "Withdraw amount is less than minimal amount out"
  ensure (withdrawAmount ≠ 0) "Withdraw amount should be nonzero"
  pure withdrawAmount

/-- What `exact_output_swap_logic` takes in for a withdrawal. -/
def exactOutputDeposit (exactAmountOut maxAmountIn reserveDeposit reserveWithdraw : U128) : Except String U128 := do
  ensure (exactAmountOut ≠ 0) "Exact amount out must be nonzero"
  ensure (exactAmountOut < reserveWithdraw) "Exact amount out exceeds reserve"
  let product ← expect "reserve * amount_out overflows u128" (Checked.mul reserveDeposit exactAmountOut)
  let depositAmount ← expect "attempt to divide by zero" (Checked.divCeil product (reserveWithdraw - exactAmountOut))
  ensure (depositAmount ≤ maxAmountIn) "Required input exceeds maximum amount in"
  pure depositAmount

/-- The deposit and the withdrawal of either kind of swap, from the two reserves. -/
def Instruction.swapAmounts (reserveDeposit reserveWithdraw : U128) : Instruction → Except String (U128 × U128)
  | swapExactInput amountIn minOut _ => (amountIn, ·) <$> swapWithdraw amountIn minOut reserveDeposit reserveWithdraw
  | swapExactOutput amountOut maxIn _ =>
    (·, amountOut) <$> exactOutputDeposit amountOut maxIn reserveDeposit reserveWithdraw
  | _ => .error "not a swap"

/-- The text for a vault that does not hold a token. -/
def Instruction.invalidVault : Instruction → String
  | swapExactOutput .. => "Exact Output Swap Logic: AMM Program expects valid token data"
  | _ => "Swap Logic: AMM Program expects valid token data"

def validateSwapSetup (pool vaultA vaultB : AccountWithMetadata) : Except String PoolDefinition := do
  let p ← expect "AMM Program expects a valid Pool Definition Account" (PoolDefinition.tryFrom pool.account.data)
  ensure (p.active = true) "Pool is inactive"
  ensure (vaultA.accountId = p.vaultAId) "Vault A was not provided"
  ensure (vaultB.accountId = p.vaultBId) "Vault B was not provided"
  let (_, vaultABalance) ← fungibleHolding "AMM Program expects a valid Token Holding Account for Vault A"
    "AMM Program expects a valid Fungible Token Holding Account for Vault A" vaultA.account.data
  ensure (p.reserveA ≤ vaultABalance) "Reserve for Token A exceeds vault balance"
  let (_, vaultBBalance) ← fungibleHolding "AMM Program expects a valid Token Holding Account for Vault B"
    "AMM Program expects a valid Fungible Token Holding Account for Vault B" vaultB.account.data
  ensure (p.reserveB ≤ vaultBBalance) "Reserve for Token B exceeds vault balance"
  pure p

section
variable (sha256 : Bytes → Bytes32) (write : Token.Instruction → InstructionData)

/-- `ChainedCall::new`. -/
def tokenCall (programId : ProgramId) (pre : List AccountWithMetadata) (i : Token.Instruction) (seeds : List PdaSeed) :
    ChainedCall :=
  ⟨programId, pre, write i, seeds⟩

def authorized (a : AccountWithMetadata) : AccountWithMetadata := { a with isAuthorized := true }

/-- The two calls of a swap; `definitionId` is the token of the vault that pays. -/
def swapCalls (userDeposit vaultDeposit vaultWithdraw userWithdraw : AccountWithMetadata)
    (depositAmount withdrawAmount : U128) (poolId definitionId : AccountId) : List ChainedCall :=
  let tokenProgramId := userDeposit.account.programOwner
  [tokenCall write tokenProgramId [userDeposit, vaultDeposit] (.transfer depositAmount) [],
    tokenCall write tokenProgramId [authorized vaultWithdraw, userWithdraw] (.transfer withdrawAmount)
      [computeVaultPdaSeed sha256 poolId definitionId]]

/-- `swap_logic` and `exact_output_swap_logic`: the calls, and the amounts they move. -/
def swapLogic (i : Instruction) (userDeposit vaultDeposit vaultWithdraw userWithdraw : AccountWithMetadata)
    (reserveDeposit reserveWithdraw : U128) (poolId : AccountId) :
    Except String (List ChainedCall × U128 × U128) := do
  let (depositAmount, withdrawAmount) ← i.swapAmounts reserveDeposit reserveWithdraw
  let holding ← expect i.invalidVault (TokenHolding.tryFrom vaultWithdraw.account.data)
  pure (swapCalls sha256 write userDeposit vaultDeposit vaultWithdraw userWithdraw depositAmount withdrawAmount poolId
    holding.definitionId, depositAmount, withdrawAmount)

/-- `create_swap_post_states`. -/
def createSwapPostStates (pool : AccountWithMetadata) (p : PoolDefinition)
    (vaultA vaultB userHoldingA userHoldingB : AccountWithMetadata) (depositA withdrawA depositB withdrawB : U128) :
    Except String (List AccountPostState) := do
  let data ← { p with
    reserveA := p.reserveA + depositA - withdrawA
    reserveB := p.reserveB + depositB - withdrawB }.toData
  pure [.new { pool.account with data := data }, .new vaultA.account, .new vaultB.account, .new userHoldingA.account,
    .new userHoldingB.account]

/-- `swap_exact_input` and `swap_exact_output`: the token that comes in picks the direction. -/
def swap (i : Instruction) (pool vaultA vaultB userHoldingA userHoldingB : AccountWithMetadata)
    (tokenInId : AccountId) : Except String (List AccountPostState × List ChainedCall) := do
  let p ← validateSwapSetup pool vaultA vaultB
  if tokenInId = p.definitionTokenAId then
    let (calls, depositA, withdrawB) ← swapLogic sha256 write i userHoldingA vaultA vaultB userHoldingB p.reserveA
      p.reserveB pool.accountId
    let post ← createSwapPostStates pool p vaultA vaultB userHoldingA userHoldingB depositA 0 0 withdrawB
    pure (post, calls)
  else if tokenInId = p.definitionTokenBId then
    let (calls, depositB, withdrawA) ← swapLogic sha256 write i userHoldingB vaultB vaultA userHoldingA p.reserveB
      p.reserveA pool.accountId
    let post ← createSwapPostStates pool p vaultA vaultB userHoldingA userHoldingB 0 withdrawA depositB 0
    pure (post, calls)
  else
    .error "AccountId is not a token type for the pool"

def swapExactInput (pool vaultA vaultB userHoldingA userHoldingB : AccountWithMetadata)
    (swapAmountIn minAmountOut : U128) (tokenInId : AccountId) :
    Except String (List AccountPostState × List ChainedCall) :=
  swap sha256 write (.swapExactInput swapAmountIn minAmountOut tokenInId) pool vaultA vaultB userHoldingA userHoldingB
    tokenInId

def swapExactOutput (pool vaultA vaultB userHoldingA userHoldingB : AccountWithMetadata)
    (exactAmountOut maxAmountIn : U128) (tokenInId : AccountId) :
    Except String (List AccountPostState × List ChainedCall) :=
  swap sha256 write (.swapExactOutput exactAmountOut maxAmountIn tokenInId) pool vaultA vaultB userHoldingA
    userHoldingB tokenInId

/-! ## Liquidity -/

/-- The amounts `add_liquidity` takes in and the liquidity tokens it pays. -/
def addAmounts (p : PoolDefinition) (minAmountLiquidity maxA maxB : U128) : Except String (U128 × U128 × U128) := do
  let idealA ← quotient (p.reserveA * maxB) p.reserveB
  let idealB ← quotient (p.reserveB * maxA) p.reserveA
  let actualA := if maxA < idealA then maxA else idealA
  let actualB := if maxB < idealB then maxB else idealB
  ensure (actualA ≤ maxA) "Actual trade amounts cannot exceed max_amounts"
  ensure (actualB ≤ maxB) "Actual trade amounts cannot exceed max_amounts"
  ensure (actualA ≠ 0) "A trade amount is 0"
  ensure (actualB ≠ 0) "A trade amount is 0"
  let lpA ← quotient (p.liquidityPoolSupply * actualA) p.reserveA
  let lpB ← quotient (p.liquidityPoolSupply * actualB) p.reserveB
  let deltaLp := if lpA ≤ lpB then lpA else lpB
  ensure (deltaLp ≠ 0) "Payable LP must be nonzero"
  ensure (minAmountLiquidity ≤ deltaLp) "Payable LP is less than provided minimum LP amount"
  pure (actualA, actualB, deltaLp)

def addLiquidity (pool vaultA vaultB poolDefinitionLp userHoldingA userHoldingB userHoldingLp : AccountWithMetadata)
    (minAmountLiquidity maxA maxB : U128) : Except String (List AccountPostState × List ChainedCall) := do
  let p ← expect "Add liquidity: AMM Program expects valid Pool Definition Account"
    (PoolDefinition.tryFrom pool.account.data)
  ensure (vaultA.accountId = p.vaultAId) "Vault A was not provided"
  ensure (p.liquidityPoolId = poolDefinitionLp.accountId) "LP definition mismatch"
  ensure (vaultB.accountId = p.vaultBId) "Vault B was not provided"
  ensure (maxA ≠ 0 ∧ maxB ≠ 0) "Both max-balances must be nonzero"
  let (_, vaultBBalance) ← fungibleHolding "Add liquidity: AMM Program expects valid Token Holding Account for Vault B"
    "Add liquidity: AMM Program expects valid Fungible Token Holding Account for Vault B" vaultB.account.data
  let (_, vaultABalance) ← fungibleHolding "Add liquidity: AMM Program expects valid Token Holding Account for Vault A"
    "Add liquidity: AMM Program expects valid Fungible Token Holding Account for Vault A" vaultA.account.data
  ensure (p.reserveA ≠ 0) "Reserves must be nonzero"
  ensure (p.reserveB ≠ 0) "Reserves must be nonzero"
  ensure (p.reserveA ≤ vaultABalance) "Vaults' balances must be at least the reserve amounts"
  ensure (p.reserveB ≤ vaultBBalance) "Vaults' balances must be at least the reserve amounts"
  let (actualA, actualB, deltaLp) ← addAmounts p minAmountLiquidity maxA maxB
  let data ← { p with
    liquidityPoolSupply := p.liquidityPoolSupply + deltaLp
    reserveA := p.reserveA + actualA
    reserveB := p.reserveB + actualB }.toData
  let tokenProgramId := userHoldingA.account.programOwner
  let callTokenA := tokenCall write tokenProgramId [userHoldingA, vaultA] (.transfer actualA) []
  let callTokenB := tokenCall write tokenProgramId [userHoldingB, vaultB] (.transfer actualB) []
  let callTokenLp := tokenCall write tokenProgramId [authorized poolDefinitionLp, userHoldingLp] (.mint deltaLp)
    [computeLiquidityTokenPdaSeed sha256 pool.accountId]
  pure ([.new { pool.account with data := data }, .new vaultA.account, .new vaultB.account,
    .new poolDefinitionLp.account, .new userHoldingA.account, .new userHoldingB.account, .new userHoldingLp.account],
    [callTokenLp, callTokenB, callTokenA])

/-- The amounts `remove_liquidity` pays out and the liquidity tokens it burns. -/
def removeAmounts (p : PoolDefinition) (removeLiquidityAmount minA minB : U128) :
    Except String (U128 × U128 × U128) := do
  let withdrawA ← quotient (p.reserveA * removeLiquidityAmount) p.liquidityPoolSupply
  let withdrawB ← quotient (p.reserveB * removeLiquidityAmount) p.liquidityPoolSupply
  ensure (minA ≤ withdrawA) "Insufficient minimal withdraw amount (Token A) provided for liquidity amount"
  ensure (minB ≤ withdrawB) "Insufficient minimal withdraw amount (Token B) provided for liquidity amount"
  let deltaLp ← quotient (p.liquidityPoolSupply * removeLiquidityAmount) p.liquidityPoolSupply
  pure (withdrawA, withdrawB, deltaLp)

def removeLiquidity (pool vaultA vaultB poolDefinitionLp userHoldingA userHoldingB userHoldingLp : AccountWithMetadata)
    (removeLiquidityAmount minA minB : U128) : Except String (List AccountPostState × List ChainedCall) := do
  let p ← expect "Remove liquidity: AMM Program expects a valid Pool Definition Account"
    (PoolDefinition.tryFrom pool.account.data)
  ensure (p.active = true) "Pool is inactive"
  ensure (p.liquidityPoolId = poolDefinitionLp.accountId) "LP definition mismatch"
  ensure (vaultA.accountId = p.vaultAId) "Vault A was not provided"
  ensure (vaultB.accountId = p.vaultBId) "Vault B was not provided"
  ensure (minA ≠ 0) "Minimum withdraw amount must be nonzero"
  ensure (minB ≠ 0) "Minimum withdraw amount must be nonzero"
  let (lpDefinitionId, userLpBalance) ← fungibleHolding
    "Remove liquidity: AMM Program expects a valid Token Account for liquidity token"
    "Remove liquidity: AMM Program expects a valid Fungible Token Holding Account for liquidity token"
    userHoldingLp.account.data
  ensure (userLpBalance ≤ p.liquidityPoolSupply) "Invalid liquidity account provided"
  ensure (lpDefinitionId = p.liquidityPoolId) "Invalid liquidity account provided"
  let (withdrawA, withdrawB, deltaLp) ← removeAmounts p removeLiquidityAmount minA minB
  let data ← { p with
    liquidityPoolSupply := p.liquidityPoolSupply - deltaLp
    reserveA := p.reserveA - withdrawA
    reserveB := p.reserveB - withdrawB
    active := decide (p.liquidityPoolSupply - deltaLp ≠ 0) }.toData
  let tokenProgramId := userHoldingA.account.programOwner
  let callTokenA := tokenCall write tokenProgramId [authorized vaultA, userHoldingA] (.transfer withdrawA)
    [computeVaultPdaSeed sha256 pool.accountId p.definitionTokenAId]
  let callTokenB := tokenCall write tokenProgramId [authorized vaultB, userHoldingB] (.transfer withdrawB)
    [computeVaultPdaSeed sha256 pool.accountId p.definitionTokenBId]
  let callTokenLp := tokenCall write tokenProgramId [authorized poolDefinitionLp, userHoldingLp] (.burn deltaLp)
    [computeLiquidityTokenPdaSeed sha256 pool.accountId]
  pure ([.new { pool.account with data := data }, .new vaultA.account, .new vaultB.account,
    .new poolDefinitionLp.account, .new userHoldingA.account, .new userHoldingB.account, .new userHoldingLp.account],
    [callTokenLp, callTokenB, callTokenA])

/-- A pool that does not exist yet is `PoolDefinition::default()`, which is inactive. -/
def isActive (pool : Account) : Except String Bool :=
  if pool = Account.default then .ok false
  else (·.active) <$> expect "AMM program expects a valid Pool account" (PoolDefinition.tryFrom pool.data)

/-- `String::from("LP Token")`. -/
def lpTokenName : Borsh.Text := ⟨ascii "LP Token", by decide, by decide⟩

def newDefinition (pool vaultA vaultB poolDefinitionLp userHoldingA userHoldingB userHoldingLp : AccountWithMetadata)
    (tokenAAmount tokenBAmount : U128) (ammProgramId : ProgramId) :
    Except String (List AccountPostState × List ChainedCall) := do
  let holdingA ← expect "New definition: AMM Program expects valid Token Holding account for Token A"
    (TokenHolding.tryFrom userHoldingA.account.data)
  let holdingB ← expect "New definition: AMM Program expects valid Token Holding account for Token B"
    (TokenHolding.tryFrom userHoldingB.account.data)
  let definitionTokenAId := holdingA.definitionId
  let definitionTokenBId := holdingB.definitionId
  let tokenProgram := userHoldingA.account.programOwner
  ensure (userHoldingB.account.programOwner = tokenProgram) "User Token holdings must use the same Token Program"
  ensure (definitionTokenAId ≠ definitionTokenBId) "Cannot set up a swap for a token with itself"
  let poolId ← computePoolPda sha256 ammProgramId definitionTokenAId definitionTokenBId
  ensure (pool.accountId = poolId) "Pool Definition Account ID does not match PDA"
  ensure (vaultA.accountId = computeVaultPda sha256 ammProgramId pool.accountId definitionTokenAId)
    "Vault ID does not match PDA"
  ensure (vaultB.accountId = computeVaultPda sha256 ammProgramId pool.accountId definitionTokenBId)
    "Vault ID does not match PDA"
  ensure (poolDefinitionLp.accountId = computeLiquidityTokenPda sha256 ammProgramId pool.accountId)
    "Liquidity pool Token Definition Account ID does not match PDA"
  let wasActive ← isActive pool.account
  ensure (wasActive = false) "Cannot initialize an active Pool Definition"
  let initialLp := Checked.isqrt (tokenAAmount * tokenBAmount)
  let lpInstruction : Token.Instruction := if pool.account = Account.default then
    .newFungibleDefinition lpTokenName initialLp else .mint initialLp
  let data ← (⟨definitionTokenAId, definitionTokenBId, vaultA.accountId, vaultB.accountId, poolDefinitionLp.accountId,
    initialLp, tokenAAmount, tokenBAmount, 0, true⟩ : PoolDefinition).toData
  let poolPdaSeed ← computePoolPdaSeed sha256 definitionTokenAId definitionTokenBId
  let callTokenA := tokenCall write tokenProgram [userHoldingA, authorized vaultA] (.transfer tokenAAmount)
    [computeVaultPdaSeed sha256 pool.accountId definitionTokenAId]
  let callTokenB := tokenCall write tokenProgram [userHoldingB, authorized vaultB] (.transfer tokenBAmount)
    [computeVaultPdaSeed sha256 pool.accountId definitionTokenBId]
  let callTokenLp := tokenCall write tokenProgram [authorized poolDefinitionLp, userHoldingLp] lpInstruction
    [computeLiquidityTokenPdaSeed sha256 pool.accountId]
  pure ([.newClaimedIfDefault { pool.account with data := data } (.pda poolPdaSeed), .new vaultA.account,
    .new vaultB.account, .new poolDefinitionLp.account, .new userHoldingA.account, .new userHoldingB.account,
    .new userHoldingLp.account], [callTokenLp, callTokenB, callTokenA])

/-- The match of `main`. -/
def process (pre : List AccountWithMetadata) : Instruction → Except String (List AccountPostState × List ChainedCall)
  | .newDefinition tokenAAmount tokenBAmount ammProgramId =>
    match pre with
    | [pool, vaultA, vaultB, lp, userA, userB, userLp] => do
      ensure (tokenAAmount ≠ 0) "Token A should have a nonzero amount"
      ensure (tokenBAmount ≠ 0) "Token B should have a nonzero amount"
      newDefinition sha256 write pool vaultA vaultB lp userA userB userLp tokenAAmount tokenBAmount ammProgramId
    | _ => .error "Transfer instruction requires exactly seven accounts"
  | .addLiquidity minAmountLiquidity maxA maxB =>
    match pre with
    | [pool, vaultA, vaultB, lp, userA, userB, userLp] => do
      ensure (minAmountLiquidity ≠ 0) "Min amount of liquidity should be nonzero"
      addLiquidity sha256 write pool vaultA vaultB lp userA userB userLp minAmountLiquidity maxA maxB
    | _ => .error "Transfer instruction requires exactly seven accounts"
  | .removeLiquidity amount minA minB =>
    match pre with
    | [pool, vaultA, vaultB, lp, userA, userB, userLp] => do
      ensure (amount ≠ 0) "Remove liquidity amount must be nonzero"
      removeLiquidity sha256 write pool vaultA vaultB lp userA userB userLp amount minA minB
    | _ => .error "Transfer instruction requires exactly seven accounts"
  | .swapExactInput amountIn minOut tokenInId =>
    match pre with
    | [pool, vaultA, vaultB, userA, userB] =>
      swapExactInput sha256 write pool vaultA vaultB userA userB amountIn minOut tokenInId
    | _ => .error "SwapExactInput instruction requires exactly five accounts"
  | .swapExactOutput amountOut maxIn tokenInId =>
    match pre with
    | [pool, vaultA, vaultB, userA, userB] =>
      swapExactOutput sha256 write pool vaultA vaultB userA userB amountOut maxIn tokenInId
    | _ => .error "SwapExactOutput instruction requires exactly five accounts"

/-- `main`; `read` is the deserializer of its instructions, `write` the serializer of the token program's. -/
def main (read : InstructionData → Option Instruction) (self : ProgramId) (caller : Option ProgramId)
    (pre : List AccountWithMetadata) (data : InstructionData) : Except String ProgramOutput := do
  let instruction ← expect "instruction does not deserialize" (read data)
  let (post, calls) ← process sha256 write pre instruction
  pure { ProgramOutput.new self caller data pre post with chainedCalls := calls }

end

/-- An output echoes its accounts and is what `process` answers. -/
theorem main_ok {sha256 : Bytes → Bytes32} {write : Token.Instruction → InstructionData}
    {read : InstructionData → Option Instruction} {self : ProgramId} {caller : Option ProgramId}
    {pre : List AccountWithMetadata} {data : InstructionData} {out : ProgramOutput}
    (h : main sha256 write read self caller pre data = .ok out) :
    ∃ i, read data = .some i ∧ process sha256 write pre i = .ok (out.postStates, out.chainedCalls) ∧
      out.preStates = pre := by
  simp only [main, bind_ok_iff, expect_ok_iff, pure_ok_iff, Prod.exists] at h
  obtain ⟨i, hi, post, calls, hprocess, rfl⟩ := h
  exact ⟨i, hi, hprocess, rfl⟩

end Lez.Amm
