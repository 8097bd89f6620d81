/-
Liquidity and shares. What an addition pays for in liquidity tokens it takes
in at the price of the pool, even where its products wrap, because the token
program keeps every vault below `2^128`; where the tokens are another
program's, only small amounts are sure to fit. A removal multiplies the amount
by the supply before it divides by it; where that product wraps, the pool
burns another amount than it was asked to and pays out for the amount it was
asked.
-/
import Lez.Amm.Answers
import Mathlib.Data.BitVec

namespace Lez.Amm

def Instruction.IsLiquidity : Instruction → Prop
  | addLiquidity .. | removeLiquidity .. => True
  | _ => False

/-- No liquidity token stands for less of either reserve than before; cross-multiplied. -/
def KeepsShares (p q : PoolDefinition) : Prop :=
  p.reserveA.toNat * q.liquidityPoolSupply.toNat ≤ q.reserveA.toNat * p.liquidityPoolSupply.toNat ∧
    p.reserveB.toNat * q.liquidityPoolSupply.toNat ≤ q.reserveB.toNat * p.liquidityPoolSupply.toNat

/-- An executed call on the liquidity of the pool `p`, which it leaves as `q`. -/
structure LiquidityCall (H : AmmHost) (e : Executed) (i : Instruction) (p q : PoolDefinition) : Prop where
  program : e.program = H.amm.id
  instruction : H.readAmm e.call.instructionData = .some i
  liquidity : i.IsLiquidity
  before : (e.output.preStates.head?.bind fun a => PoolDefinition.tryFrom a.account.data) = .some p
  after : (e.output.postStates.head?.bind fun a => PoolDefinition.tryFrom a.account.data) = .some q

/-- `user_holding_a`, the fifth account, is the token program's: the calls that move tokens go to its owner. -/
def PaidInTokens (H : AmmHost) (e : Executed) : Prop :=
  (e.output.preStates[4]?.map fun a => a.account.programOwner) = .some H.token.id

/-- The product of a removal fits, and the token program, or the size of the amounts, keeps the sums and differences
from wrapping. -/
def Unwrapped (H : AmmHost) (e : Executed) (p : PoolDefinition) : Instruction → Prop
  | .addLiquidity _ maxA maxB => PaidInTokens H e ∨
      p.reserveA.toNat + maxA.toNat < 2 ^ 128 ∧ p.reserveB.toNat + maxB.toNat < 2 ^ 128
  | .removeLiquidity amount _ _ => p.liquidityPoolSupply.toNat * amount.toNat < 2 ^ 128 ∧
      (PaidInTokens H e ∨ amount ≤ p.liquidityPoolSupply)
  | _ => False

/-- The call burns the amount and pays out no more than the share that it is. -/
def PaysShare (H : AmmHost) (e : Executed) (p : PoolDefinition) (amount : U128) : Prop :=
  ∃ burned withdrawnA withdrawnB, e.output.chainedCalls.map (·.instructionData) =
      [H.writeToken (.burn burned), H.writeToken (.transfer withdrawnB), H.writeToken (.transfer withdrawnA)] ∧
    withdrawnA.toNat * p.liquidityPoolSupply.toNat ≤ p.reserveA.toNat * burned.toNat ∧
    withdrawnB.toNat * p.liquidityPoolSupply.toNat ≤ p.reserveB.toNat * burned.toNat ∧ burned = amount

def FairLiquidity (H : AmmHost) (e : Executed) (i : Instruction) (p q : PoolDefinition) : Prop :=
  KeepsShares p q ∧ ∀ amount minA minB, i = .removeLiquidity amount minA minB → PaysShare H e p amount

/-! ## The inequality -/

/-- A deposit that fits, against liquidity tokens at the pool's price. -/
theorem share_of_deposit {reserve supply deposit lp : U128} (hfits : reserve.toNat + deposit.toNat < 2 ^ 128)
    (hprice : lp.toNat * reserve.toNat ≤ supply.toNat * deposit.toNat) :
    reserve.toNat * (supply + lp).toNat ≤ (reserve + deposit).toNat * supply.toNat := by
  rw [BitVec.toNat_add reserve, Nat.mod_eq_of_lt hfits, BitVec.toNat_add]
  calc reserve.toNat * ((supply.toNat + lp.toNat) % 2 ^ 128)
      ≤ reserve.toNat * (supply.toNat + lp.toNat) := Nat.mul_le_mul_left _ (Nat.mod_le _ _)
    _ = reserve.toNat * supply.toNat + lp.toNat * reserve.toNat := by ring
    _ ≤ reserve.toNat * supply.toNat + supply.toNat * deposit.toNat := Nat.add_le_add_left hprice _
    _ = (reserve.toNat + deposit.toNat) * supply.toNat := by ring

/-- A payment for a share of the supply. -/
theorem share_of_withdrawal {reserve supply withdrawn lp : U128} (hlp : lp.toNat ≤ supply.toNat)
    (hpos : 0 < supply.toNat) (hprice : withdrawn.toNat * supply.toNat ≤ reserve.toNat * lp.toNat) :
    reserve.toNat * (supply - lp).toNat ≤ (reserve - withdrawn).toNat * supply.toNat := by
  have hle : withdrawn.toNat ≤ reserve.toNat :=
    Nat.le_of_mul_le_mul_right (hprice.trans (Nat.mul_le_mul_left _ hlp)) hpos
  rw [BitVec.toNat_sub_of_le hlp, BitVec.toNat_sub_of_le hle, Nat.mul_sub, Nat.sub_mul]
  exact Nat.sub_le_sub_left hprice _

section
variable {H : AmmHost} {s : V03State} {blockId : BlockId} {timestamp : Timestamp} {tx : PublicTransaction}
  {diff : StateDiff} {e : Executed} {i : Instruction} {p q : PoolDefinition}

theorem transfer_fits (hacc : PublicAccepted H.toHost tx s blockId timestamp diff)
    (he : e ∈ publicCalls H.toHost s blockId timestamp tx) (user vault : AccountWithMetadata) (amount : U128)
    (hc : tokenCall H.writeToken H.token.id [user, vault] (.transfer amount) [] ∈ e.output.chainedCalls)
    {reserve : U128} (hcovered : ∃ definitionId balance,
      Token.TokenHolding.tryFrom vault.account.data = .some (.fungible definitionId balance) ∧ reserve ≤ balance) :
    reserve.toNat + amount.toNat < 2 ^ 128 := by
  obtain ⟨definitionId, balance, hread, hle⟩ := hcovered
  obtain ⟨post, hprocess⟩ := token_called hacc he (t := .transfer amount) trivial hc
  obtain ⟨_, _, hpre, htransfer⟩ := Token.process_transfer_ok hprocess
  cases hpre
  have hfits := Token.transfer_into_fungible htransfer hread
  have hle : reserve.toNat ≤ balance.toNat := hle
  omega

/-- An addition keeps the shares, whatever its products do. -/
theorem addition_fair (hacc : PublicAccepted H.toHost tx s blockId timestamp diff)
    (he : e ∈ publicCalls H.toHost s blockId timestamp tx) {minLp maxA maxB : U128}
    (hcall : LiquidityCall H e (.addLiquidity minLp maxA maxB) p q)
    (hsafe : Unwrapped H e p (.addLiquidity minLp maxA maxB)) : KeepsShares p q := by
  obtain ⟨i, hi, -, hprocess⟩ := amm_answered hacc he hcall.program
  cases hi.symm.trans hcall.instruction
  obtain ⟨a, hpre, hadd⟩ := process_addLiquidity_ok hprocess
  obtain ⟨p', depositA, depositB, lp, data, haddition, hdata, hpost⟩ := addLiquidity_ok hadd
  have hbefore := hcall.before
  have hafter := hcall.after
  rw [hpre] at hbefore
  rw [hpost] at hafter
  cases hbefore.symm.trans haddition.pool
  cases hafter.symm.trans hdata
  obtain ⟨hpriceA, hpriceB, hmaxA, hmaxB⟩ := addAmounts_ok haddition.amounts
  have hfits : p.reserveA.toNat + depositA.toNat < 2 ^ 128 ∧ p.reserveB.toNat + depositB.toNat < 2 ^ 128 := by
    rcases hsafe with htoken | ⟨hfitsA, hfitsB⟩
    · have hcalls := haddition.calls
      rw [PaidInTokens, hpre] at htoken
      rw [show a.userA.account.programOwner = H.token.id from Option.some.inj htoken] at hcalls
      exact ⟨transfer_fits hacc he a.userA a.vaultA depositA (by rw [hcalls]; simp) haddition.coveredA,
        transfer_fits hacc he a.userB a.vaultB depositB (by rw [hcalls]; simp) haddition.coveredB⟩
    · have hmaxA : depositA.toNat ≤ maxA.toNat := hmaxA
      have hmaxB : depositB.toNat ≤ maxB.toNat := hmaxB
      omega
  exact ⟨share_of_deposit hfits.1 hpriceA, share_of_deposit hfits.2 hpriceB⟩

/-- What a removal says: the amounts, the calls and the pool it leaves. The token program burns no more than the
user holds. -/
theorem removal_of_call (hacc : PublicAccepted H.toHost tx s blockId timestamp diff)
    (he : e ∈ publicCalls H.toHost s blockId timestamp tx) {amount minA minB : U128}
    (hcall : LiquidityCall H e (.removeLiquidity amount minA minB) p q) :
    ∃ withdrawA withdrawB lp, RemoveAmounts p amount withdrawA withdrawB lp ∧
      (PaidInTokens H e → lp.toNat ≤ p.liquidityPoolSupply.toNat) ∧ q = p.removed withdrawA withdrawB lp ∧
      e.output.chainedCalls.map (·.instructionData) =
        [H.writeToken (.burn lp), H.writeToken (.transfer withdrawB), H.writeToken (.transfer withdrawA)] := by
  obtain ⟨i, hi, -, hprocess⟩ := amm_answered hacc he hcall.program
  cases hi.symm.trans hcall.instruction
  obtain ⟨a, hpre, -, hremove⟩ := process_removeLiquidity_ok hprocess
  obtain ⟨p', withdrawA, withdrawB, lp, data, hremoval, hdata, hpost⟩ := removeLiquidity_ok hremove
  have hbefore := hcall.before
  have hafter := hcall.after
  rw [hpre] at hbefore
  rw [hpost] at hafter
  cases hbefore.symm.trans hremoval.pool
  cases hafter.symm.trans hdata
  have hcalls := hremoval.calls
  refine ⟨withdrawA, withdrawB, lp, (removeAmounts_ok hremoval.amounts).1, fun htoken => ?_, rfl, by rw [hcalls]; rfl⟩
  rw [PaidInTokens, hpre] at htoken
  rw [show a.userA.account.programOwner = H.token.id from Option.some.inj htoken] at hcalls
  -- the burn went through, so the user held what is burned
  obtain ⟨post, hburned⟩ := token_called hacc he (t := .burn lp) trivial (hcalls ▸ List.mem_cons_self)
  obtain ⟨_, _, hpres, hburn⟩ := Token.process_burn_ok hburned
  cases hpres
  obtain ⟨balance, hheld, hle⟩ := hremoval.held
  have hle : balance.toNat ≤ p.liquidityPoolSupply.toNat := hle
  exact (Token.burn_of_fungible hburn hheld).trans hle

/-- A removal that burns what it was asked to was not wrapped. -/
theorem fits_of_paysShare (hacc : PublicAccepted H.toHost tx s blockId timestamp diff)
    (he : e ∈ publicCalls H.toHost s blockId timestamp tx) {amount minA minB : U128}
    (hcall : LiquidityCall H e (.removeLiquidity amount minA minB) p q) (hpays : PaysShare H e p amount) :
    p.liquidityPoolSupply.toNat * amount.toNat < 2 ^ 128 := by
  obtain ⟨withdrawA, withdrawB, lp, hamounts, -, -, hcalls⟩ := removal_of_call hacc he hcall
  obtain ⟨burned, _, _, hburned, -, -, rfl⟩ := hpays
  rw [hcalls] at hburned
  have hsame := congrArg H.readToken (List.cons.inj hburned).1
  rw [H.read_write (.burn lp) trivial, H.read_write (.burn burned) trivial] at hsame
  cases hsame
  exact hamounts.exact.mp rfl

theorem removal_fair (hacc : PublicAccepted H.toHost tx s blockId timestamp diff)
    (he : e ∈ publicCalls H.toHost s blockId timestamp tx) {amount minA minB : U128}
    (hcall : LiquidityCall H e (.removeLiquidity amount minA minB) p q)
    (hsafe : Unwrapped H e p (.removeLiquidity amount minA minB)) : KeepsShares p q ∧ PaysShare H e p amount := by
  obtain ⟨withdrawA, withdrawB, lp, hamounts, hheld, rfl, hcalls⟩ := removal_of_call hacc he hcall
  obtain ⟨hfits, hcovered⟩ := hsafe
  obtain rfl : lp = amount := hamounts.exact.mpr hfits
  have hlp : lp.toNat ≤ p.liquidityPoolSupply.toNat := hcovered.elim hheld id
  exact ⟨⟨share_of_withdrawal hlp hamounts.supply hamounts.withdrawA,
    share_of_withdrawal hlp hamounts.supply hamounts.withdrawB⟩,
    lp, withdrawA, withdrawB, hcalls, hamounts.withdrawA, hamounts.withdrawB, rfl⟩

end

namespace Sample

open Reference

/-- The pool with this supply and these reserves. -/
def pool (supply reserveA reserveB : U128) : PoolDefinition :=
  ⟨tokenA, tokenB, vaultAId, vaultBId, lpId, supply, reserveA, reserveB, 0, true⟩

def purseA : AccountId := ByteVec.fill 32 12
def purseB : AccountId := ByteVec.fill 32 13

/-- The pool, a provider who has all its liquidity tokens, and purses, the first of them `owner`'s. -/
def poolLedger (supply reserveA reserveB : U128) (owner : ProgramId) : V03State :=
  ledger [(poolId, ⟨ammId, 0, dataOf (PoolDefinition.format.write (pool supply reserveA reserveB)), 0⟩),
    (vaultAId, holdingAccount tokenA reserveA), (vaultBId, holdingAccount tokenB reserveB),
    (lpId, ⟨tokenId, 0, dataOf (Token.TokenDefinition.format.write (.fungible lpTokenName supply .none)), 0⟩),
    (purseA, { holdingAccount tokenA 0 with programOwner := owner }), (purseB, holdingAccount tokenB 0),
    (provider, holdingAccount lpId supply)]
    [tokenId, ammId, programId 20]

def liquidityTx (i : Instruction) : PublicTransaction :=
  signed providerKey 0 ammId [poolId, vaultAId, vaultBId, lpId, purseA, purseB, provider] (Serde.writeAmm i)

/-- Program 20 does nothing. -/
def liquidityHost (i : Instruction) : AmmHost :=
  exchange { programs := fun _ => idle, signatures := signaturesOf [liquidityTx i] }

/-- The transaction runs, and a call of it takes the pool `p` to `q`; `owner` has the first purse. -/
def Runs (i : Instruction) (p q : PoolDefinition) (owner : ProgramId) : Bool :=
  let s := poolLedger p.liquidityPoolSupply p.reserveA p.reserveB owner
  (fromPublicTransaction (liquidityHost i).toHost (liquidityTx i) s 0 0).isOk &&
    (publicCalls (liquidityHost i).toHost s 0 0 (liquidityTx i)).any fun e =>
      decide (e.program = ammId ∧ Serde.readAmm e.call.instructionData = .some i ∧
        (e.output.preStates.head?.bind fun a => PoolDefinition.tryFrom a.account.data) = .some p ∧
        (e.output.postStates.head?.bind fun a => PoolDefinition.tryFrom a.account.data) = .some q ∧
        (e.output.preStates[4]?.map fun a => a.account.programOwner) = .some owner)

theorem call_of_runs {i : Instruction} {p q : PoolDefinition} {owner : ProgramId} (h : Runs i p q owner = true)
    (hi : i.IsLiquidity) :
    ∃ diff, ∃ e ∈ publicCalls (liquidityHost i).toHost
        (poolLedger p.liquidityPoolSupply p.reserveA p.reserveB owner) 0 0 (liquidityTx i),
      fromPublicTransaction (liquidityHost i).toHost (liquidityTx i)
        (poolLedger p.liquidityPoolSupply p.reserveA p.reserveB owner) 0 0 = .ok diff ∧
      LiquidityCall (liquidityHost i) e i p q ∧
      (e.output.preStates[4]?.map fun a => a.account.programOwner) = .some owner := by
  obtain ⟨hok, hany⟩ := Bool.and_eq_true_iff.mp h
  obtain ⟨diff, hdiff⟩ := isOk_iff.mp hok
  obtain ⟨e, he, hfacts⟩ := List.any_eq_true.mp hany
  obtain ⟨hp, hread, hbefore, hafter, howner⟩ := of_decide_eq_true hfacts
  exact ⟨diff, e, he, hdiff, ⟨hp, hread, hi, hbefore, hafter⟩, howner⟩

/-- Two liquidity tokens of half of a `u128`. -/
def sip : Instruction := .removeLiquidity 2 1 1

def wide : PoolDefinition := pool (2 ^ 127) (2 ^ 126) (2 ^ 126)

/-- What it leaves. -/
def sipped : PoolDefinition := pool (2 ^ 127) (2 ^ 126 - 1) (2 ^ 126 - 1)

/-- Asks for all of a `u128`, and the third of it at the price of `pool 5 3 1`. -/
def flood : Instruction := .addLiquidity 1 (.allOnes 128) (.allOnes 128 / 3)

/-- What it leaves. -/
def flooded : PoolDefinition := pool 0x55555555555555555555555555555558 2 0x55555555555555555555555555555556

end Sample

section
open Reference Amm.Sample

end

end Lez.Amm
