/-
Swaps and the product of the reserves. A swap of either kind, in either
direction, leaves a product that is no smaller, so neither does a sequence of
them; and a pool that is back at one reserve has no less of the other, unless
that reserve is empty. On an empty reserve any product is nothing: the first
deposit then buys the whole other side. The two kinds of swap ask the same
price: what an exact output costs is the least input that buys it.
-/
import Lez.Programs.AmmFacts
import Lez.Programs.AmmHost
import Mathlib.Logic.Relation

namespace Lez.Amm

/-- The reserve of a token, and the reserve it is traded for. -/
def PoolDefinition.reserveOf (p : PoolDefinition) (token : AccountId) : U128 :=
  if token = p.definitionTokenAId then p.reserveA else p.reserveB

def PoolDefinition.reserveAgainst (p : PoolDefinition) (token : AccountId) : U128 :=
  if token = p.definitionTokenAId then p.reserveB else p.reserveA

/-- An accepted swap takes the pool `p` to `q`, and the reserve has room for what comes in. -/
def Swapped (sha256 : Bytes → Bytes32) (write : Token.Instruction → InstructionData) (p q : PoolDefinition) : Prop :=
  ∃ i tokenIn pool others poolPost post calls, i.tokenIn = .some tokenIn ∧
    process sha256 write (pool :: others) i = .ok (poolPost :: post, calls) ∧
    PoolDefinition.tryFrom pool.account.data = .some p ∧ PoolDefinition.tryFrom poolPost.account.data = .some q ∧
    ∀ deposit withdraw, i.swapAmounts (p.reserveOf tokenIn) (p.reserveAgainst tokenIn) = .ok (deposit, withdraw) →
      (p.reserveOf tokenIn).toNat + deposit.toNat < 2 ^ 128

def PoolDefinition.product (p : PoolDefinition) : Nat := p.reserveA.toNat * p.reserveB.toNat

section
variable {sha256 : Bytes → Bytes32} {write : Token.Instruction → InstructionData} {p q : PoolDefinition}

theorem toNat_add_sub {reserveDeposit reserveWithdraw deposit withdraw : U128}
    (hfits : reserveDeposit.toNat + deposit.toNat < 2 ^ 128) (hle : withdraw.toNat ≤ reserveWithdraw.toNat) :
    (reserveDeposit + deposit).toNat = reserveDeposit.toNat + deposit.toNat ∧
      (reserveWithdraw - withdraw).toNat = reserveWithdraw.toNat - withdraw.toNat :=
  ⟨by rw [BitVec.toNat_add, Nat.mod_eq_of_lt hfits], BitVec.toNat_sub_of_le hle⟩

theorem Swapped.product_le (h : Swapped sha256 write p q) : p.product ≤ q.product := by
  obtain ⟨i, tokenIn, pool, others, poolPost, post, calls, hi, hrun, hp, hq, hfits⟩ := h
  obtain ⟨pool', vaultA, vaultB, userA, userB, hpre, hswap⟩ := process_swap_ok hi hrun
  cases hpre
  obtain ⟨p', q', data, deposit, withdraw, hsetup, hdata, hpost, hside⟩ := swap_ok hswap
  cases hpost
  cases hp.symm.trans hsetup.pool
  cases hq.symm.trans hdata
  unfold PoolDefinition.product
  rcases hside with ⟨hA, rfl, hside⟩ | ⟨hA, -, rfl, hside⟩
  · simp only [PoolDefinition.reserveOf, PoolDefinition.reserveAgainst, if_pos hA] at hfits
    have hfit := hfits deposit withdraw hside.amounts
    obtain ⟨hle, hproduct⟩ := swapAmounts_ok hside.amounts hfit
    obtain ⟨hadd, hsub⟩ := toNat_add_sub hfit hle
    rw [hadd, hsub]
    exact hproduct
  · simp only [PoolDefinition.reserveOf, PoolDefinition.reserveAgainst, if_neg hA] at hfits
    have hfit := hfits deposit withdraw hside.amounts
    obtain ⟨hle, hproduct⟩ := swapAmounts_ok hside.amounts hfit
    obtain ⟨hadd, hsub⟩ := toNat_add_sub hfit hle
    rw [hadd, hsub, Nat.mul_comm p.reserveA.toNat, Nat.mul_comm (p.reserveA.toNat - _)]
    exact hproduct

theorem product_le_of_swaps (h : Relation.ReflTransGen (Swapped sha256 write) p q) : p.product ≤ q.product := by
  induction h with
  | refl => exact le_rfl
  | tail _ hstep ih => exact ih.trans hstep.product_le

/-- **Swaps never drain a pool.** Over any sequence of accepted swaps the product of the reserves never
decreases, and a pool that is back at one reserve, if that is not empty, has no less of the other. -/
theorem swaps_keep_product (h : Relation.ReflTransGen (Swapped sha256 write) p q) :
    p.product ≤ q.product ∧
      (q.reserveA = p.reserveA → p.reserveA ≠ 0 → p.reserveB ≤ q.reserveB) ∧
      (q.reserveB = p.reserveB → p.reserveB ≠ 0 → p.reserveA ≤ q.reserveA) := by
  have hle := product_le_of_swaps h
  refine ⟨hle, ?_, ?_⟩
  · intro hA hne
    rw [PoolDefinition.product, PoolDefinition.product, hA] at hle
    exact Nat.le_of_mul_le_mul_left hle (Checked.toNat_pos_of_ne_zero hne)
  · intro hB hne
    rw [PoolDefinition.product, PoolDefinition.product, hB] at hle
    exact Nat.le_of_mul_le_mul_right hle (Checked.toNat_pos_of_ne_zero hne)

end

section
open Reference

namespace Sample

/-- A pool with these reserves. -/
def poolWith (reserveA reserveB : U128) : PoolDefinition :=
  ⟨tokenA, tokenB, ByteVec.fill 32 3, ByteVec.fill 32 4, ByteVec.fill 32 5, 100, reserveA, reserveB, 0, true⟩

def poolAccount (p : PoolDefinition) : AccountWithMetadata :=
  ⟨⟨ammId, 0, dataOf (PoolDefinition.format.write p), 0⟩, false, ByteVec.fill 32 6⟩

/-- The other accounts of a swap. -/
def traders : List AccountWithMetadata :=
  [⟨holdingAccount tokenA 1000, false, ByteVec.fill 32 3⟩, ⟨holdingAccount tokenB 1000, false, ByteVec.fill 32 4⟩,
    ⟨holdingAccount tokenA 1000, true, ByteVec.fill 32 7⟩, ⟨holdingAccount tokenB 1000, true, ByteVec.fill 32 8⟩]

/-- The pool a swap leaves. -/
def trade (i : Instruction) (p : PoolDefinition) : Option PoolDefinition :=
  (process Sha256.hash Serde.writeToken (poolAccount p :: traders) i).toOption.bind fun r =>
    r.1.head?.bind fun post => PoolDefinition.tryFrom post.account.data

theorem swapped_of_trade {i : Instruction} {tokenIn : AccountId} {p q : PoolDefinition} (deposit withdraw : U128)
    (hi : i.tokenIn = .some tokenIn) (hp : PoolDefinition.tryFrom (poolAccount p).account.data = .some p)
    (h : trade i p = .some q)
    (hamounts : i.swapAmounts (p.reserveOf tokenIn) (p.reserveAgainst tokenIn) = .ok (deposit, withdraw))
    (hfits : (p.reserveOf tokenIn).toNat + deposit.toNat < 2 ^ 128) : Swapped Sha256.hash Serde.writeToken p q := by
  obtain ⟨⟨posts, calls⟩, hrun, h⟩ := Option.bind_eq_some_iff.mp h
  obtain ⟨post, hpost, hq⟩ := Option.bind_eq_some_iff.mp h
  obtain ⟨rest, rfl⟩ : ∃ rest, posts = post :: rest := by
    cases posts with
    | nil => cases hpost
    | cons a rest =>
      cases hpost
      exact ⟨rest, rfl⟩
  refine ⟨i, tokenIn, poolAccount p, traders, post, rest, calls, hi, toOption_eq_some.mp hrun, hp, hq, ?_⟩
  intro d w hdw
  cases hamounts.symm.trans hdw
  exact hfits

end Sample

open Amm.Sample

/-- Ten of the first token in, and ten of it out again: the second reserve is no smaller. -/
theorem round_trip_keeps_product :
    Relation.ReflTransGen (Swapped Sha256.hash Serde.writeToken) (poolWith 100 100) (poolWith 100 101) ∧
      (poolWith 100 100).reserveB ≤ (poolWith 100 101).reserveB := by
  have hin : Swapped Sha256.hash Serde.writeToken (poolWith 100 100) (poolWith 110 91) :=
    swapped_of_trade 10 9 (i := .swapExactInput 10 1 tokenA) rfl (by decide +kernel) (by decide +kernel)
      (by decide +kernel) (by decide)
  have hout : Swapped Sha256.hash Serde.writeToken (poolWith 110 91) (poolWith 100 101) :=
    swapped_of_trade 10 10 (i := .swapExactOutput 10 100 tokenB) rfl (by decide +kernel) (by decide +kernel)
      (by decide +kernel) (by decide)
  have hswaps := (Relation.ReflTransGen.single hin).tail hout
  exact ⟨hswaps, (swaps_keep_product hswaps).2.1 rfl (by decide)⟩

/-- A pool with nothing of the first token loses the second to the first deposit, whatever it is:
five buy a hundred, ten buy the five back. -/
theorem empty_reserve_drained :
    Relation.ReflTransGen (Swapped Sha256.hash Serde.writeToken) (poolWith 0 100) (poolWith 0 10) ∧
      (poolWith 0 100).active = true ∧ (poolWith 0 10).reserveA = (poolWith 0 100).reserveA ∧
      ¬(poolWith 0 100).reserveB ≤ (poolWith 0 10).reserveB := by
  have hin : Swapped Sha256.hash Serde.writeToken (poolWith 0 100) (poolWith 5 0) :=
    swapped_of_trade 5 100 (i := .swapExactInput 5 1 tokenA) rfl (by decide +kernel) (by decide +kernel)
      (by decide +kernel) (by decide)
  have hout : Swapped Sha256.hash Serde.writeToken (poolWith 5 0) (poolWith 0 10) :=
    swapped_of_trade 10 5 (i := .swapExactInput 10 1 tokenB) rfl (by decide +kernel) (by decide +kernel)
      (by decide +kernel) (by decide)
  exact ⟨(Relation.ReflTransGen.single hin).tail hout, rfl, rfl, by decide⟩

end

/-! ## One price -/

section
variable {reserveDeposit reserveWithdraw amountIn amountOut : U128}

/-- The inputs for which an exact-input swap pays at least `amountOut`. -/
def paysAtLeast (reserveDeposit reserveWithdraw amountOut : U128) : Set U128 :=
  {amountIn | ∃ paid, swapWithdraw amountIn 0 reserveDeposit reserveWithdraw = .ok paid ∧ amountOut ≤ paid}

/-- What an exact output costs, before the limit of the caller. -/
theorem exactOutputDeposit_eq (hout : 0 < amountOut) (hlt : amountOut < reserveWithdraw)
    (hfits : reserveDeposit.toNat * amountOut.toNat < 2 ^ 128) :
    ∃ deposit, (∀ maxIn, deposit ≤ maxIn →
        exactOutputDeposit amountOut maxIn reserveDeposit reserveWithdraw = .ok deposit) ∧
      ∀ n, deposit.toNat ≤ n ↔
        reserveDeposit.toNat * amountOut.toNat ≤ n * (reserveWithdraw.toNat - amountOut.toNat) := by
  have hlt' : amountOut.toNat < reserveWithdraw.toNat := hlt
  have hsub : (reserveWithdraw - amountOut).toNat = reserveWithdraw.toNat - amountOut.toNat :=
    BitVec.toNat_sub_of_le hlt'.le
  have hmul : Checked.mul reserveDeposit amountOut = .some (reserveDeposit * amountOut) := if_pos hfits
  obtain ⟨deposit, hdeposit⟩ := Checked.divCeil_of_pos (a := reserveDeposit * amountOut)
    (b := reserveWithdraw - amountOut) (by omega)
  refine ⟨deposit, ?_, ?_⟩
  · intro maxIn hmax
    have hne : amountOut ≠ 0 := by
      rintro rfl
      exact absurd hout (by simp)
    simp only [exactOutputDeposit, bind_ok_iff, expect_ok_iff, ensure_ok_iff, pure_ok_iff]
    exact ⟨(), hne, (), hlt, _, hmul, _, hdeposit, (), hmax, rfl⟩
  · intro n
    rw [Checked.divCeil_le_iff hdeposit n, Checked.mul_eq_some.mp hmul, hsub]

/-- An input whose products and sum fit pays at least `amountOut` exactly when it covers its worth. -/
theorem mem_paysAtLeast_iff (hout : 0 < amountOut) (hlt : amountOut < reserveWithdraw)
    (hproduct : reserveWithdraw.toNat * amountIn.toNat < 2 ^ 128)
    (hsum : reserveDeposit.toNat + amountIn.toNat < 2 ^ 128) (hpos : 0 < reserveDeposit.toNat + amountIn.toNat) :
    amountIn ∈ paysAtLeast reserveDeposit reserveWithdraw amountOut ↔
      reserveDeposit.toNat * amountOut.toNat ≤ amountIn.toNat * (reserveWithdraw.toNat - amountOut.toNat) := by
  have hout' : 0 < amountOut.toNat := hout
  have hlt' : amountOut.toNat < reserveWithdraw.toNat := hlt
  have hadd : (reserveDeposit + amountIn).toNat = reserveDeposit.toNat + amountIn.toNat := by
    rw [BitVec.toNat_add, Nat.mod_eq_of_lt hsum]
  have hmul : Checked.mul reserveWithdraw amountIn = .some (reserveWithdraw * amountIn) := if_pos hproduct
  have hdiv : Checked.div (reserveWithdraw * amountIn) (reserveDeposit + amountIn) =
      .some (reserveWithdraw * amountIn / (reserveDeposit + amountIn)) := by
    refine if_neg fun hz => ?_
    rw [hz] at hadd
    exact absurd hadd (by simp; omega)
  have hpaid := (Checked.div_eq_some hdiv).2
  rw [Checked.mul_eq_some.mp hmul, hadd] at hpaid
  -- both sides say that the worth of the output is covered
  have hworth : amountOut.toNat * (reserveDeposit.toNat + amountIn.toNat) ≤ reserveWithdraw.toNat * amountIn.toNat ↔
      reserveDeposit.toNat * amountOut.toNat ≤ amountIn.toNat * (reserveWithdraw.toNat - amountOut.toNat) := by
    have hle : amountIn.toNat * amountOut.toNat ≤ amountIn.toNat * reserveWithdraw.toNat :=
      Nat.mul_le_mul_left _ hlt'.le
    rw [Nat.mul_sub, Nat.mul_add, Nat.mul_comm amountOut.toNat, Nat.mul_comm amountOut.toNat,
      Nat.mul_comm reserveWithdraw.toNat]
    omega
  rw [← hworth, ← Nat.le_div_iff_mul_le hpos, ← hpaid]
  simp only [paysAtLeast, Set.mem_ofPred_eq, swapWithdraw, quotient, bind_ok_iff, expect_ok_iff, ensure_ok_iff,
    pure_ok_iff]
  constructor
  · rintro ⟨paid, ⟨product, hp, w, hw, -, -, -, -, rfl⟩, hle⟩
    cases hmul.symm.trans hp
    cases hdiv.symm.trans hw
    exact hle
  · intro hle
    refine ⟨_, ⟨_, hmul, _, hdiv, (), Nat.zero_le _, (), fun hz => ?_, rfl⟩, hle⟩
    rw [hz] at hle
    exact absurd hle (by simp; omega)

/-- **The two kinds of swap are dual.** Where the products fit and the reserve of the token that comes
in is not empty, an exact output costs the least input for which an exact-input swap pays that much. -/
theorem exact_output_costs_least_input (hne : reserveDeposit ≠ 0) (hout : 0 < amountOut)
    (hlt : amountOut < reserveWithdraw) (hfits : reserveDeposit.toNat * amountOut.toNat < 2 ^ 128) :
    ∃ deposit, (∀ maxIn, deposit ≤ maxIn →
        exactOutputDeposit amountOut maxIn reserveDeposit reserveWithdraw = .ok deposit) ∧
      (reserveWithdraw.toNat * deposit.toNat < 2 ^ 128 →
        IsLeast (paysAtLeast reserveDeposit reserveWithdraw amountOut) deposit) := by
  obtain ⟨deposit, hrun, hleast⟩ := exactOutputDeposit_eq hout hlt hfits
  refine ⟨deposit, hrun, fun hproduct => ?_⟩
  have hpos := Checked.toNat_pos_of_ne_zero hne
  have hout' : 0 < amountOut.toNat := hout
  have hlt' : amountOut.toNat < reserveWithdraw.toNat := hlt
  have hcovers := (hleast deposit.toNat).mp le_rfl
  -- the new reserve is worth no more than the product that fits, so it fits
  have hsum : reserveDeposit.toNat + deposit.toNat < 2 ^ 128 := by
    have hle : deposit.toNat * amountOut.toNat ≤ deposit.toNat * reserveWithdraw.toNat :=
      Nat.mul_le_mul_left _ hlt'.le
    have hgrows := Nat.le_mul_of_pos_right (reserveDeposit.toNat + deposit.toNat) hout'
    rw [Nat.mul_sub] at hcovers
    rw [Nat.add_mul] at hgrows
    rw [Nat.mul_comm] at hproduct
    omega
  constructor
  · exact (mem_paysAtLeast_iff hout hlt hproduct hsum (by omega)).mpr hcovers
  · intro amountIn hmem
    by_contra hlt
    have hsmaller : amountIn.toNat < deposit.toNat := Nat.lt_of_not_le hlt
    have hproduct' : reserveWithdraw.toNat * amountIn.toNat < 2 ^ 128 :=
      lt_of_le_of_lt (Nat.mul_le_mul_left _ hsmaller.le) hproduct
    have := (mem_paysAtLeast_iff hout ‹_› hproduct' (by omega) (by omega)).mp hmem
    have := (hleast amountIn.toNat).mpr this
    omega

end

/-- Of a pool of a hundred against a hundred, ten cost twelve, and no less buys ten. -/
theorem ten_cost_twelve :
    exactOutputDeposit 10 12 100 100 = .ok 12 ∧ IsLeast (paysAtLeast 100 100 10) 12 := by
  obtain ⟨deposit, hrun, hleast⟩ :=
    @exact_output_costs_least_input 100 100 10 (by decide) (by decide) (by decide) (by decide)
  have hdeposit : exactOutputDeposit 10 (BitVec.allOnes 128) 100 100 = .ok 12 := by decide
  have hmax : deposit ≤ BitVec.allOnes 128 := by
    rw [BitVec.le_def, BitVec.toNat_allOnes]
    exact Nat.le_sub_one_of_lt deposit.isLt
  cases (hrun _ hmax).symm.trans hdeposit
  exact ⟨hrun 12 (by decide), hleast (by decide)⟩

/-- From a pool with nothing of the first token, five of ten cost nothing, and nothing buys nothing. -/
theorem empty_reserve_gives_output_away :
    exactOutputDeposit 5 0 0 10 = .ok 0 ∧ ¬IsLeast (paysAtLeast 0 10 5) 0 := by
  refine ⟨by decide, fun h => ?_⟩
  obtain ⟨paid, hpaid, -⟩ := h.1
  have hpanic : swapWithdraw 0 0 0 10 = .error "attempt to divide by zero" := by decide
  cases hpanic.symm.trans hpaid

end Lez.Amm
