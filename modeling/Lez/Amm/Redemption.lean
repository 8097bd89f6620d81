/-
What the creator of a pool holds. `new_definition` mints the integer root of
the product of the two deposits, and that product wraps; `remove_liquidity`
multiplies each reserve by the amount before it divides, and that wraps too.
The first share buys the whole pool back exactly where neither does.
-/
import Lez.Amm.Liquidity

namespace Lez.Amm

open Token (TokenHolding)
open Borsh (Format)

/-! ## Data that fits -/

theorem PoolDefinition.toData_fits (p : PoolDefinition) : ∃ data, p.toData = .ok data := by
  have hlen : (PoolDefinition.format.write p).length ≤ dataMaxLength := by
    have hbool : ∀ b : Bool, (Borsh.bool.write b).length = 1 := by decide
    simp only [PoolDefinition.format, Format.map, Borsh.prod, List.length_append]
    simp [Borsh.bytes, Borsh.u128, Borsh.uint, dataMaxLength, hbool]
  exact ⟨⟨_, hlen⟩, expect_ok_iff.mpr (Data.tryFrom_eq_some.mpr rfl)⟩

/-- A holding of the liquidity token. -/
theorem exists_fungible_data (definitionId : AccountId) (balance : U128) :
    ∃ data, TokenHolding.tryFrom data = .some (.fungible definitionId balance) := by
  have hlen : (TokenHolding.format.write (.fungible definitionId balance)).length ≤ dataMaxLength := by
    simp [TokenHolding.format, Format.map, Borsh.Variants.cons, Borsh.prod, Borsh.bytes,
      Borsh.u128, Borsh.uint, dataMaxLength]
  exact ⟨⟨_, hlen⟩, TokenHolding.format.tryFromSlice_write (.fungible definitionId balance)⟩

/-! ## Removing the whole supply -/

variable {sha256 : Bytes → Bytes32} {write : Token.Instruction → InstructionData} {p q : PoolDefinition}
  {amountA amountB : U128}

/-- The whole supply pays both reserves exactly where its products with them and with itself do not wrap. -/
theorem removeAmounts_whole_iff (hpos : 0 < p.liquidityPoolSupply.toNat) (hA : p.reserveA ≠ 0) (hB : p.reserveB ≠ 0) :
    removeAmounts p p.liquidityPoolSupply 1 1 = .ok (p.reserveA, p.reserveB, p.liquidityPoolSupply) ↔
      p.reserveA.toNat * p.liquidityPoolSupply.toNat < 2 ^ 128 ∧
      p.reserveB.toNat * p.liquidityPoolSupply.toNat < 2 ^ 128 ∧
      p.liquidityPoolSupply.toNat * p.liquidityPoolSupply.toNat < 2 ^ 128 := by
  have hone : ∀ {r : U128}, r ≠ 0 → 1 ≤ r := fun hr => Nat.succ_le_of_lt (Checked.toNat_pos_of_ne_zero hr)
  rw [← Checked.mul_div_exact_iff hpos, ← Checked.mul_div_exact_iff hpos, ← Checked.mul_div_exact_iff hpos]
  simp only [removeAmounts, quotient, bind_ok_iff, expect_ok_iff, ensure_ok_iff, pure_ok_iff, Prod.mk.injEq]
  constructor
  · rintro ⟨wA, hwA, wB, hwB, -, -, -, -, lp, hlp, rfl, rfl, rfl⟩
    exact ⟨hwA, hwB, hlp⟩
  · rintro ⟨hwA, hwB, hlp⟩
    exact ⟨_, hwA, _, hwB, (), hone hA, (), hone hB, _, hlp, rfl, rfl, rfl⟩

/-- The accounts of a pool and of a provider who holds its whole supply. -/
structure Owner (p : PoolDefinition) (a : PoolAccounts) : Prop extends LiquiditySetup a p where
  holding : TokenHolding.tryFrom a.userLp.account.data = .some (.fungible p.liquidityPoolId p.liquidityPoolSupply)

/-- `remove_liquidity` of the whole supply pays out both reserves and leaves nothing behind. -/
def WithdrawsAll (sha256 : Bytes → Bytes32) (write : Token.Instruction → InstructionData) (p : PoolDefinition)
    (a : PoolAccounts) : Prop :=
  ∃ data calls, removeLiquidity sha256 write a.pool a.vaultA a.vaultB a.lp a.userA a.userB a.userLp
      p.liquidityPoolSupply 1 1 = .ok (a.post data .none, calls) ∧
    Removal sha256 write a p p.liquidityPoolSupply 1 1 p.reserveA p.reserveB p.liquidityPoolSupply calls ∧
    PoolDefinition.tryFrom data =
      .some { p with liquidityPoolSupply := 0, reserveA := 0, reserveB := 0, active := false }

theorem withdrawsAll_iff {a : PoolAccounts} (howner : Owner p a) (hactive : p.active = true) :
    WithdrawsAll sha256 write p a ↔
      removeAmounts p p.liquidityPoolSupply 1 1 = .ok (p.reserveA, p.reserveB, p.liquidityPoolSupply) := by
  constructor
  · rintro ⟨data, calls, -, hremoval, -⟩
    exact hremoval.amounts
  · intro hamounts
    obtain ⟨data, hdata⟩ := PoolDefinition.toData_fits (p.removed p.reserveA p.reserveB p.liquidityPoolSupply)
    have hempty : p.removed p.reserveA p.reserveB p.liquidityPoolSupply =
        { p with liquidityPoolSupply := 0, reserveA := 0, reserveB := 0, active := false } := by
      simp [PoolDefinition.removed]
    have hone : (1 : U128) ≠ 0 := by decide
    refine ⟨data, _, ?_, ⟨howner.toLiquiditySetup, hactive, ⟨hone, hone⟩, ⟨_, howner.holding, Nat.le_refl _⟩, hamounts, rfl⟩,
      hempty ▸ PoolDefinition.toData_ok hdata⟩
    simp only [removeLiquidity, bind_ok_iff, expect_ok_iff, ensure_ok_iff, pure_ok_iff, Prod.exists, Prod.mk.injEq]
    exact ⟨p, howner.pool, (), hactive, (), howner.idLp.symm, (), howner.idA, (), howner.idB, (), hone, (), hone, _, _,
      by rw [fungibleHolding, howner.holding]; rfl, (), Nat.le_refl _, (), rfl, _, _, _, hamounts, data, hdata, rfl, rfl⟩

/-! ## The first share -/

/-- The first supply is the root of the product of the deposits, and whoever holds it can withdraw them. -/
structure Redeemable (sha256 : Bytes → Bytes32) (write : Token.Instruction → InstructionData) (amountA amountB : U128)
    (q : PoolDefinition) : Prop where
  lower : q.liquidityPoolSupply.toNat * q.liquidityPoolSupply.toNat ≤ amountA.toNat * amountB.toNat
  upper : amountA.toNat * amountB.toNat < (q.liquidityPoolSupply.toNat + 1) * (q.liquidityPoolSupply.toNat + 1)
  positive : 1 ≤ q.liquidityPoolSupply.toNat
  withdraw : ∀ a, Owner q a → WithdrawsAll sha256 write q a

/-- Where both deposits times the root fit, so does their product. -/
theorem product_fits {x y : Nat} (hx : x * Nat.sqrt (x * y) < 2 ^ 128) (hy : y * Nat.sqrt (x * y) < 2 ^ 128) :
    x * y < 2 ^ 128 := by
  by_contra hbig
  have hroot : 2 ^ 64 ≤ Nat.sqrt (x * y) := Nat.le_sqrt.mpr (by omega)
  have hsquare : 2 ^ 128 ≤ Nat.sqrt (x * y) * Nat.sqrt (x * y) := by
    calc 2 ^ 128 = 2 ^ 64 * 2 ^ 64 := by norm_num
      _ ≤ Nat.sqrt (x * y) * Nat.sqrt (x * y) := Nat.mul_le_mul hroot hroot
  -- one of the two is not below the root
  rcases Nat.le_total (Nat.sqrt (x * y)) x with hle | hle
  · exact absurd (Nat.mul_le_mul_right (Nat.sqrt (x * y)) hle) (by omega)
  · have hy' : Nat.sqrt (x * y) ≤ y := by
      by_contra hlt
      have hprod : x * y < Nat.sqrt (x * y) * Nat.sqrt (x * y) :=
        Nat.lt_of_le_of_lt (Nat.mul_le_mul_right y hle) (Nat.mul_lt_mul_of_pos_left (by omega) (by omega))
      exact absurd (Nat.sqrt_le (x * y)) (by omega)
    exact absurd (Nat.mul_le_mul_right (Nat.sqrt (x * y)) hy') (by omega)

/-- **The first share is redeemable exactly where the deposits times their root fit.** Whenever `new_definition`
succeeds, the supply it mints is the root of the exact product of the deposits and buys the whole pool back if and
only if each deposit times that root is below `2^128`. -/
theorem first_share_redeemable_iff {a : PoolAccounts} {amm : ProgramId} {post : List AccountPostState}
    {calls : List ChainedCall} (hA : amountA ≠ 0) (hB : amountB ≠ 0)
    (h : newDefinition sha256 write a.pool a.vaultA a.vaultB a.lp a.userA a.userB a.userLp amountA amountB amm =
      .ok (post, calls)) :
    ∃ q, (post.head?.bind fun pool => PoolDefinition.tryFrom pool.account.data) = .some q ∧
      q.liquidityPoolSupply = Checked.isqrt (amountA * amountB) ∧
      (Redeemable sha256 write amountA amountB q ↔
        amountA.toNat * Nat.sqrt (amountA.toNat * amountB.toNat) < 2 ^ 128 ∧
        amountB.toNat * Nat.sqrt (amountA.toNat * amountB.toNat) < 2 ^ 128) := by
  obtain ⟨holdingA, holdingB, seed, q, data, hopen, hdata, rfl⟩ := newDefinition_ok h
  have hq := hopen.pool
  refine ⟨q, hdata, by rw [hq], ?_⟩
  have hreserveA : q.reserveA = amountA := by rw [hq]
  have hreserveB : q.reserveB = amountB := by rw [hq]
  have hactive : q.active = true := by rw [hq]
  have hsupply : q.liquidityPoolSupply.toNat = Nat.sqrt (amountA.toNat * amountB.toNat % 2 ^ 128) := by
    rw [hq, Checked.toNat_isqrt, BitVec.toNat_mul]
  constructor
  · intro hredeem
    have hroot : q.liquidityPoolSupply.toNat = Nat.sqrt (amountA.toNat * amountB.toNat) :=
      Nat.eq_sqrt.mpr ⟨hredeem.lower, hredeem.upper⟩
    -- the creator, with the supply in the liquidity holding
    obtain ⟨held, hheld⟩ := exists_fungible_data q.liquidityPoolId q.liquidityPoolSupply
    have howner : Owner q { a with
        pool := { a.pool with account := { a.pool.account with data := data } }
        userLp := { a.userLp with account := { a.userLp.account with data := held } } } :=
      ⟨⟨hdata, by rw [hq], by rw [hq], by rw [hq]⟩, hheld⟩
    have hwhole := (withdrawsAll_iff howner hactive).mp (hredeem.withdraw _ howner)
    rw [removeAmounts_whole_iff hredeem.positive (hreserveA ▸ hA) (hreserveB ▸ hB), hreserveA, hreserveB, hroot] at hwhole
    exact ⟨hwhole.1, hwhole.2.1⟩
  · rintro ⟨hfitsA, hfitsB⟩
    rw [Nat.mod_eq_of_lt (product_fits hfitsA hfitsB)] at hsupply
    have hpos : 1 ≤ q.liquidityPoolSupply.toNat := by
      rw [hsupply]
      exact Nat.sqrt_pos.mpr (Nat.mul_pos (Checked.toNat_pos_of_ne_zero hA) (Checked.toNat_pos_of_ne_zero hB))
    have hsquare : q.liquidityPoolSupply.toNat * q.liquidityPoolSupply.toNat ≤ amountA.toNat * amountB.toNat := by
      rw [hsupply]
      exact Nat.sqrt_le _
    refine ⟨hsquare, by rw [hsupply]; exact Nat.lt_succ_sqrt _, hpos, fun a' howner => ?_⟩
    rw [withdrawsAll_iff howner hactive, removeAmounts_whole_iff hpos (hreserveA ▸ hA) (hreserveB ▸ hB), hreserveA,
      hreserveB, hsupply]
    rw [hsupply] at hsquare
    exact ⟨hfitsA, hfitsB, Nat.lt_of_le_of_lt hsquare (product_fits hfitsA hfitsB)⟩

section
open Reference

namespace Sample

/-- The accounts of a new pool of the two tokens. -/
def newPool : PoolAccounts where
  pool := ⟨Account.default, false, poolId⟩
  vaultA := ⟨Account.default, false, vaultAId⟩
  vaultB := ⟨Account.default, false, vaultBId⟩
  lp := ⟨Account.default, false, lpId⟩
  userA := ⟨holdingAccount tokenA (2 ^ 100), true, purseA⟩
  userB := ⟨holdingAccount tokenB (2 ^ 100), true, purseB⟩
  userLp := ⟨Account.default, true, provider⟩

theorem newPool_opens (amountA amountB : U128) : ∃ post calls,
    newDefinition Sha256.hash Serde.writeToken newPool.pool newPool.vaultA newPool.vaultB newPool.lp newPool.userA
      newPool.userB newPool.userLp amountA amountB ammId = .ok (post, calls) := by
  obtain ⟨hpool, hvaultA, hvaultB, hlp, -⟩ := pool_accounts_derived
  obtain ⟨data, hdata⟩ := PoolDefinition.toData_fits
    ⟨tokenA, tokenB, vaultAId, vaultBId, lpId, Checked.isqrt (amountA * amountB), amountA, amountB, 0, true⟩
  obtain ⟨seed, hseed, _⟩ := (map_ok_iff.mp hpool)
  have hreadA : TokenHolding.tryFrom (holdingAccount tokenA (2 ^ 100)).data = .some (.fungible tokenA (2 ^ 100)) := by
    decide +kernel
  have hreadB : TokenHolding.tryFrom (holdingAccount tokenB (2 ^ 100)).data = .some (.fungible tokenB (2 ^ 100)) := by
    decide +kernel
  simp only [newDefinition, bind_ok_iff, expect_ok_iff, ensure_ok_iff, pure_ok_iff, Prod.mk.injEq]
  exact ⟨_, _, _, hreadA, _, hreadB, (), rfl, (), (by decide : tokenA ≠ tokenB), poolId, hpool, (), rfl, (), hvaultA, (), hvaultB,
    (), hlp, false, rfl, (), rfl, data, hdata, seed, hseed, rfl, rfl⟩

end Sample

open Amm.Sample

/-- A hundred against four hundred: two hundred, which are worth them. -/
theorem hundreds_redeemable : ∃ post calls q,
    newDefinition Sha256.hash Serde.writeToken newPool.pool newPool.vaultA newPool.vaultB newPool.lp newPool.userA
      newPool.userB newPool.userLp 100 400 ammId = .ok (post, calls) ∧
    (post.head?.bind fun pool => PoolDefinition.tryFrom pool.account.data) = .some q ∧
    Redeemable Sha256.hash Serde.writeToken 100 400 q := by
  obtain ⟨post, calls, hopens⟩ := newPool_opens 100 400
  obtain ⟨q, hq, -, hiff⟩ := first_share_redeemable_iff (by decide) (by decide) hopens
  refine ⟨post, calls, q, hopens, hq, hiff.mpr ?_⟩
  have hroot : Nat.sqrt ((100 : U128).toNat * (400 : U128).toNat) = 200 := by
    rw [eq_comm, Nat.eq_sqrt]
    decide
  rw [hroot]
  decide

/-- Of `2^64` against `2^64` the product is zero in the machine: the creator gets nothing. -/
theorem large_deposits_mint_nothing : ∃ post calls q,
    newDefinition Sha256.hash Serde.writeToken newPool.pool newPool.vaultA newPool.vaultB newPool.lp newPool.userA
      newPool.userB newPool.userLp (2 ^ 64) (2 ^ 64) ammId = .ok (post, calls) ∧
    (post.head?.bind fun pool => PoolDefinition.tryFrom pool.account.data) = .some q ∧ q.liquidityPoolSupply = 0 ∧
    ¬Redeemable Sha256.hash Serde.writeToken (2 ^ 64) (2 ^ 64) q := by
  obtain ⟨post, calls, hopens⟩ := newPool_opens (2 ^ 64) (2 ^ 64)
  obtain ⟨holdingA, holdingB, seed, q, data, hopen, hdata, rfl⟩ := newDefinition_ok hopens
  have hzero : q.liquidityPoolSupply = 0 := by
    have hwraps : (2 ^ 64 * 2 ^ 64 : U128) = 0 := by decide +kernel
    apply BitVec.eq_of_toNat_eq
    rw [hopen.pool, Checked.toNat_isqrt, hwraps, BitVec.ofNat_eq_ofNat, BitVec.toNat_ofNat, Nat.zero_mod, Nat.sqrt_zero]
  refine ⟨_, calls, q, hopens, hdata, hzero, fun hredeem => ?_⟩
  have hpos := hredeem.positive
  rw [hzero] at hpos
  exact absurd hpos (by decide)

end

end Lez.Amm
