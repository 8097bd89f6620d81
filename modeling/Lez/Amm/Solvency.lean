/-
What backs a pool, over whole runs: its vaults hold the reserves it records,
and there are no more liquidity tokens than it records. Both need the calls
of the AMM to go to the token program, which the AMM does not check: it calls
whatever program the user's account belongs to, with its authority over the
pool's accounts.
-/
import Lez.Amm.PoolRounds

namespace Lez.Amm

open Token (TokenHolding TokenDefinition holdingIn definitionIn)

/-! ## The two properties -/

/-- The pool at an account of the AMM. -/
def poolAt (amm : ProgramId) (s : V03State) (id : AccountId) : Option PoolDefinition :=
  ((s.getAccountById id).ownedData amm).bind PoolDefinition.tryFrom

/-- A pool of the AMM over two definitions of the token program. -/
structure TokenPool (H : AmmHost) (s : V03State) (id : AccountId) (p : PoolDefinition) : Prop where
  pool : poolAt H.amm.id s id = .some p
  tokenA : (definitionIn H.token.id s.getAccountById p.definitionTokenAId).isSome = true
  tokenB : (definitionIn H.token.id s.getAccountById p.definitionTokenBId).isSome = true

/-- The vaults hold the reserves. -/
def Solvent (H : AmmHost) (s : V03State) : Prop :=
  ∀ id p, TokenPool H s id p →
    p.reserveA.toNat ≤ balanceIn H.token.id s.getAccountById p.vaultAId p.definitionTokenAId ∧
      p.reserveB.toNat ≤ balanceIn H.token.id s.getAccountById p.vaultBId p.definitionTokenBId

/-- No active pool has more liquidity tokens than it records. -/
def NotOverIssued (H : AmmHost) (s : V03State) : Prop :=
  ∀ id p, TokenPool H s id p → p.active = true →
    issuedIn H.token.id s.getAccountById p.liquidityPoolId ≤ p.liquidityPoolSupply.toNat

/-! ## Solvency -/

/-- Nobody is paid for more liquidity than there is. -/
def RemovesWhatThereIs : Instruction → PoolDefinition → Prop
  | .removeLiquidity amount _ _, p => amount.toNat ≤ p.liquidityPoolSupply.toNat
  | _, _ => True

/-- The vaults hold the reserves of the pool. -/
structure Covered (v : PoolView) : Prop where
  heldA : v.pool.reserveA.toNat ≤ v.heldA
  heldB : v.pool.reserveB.toNat ≤ v.heldB

theorem deposit_covered {reserve deposit : U128} {held : Nat} (hfits : reserve.toNat + deposit.toNat < 2 ^ 128)
    (h : reserve.toNat ≤ held) : (reserve + deposit).toNat ≤ held + deposit.toNat := by
  rw [BitVec.toNat_add, Nat.mod_eq_of_lt hfits]
  omega

theorem withdrawal_covered {reserve withdraw : U128} {held held' : Nat} (hle : withdraw.toNat ≤ reserve.toNat)
    (h : reserve.toNat ≤ held) (hafter : held' + withdraw.toNat = held) : (reserve - withdraw).toNat ≤ held' := by
  rw [BitVec.toNat_sub_of_le hle]
  omega

/-- A share of at most the whole is at most the reserve. -/
theorem share_le_reserve {withdraw supply reserve amount : Nat} (hpos : 0 < supply)
    (hshare : withdraw * supply ≤ reserve * amount) (hamount : amount ≤ supply) : withdraw ≤ reserve :=
  Nat.le_of_mul_le_mul_right (hshare.trans (Nat.mul_le_mul_left _ hamount)) hpos

theorem covered_kept : Kept RemovesWhatThereIs Covered where
  opened := fun v h => ⟨h.heldA, h.heldB⟩
  drift := by
    intro v v' hdrift h
    constructor
    · rw [hdrift.pool]
      exact h.heldA.trans hdrift.heldA
    · rw [hdrift.pool]
      exact h.heldB.trans hdrift.heldB
  move := by
    intro i v v' hcond hmove h
    cases hmove with
    | swapA hfits hle hA hB =>
      subst hA
      exact ⟨deposit_covered hfits h.heldA, withdrawal_covered hle h.heldB hB⟩
    | swapB hfits hle hB hA =>
      subst hB
      exact ⟨withdrawal_covered hle h.heldA hA, deposit_covered hfits h.heldB⟩
    | add _ hfitsA hfitsB hA hB _ =>
      subst hA hB
      exact ⟨deposit_covered hfitsA h.heldA, deposit_covered hfitsB h.heldB⟩
    | remove hamounts _ hA hB _ =>
      exact ⟨withdrawal_covered (share_le_reserve hamounts.supply hamounts.withdrawA hcond) h.heldA hA,
        withdrawal_covered (share_le_reserve hamounts.supply hamounts.withdrawB hcond) h.heldB hB⟩
    | reopen _ _ hA hB _ => exact ⟨hA, hB⟩

/-! ## Liquidity tokens -/

/-- The recorded supply does not wrap, however much of the offer is taken. -/
def SupplyFits : Instruction → PoolDefinition → Prop
  | .addLiquidity _ maxA _, p =>
    p.liquidityPoolSupply.toNat * (p.reserveA.toNat + maxA.toNat) < 2 ^ 128 * p.reserveA.toNat
  | _, _ => True

/-- No more liquidity tokens than recorded, and none once the pool is closed. -/
structure Recorded (v : PoolView) : Prop where
  issued : v.issued ≤ v.pool.liquidityPoolSupply.toNat
  closed : v.pool.active = false → v.pool.liquidityPoolSupply = 0

theorem minted_fits {supply lp reserve deposit maxDeposit : Nat} (hshare : lp * reserve ≤ supply * deposit)
    (hmax : deposit ≤ maxDeposit)
    (hfits : supply * (reserve + maxDeposit) < 2 ^ 128 * reserve) : supply + lp < 2 ^ 128 := by
  refine Nat.lt_of_mul_lt_mul_right (a := reserve) (lt_of_le_of_lt ?_ hfits)
  rw [Nat.add_mul, Nat.mul_add]
  exact Nat.add_le_add_left (hshare.trans (Nat.mul_le_mul_left _ hmax)) _

theorem recorded_kept : Kept SupplyFits Recorded where
  opened := by
    intro v h
    refine ⟨h.issued.le, ?_⟩
    intro hclosed
    rw [h.active] at hclosed
    cases hclosed
  drift := by
    intro v v' hdrift h
    constructor
    · rw [hdrift.pool]
      exact hdrift.issued.trans h.issued
    · rw [hdrift.pool]
      exact h.closed
  move := by
    intro i v v' hcond hmove h
    cases hmove with
    | swapA | swapB => exact ⟨h.issued, h.closed⟩
    | @add minLp maxA maxB depositA depositB lp _ heldA heldB issued hamounts _ _ _ _ hissued =>
      obtain ⟨hshare, -, hmax, -⟩ := addAmounts_ok hamounts
      obtain ⟨-, hlp, hpos⟩ := addAmounts_pos hamounts
      have hfits := minted_fits hshare hmax hcond
      constructor
      · rw [PoolDefinition.added, BitVec.toNat_add, Nat.mod_eq_of_lt hfits, hissued]
        exact Nat.add_le_add_right h.issued _
      · -- a closed pool has no supply to share in
        intro hclosed
        rw [h.closed hclosed] at hshare
        have hzero : lp.toNat * v.pool.reserveA.toNat = 0 := by simpa using hshare
        rcases Nat.mul_eq_zero.mp hzero with hlp0 | hpos0
        · exact absurd (BitVec.eq_of_toNat_eq hlp0) hlp
        · omega
    | @remove amount minA minB withdrawA withdrawB lp _ heldA heldB issued _ hle _ _ hissued =>
      constructor
      · have hbefore := h.issued
        have hafter : (v.pool.liquidityPoolSupply - lp).toNat = v.pool.liquidityPoolSupply.toNat - lp.toNat :=
          BitVec.toNat_sub_of_le hle
        show issued ≤ (v.pool.liquidityPoolSupply - lp).toNat
        omega
      · intro hclosed
        simpa [PoolDefinition.removed] using hclosed
    | reopen hclosed hactive _ _ hissued =>
      have hnone : v.issued = 0 := by
        have := h.issued
        rw [h.closed hclosed] at this
        simpa using this
      refine ⟨by omega, ?_⟩
      intro hclosed'
      rw [hactive] at hclosed'
      cases hclosed'

/-! ## Over runs -/

section
variable {H : AmmHost} {P : Set Bytes} {s : V03State}

theorem Pools.tokenPool {J : PoolView → Prop} (h : Pools H P J s.getAccountById) {id : AccountId} {p : PoolDefinition}
    (hp : TokenPool H s id p) : J (p.view H.token.id s.getAccountById) := by
  obtain ⟨data, hdata, hread⟩ := Option.bind_eq_some_iff.mp hp.pool
  obtain ⟨p', hread', -, hj⟩ := h.pools id data hdata
  cases hread'.symm.trans hread
  exact hj

/-- **Solvency.** In every run from genesis whose calls of the AMM are paid in tokens and remove no more liquidity than
there is, whatever other programs are deployed, the vaults of every pool hold its reserves. -/
theorem solvent_of_reached (hfree : Set.InjOn H.sha256 P)
    (h : Reached H.toHost (SoundCalls H RemovesWhatThereIs P) s) : Solvent H s := by
  intro id p hp
  have hcovered := (pools_reached covered_kept hfree h).tokenPool hp
  exact ⟨hcovered.heldA, hcovered.heldB⟩

/-- **Issuance.** In every run from genesis whose calls of the AMM are paid in tokens and add no more liquidity than the
recorded supply can take, no active pool has more liquidity tokens than it records. -/
theorem not_over_issued_of_reached (hfree : Set.InjOn H.sha256 P)
    (h : Reached H.toHost (SoundCalls H SupplyFits P) s) : NotOverIssued H s := by
  intro id p hp _
  exact ((pools_reached recorded_kept hfree h).tokenPool hp).issued

end

/-! ## A market -/

section
open Reference

namespace Sample

def coinAKey : PublicKey := ByteVec.fill 32 41
def coinBKey : PublicKey := ByteVec.fill 32 42
def walletAKey : PublicKey := ByteVec.fill 32 43
def walletBKey : PublicKey := ByteVec.fill 32 44
def walletLpKey : PublicKey := ByteVec.fill 32 45

def coinA : AccountId := bytes32OfNat 0xec6e7241e7c070c00891ebf3eb19a79d4c3f7c1855e25c0ec3dafa3361c9f979
def coinB : AccountId := bytes32OfNat 0x37dfa61ba67e4780dee1d7b06215d70d474a0d48c8af191360a0fae62d0ffe86
def walletA : AccountId := bytes32OfNat 0xbe66a2dc2978328bfd412d7f1f1fc2f18b15b4b681cedd9b2f580a0e77e7296b
def walletB : AccountId := bytes32OfNat 0xb64ddf7d5934f4ebc46d93f24a21cc382710a03c19e7a1e53532095a1dadb9d8
def walletLp : AccountId := bytes32OfNat 0xa92c0385a005d6befa3567047c7fe41a79173161645a51c649b3321c289a0f7e

def market : AccountId := bytes32OfNat 0xf8d3013cc2d435c80b237ef38f7011e4e7375be4469557680ad243849aa0f33c
def marketVaultA : AccountId := bytes32OfNat 0x61f514fca428247dca1328b4e223f9c352b47aae037ee79736e9d63a118ddd53
def marketVaultB : AccountId := bytes32OfNat 0x35154e231b35d92a20d3cc9d086fb733d19022f28b60c7075b3d4f46f6513390
def marketLp : AccountId := bytes32OfNat 0xe079314357d170b6c3edbac5ff968e9bb1ae1a2b0f6e4f9658445a9956cb6f4d

/-- The market over a hundred of one coin and four hundred of the other. -/
def marketPool : PoolDefinition :=
  ⟨coinA, coinB, marketVaultA, marketVaultB, marketLp, 200, 100, 400, 0, true⟩

def coinName : Borsh.Text := ⟨ascii "Coin", by decide, by decide⟩

def issueCoin (definitionKey holderKey : PublicKey) (definition holder : AccountId) : PublicTransaction :=
  signedBy [(definitionKey, 0), (holderKey, 0)] tokenId [definition, holder]
    (Serde.writeToken (.newFungibleDefinition coinName 1000))

/-- Opens the market, with the coins of these two accounts. -/
def openMarket (signers : List (PublicKey × U128)) (userA userB : AccountId) : PublicTransaction :=
  signedBy signers ammId [market, marketVaultA, marketVaultB, marketLp, userA, userB, walletLp]
    (Serde.writeAmm (.newDefinition 100 400 ammId))

/-- Two coins and a market for them. -/
def honestTxs : List PublicTransaction :=
  [issueCoin coinAKey walletAKey coinA walletA, issueCoin coinBKey walletBKey coinB walletB,
    openMarket [(walletAKey, 1), (walletBKey, 1), (walletLpKey, 0)] walletA walletB]

def honestHost : AmmHost := exchange { signatures := signaturesOf honestTxs }

/-- The seeds of the market's accounts. -/
def marketSeed : PdaSeed := bytes32OfNat 0xd1f000cda311348d05133d6149afec44322f38996f1a6397f190fc174a7c631e
def vaultASeed : PdaSeed := bytes32OfNat 0x55707ee79240eeae7a85e5cd45d4e93739bfc7cde0f50b42077d2bdfcca2e478
def vaultBSeed : PdaSeed := bytes32OfNat 0x7e073a93b7a6ef9bfbd84bddadd8e3d3995165df40c25c4e24807f1d3d679907
def lpSeed : PdaSeed := bytes32OfNat 0xc1c7b6c87f5db36bd430adf3014dd3402b42cde5a62578a02c842c16a0e0eaf1

/-- The preimages in play in the market. -/
def marketPreimages : List Bytes :=
  [coinAKey, coinBKey, walletAKey, walletBKey, walletLpKey].map publicKeyPreimage ++
    [pairPreimage (market, coinA), pairPreimage (market, coinB), pairPreimage (market, ByteVec.fill 32 0)] ++
    [marketSeed, vaultASeed, vaultBSeed, lpSeed].map (publicPdaPreimage ammId)

theorem marketPreimages_hashed : marketPreimages.map Sha256.hash =
    [coinA, coinB, walletA, walletB, walletLp, vaultASeed, vaultBSeed, lpSeed, market, marketVaultA, marketVaultB,
      marketLp] := by
  rw [Sha256.hash_eq_packed]
  decide +kernel

theorem marketPreimages_injOn : Set.InjOn Sha256.hash {q | q ∈ marketPreimages} := by
  have hnodup : (marketPreimages.map Sha256.hash).Nodup := by
    rw [marketPreimages_hashed]
    decide +kernel
  exact fun a ha b hb heq => List.inj_on_of_nodup_map hnodup ha hb heq

/-- What is checked of the calls of a market: plain calls of the token program, one call that opens the market with
accounts of the token program, and seeds in play. -/
def MarketCall (e : Executed) : Prop :=
  (∀ f ∈ e.path, ∀ seed ∈ f.call.pdaSeeds, publicPdaPreimage f.caller seed ∈ marketPreimages) ∧
    (e.program = tokenId ∧ (∀ i ∈ Serde.readToken e.call.instructionData, i.Plain e.call.preStates) ∨
      e.program = ammId ∧ Serde.readAmm e.call.instructionData = .some (.newDefinition 100 400 ammId) ∧
        e.call.preStates.map (fun a => (a.accountId, a.account.programOwner, TokenHolding.tryFrom a.account.data)) =
          [(market, defaultProgramId, .none), (marketVaultA, defaultProgramId, .none),
            (marketVaultB, defaultProgramId, .none), (marketLp, defaultProgramId, .none),
            (walletA, tokenId, .some (.fungible coinA 1000)), (walletB, tokenId, .some (.fungible coinB 1000)),
            (walletLp, defaultProgramId, .none)])

instance (e : Executed) : Decidable (MarketCall e) := inferInstanceAs (Decidable (_ ∧ _))

theorem market_opens : (runFromGenesis honestHost.toHost [] [] honestTxs).any (fun r =>
    decide (poolAt ammId r.2 market = .some marketPool ∧ (definitionIn tokenId r.2.getAccountById coinA).isSome = true ∧
      (definitionIn tokenId r.2.getAccountById coinB).isSome = true ∧ ∀ e ∈ r.1, MarketCall e)) = true := by
  rw [honestHost, exchange_packed, signaturesOf_packed]
  decide +kernel

theorem poolPreimage_hashed : Sha256.hash (poolPreimage coinA coinB) = marketSeed := by decide +kernel

/-- The calls of the market are sound. -/
theorem sound_of_market {Cond : Instruction → PoolDefinition → Prop}
    (hcond : ∀ a b amm p, Cond (.newDefinition a b amm) p) {tx : PublicTransaction} (htx : tx ∈ honestTxs)
    {calls : List Executed} (hcalls : ∀ e ∈ calls, MarketCall e) :
    SoundCalls honestHost Cond {q | q ∈ marketPreimages} tx calls := by
  have hsigners : ∀ tx ∈ honestTxs, ∀ sk ∈ tx.signaturesAndPublicKeys, publicKeyPreimage sk.2 ∈ marketPreimages := by
    decide +kernel
  -- what a call of the AMM is
  have hamm : ∀ e ∈ calls, e.program = ammId → ∀ i, Serde.readAmm e.call.instructionData = .some i →
      i = .newDefinition 100 400 ammId ∧ ∀ a : PoolAccounts, e.call.preStates = a.toList →
        a.pool.accountId = market ∧ a.userA.account.programOwner = tokenId ∧
          TokenHolding.tryFrom a.userA.account.data = .some (.fungible coinA 1000) ∧
          TokenHolding.tryFrom a.userB.account.data = .some (.fungible coinB 1000) := by
    intro e he hp i hi
    rcases (hcalls e he).2 with ⟨htoken, -⟩ | ⟨-, hread, hpre⟩
    · exact absurd (hp.symm.trans htoken) (by decide)
    · refine ⟨Option.some.inj (hi.symm.trans hread), ?_⟩
      intro a ha
      rw [ha] at hpre
      simp only [PoolAccounts.toList, List.map_cons, List.map_nil, List.cons.injEq, Prod.mk.injEq] at hpre
      obtain ⟨⟨hpool, -⟩, -, -, -, ⟨-, howner, hA⟩, ⟨-, -, hB⟩, -⟩ := hpre
      exact ⟨hpool, howner, hA, hB⟩
  refine ⟨?_, ?_, ?_, hsigners tx htx, fun e he => (hcalls e he).1, ?_⟩
  · intro e he hp i hi
    rcases (hcalls e he).2 with ⟨-, hplain⟩ | ⟨hprogram, -⟩
    · exact hplain i hi
    · exact absurd (hprogram.symm.trans hp) (by decide)
  · intro e he hp i hi
    obtain ⟨rfl, haccounts⟩ := hamm e he hp i hi
    intro a ha
    exact (haccounts a ha).2.1
  · intro e he hp i hi pool _ p _
    obtain ⟨rfl, -⟩ := hamm e he hp i hi
    exact hcond _ _ _ _
  · rintro e he hp a b amm hi q ⟨accounts, holdingA, holdingB, hpre, hreadA, hreadB, hq⟩
    obtain ⟨heq, haccounts⟩ := hamm e he hp _ hi
    cases heq
    obtain ⟨hpool, -, hA, hB⟩ := haccounts accounts hpre
    cases hA.symm.trans hreadA
    cases hB.symm.trans hreadB
    have hseed : honestHost.sha256 (poolPreimage coinA coinB) = marketSeed := poolPreimage_hashed
    simp only [TokenHolding.definitionId, hpool, hseed] at hq
    have hin : ∀ q ∈ [pairPreimage (market, coinA), pairPreimage (market, coinB), pairPreimage (market, ByteVec.fill 32 0),
        publicPdaPreimage ammId marketSeed, publicPdaPreimage ammId marketSeed], q ∈ marketPreimages := by decide +kernel
    exact hin q hq

theorem market_reached (Cond : Instruction → PoolDefinition → Prop)
    (hcond : ∀ a b amm p, Cond (.newDefinition a b amm) p) :
    ∃ s, Reached honestHost.toHost (SoundCalls honestHost Cond {q | q ∈ marketPreimages}) s ∧
      TokenPool honestHost s market marketPool := by
  obtain ⟨⟨es, s⟩, hs, hfacts⟩ := (Option.any_eq_true _ _).mp market_opens
  obtain ⟨hpool, hA, hB, hcalls⟩ := of_decide_eq_true hfacts
  exact ⟨s, reached_of_run hs fun tx htx calls hsub => sound_of_market hcond htx fun e he => hcalls e (hsub e he),
    hpool, hA, hB⟩

end Sample

open Amm.Sample

/-- A market opened with tokens is solvent. -/
theorem market_solvent :
    ∃ s, Reached honestHost.toHost (SoundCalls honestHost RemovesWhatThereIs {q | q ∈ marketPreimages}) s ∧
      TokenPool honestHost s market marketPool ∧ Solvent honestHost s := by
  obtain ⟨s, hreached, hpool⟩ := market_reached RemovesWhatThereIs fun _ _ _ _ => trivial
  exact ⟨s, hreached, hpool, solvent_of_reached marketPreimages_injOn hreached⟩

/-- And its liquidity tokens are recorded. -/
theorem market_not_over_issued :
    ∃ s, Reached honestHost.toHost (SoundCalls honestHost SupplyFits {q | q ∈ marketPreimages}) s ∧
      TokenPool honestHost s market marketPool ∧ NotOverIssued honestHost s := by
  obtain ⟨s, hreached, hpool⟩ := market_reached SupplyFits fun _ _ _ _ => trivial
  exact ⟨s, hreached, hpool, not_over_issued_of_reached marketPreimages_injOn hreached⟩

/-! ## A program that passes for the token program -/

namespace Sample

def forgerId : ProgramId := programId 9

def baitAKey : PublicKey := ByteVec.fill 32 46
def baitBKey : PublicKey := ByteVec.fill 32 47
def baitA : AccountId := bytes32OfNat 0x205b9ee0c8fe1040b47abe7dc18157c7ee5e4247c346b431cbefa5a454636496
def baitB : AccountId := bytes32OfNat 0xa8b39c75be75d918190fbef4b9d0628a953c9f81e8f63b0a361df82276e594ac

/-- The account with the data of a holding, claimed. -/
def forged (definitionId : AccountId) (a : AccountWithMetadata) : AccountPostState :=
  ⟨{ a.account with data := dataOf (TokenHolding.format.write (.fungible definitionId 1000)) }, .some .authorized⟩

/-- Makes two holdings of its own; asked to define the liquidity token it has a million issued, asked to transfer it
does nothing. -/
def forger : Guest := fun self caller pre data =>
  if data = [] then .ok (ProgramOutput.new self caller data pre (pre.zipWith (fun a t => forged t a) [coinA, coinB]))
  else if data = Serde.writeToken (.newFungibleDefinition lpTokenName 200) then
    delegating tokenId (Serde.writeToken (.newFungibleDefinition lpTokenName 1000000)) [] self caller pre data
  else idle self caller pre data

def forgeryTxs : List PublicTransaction :=
  [issueCoin coinAKey walletAKey coinA walletA, issueCoin coinBKey walletBKey coinB walletB,
    signedBy [(baitAKey, 0), (baitBKey, 0)] forgerId [baitA, baitB] [],
    openMarket [(walletLpKey, 0)] baitA baitB]

def forgeryHost : AmmHost :=
  exchange { programs := fun _ => forger, bytecodes := [([9], forgerId)], signatures := signaturesOf forgeryTxs }

/-- The forger's market: its vaults are empty, and there are a million liquidity tokens. -/
theorem forged_market_opens :
    ∃ s, Reached forgeryHost.toHost (fun _ _ => True) s ∧ TokenPool forgeryHost s market marketPool ∧
      balanceIn tokenId s.getAccountById marketVaultA coinA = 0 ∧
      issuedIn tokenId s.getAccountById marketLp = 1000000 := by
  have hrun : (runFromGenesis forgeryHost.toHost [] [[9]] forgeryTxs).any (fun r =>
      decide (poolAt ammId r.2 market = .some marketPool ∧
        (definitionIn tokenId r.2.getAccountById coinA).isSome = true ∧
        (definitionIn tokenId r.2.getAccountById coinB).isSome = true ∧
        balanceIn tokenId r.2.getAccountById marketVaultA coinA = 0 ∧
        issuedIn tokenId r.2.getAccountById marketLp = 1000000)) = true := by
    rw [forgeryHost, exchange_packed, signaturesOf_packed]
    decide +kernel
  obtain ⟨⟨es, s⟩, hs, hfacts⟩ := (Option.any_eq_true _ _).mp hrun
  obtain ⟨hpool, hA, hB, hvault, hlp⟩ := of_decide_eq_true hfacts
  exact ⟨s, reached_of_run hs fun _ _ _ _ => trivial, ⟨hpool, hA, hB⟩, hvault, hlp⟩

end Sample

/-- A hundred are recorded where there is nothing. -/
theorem forged_market_insolvent :
    ∃ s, Reached forgeryHost.toHost (fun _ _ => True) s ∧ TokenPool forgeryHost s market marketPool ∧
      balanceIn tokenId s.getAccountById marketVaultA coinA = 0 ∧ ¬Solvent forgeryHost s := by
  obtain ⟨s, hreached, hpool, hvault, -⟩ := forged_market_opens
  refine ⟨s, hreached, hpool, hvault, ?_⟩
  intro hsolvent
  have hle : (100 : U128).toNat ≤ balanceIn tokenId s.getAccountById marketVaultA coinA := (hsolvent market _ hpool).1
  rw [hvault] at hle
  exact absurd hle (by decide)

/-- A million were issued where two hundred are recorded. -/
theorem forged_market_over_issued :
    ∃ s, Reached forgeryHost.toHost (fun _ _ => True) s ∧ TokenPool forgeryHost s market marketPool ∧
      issuedIn tokenId s.getAccountById marketLp = 1000000 ∧ ¬NotOverIssued forgeryHost s := by
  obtain ⟨s, hreached, hpool, -, hlp⟩ := forged_market_opens
  refine ⟨s, hreached, hpool, hlp, ?_⟩
  intro hrecorded
  have hle : issuedIn tokenId s.getAccountById marketLp ≤ (200 : U128).toNat := hrecorded market _ hpool rfl
  rw [hlp] at hle
  exact absurd hle (by decide)

end

end Lez.Amm
