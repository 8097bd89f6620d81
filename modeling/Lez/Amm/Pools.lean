/-
Pools between the two programs. A pool account of the AMM records reserves
and a supply; what backs them are two vaults and a definition of the token
program. `PoolView` puts the two together, `PoolMove` says what one
instruction does to them, and `Drift` what the rest of the world can do:
vaults only grow, the definition only shrinks. The accounts derive from the
pool, so nobody but the AMM has authority over them, as long as the hashes in
play do not collide.
-/
import Lez.Amm.Answers
import Lez.Ledger.Authorization
import Lez.Token.Moves
import Lez.Token.Supply
import Lez.Trace.Rounds

namespace Lez.Amm

open Token (TokenHolding TokenDefinition holdingIn definitionIn Books)

/-! ## The abstract pool -/

/-- A pool, what its vaults hold of its tokens, and the liquidity tokens there are. -/
structure PoolView where
  pool : PoolDefinition
  heldA : Nat
  heldB : Nat
  issued : Nat

/-- Anyone may pay into the vaults and burn liquidity tokens. -/
structure Drift (v v' : PoolView) : Prop where
  pool : v'.pool = v.pool
  heldA : v.heldA ≤ v'.heldA
  heldB : v.heldB ≤ v'.heldB
  issued : v'.issued ≤ v.issued

/-- A pool that holds what it records, all of whose liquidity tokens are new. -/
structure Opened (v : PoolView) : Prop where
  active : v.pool.active = true
  heldA : v.pool.reserveA.toNat ≤ v.heldA
  heldB : v.pool.reserveB.toNat ≤ v.heldB
  issued : v.issued = v.pool.liquidityPoolSupply.toNat

/-- **What an instruction does to a pool there is.** -/
inductive PoolMove : Instruction → PoolView → PoolView → Prop
  | swapA {i : Instruction} {v : PoolView} {heldA heldB : Nat} {deposit withdraw : U128} :
      v.pool.reserveA.toNat + deposit.toNat < 2 ^ 128 → withdraw.toNat ≤ v.pool.reserveB.toNat →
      heldA = v.heldA + deposit.toNat → heldB + withdraw.toNat = v.heldB →
      PoolMove i v ⟨{ v.pool with reserveA := v.pool.reserveA + deposit, reserveB := v.pool.reserveB - withdraw },
        heldA, heldB, v.issued⟩
  | swapB {i : Instruction} {v : PoolView} {heldA heldB : Nat} {deposit withdraw : U128} :
      v.pool.reserveB.toNat + deposit.toNat < 2 ^ 128 → withdraw.toNat ≤ v.pool.reserveA.toNat →
      heldB = v.heldB + deposit.toNat → heldA + withdraw.toNat = v.heldA →
      PoolMove i v ⟨{ v.pool with reserveA := v.pool.reserveA - withdraw, reserveB := v.pool.reserveB + deposit },
        heldA, heldB, v.issued⟩
  | add {minLp maxA maxB depositA depositB lp : U128} {v : PoolView} {heldA heldB issued : Nat} :
      addAmounts v.pool minLp maxA maxB = .ok (depositA, depositB, lp) →
      v.pool.reserveA.toNat + depositA.toNat < 2 ^ 128 → v.pool.reserveB.toNat + depositB.toNat < 2 ^ 128 →
      heldA = v.heldA + depositA.toNat → heldB = v.heldB + depositB.toNat → issued = v.issued + lp.toNat →
      PoolMove (.addLiquidity minLp maxA maxB) v ⟨v.pool.added depositA depositB lp, heldA, heldB, issued⟩
  | remove {amount minA minB withdrawA withdrawB lp : U128} {v : PoolView} {heldA heldB issued : Nat} :
      RemoveAmounts v.pool amount withdrawA withdrawB lp → lp.toNat ≤ v.pool.liquidityPoolSupply.toNat →
      heldA + withdrawA.toNat = v.heldA → heldB + withdrawB.toNat = v.heldB → issued + lp.toNat = v.issued →
      PoolMove (.removeLiquidity amount minA minB) v ⟨v.pool.removed withdrawA withdrawB lp, heldA, heldB, issued⟩
  | reopen {a b : U128} {amm : ProgramId} {v v' : PoolView} : v.pool.active = false → v'.pool.active = true →
      v'.pool.reserveA.toNat ≤ v'.heldA → v'.pool.reserveB.toNat ≤ v'.heldB →
      v'.issued = v.issued + v'.pool.liquidityPoolSupply.toNat → PoolMove (.newDefinition a b amm) v v'

/-- A property of pools that holds of new ones, that nobody from outside can break, and that the instructions that
meet `Cond` keep. -/
structure Kept (Cond : Instruction → PoolDefinition → Prop) (J : PoolView → Prop) : Prop where
  opened : ∀ v, Opened v → J v
  drift : ∀ v v', Drift v v' → J v → J v'
  move : ∀ i v v', Cond i v.pool → PoolMove i v v' → J v → J v'

theorem Drift.refl (v : PoolView) : Drift v v := ⟨rfl, le_rfl, le_rfl, le_rfl⟩

theorem Drift.trans {u v w : PoolView} (h : Drift u v) (h' : Drift v w) : Drift u w :=
  ⟨h'.pool.trans h.pool, h.heldA.trans h'.heldA, h.heldB.trans h'.heldB, h'.issued.trans h.issued⟩

/-! ## The pool in the ledger -/

/-- The tokens of `D` at an account. -/
def balanceIn (token : ProgramId) (σ : View) (id D : AccountId) : Nat :=
  (holdingIn token σ id).elim 0 fun h => if h.definitionId = D then h.amount else 0

/-- The supply of the fungible definition at an account. -/
def issuedIn (token : ProgramId) (σ : View) (id : AccountId) : Nat :=
  (definitionIn token σ id).elim 0 fun d => d.supply .fungible

def PoolDefinition.view (token : ProgramId) (σ : View) (p : PoolDefinition) : PoolView :=
  ⟨p, balanceIn token σ p.vaultAId p.definitionTokenAId, balanceIn token σ p.vaultBId p.definitionTokenBId,
    issuedIn token σ p.liquidityPoolId⟩

/-- The account derives from the pool and `t`, and the two preimages are among those in play. -/
structure Derived (H : AmmHost) (P : Set Bytes) (pool t id : AccountId) : Prop where
  id : id = forPublicPda H.sha256 H.amm.id (H.sha256 (pairPreimage (pool, t)))
  pair : pairPreimage (pool, t) ∈ P
  seed : publicPdaPreimage H.amm.id (H.sha256 (pairPreimage (pool, t))) ∈ P

/-- **A pool in order**: its accounts derive from it, the vaults hold its tokens and the definition is one. -/
structure PoolOk (H : AmmHost) (P : Set Bytes) (σ : View) (id : AccountId) (p : PoolDefinition) : Prop where
  self : ∃ seed, id = forPublicPda H.sha256 H.amm.id seed ∧ publicPdaPreimage H.amm.id seed ∈ P
  vaultA : Derived H P id p.definitionTokenAId p.vaultAId
  vaultB : Derived H P id p.definitionTokenBId p.vaultBId
  lp : Derived H P id (ByteVec.fill 32 0) p.liquidityPoolId
  holdingA : ∃ h, holdingIn H.token.id σ p.vaultAId = .some h ∧ h.definitionId = p.definitionTokenAId
  holdingB : ∃ h, holdingIn H.token.id σ p.vaultBId = .some h ∧ h.definitionId = p.definitionTokenBId
  definition : ∃ d, definitionIn H.token.id σ p.liquidityPoolId = .some d

theorem balanceIn_of_holding {token : ProgramId} {σ : View} {id D : AccountId} {h : TokenHolding}
    (hh : holdingIn token σ id = .some h) (hd : h.definitionId = D) : balanceIn token σ id D = h.amount := by
  simp [balanceIn, hh, hd]

theorem issuedIn_of_definition {token : ProgramId} {σ : View} {id : AccountId} {d : TokenDefinition}
    (hd : definitionIn token σ id = .some d) : issuedIn token σ id = d.supply .fungible := by
  simp [issuedIn, hd]

/-! ## Drift -/

section
variable {H : AmmHost} {P : Set Bytes} {σ σ' : View} {id : AccountId} {p : PoolDefinition} {e : Executed}

/-- A call with no authority over the accounts of a pool leaves it in order and drifting. -/
theorem PoolOk.call (hok : PoolOk H P σ id p) (hbooks : Books H.token.id σ)
    (heff : CallEffect (fun _ => True) e σ σ')
    (htoken : e.program = H.token.id → ∃ i, Token.Answered e.output.preStates i e.output.postStates)
    (hauth : ∀ t v, Derived H P id t v → ∀ a ∈ e.output.preStates, a.accountId = v → a.isAuthorized = false) :
    PoolOk H P σ' id p ∧ Drift (p.view H.token.id σ) (p.view H.token.id σ') := by
  have hstep : (∀ t v, Derived H P id t v → ∀ h, holdingIn H.token.id σ v = .some h →
        ∃ h', holdingIn H.token.id σ' v = .some h' ∧ h'.definitionId = h.definitionId ∧ h.amount ≤ h'.amount) ∧
      ∀ t v, Derived H P id t v → ∀ d, definitionIn H.token.id σ v = .some d →
        ∃ d', definitionIn H.token.id σ' v = .some d' ∧ d'.supply .fungible ≤ d.supply .fungible := by
    by_cases hp : e.program = H.token.id
    · obtain ⟨i, hans⟩ := htoken hp
      exact ⟨fun t v hv h hh => Token.holding_grows heff hp H.token_ne_default hans (hbooks.tidy v) hh (hauth t v hv),
        fun t v hv d hd => Token.definition_shrinks heff hp H.token_ne_default hans (hbooks.tidy v) hd (hauth t v hv)⟩
    · have hsame := heff.ownedData_foreign H.token_ne_default hp
      exact ⟨fun t v _ h hh => ⟨h, by rw [holdingIn, hsame]; exact hh, rfl, le_rfl⟩,
        fun t v _ d hd => ⟨d, by rw [definitionIn, hsame]; exact hd, le_rfl⟩⟩
  obtain ⟨hA, hreadA, hdefA⟩ := hok.holdingA
  obtain ⟨hB, hreadB, hdefB⟩ := hok.holdingB
  obtain ⟨d, hd⟩ := hok.definition
  obtain ⟨hA', hreadA', hsameA, hleA⟩ := hstep.1 _ _ hok.vaultA hA hreadA
  obtain ⟨hB', hreadB', hsameB, hleB⟩ := hstep.1 _ _ hok.vaultB hB hreadB
  obtain ⟨d', hd', hled⟩ := hstep.2 _ _ hok.lp d hd
  refine ⟨{ hok with
    holdingA := ⟨hA', hreadA', hsameA.trans hdefA⟩
    holdingB := ⟨hB', hreadB', hsameB.trans hdefB⟩
    definition := ⟨d', hd'⟩ }, rfl, ?_, ?_, ?_⟩
  · simpa only [PoolDefinition.view, balanceIn_of_holding hreadA hdefA,
      balanceIn_of_holding hreadA' (hsameA.trans hdefA)] using hleA
  · simpa only [PoolDefinition.view, balanceIn_of_holding hreadB hdefB,
      balanceIn_of_holding hreadB' (hsameB.trans hdefB)] using hleB
  · simpa only [PoolDefinition.view, issuedIn_of_definition hd, issuedIn_of_definition hd'] using hled

end

end Lez.Amm
