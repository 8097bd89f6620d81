/-
Supply. From genesis on, and as long as the calls of the token program are
plain, the holdings of a definition add up to its supply; with a name of 27
bytes a definition passes for a holding of itself, and a transfer out of it
lowers the supply while the holdings stay.
-/
import Lez.Programs.AmmHost
import Lez.Token.Books
import Lez.Trace.Callees
import Mathlib.Algebra.BigOperators.Ring.Finset

namespace Lez.Token

/-- What an account counts for the holdings of `D`. -/
def heldOf (token : ProgramId) (k : Kind) (D : AccountId) (a : Account) : Nat :=
  ((a.ownedData token).bind TokenHolding.tryFrom).elim 0 fun h => if h.definitionId = D then h.worth k else 0

/-- The holdings of `D` in sum, unbounded. -/
def held (token : ProgramId) (k : Kind) (D : AccountId) (s : V03State) : Nat := s.publicState.total (heldOf token k D)

/-- The definition at an account of the token program. -/
def definitionAt (token : ProgramId) (s : V03State) (D : AccountId) : Option TokenDefinition :=
  ((s.getAccountById D).ownedData token).bind TokenDefinition.tryFrom

/-- **Supply is accounted for.** -/
def SupplyAccounted (token : ProgramId) (s : V03State) : Prop :=
  (∀ D name totalSupply metadataId, definitionAt token s D = .some (.fungible name totalSupply metadataId) →
      totalSupply.toNat = held token .fungible D s) ∧
    ∀ D name printableSupply metadataId, definitionAt token s D = .some (.nonFungible name printableSupply metadataId) →
      printableSupply.toNat = held token .nonFungible D s

/-- The token program's calls of a transaction are plain. -/
def PlainCalls (H : TokenHost) (_ : PublicTransaction) (calls : List Executed) : Prop :=
  ∀ e ∈ calls, e.program = H.token.id → ∀ i, H.readToken e.call.instructionData = .some i → i.Plain e.call.preStates

/-! ## The invariant -/

/-- The books are kept: accounts are tidy, and over any accounts that cover the token program's the net is zero. -/
structure Books (token : ProgramId) (σ : View) : Prop where
  tidy : ∀ id, Tidy ((σ id).ownedData token)
  zero : ∀ (S : Finset AccountId), (∀ id, id ∉ S → (σ id).ownedData token = .none) →
    ∀ k D, ∑ id ∈ S, net k D id ((σ id).ownedData token) = 0

section
variable {e : Executed} {es : List Executed} {σ σ' : View} {token : ProgramId}

/-- An account of the token program stays one. -/
theorem unowned_before (heff : CallEffect (fun _ => True) e σ σ') (hne : token ≠ defaultProgramId) {id : AccountId}
    (hafter : (σ' id).ownedData token = .none) : (σ id).ownedData token = .none := by
  refine ownedData_of_stranger ?_
  intro howned
  have hown : (σ id).programOwner ≠ defaultProgramId := howned ▸ hne
  have howner := heff.owner hown
  rw [ownedData_of_owner (howner.trans howned)] at hafter
  cases hafter

/-- **A call keeps the books**: the token program's if it is plain, every other one. -/
theorem Books.call (h : Books token σ) (heff : CallEffect (fun _ => True) e σ σ') (hne : token ≠ defaultProgramId)
    (htoken : e.program = token →
      ∃ i, Answered e.output.preStates i e.output.postStates ∧ i.Plain e.output.preStates) : Books token σ' := by
  by_cases hp : e.program = token
  · obtain ⟨i, hans, hplain⟩ := htoken hp
    obtain ⟨htidy, hsum⟩ := token_call_books heff hp hne hans hplain h.tidy
    have hnodup : e.accountIds.Nodup := heff.valid.nodup
    have hframe : ∀ id ∉ e.accountIds, σ' id = σ id := fun id hid => heff.frame id fun hm => hid hm.1
    refine ⟨?_, ?_⟩
    · intro id
      by_cases hid : id ∈ e.accountIds
      · exact htidy id hid
      · rw [hframe id hid]
        exact h.tidy id
    · intro S hS k D
      have hwide : ∑ id ∈ S ∪ e.accountIds.toFinset, net k D id ((σ' id).ownedData token) =
          ∑ id ∈ S ∪ e.accountIds.toFinset, net k D id ((σ id).ownedData token) :=
        sum_eq_of_batch hnodup (fun id hid => by simp [hid]) (fun id hid => by rw [hframe id hid]) (hsum k D)
      have hbefore : ∀ id, id ∉ S ∪ e.accountIds.toFinset → (σ id).ownedData token = .none := by
        intro id hid
        exact unowned_before heff hne (hS id fun hm => hid (Finset.mem_union_left _ hm))
      rw [h.zero _ hbefore k D] at hwide
      rw [← hwide]
      refine Finset.sum_subset Finset.subset_union_left ?_
      intro id _ hid
      rw [hS id hid, net_none]
  · have hsame := heff.ownedData_foreign hne hp
    refine ⟨fun id => hsame id ▸ h.tidy id, ?_⟩
    intro S hS k D
    simp only [hsame] at hS ⊢
    exact h.zero S hS k D

theorem Books.calls (h : Books token σ) (heff : Effects (fun _ => True) es σ σ') (hne : token ≠ defaultProgramId)
    (htoken : ∀ e ∈ es, e.program = token →
      ∃ i, Answered e.output.preStates i e.output.postStates ∧ i.Plain e.output.preStates) : Books token σ' := by
  induction heff with
  | nil => exact h
  | cons he _ ih =>
    exact ih (h.call he hne (htoken _ List.mem_cons_self)) fun e' he' => htoken e' (List.mem_cons_of_mem _ he')

theorem Books.nonces (h : Books token σ) (hsame : SameButNonces σ σ') : Books token σ' := by
  have hdata : ∀ id, (σ' id).ownedData token = (σ id).ownedData token := by
    intro id
    obtain ⟨n, hn⟩ := hsame id
    rw [hn]
    rfl
  refine ⟨fun id => hdata id ▸ h.tidy id, ?_⟩
  intro S hS k D
  simp only [hdata] at hS ⊢
  exact h.zero S hS k D

/-- Before the token program owns an account there is nothing to count. -/
theorem Books.start (h : ∀ id, (σ id).ownedData token = .none) : Books token σ := by
  refine ⟨fun id => h id ▸ tidy_none, ?_⟩
  intro S _ k D
  simp [h]

end

section
variable {H : TokenHost} {s : V03State} {blockId : BlockId} {timestamp : Timestamp} {tx : PublicTransaction}
  {diff : StateDiff} {e : Executed}

/-- The token program answered a call of its own as modelled. -/
theorem token_answered (hacc : PublicAccepted H.toHost tx s blockId timestamp diff)
    (he : e ∈ publicCalls H.toHost s blockId timestamp tx) (hp : e.program = H.token.id) :
    ∃ i, H.readToken e.call.instructionData = .some i ∧ Answered e.output.preStates i e.output.postStates ∧
      e.output.preStates = e.call.preStates ∧ e.output.chainedCalls = [] := by
  have hran := hacc.exec.answered_by e he
  rw [hp] at hran
  obtain ⟨i, post, hi, hprocess, hout⟩ := main_ok (H.guest_token _ _ _ _ hran)
  rw [hout]
  exact ⟨i, hi, process_ok hprocess, rfl, rfl⟩

theorem books_of_accepted (hacc : PublicAccepted H.toHost tx s blockId timestamp diff)
    (hplain : PlainCalls H tx (publicCalls H.toHost s blockId timestamp tx)) (h : Books H.token.id s.getAccountById) :
    Books H.token.id (viewOf s diff.publicDiff) := by
  refine h.calls hacc.exec.effects H.token_ne_default ?_
  intro e he hp
  obtain ⟨i, hi, hans, hpre, -⟩ := token_answered hacc he hp
  exact ⟨i, hans, hpre ▸ hplain e he hp i hi⟩

theorem books_reached (h : Reached H.toHost (PlainCalls H) s) : Books H.token.id s.getAccountById := by
  refine h.invariant ?_ (fun σ σ' hsame hbooks => hbooks.nonces hsame) ?_
  · intro σ hgenesis
    refine Books.start ?_
    intro id
    refine ownedData_of_stranger ?_
    rcases hgenesis id with hdefault | htransfer | hclock
    · rw [hdefault]
      exact Ne.symm H.token_ne_default
    · rw [htransfer]
      exact Ne.symm H.token_ne_transfer
    · rw [hclock]
      exact Ne.symm H.token_ne_clock
  · intro s tx blockId timestamp diff hacc hplain hbooks
    exact books_of_accepted hacc hplain hbooks

/-- What the books say of one definition. -/
theorem Books.supply (h : Books H.token.id s.getAccountById) {D : AccountId} {d : TokenDefinition}
    (hd : definitionAt H.token.id s D = .some d) (k : Kind) : d.supply k = held H.token.id k D s := by
  have hcover : ∀ id ∈ s.publicState, id ∈ insert D s.publicState.keys.toFinset := by
    intro id hid
    simp [AList.mem_keys.mp hid]
  have hheld : held H.token.id k D s = ∑ id ∈ insert D s.publicState.keys.toFinset,
      heldOf H.token.id k D (s.getAccountById id) := by
    refine s.publicState.total_eq_sum ?_ hcover
    simp [heldOf, ownedData_default H.token_ne_default]
  have hnone : ∀ id, id ∉ insert D s.publicState.keys.toFinset → (s.getAccountById id).ownedData H.token.id = .none := by
    intro id hid
    have hout : id ∉ s.publicState := fun hm => hid (hcover id hm)
    rw [V03State.getAccountById, Table.getD, AList.lookup_eq_none.mpr hout]
    exact ownedData_default H.token_ne_default
  have hzero := h.zero _ hnone k D
  -- the net at `D` is the only one with a supply in it
  have hsplit : ∀ id, net k D id ((s.getAccountById id).ownedData H.token.id) =
      (heldOf H.token.id k D (s.getAccountById id) : ℤ) - if id = D then (d.supply k : ℤ) else 0 := by
    intro id
    unfold net heldOf
    congr 1
    · cases ((s.getAccountById id).ownedData H.token.id).bind TokenHolding.tryFrom with
      | none => rfl
      | some h =>
        simp only [Option.elim_some]
        split <;> rfl
    · by_cases hid : id = D
      · subst hid
        rw [definitionAt] at hd
        simp [hd]
      · cases ((s.getAccountById id).ownedData H.token.id).bind TokenDefinition.tryFrom <;> simp [hid]
  simp only [hsplit, Finset.sum_sub_distrib, Finset.sum_ite_eq', Finset.mem_insert_self, if_true] at hzero
  rw [hheld]
  have hcast := Nat.cast_sum (R := ℤ) (insert D s.publicState.keys.toFinset)
    fun id => heldOf H.token.id k D (s.getAccountById id)
  omega

/-- **Supply accounting.** In every run from genesis whose token calls are plain, every ledger reached has the
supply of each definition in its holdings. -/
theorem supply_accounted (h : Reached H.toHost (PlainCalls H) s) : SupplyAccounted H.token.id s := by
  have hbooks := books_reached h
  refine ⟨?_, ?_⟩
  · intro D name totalSupply metadataId hd
    exact hbooks.supply hd .fungible
  · intro D name printableSupply metadataId hd
    exact hbooks.supply hd .nonFungible

end

section
open Reference

namespace Sample

def issuerKey : PublicKey := ByteVec.fill 32 31
def holderKey : PublicKey := ByteVec.fill 32 32
def buyerKey : PublicKey := ByteVec.fill 32 33

def issuer : AccountId := accountIdFromPublicKey Sha256.hash issuerKey
def holder : AccountId := accountIdFromPublicKey Sha256.hash holderKey
def buyer : AccountId := accountIdFromPublicKey Sha256.hash buyerKey

/-- A thousand of a token with this name, then a transfer from one of the two accounts to a new one. -/
def issue (name : Borsh.Text) : PublicTransaction :=
  signedBy [(issuerKey, 0), (holderKey, 0)] tokenId [issuer, holder]
    (Serde.writeToken (.newFungibleDefinition name 1000))

def pay (key : PublicKey) (account : AccountId) (amount : U128) : PublicTransaction :=
  signedBy [(key, 1), (buyerKey, 0)] tokenId [account, buyer] (Serde.writeToken (.transfer amount))

def gold : Borsh.Text := ⟨ascii "Gold", by decide, by decide⟩

def saleHost : AmmHost := exchange { signatures := signaturesOf [issue gold, pay holderKey holder 400] }

end Sample

open Token.Sample

/-- What is sold leaves one holding and enters another. -/
theorem sale_accounted :
    ∃ s, Reached saleHost.toHost (PlainCalls saleHost.toTokenHost) s ∧
      definitionAt tokenId s issuer = .some (.fungible gold 1000 .none) ∧
      holdingAccount issuer 600 = { s.getAccountById holder with nonce := 0 } ∧ SupplyAccounted tokenId s := by
  have hrun : (runFromGenesis saleHost.toHost [] [] [issue gold, pay holderKey holder 400]).any (fun r =>
      decide (definitionAt tokenId r.2 issuer = .some (.fungible gold 1000 .none) ∧
        holdingAccount issuer 600 = { r.2.getAccountById holder with nonce := 0 } ∧
        ∀ e ∈ r.1, (e.call.preStates.head?.map (·.accountId) = .some issuer ∧
            Serde.readToken e.call.instructionData = .some (.newFungibleDefinition gold 1000)) ∨
          (e.call.preStates.head?.map (fun a => TokenHolding.tryFrom a.account.data) =
              .some (.some (.fungible issuer 1000)) ∧
            Serde.readToken e.call.instructionData = .some (.transfer 400)))) = true := by
    rw [saleHost, exchange_packed, signaturesOf_packed]
    decide +kernel
  obtain ⟨⟨es, s⟩, hs, hfacts⟩ := (Option.any_eq_true _ _).mp hrun
  obtain ⟨hdefinition, hholder, hcalls⟩ := of_decide_eq_true hfacts
  have hissuer : ¬ReadsAsLength issuer := by decide +kernel
  have hreached : Reached saleHost.toHost (PlainCalls saleHost.toTokenHost) s := by
    refine reached_of_run hs ?_
    intro tx _ calls hsub e he _ i hi
    rcases hcalls e (hsub e he) with ⟨hhead, hread⟩ | ⟨hhead, hread⟩
    · cases hread.symm.trans hi
      refine ⟨by decide, ?_⟩
      intro a ha
      rw [Option.mem_def.mp ha, Option.map_some] at hhead
      rw [Option.some.inj hhead]
      exact hissuer
    · cases hread.symm.trans hi
      intro a ha h hread
      rw [Option.mem_def.mp ha, Option.map_some] at hhead
      rw [Option.some.inj (hread.symm.trans (Option.some.inj hhead))]
      exact hissuer
  exact ⟨s, hreached, hdefinition, hholder, supply_accounted hreached⟩

namespace Sample

def longName : Borsh.Text := ⟨ascii "Twenty-seven byte long name", by decide, by decide⟩

def confusedHost : AmmHost := exchange { signatures := signaturesOf [issue longName, pay issuerKey issuer 1] }

end Sample

/-- The definition pays one unit of what it reads as a holding: 256 of its supply are gone, its holder has
all thousand. -/
theorem definition_pays_like_a_holding :
    ∃ s, Reached confusedHost.toHost (fun _ _ => True) s ∧
      definitionAt tokenId s issuer = .some (.fungible longName 744 .none) ∧ held tokenId .fungible issuer s = 1000 ∧
      ¬SupplyAccounted tokenId s := by
  have hrun : (runFromGenesis confusedHost.toHost [] [] [issue longName, pay issuerKey issuer 1]).any (fun r =>
      decide (definitionAt tokenId r.2 issuer = .some (.fungible longName 744 .none) ∧
        held tokenId .fungible issuer r.2 = 1000)) = true := by
    rw [confusedHost, exchange_packed, signaturesOf_packed]
    decide +kernel
  obtain ⟨⟨es, s⟩, hs, hfacts⟩ := (Option.any_eq_true _ _).mp hrun
  obtain ⟨hdefinition, hheld⟩ := of_decide_eq_true hfacts
  refine ⟨s, reached_of_run hs fun _ _ _ _ => trivial, hdefinition, hheld, ?_⟩
  intro haccounted
  have hsupply := haccounted.1 issuer longName 744 .none hdefinition
  rw [hheld] at hsupply
  cases hsupply

end

end Lez.Token
