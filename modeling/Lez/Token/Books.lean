/-
The books of the token program. `net` is what an account adds to the
holdings of a definition, less what it issues if it is the definition; each
instruction keeps the sum of `net` over its accounts, whatever stands in
them, as long as no account reads both as a definition and as a holding
(`Tidy`). Accounts of other programs count for nothing, and the token
program cannot change them.
-/
import Lez.Token.Shapes
import Lez.Trace.Owned

namespace Lez.Token

/-- The two kinds of tokens that are counted. -/
inductive Kind
  | fungible
  | nonFungible

/-- What a holding counts: its balance; of a non-fungible token, the print balance of a master and one
for a printed copy that is owned. -/
def TokenHolding.worth : Kind → TokenHolding → Nat
  | .fungible, .fungible _ balance => balance.toNat
  | .nonFungible, .nftMaster _ printBalance => printBalance.toNat
  | .nonFungible, .nftPrintedCopy _ owned => owned.toNat
  | _, _ => 0

def TokenDefinition.supply : Kind → TokenDefinition → Nat
  | .fungible, .fungible _ totalSupply _ => totalSupply.toNat
  | .nonFungible, .nonFungible _ printableSupply _ => printableSupply.toNat
  | _, _ => 0

/-! ## Amounts -/

/-- Moving keeps the worth of two holdings together. -/
theorem moveBetween_worth {amount : U128} {sh rh sh' rh' : TokenHolding}
    (h : moveBetween amount sh rh = .ok (sh', rh')) :
    (∀ k, sh'.worth k + rh'.worth k = sh.worth k + rh.worth k) ∧ sh'.definitionId = sh.definitionId ∧
      rh'.definitionId = rh.definitionId ∧ (sh.Plain → sh'.Plain) ∧ (rh.Plain → rh'.Plain) := by
  cases sh with
  | fungible d₁ b₁ =>
    obtain ⟨d₂, b₂, rfl⟩ := moveBetween_from_fungible h
    obtain ⟨b₁', b₂', rfl, rfl, h₁, h₂⟩ := moveBetween_fungible h
    refine ⟨?_, rfl, rfl, id, id⟩
    intro k
    cases k <;> simp only [TokenHolding.worth]
    omega
  | nftMaster d₁ b₁ =>
    cases rh with
    | fungible | nftPrintedCopy => cases h
    | nftMaster d₂ b₂ =>
      simp only [moveBetween, bind_ok_iff, ensure_ok_iff, pure_ok_iff, Prod.mk.injEq] at h
      obtain ⟨-, -, -, -, rfl, rfl⟩ := h
      refine ⟨?_, rfl, rfl, id, id⟩
      intro k
      cases k <;> simp only [TokenHolding.worth]
      omega
  | nftPrintedCopy d₁ o₁ =>
    cases rh with
    | fungible | nftMaster => cases h
    | nftPrintedCopy d₂ o₂ =>
      simp only [moveBetween, bind_ok_iff, ensure_ok_iff, pure_ok_iff, Prod.mk.injEq] at h
      obtain ⟨-, -, -, rfl, -, rfl, rfl, rfl⟩ := h
      refine ⟨?_, rfl, rfl, id, id⟩
      intro k
      cases k <;> rfl

/-- Burning takes the same off the supply and off the holding. -/
theorem burnFrom_worth {amount : U128} {d d' : TokenDefinition} {h h' : TokenHolding}
    (hb : burnFrom amount d h = .ok (d', h')) :
    (∀ k, h'.worth k + d.supply k = h.worth k + d'.supply k) ∧ h'.definitionId = h.definitionId ∧
      (d.Plain → d'.Plain) ∧ (h.Plain → h'.Plain) := by
  cases h with
  | fungible definitionId balance =>
    obtain ⟨name, supply, metadataId, supply', balance', rfl, rfl, rfl, hs, hb⟩ := burnFrom_fungible hb
    refine ⟨?_, rfl, ?_, id⟩
    · intro k
      cases k <;> simp only [TokenHolding.worth, TokenDefinition.supply]
      omega
    · cases metadataId <;> exact id
  | nftMaster definitionId printBalance =>
    cases d with
    | fungible => cases hb
    | nonFungible name printableSupply metadataId =>
      simp only [burnFrom, bind_ok_iff, expect_ok_iff, pure_ok_iff, Prod.mk.injEq] at hb
      obtain ⟨supply', hs, balance', hb, rfl, rfl⟩ := hb
      have hs := Checked.sub_eq_some.mp hs
      have hb := Checked.sub_eq_some.mp hb
      refine ⟨?_, rfl, id, id⟩
      intro k
      cases k <;> simp only [TokenHolding.worth, TokenDefinition.supply]
      omega
  | nftPrintedCopy definitionId owned =>
    cases d with
    | fungible => cases hb
    | nonFungible name printableSupply metadataId =>
      simp only [burnFrom, bind_ok_iff, ensure_ok_iff, expect_ok_iff, pure_ok_iff, Prod.mk.injEq] at hb
      obtain ⟨-, -, -, rfl, supply', hs, rfl, rfl⟩ := hb
      have hs : supply'.toNat + (1 : U128).toNat = printableSupply.toNat := Checked.sub_eq_some.mp hs
      have hone : (1 : U128).toNat = 1 := rfl
      refine ⟨?_, rfl, id, id⟩
      intro k
      cases k <;> simp only [TokenHolding.worth, TokenDefinition.supply, Bool.toNat_true, Bool.toNat_false]
      omega

/-- Minting adds the same to both. -/
theorem mintTo_worth {amount : U128} {d d' : TokenDefinition} {h h' : TokenHolding}
    (hm : mintTo amount d h = .ok (d', h')) :
    (∀ k, h'.worth k + d.supply k = h.worth k + d'.supply k) ∧ h'.definitionId = h.definitionId ∧
      (d.Plain → d'.Plain) ∧ (h.Plain → h'.Plain) := by
  obtain ⟨name, supply, metadataId, supply', definitionId, balance, balance', rfl, rfl, rfl, rfl, hs, hb⟩ := mintTo_ok hm
  refine ⟨?_, rfl, ?_, id⟩
  · intro k
    cases k <;> simp only [TokenHolding.worth, TokenDefinition.supply]
    omega
  · cases metadataId <;> exact id

theorem zeroizedCloneFrom_worth (h : TokenHolding) (k : Kind) :
    h.zeroizedCloneFrom.worth k = 0 ∧ (h.Plain → h.zeroizedCloneFrom.Plain) := by
  cases h <;> cases k <;> exact ⟨rfl, id⟩

theorem zeroizedFromDefinition_worth (id : AccountId) (d : TokenDefinition) (k : Kind) :
    (TokenHolding.zeroizedFromDefinition id d).worth k = 0 ∧
      (¬ReadsAsLength id → (TokenHolding.zeroizedFromDefinition id d).Plain) := by
  cases d with
  | fungible => cases k <;> exact ⟨rfl, fun h => h⟩
  | nonFungible => cases k <;> exact ⟨rfl, fun _ => trivial⟩

/-- A new token is held whole. -/
theorem create_worth (new : NewTokenDefinition) (definitionId metadataId : AccountId) :
    (∀ k, (new.create definitionId metadataId).2.worth k = (new.create definitionId metadataId).1.supply k) ∧
      (new.create definitionId metadataId).2.definitionId = definitionId ∧
      (new.create definitionId metadataId).1.Plain ∧
      (¬ReadsAsLength definitionId → (new.create definitionId metadataId).2.Plain) := by
  cases new with
  | fungible => exact ⟨fun k => by cases k <;> rfl, rfl, trivial, fun h => h⟩
  | nonFungible => exact ⟨fun k => by cases k <;> rfl, rfl, trivial, fun _ => trivial⟩

/-! ## Accounts -/

/-- What token data at `id` adds to the holdings of `D`, less what it issues if it is `D`. -/
def net (k : Kind) (D id : AccountId) (data : Option Data) : ℤ :=
  ((data.bind TokenHolding.tryFrom).elim 0 fun h => if h.definitionId = D then (h.worth k : ℤ) else 0) -
    (data.bind TokenDefinition.tryFrom).elim 0 fun d => if id = D then (d.supply k : ℤ) else 0

/-- Token data that reads as one thing. -/
structure Tidy (data : Option Data) : Prop where
  definition : ∀ d, data.bind TokenDefinition.tryFrom = .some d → d.Plain
  holding : ∀ h, data.bind TokenHolding.tryFrom = .some h → h.Plain

section
variable {k : Kind} {D id : AccountId} {data : Data} {d d' : TokenDefinition} {h h' : TokenHolding}

@[simp] theorem net_none : net k D id .none = 0 := rfl

theorem net_holding (hread : TokenHolding.tryFrom data = .some h) (hh : h.Plain) :
    net k D id (.some data) = if h.definitionId = D then (h.worth k : ℤ) else 0 := by
  simp [net, hread, hh.not_definition hread]

theorem net_definition (hread : TokenDefinition.tryFrom data = .some d) (hd : d.Plain) :
    net k D id (.some data) = -if id = D then (d.supply k : ℤ) else 0 := by
  simp [net, hread, hd.not_holding hread]

theorem tidy_none : Tidy .none := ⟨by simp, by simp⟩

theorem tidy_holding (hread : TokenHolding.tryFrom data = .some h) (hh : h.Plain) : Tidy (.some data) := by
  refine ⟨?_, ?_⟩
  · intro d hd
    rw [Option.bind_some, hh.not_definition hread] at hd
    cases hd
  · intro h' hh'
    cases hread.symm.trans hh'
    exact hh

theorem tidy_definition (hread : TokenDefinition.tryFrom data = .some d) (hd : d.Plain) : Tidy (.some data) := by
  refine ⟨?_, ?_⟩
  · intro d' hd'
    cases hread.symm.trans hd'
    exact hd
  · intro h hh
    rw [Option.bind_some, hd.not_holding hread] at hh
    cases hh

theorem tidy_metadata {m : TokenMetadata} (hm : ¬ReadsAsVariant m.definitionId)
    (hdata : data.1 = TokenMetadata.format.write m) : Tidy (.some data) := by
  have hd := metadata_not_definition hm hdata
  have hh := metadata_not_holding hm hdata
  exact ⟨by simp [hd], by simp [hh]⟩

/-- A metadata record counts for nothing. -/
theorem net_metadata {m : TokenMetadata} (hm : ¬ReadsAsVariant m.definitionId)
    (hdata : data.1 = TokenMetadata.format.write m) : net k D id (.some data) = 0 := by
  have hd := metadata_not_definition hm hdata
  have hh := metadata_not_holding hm hdata
  simp [net, hd, hh]

end

/-! ## One account of a call -/

section
variable {k : Kind} {D id : AccountId} {pre : Account} {post : AccountPostState} {before after : Option Data}
  {d d' : TokenDefinition} {h h' : TokenHolding}

/-- An account read as the holding `h` and written as `h'`: it counts, or nothing was written. -/
theorem holding_slot (hf : SlotFate pre post before after) (ht : Tidy before)
    (hread : pre ≠ Account.default → TokenHolding.tryFrom pre.data = .some h)
    (hnew : pre = Account.default → post.claim ≠ .none ∧ h.Plain ∧ ∀ k, h.worth k = 0)
    (hafter : TokenHolding.tryFrom post.account.data = .some h') (hplain : h.Plain → h'.Plain) :
    Tidy after ∧ (h' = h ∧ (∀ k D id, net k D id before = 0 ∧ net k D id after = 0) ∨
      ∀ k D id, net k D id before = (if h.definitionId = D then (h.worth k : ℤ) else 0) ∧
        net k D id after = if h'.definitionId = D then (h'.worth k : ℤ) else 0) := by
  cases hf with
  | kept hne hb ha =>
    subst hb ha
    have hh := ht.holding h (hread hne)
    exact ⟨tidy_holding hafter (hplain hh),
      .inr fun k D id => ⟨net_holding (hread hne) hh, net_holding hafter (hplain hh)⟩⟩
  | claimed hdefault hb ha =>
    subst hb ha
    obtain ⟨-, hh, hworth⟩ := hnew hdefault
    refine ⟨tidy_holding hafter (hplain hh), .inr fun k D id => ⟨?_, net_holding hafter (hplain hh)⟩⟩
    simp [hworth k]
  | foreign hb ha hne hsame =>
    subst hb ha
    rw [hsame, hread hne] at hafter
    exact ⟨tidy_none, .inl ⟨(Option.some.inj hafter).symm, fun k D id => ⟨rfl, rfl⟩⟩⟩
  | unclaimed hdefault hc => exact absurd hc (hnew hdefault).1

/-- An account read as the definition `d` and written as `d'`. -/
theorem definition_slot (hf : SlotFate pre post before after) (ht : Tidy before)
    (hread : TokenDefinition.tryFrom pre.data = .some d)
    (hafter : TokenDefinition.tryFrom post.account.data = .some d') (hplain : d.Plain → d'.Plain) :
    Tidy after ∧ (d' = d ∧ (∀ k D id, net k D id before = 0 ∧ net k D id after = 0) ∨
      ∀ k D id, net k D id before = (-if id = D then (d.supply k : ℤ) else 0) ∧
        net k D id after = -if id = D then (d'.supply k : ℤ) else 0) := by
  have hnd : pre ≠ Account.default := by
    intro hdefault
    rw [hdefault, TokenDefinition.tryFrom_default] at hread
    cases hread
  cases hf with
  | kept _ hb ha =>
    subst hb ha
    have hd := ht.definition d hread
    exact ⟨tidy_definition hafter (hplain hd),
      .inr fun k D id => ⟨net_definition hread hd, net_definition hafter (hplain hd)⟩⟩
  | claimed hdefault => exact absurd hdefault hnd
  | foreign hb ha _ hsame =>
    subst hb ha
    rw [hsame, hread] at hafter
    exact ⟨tidy_none, .inl ⟨(Option.some.inj hafter).symm, fun k D id => ⟨rfl, rfl⟩⟩⟩
  | unclaimed hdefault => exact absurd hdefault hnd

/-- An account that did not exist and is claimed. -/
theorem new_slot {data : Data} {claim : Claim}
    (hf : SlotFate pre (.newClaimed { pre with data := data } claim) before after) (hdefault : pre = Account.default) :
    before = .none ∧ after = .some data := by
  cases hf with
  | kept hne => exact absurd hdefault hne
  | claimed _ hb ha => exact ⟨hb, ha⟩
  | foreign _ _ hne => exact absurd hdefault hne
  | unclaimed _ hnone => cases hnone

end

/-! ## The instructions -/

/-- **What keeps the shapes apart**: of the accounts an instruction gets, no id that is written into a holding
begins like a length, no id that is written into metadata begins like a variant, and no name has 27 bytes. -/
def Instruction.Plain (pre : List AccountWithMetadata) : Instruction → Prop
  | transfer _ => ∀ a ∈ pre.head?, ∀ h, TokenHolding.tryFrom a.account.data = .some h → ¬ReadsAsLength h.definitionId
  | newFungibleDefinition name _ => name.1.length ≠ 27 ∧ ∀ a ∈ pre.head?, ¬ReadsAsLength a.accountId
  | newDefinitionWithMetadata _ _ => ∀ a ∈ pre.head?, ¬ReadsAsLength a.accountId ∧ ¬ReadsAsVariant a.accountId
  | initializeAccount | mint _ => ∀ a ∈ pre.head?, ¬ReadsAsLength a.accountId
  | burn _ | printNft => True

instance (pre : List AccountWithMetadata) (i : Instruction) : Decidable (i.Plain pre) :=
  match i with
  | .transfer _ => inferInstanceAs (Decidable (∀ a ∈ pre.head?, ∀ h ∈ TokenHolding.tryFrom a.account.data,
      ¬ReadsAsLength h.definitionId))
  | .newFungibleDefinition name _ =>
    inferInstanceAs (Decidable (name.1.length ≠ 27 ∧ ∀ a ∈ pre.head?, ¬ReadsAsLength a.accountId))
  | .newDefinitionWithMetadata _ _ =>
    inferInstanceAs (Decidable (∀ a ∈ pre.head?, ¬ReadsAsLength a.accountId ∧ ¬ReadsAsVariant a.accountId))
  | .initializeAccount | .mint _ => inferInstanceAs (Decidable (∀ a ∈ pre.head?, ¬ReadsAsLength a.accountId))
  | .burn _ | .printNft => inferInstanceAs (Decidable True)

theorem plain_of_id {h : TokenHolding} (hid : ¬ReadsAsLength h.definitionId) : h.Plain := by
  cases h with
  | fungible => exact hid
  | nftMaster | nftPrintedCopy => trivial

/-- The two accounts of a call, before and after: tidy, with the same net together. -/
structure Balanced (id₁ id₂ : AccountId) (b₁ b₂ a₁ a₂ : Option Data) : Prop where
  first : Tidy a₁
  second : Tidy a₂
  net : ∀ k D, net k D id₁ a₁ + net k D id₂ a₂ = net k D id₁ b₁ + net k D id₂ b₂

section
variable {first second : AccountWithMetadata} {amount : U128} {p q : AccountPostState} {b₁ b₂ a₁ a₂ : Option Data}

theorem claim_of_default {a : Account} {data : Data} (h : a = Account.default) :
    (AccountPostState.newClaimedIfDefault { a with data := data } .authorized).claim ≠ .none := by
  subst h
  simp [AccountPostState.newClaimedIfDefault, Account.default]

theorem not_default_of_holding {a : Account} {h : TokenHolding} (hread : TokenHolding.tryFrom a.data = .some h) :
    a ≠ Account.default := by
  intro hdefault
  rw [hdefault, TokenHolding.tryFrom_default] at hread
  cases hread

theorem transfer_balanced (h : transfer first second amount = .ok [p, q]) (h₁ : SlotFate first.account p b₁ a₁)
    (h₂ : SlotFate second.account q b₂ a₂) (t₁ : Tidy b₁) (t₂ : Tidy b₂)
    (hplain : ∀ h, TokenHolding.tryFrom first.account.data = .some h → ¬ReadsAsLength h.definitionId)
    (id₁ id₂ : AccountId) : Balanced id₁ id₂ b₁ b₂ a₁ a₂ := by
  obtain ⟨sh, rh, sh', rh', ht⟩ := transfer_ok h
  obtain ⟨hworth, hid₁, hid₂, hp₁, hp₂⟩ := moveBetween_worth ht.moved
  obtain ⟨sd, rd, hsd, hrd, hpost⟩ := ht.post
  cases hpost
  have hsh : sh.Plain := plain_of_id (hplain sh ht.from_holding)
  obtain ⟨tidy₁, slot₁⟩ := holding_slot h₁ t₁ (fun _ => ht.from_holding)
    (fun hdefault => absurd hdefault (not_default_of_holding ht.from_holding)) hsd hp₁
  have hto := recipientHolding_ok ht.to_holding
  obtain ⟨tidy₂, slot₂⟩ := holding_slot h₂ t₂ (h := rh)
    (fun hne => (hto.resolve_left fun hd => hne hd.1).2)
    (fun hdefault => by
      obtain ⟨-, rfl⟩ := hto.resolve_right fun hd => hd.1 hdefault
      exact ⟨claim_of_default hdefault, (zeroizedCloneFrom_worth sh .fungible).2 hsh,
        fun k => (zeroizedCloneFrom_worth sh k).1⟩) hrd hp₂
  refine ⟨tidy₁, tidy₂, ?_⟩
  intro k D
  have hw := hworth k
  have hdef := ht.definition
  -- an account that does not count was not written, so the other one was not either
  rcases slot₁ with ⟨rfl, hnet₁⟩ | hnet₁ <;> rcases slot₂ with ⟨rfl, hnet₂⟩ | hnet₂ <;>
    rw [(hnet₁ k D id₁).1, (hnet₁ k D id₁).2, (hnet₂ k D id₂).1, (hnet₂ k D id₂).2]
  · rw [hid₂]
    split <;> omega
  · rw [hid₁]
    split <;> omega
  · rw [hid₁, hid₂, hdef]
    split <;> omega

/-- Definition and holding, both written: the worth and the supply move together. -/
theorem definition_holding_balanced {d d' : TokenDefinition} {t t' : TokenHolding} {id₁ id₂ : AccountId}
    (slot₁ : Tidy a₁ ∧ (d' = d ∧ (∀ k D id, Token.net k D id b₁ = 0 ∧ Token.net k D id a₁ = 0) ∨
      ∀ k D id, Token.net k D id b₁ = (-if id = D then (d.supply k : ℤ) else 0) ∧
        Token.net k D id a₁ = -if id = D then (d'.supply k : ℤ) else 0))
    (slot₂ : Tidy a₂ ∧ (t' = t ∧ (∀ k D id, Token.net k D id b₂ = 0 ∧ Token.net k D id a₂ = 0) ∨
      ∀ k D id, Token.net k D id b₂ = (if t.definitionId = D then (t.worth k : ℤ) else 0) ∧
        Token.net k D id a₂ = if t'.definitionId = D then (t'.worth k : ℤ) else 0))
    (hworth : ∀ k, t'.worth k + d.supply k = t.worth k + d'.supply k) (hid : t'.definitionId = t.definitionId)
    (hmatch : id₁ = t.definitionId) : Balanced id₁ id₂ b₁ b₂ a₁ a₂ := by
  obtain ⟨tidy₁, slot₁⟩ := slot₁
  obtain ⟨tidy₂, slot₂⟩ := slot₂
  refine ⟨tidy₁, tidy₂, ?_⟩
  intro k D
  have hw := hworth k
  rcases slot₁ with ⟨rfl, hnet₁⟩ | hnet₁ <;> rcases slot₂ with ⟨rfl, hnet₂⟩ | hnet₂ <;>
    rw [(hnet₁ k D id₁).1, (hnet₁ k D id₁).2, (hnet₂ k D id₂).1, (hnet₂ k D id₂).2]
  · rw [hid]
    split <;> omega
  · split <;> omega
  · rw [hid, hmatch]
    split <;> omega

theorem burn_balanced (h : burn first second amount = .ok [p, q]) (h₁ : SlotFate first.account p b₁ a₁)
    (h₂ : SlotFate second.account q b₂ a₂) (t₁ : Tidy b₁) (t₂ : Tidy b₂) (id₂ : AccountId) :
    Balanced first.accountId id₂ b₁ b₂ a₁ a₂ := by
  obtain ⟨d, d', t, t', hb⟩ := burn_ok h
  obtain ⟨hworth, hid, hpd, hpt⟩ := burnFrom_worth hb.burned
  obtain ⟨dd, td, hdd, htd, hpost⟩ := hb.post
  cases hpost
  exact definition_holding_balanced (definition_slot h₁ t₁ hb.definition hdd hpd)
    (holding_slot h₂ t₂ (fun _ => hb.holding)
      (fun hdefault => absurd hdefault (not_default_of_holding hb.holding)) htd hpt) hworth hid hb.matching

theorem mint_balanced (h : mint first second amount = .ok [p, q]) (h₁ : SlotFate first.account p b₁ a₁)
    (h₂ : SlotFate second.account q b₂ a₂) (t₁ : Tidy b₁) (t₂ : Tidy b₂) (hplain : ¬ReadsAsLength first.accountId)
    (id₂ : AccountId) : Balanced first.accountId id₂ b₁ b₂ a₁ a₂ := by
  obtain ⟨d, d', t, t', hm⟩ := mint_ok h
  obtain ⟨hworth, hid, hpd, hpt⟩ := mintTo_worth hm.minted
  obtain ⟨dd, td, hdd, htd, hpost⟩ := hm.post
  cases hpost
  have hto := mintHolding_ok hm.holding
  exact definition_holding_balanced (definition_slot h₁ t₁ hm.definition hdd hpd)
    (holding_slot h₂ t₂ (fun hne => (hto.resolve_left fun hd => hne hd.1).2)
      (fun hdefault => by
        obtain ⟨-, rfl⟩ := hto.resolve_right fun hd => hd.1 hdefault
        exact ⟨claim_of_default hdefault, (zeroizedFromDefinition_worth first.accountId d .fungible).2 hplain,
          fun k => (zeroizedFromDefinition_worth first.accountId d k).1⟩) htd hpt) hworth hid hm.matching

/-- A new definition of what one holding has, after two accounts that did not exist. -/
theorem created_balanced {d : TokenDefinition} {t : TokenHolding} {id₁ id₂ : AccountId} {dd td : Data}
    (hd : TokenDefinition.tryFrom dd = .some d) (ht : TokenHolding.tryFrom td = .some t) (hpd : d.Plain) (hpt : t.Plain)
    (hworth : ∀ k, t.worth k = d.supply k) (hid : t.definitionId = id₁) :
    Balanced id₁ id₂ .none .none (.some dd) (.some td) := by
  refine ⟨tidy_definition hd hpd, tidy_holding ht hpt, ?_⟩
  intro k D
  rw [net_definition hd hpd, net_holding ht hpt, hid, hworth k]
  simp

theorem newFungibleDefinition_balanced {name : Borsh.Text} {totalSupply : U128}
    (h : newFungibleDefinition first second name totalSupply = .ok [p, q]) (h₁ : SlotFate first.account p b₁ a₁)
    (h₂ : SlotFate second.account q b₂ a₂) (hname : name.1.length ≠ 27) (hplain : ¬ReadsAsLength first.accountId)
    (id₂ : AccountId) : Balanced first.accountId id₂ b₁ b₂ a₁ a₂ := by
  obtain ⟨hnew₁, hnew₂, dd, td, hdd, htd, hpost⟩ := newFungibleDefinition_ok h
  cases hpost
  obtain ⟨rfl, rfl⟩ := new_slot h₁ hnew₁
  obtain ⟨rfl, rfl⟩ := new_slot h₂ hnew₂
  exact created_balanced hdd htd hname hplain (fun k => by cases k <;> rfl) rfl

theorem newDefinitionWithMetadata_balanced {third : AccountWithMetadata} {new : NewTokenDefinition}
    {metadata : NewTokenMetadata} {r : AccountPostState} {b₃ a₃ : Option Data}
    (h : newDefinitionWithMetadata first second third new metadata = .ok [p, q, r])
    (h₁ : SlotFate first.account p b₁ a₁) (h₂ : SlotFate second.account q b₂ a₂) (h₃ : SlotFate third.account r b₃ a₃)
    (hlength : ¬ReadsAsLength first.accountId) (hvariant : ¬ReadsAsVariant first.accountId) (id₂ : AccountId) :
    Balanced first.accountId id₂ b₁ b₂ a₁ a₂ ∧ Tidy a₃ ∧
      ∀ k D id, Token.net k D id a₃ = 0 ∧ Token.net k D id b₃ = 0 := by
  obtain ⟨hnew₁, hnew₂, hnew₃, dd, td, md, hdd, htd, hmd, hpost⟩ := newDefinitionWithMetadata_ok h
  cases hpost
  obtain ⟨rfl, rfl⟩ := new_slot h₁ hnew₁
  obtain ⟨rfl, rfl⟩ := new_slot h₂ hnew₂
  obtain ⟨rfl, rfl⟩ := new_slot h₃ hnew₃
  obtain ⟨hworth, hid, hpd, hpt⟩ := create_worth new first.accountId third.accountId
  exact ⟨created_balanced hdd htd hpd (hpt hlength) hworth hid,
    tidy_metadata hvariant hmd, fun k D id => ⟨net_metadata hvariant hmd, rfl⟩⟩

theorem initializeAccount_balanced (h : initializeAccount first second = .ok [p, q])
    (h₁ : SlotFate first.account p b₁ a₁) (h₂ : SlotFate second.account q b₂ a₂) (t₁ : Tidy b₁)
    (hplain : ¬ReadsAsLength first.accountId) (id₂ : AccountId) : Balanced first.accountId id₂ b₁ b₂ a₁ a₂ := by
  obtain ⟨hnew, d, data, hd, hdata, hpost⟩ := initializeAccount_ok h
  cases hpost
  obtain ⟨rfl, rfl⟩ := new_slot h₂ hnew
  have hzero := zeroizedFromDefinition_worth first.accountId d
  have hpt := (hzero .fungible).2 hplain
  obtain ⟨tidy₁, slot₁⟩ := definition_slot h₁ t₁ hd hd id
  refine ⟨tidy₁, tidy_holding hdata hpt, ?_⟩
  intro k D
  rw [net_holding hdata hpt, (hzero k).1]
  rcases slot₁ with ⟨-, hnet⟩ | hnet <;> rw [(hnet k D first.accountId).1, (hnet k D first.accountId).2] <;> simp

theorem printNft_balanced (h : printNft first second = .ok [p, q]) (h₁ : SlotFate first.account p b₁ a₁)
    (h₂ : SlotFate second.account q b₂ a₂) (t₁ : Tidy b₁) (id₁ id₂ : AccountId) :
    Balanced id₁ id₂ b₁ b₂ a₁ a₂ := by
  obtain ⟨-, hnew, definitionId, printBalance, printBalance', md, pd, hread, hone, hmd, hpd, hpost⟩ := printNft_ok h
  cases hpost
  obtain ⟨rfl, rfl⟩ := new_slot h₂ hnew
  obtain ⟨tidy₁, slot₁⟩ := holding_slot h₁ t₁ (fun _ => hread)
    (fun hdefault => absurd hdefault (not_default_of_holding hread)) hmd id
  refine ⟨tidy₁, tidy_holding hpd trivial, ?_⟩
  intro k D
  rw [net_holding hpd trivial]
  rcases slot₁ with ⟨hsame, -⟩ | hnet
  · -- printing writes the master, which a stranger's account does not allow
    cases hsame
    omega
  · rw [(hnet k D id₁).1, (hnet k D id₁).2, net_none]
    by_cases hD : definitionId = D
    · cases k <;> simp [TokenHolding.definitionId, TokenHolding.worth, hD]
      omega
    · simp [TokenHolding.definitionId, hD]

end

/-! ## A call -/

section
variable {e : Executed} {σ σ' : View} {token : ProgramId}

/-- **A call of the token program** on plain accounts keeps the accounts tidy and the net over the ones it names. -/
theorem token_call_books (heff : CallEffect (fun _ => True) e σ σ') (hp : e.program = token)
    (hne : token ≠ defaultProgramId) {i : Instruction} (hans : Answered e.output.preStates i e.output.postStates)
    (hplain : i.Plain e.output.preStates) (htidy : ∀ id, Tidy ((σ id).ownedData token)) :
    (∀ id ∈ e.accountIds, Tidy ((σ' id).ownedData token)) ∧
      ∀ k D, (e.accountIds.map fun id => net k D id ((σ' id).ownedData token)).sum =
        (e.accountIds.map fun id => net k D id ((σ id).ownedData token)).sum := by
  have hfate : ∀ pp ∈ e.output.preStates.zip e.output.postStates, SlotFate pp.1.account pp.2
      ((σ pp.1.accountId).ownedData token) ((σ' pp.1.accountId).ownedData token) :=
    fun pp hpp => heff.fate hp hne hpp trivial
  have hlen := heff.valid.length
  unfold Executed.accountIds
  generalize e.output.preStates = pre at *
  generalize e.output.postStates = post at *
  -- all instructions but one name two accounts
  have hpair : ∀ first second : AccountWithMetadata, pre = [first, second] →
      (∀ p q, post = [p, q] → SlotFate first.account p ((σ first.accountId).ownedData token)
          ((σ' first.accountId).ownedData token) →
        SlotFate second.account q ((σ second.accountId).ownedData token) ((σ' second.accountId).ownedData token) →
        Balanced first.accountId second.accountId ((σ first.accountId).ownedData token)
          ((σ second.accountId).ownedData token) ((σ' first.accountId).ownedData token)
          ((σ' second.accountId).ownedData token)) →
      (∀ id ∈ pre.map (·.accountId), Tidy ((σ' id).ownedData token)) ∧
        ∀ k D, ((pre.map (·.accountId)).map fun id => net k D id ((σ' id).ownedData token)).sum =
          ((pre.map (·.accountId)).map fun id => net k D id ((σ id).ownedData token)).sum := by
    rintro first second rfl hbalanced
    obtain ⟨p, q, rfl⟩ := List.length_eq_two.mp (show post.length = 2 from hlen.symm)
    have hb := hbalanced p q rfl (hfate (first, p) (by simp)) (hfate (second, q) (by simp))
    refine ⟨?_, ?_⟩
    · intro id hid
      simp only [List.map_cons, List.map_nil, List.mem_cons, List.not_mem_nil, or_false] at hid
      rcases hid with rfl | rfl
      · exact hb.first
      · exact hb.second
    · intro k D
      simpa using hb.net k D
  cases hans with
  | transfer h =>
    refine hpair _ _ rfl ?_
    rintro p q rfl h₁ h₂
    exact transfer_balanced h h₁ h₂ (htidy _) (htidy _) (hplain _ rfl) _ _
  | burn h =>
    refine hpair _ _ rfl ?_
    rintro p q rfl h₁ h₂
    exact burn_balanced h h₁ h₂ (htidy _) (htidy _) _
  | mint h =>
    refine hpair _ _ rfl ?_
    rintro p q rfl h₁ h₂
    exact mint_balanced h h₁ h₂ (htidy _) (htidy _) (hplain _ rfl) _
  | newFungibleDefinition h =>
    refine hpair _ _ rfl ?_
    rintro p q rfl h₁ h₂
    exact newFungibleDefinition_balanced h h₁ h₂ hplain.1 (hplain.2 _ rfl) _
  | initializeAccount h =>
    refine hpair _ _ rfl ?_
    rintro p q rfl h₁ h₂
    exact initializeAccount_balanced h h₁ h₂ (htidy _) (hplain _ rfl) _
  | printNft h =>
    refine hpair _ _ rfl ?_
    rintro p q rfl h₁ h₂
    exact printNft_balanced h h₁ h₂ (htidy _) _ _
  | @newDefinitionWithMetadata first second third _ _ _ h =>
    obtain ⟨p, q, r, rfl⟩ := List.length_eq_three.mp (show post.length = 3 from hlen.symm)
    obtain ⟨hlength, hvariant⟩ := hplain first rfl
    obtain ⟨hb, htidy₃, hzero⟩ := newDefinitionWithMetadata_balanced h (hfate (first, p) (by simp))
      (hfate (second, q) (by simp)) (hfate (third, r) (by simp)) hlength hvariant second.accountId
    refine ⟨?_, ?_⟩
    · intro id hid
      simp only [List.map_cons, List.map_nil, List.mem_cons, List.not_mem_nil, or_false] at hid
      rcases hid with rfl | rfl | rfl
      · exact hb.first
      · exact hb.second
      · exact htidy₃
    · intro k D
      simpa [(hzero k D third.accountId).1, (hzero k D third.accountId).2] using hb.net k D

end

end Lez.Token
