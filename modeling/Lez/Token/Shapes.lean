/-
Which bytes read as what. A definition, a holding and a metadata record have
no tag in common, so the bytes of one can be those of another. They are in
one case only: a fungible definition without metadata whose name has 27
bytes is as long as a fungible holding, and reads as one of a definition id
that starts with that length. Metadata reads as one of the others only where
the id it starts with begins with the number of a variant.
-/
import Lez.Programs.TokenFacts

namespace Lez.Token

/-- The id begins like a string of 27 bytes. -/
def ReadsAsLength (id : AccountId) : Prop := id.toList.take 4 = [27, 0, 0, 0]

instance (id : AccountId) : Decidable (ReadsAsLength id) := inferInstanceAs (Decidable (_ = _))

/-- No holding has its bytes. -/
def TokenDefinition.Plain : TokenDefinition → Prop
  | fungible name _ .none => name.1.length ≠ 27
  | _ => True

/-- No definition has its bytes. -/
def TokenHolding.Plain : TokenHolding → Prop
  | fungible definitionId _ => ¬ReadsAsLength definitionId
  | _ => True

/-! ## The bytes -/

theorem write_fungible_holding (definitionId : AccountId) (balance : U128) :
    TokenHolding.format.write (.fungible definitionId balance) = 0 :: definitionId.toList ++ toLe 16 balance.toNat := rfl

theorem write_nftMaster (definitionId : AccountId) (printBalance : U128) :
    TokenHolding.format.write (.nftMaster definitionId printBalance) =
      1 :: definitionId.toList ++ toLe 16 printBalance.toNat := rfl

theorem write_nftPrintedCopy (definitionId : AccountId) (owned : Bool) :
    TokenHolding.format.write (.nftPrintedCopy definitionId owned) =
      2 :: definitionId.toList ++ Borsh.bool.write owned := rfl

theorem write_fungible_definition (name : Borsh.Text) (totalSupply : U128) (metadataId : Option AccountId) :
    TokenDefinition.format.write (.fungible name totalSupply metadataId) =
      0 :: (toLe 4 name.1.length ++ name.1) ++ (toLe 16 totalSupply.toNat ++
        (Borsh.option (Borsh.bytes 32)).write metadataId) := rfl

theorem write_nonFungible_definition (name : Borsh.Text) (printableSupply : U128) (metadataId : AccountId) :
    TokenDefinition.format.write (.nonFungible name printableSupply metadataId) =
      1 :: (toLe 4 name.1.length ++ name.1) ++ (toLe 16 printableSupply.toNat ++ metadataId.toList) := rfl

theorem write_metadata (m : TokenMetadata) :
    TokenMetadata.format.write m = m.definitionId.toList ++ (MetadataStandard.format.write m.standard ++
      ((toLe 4 m.uri.1.length ++ m.uri.1) ++ ((toLe 4 m.creators.1.length ++ m.creators.1) ++
        toLe 8 m.primarySaleDate.toNat))) := rfl

@[simp] theorem write_bool_length (b : Bool) : (Borsh.bool.write b).length = 1 := by cases b <;> rfl

@[simp] theorem write_standard_length (s : MetadataStandard) : (MetadataStandard.format.write s).length = 1 := by
  cases s <;> rfl

theorem write_option_length (o : Option AccountId) :
    ((Borsh.option (Borsh.bytes 32)).write o).length = if o = .none then 1 else 33 := by
  cases o with
  | none => rfl
  | some id => exact congrArg Nat.succ id.toList_length

/-! ## Definitions against holdings -/

/-- Bytes of both kinds are a fungible definition's with a name of 27 bytes. -/
theorem definition_and_holding {d : TokenDefinition} {h : TokenHolding}
    (heq : TokenDefinition.format.write d = TokenHolding.format.write h) :
    (∃ name supply, d = .fungible name supply .none ∧ name.1.length = 27) ∧
      ∃ definitionId balance, h = .fungible definitionId balance ∧ ReadsAsLength definitionId := by
  have hlen := congrArg List.length heq
  cases d with
  | nonFungible name printableSupply metadataId =>
    cases h with
    | fungible definitionId balance => cases (List.cons.inj heq).1
    | nftMaster definitionId balance =>
      simp [write_nonFungible_definition, write_nftMaster] at hlen
      omega
    | nftPrintedCopy definitionId owned => cases (List.cons.inj heq).1
  | fungible name totalSupply metadataId =>
    cases h with
    | nftMaster definitionId balance => cases (List.cons.inj heq).1
    | nftPrintedCopy definitionId owned => cases (List.cons.inj heq).1
    | fungible definitionId balance =>
      simp only [write_fungible_definition, write_fungible_holding, List.length_append, List.length_cons, toLe_length,
        write_option_length, List.Vector.toList_length] at hlen
      have hmeta : metadataId = .none := by
        by_contra hsome
        rw [if_neg hsome] at hlen
        omega
      rw [if_pos hmeta] at hlen
      subst hmeta
      have hname : name.1.length = 27 := by omega
      refine ⟨⟨name, totalSupply, rfl, hname⟩, definitionId, balance, rfl, ?_⟩
      -- the first bytes of the id are the length of the name
      rw [write_fungible_definition, write_fungible_holding, List.cons_append, List.cons_append] at heq
      have htail := congrArg (List.take 4) (List.cons.inj heq).2
      rw [List.append_assoc, List.take_left' (by simp), List.take_append_of_le_length (by simp), hname] at htail
      rw [ReadsAsLength, ← htail]
      rfl

theorem TokenDefinition.Plain.not_holding {d : TokenDefinition} (hd : d.Plain) {data : Data}
    (hread : TokenDefinition.tryFrom data = .some d) : TokenHolding.tryFrom data = .none := by
  cases hh : TokenHolding.tryFrom data with
  | none => rfl
  | some h =>
    have heq := (TokenDefinition.tryFrom_eq_some.mp hread).symm.trans (TokenHolding.tryFrom_eq_some.mp hh)
    obtain ⟨⟨name, supply, rfl, hname⟩, -⟩ := definition_and_holding heq
    exact absurd hname hd

theorem TokenHolding.Plain.not_definition {h : TokenHolding} (hh : h.Plain) {data : Data}
    (hread : TokenHolding.tryFrom data = .some h) : TokenDefinition.tryFrom data = .none := by
  cases hd : TokenDefinition.tryFrom data with
  | none => rfl
  | some d =>
    have heq := (TokenDefinition.tryFrom_eq_some.mp hd).symm.trans (TokenHolding.tryFrom_eq_some.mp hread)
    obtain ⟨-, definitionId, balance, rfl, hid⟩ := definition_and_holding heq
    exact absurd hid hh

/-! ## Metadata -/

/-- The id begins with the number of a variant that a definition has. -/
def ReadsAsVariant (id : AccountId) : Prop := id.toList.head? = .some 0 ∨ id.toList.head? = .some 1

instance (id : AccountId) : Decidable (ReadsAsVariant id) := inferInstanceAs (Decidable (_ ∨ _))

theorem write_metadata_head (m : TokenMetadata) :
    (TokenMetadata.format.write m).head? = m.definitionId.toList.head? := by
  have hne : m.definitionId.toList ≠ [] := by
    intro hnil
    have := m.definitionId.toList_length
    rw [hnil] at this
    cases this
  rw [write_metadata, List.head?_append_of_ne_nil _ hne]

theorem metadata_not_definition {m : TokenMetadata} (hm : ¬ReadsAsVariant m.definitionId) {data : Data}
    (hdata : data.1 = TokenMetadata.format.write m) : TokenDefinition.tryFrom data = .none := by
  cases hd : TokenDefinition.tryFrom data with
  | none => rfl
  | some d =>
    have hhead := congrArg List.head? (hdata.symm.trans (TokenDefinition.tryFrom_eq_some.mp hd))
    rw [write_metadata_head] at hhead
    cases d with
    | fungible => exact absurd (.inl hhead) hm
    | nonFungible => exact absurd (.inr hhead) hm

theorem metadata_not_holding {m : TokenMetadata} (hm : ¬ReadsAsVariant m.definitionId) {data : Data}
    (hdata : data.1 = TokenMetadata.format.write m) : TokenHolding.tryFrom data = .none := by
  cases hh : TokenHolding.tryFrom data with
  | none => rfl
  | some h =>
    have heq := hdata.symm.trans (TokenHolding.tryFrom_eq_some.mp hh)
    have hhead := congrArg List.head? heq
    rw [write_metadata_head] at hhead
    cases h with
    | fungible => exact absurd (.inl hhead) hm
    | nftMaster => exact absurd (.inr hhead) hm
    | nftPrintedCopy definitionId owned =>
      have hlen := congrArg List.length heq
      simp [write_metadata, write_nftPrintedCopy] at hlen
      omega

end Lez.Token
