/-
What an answer of the `token` program says, instruction by instruction: what
the accounts were read as, and what was written to them.
-/
import Lez.Programs.Token

namespace Lez.Token

theorem TokenHolding.tryFrom_eq_some {data : Data} {h : TokenHolding} :
    TokenHolding.tryFrom data = .some h ↔ data.1 = TokenHolding.format.write h :=
  TokenHolding.format.tryFromSlice_eq_some

theorem TokenDefinition.tryFrom_eq_some {data : Data} {d : TokenDefinition} :
    TokenDefinition.tryFrom data = .some d ↔ data.1 = TokenDefinition.format.write d :=
  TokenDefinition.format.tryFromSlice_eq_some

theorem TokenHolding.toData_ok {h : TokenHolding} {data : Data} (he : h.toData = .ok data) :
    TokenHolding.tryFrom data = .some h := by
  rw [TokenHolding.toData, expect_ok_iff, Data.tryFrom_eq_some] at he
  exact TokenHolding.tryFrom_eq_some.mpr he

theorem TokenDefinition.toData_ok {d : TokenDefinition} {data : Data} (he : d.toData = .ok data) :
    TokenDefinition.tryFrom data = .some d := by
  rw [TokenDefinition.toData, expect_ok_iff, Data.tryFrom_eq_some] at he
  exact TokenDefinition.tryFrom_eq_some.mpr he

theorem TokenMetadata.toData_ok {m : TokenMetadata} {data : Data} (he : m.toData = .ok data) :
    data.1 = TokenMetadata.format.write m := by
  rwa [TokenMetadata.toData, expect_ok_iff, Data.tryFrom_eq_some] at he

/-- An account that holds nothing reads as no holding and no definition. -/
theorem TokenHolding.tryFrom_default : TokenHolding.tryFrom Account.default.data = .none := rfl

theorem TokenDefinition.tryFrom_default : TokenDefinition.tryFrom Account.default.data = .none := rfl

/-! ## Transfers -/

theorem recipientHolding_ok {sender h : TokenHolding} {recipient : Account}
    (he : recipientHolding sender recipient = .ok h) :
    recipient = Account.default ∧ h = sender.zeroizedCloneFrom ∨
      recipient ≠ Account.default ∧ TokenHolding.tryFrom recipient.data = .some h := by
  unfold recipientHolding at he
  split at he
  next hdefault =>
    cases he
    exact .inl ⟨hdefault, rfl⟩
  next hne => exact .inr ⟨hne, expect_ok_iff.mp he⟩

/-- A recipient that reads as a holding is taken to be that holding. -/
theorem recipientHolding_read {sender h h' : TokenHolding} {recipient : Account}
    (he : recipientHolding sender recipient = .ok h) (hread : TokenHolding.tryFrom recipient.data = .some h') :
    h = h' := by
  rcases recipientHolding_ok he with ⟨rfl, -⟩ | ⟨-, he⟩
  · rw [TokenHolding.tryFrom_default] at hread
    cases hread
  · exact Option.some.inj (he.symm.trans hread)

/-- **A transfer** reads two holdings of one definition and writes back what `moveBetween` makes of them. -/
structure Transferred (sender recipient : AccountWithMetadata) (amount : U128) (sh rh sh' rh' : TokenHolding)
    (post : List AccountPostState) : Prop where
  authorized : sender.isAuthorized = true
  from_holding : TokenHolding.tryFrom sender.account.data = .some sh
  to_holding : recipientHolding sh recipient.account = .ok rh
  definition : sh.definitionId = rh.definitionId
  moved : moveBetween amount sh rh = .ok (sh', rh')
  post : ∃ senderData recipientData, TokenHolding.tryFrom senderData = .some sh' ∧
    TokenHolding.tryFrom recipientData = .some rh' ∧
    post = [.new { sender.account with data := senderData },
      .newClaimedIfDefault { recipient.account with data := recipientData } .authorized]

theorem transfer_ok {sender recipient : AccountWithMetadata} {amount : U128} {post : List AccountPostState}
    (h : transfer sender recipient amount = .ok post) :
    ∃ sh rh sh' rh', Transferred sender recipient amount sh rh sh' rh' post := by
  simp only [transfer, bind_ok_iff, ensure_ok_iff, expect_ok_iff, pure_ok_iff, Prod.exists] at h
  obtain ⟨-, hauth, sh, hsh, rh, hrh, -, hdef, sh', rh', hmove, sd, hsd, rd, hrd, rfl⟩ := h
  exact ⟨sh, rh, sh', rh', hauth, hsh, hrh, hdef, hmove, sd, rd, TokenHolding.toData_ok hsd, TokenHolding.toData_ok hrd,
    rfl⟩

/-- Between fungible holdings the amount leaves one and enters the other. -/
theorem moveBetween_fungible {amount senderBalance recipientBalance : U128} {d₁ d₂ : AccountId} {sh' rh' : TokenHolding}
    (h : moveBetween amount (.fungible d₁ senderBalance) (.fungible d₂ recipientBalance) = .ok (sh', rh')) :
    ∃ b₁ b₂, sh' = .fungible d₁ b₁ ∧ rh' = .fungible d₂ b₂ ∧ b₁.toNat + amount.toNat = senderBalance.toNat ∧
      b₂.toNat = recipientBalance.toNat + amount.toNat := by
  simp only [moveBetween, bind_ok_iff, expect_ok_iff, pure_ok_iff, Prod.mk.injEq] at h
  obtain ⟨b₁, hb₁, b₂, hb₂, rfl, rfl⟩ := h
  exact ⟨b₁, b₂, rfl, rfl, Checked.sub_eq_some.mp hb₁, Checked.add_eq_some.mp hb₂⟩

theorem moveBetween_into_fungible {amount balance : U128} {d : AccountId} {sh sh' rh' : TokenHolding}
    (h : moveBetween amount sh (.fungible d balance) = .ok (sh', rh')) :
    ∃ d' senderBalance, sh = .fungible d' senderBalance := by
  cases sh with
  | fungible d' senderBalance => exact ⟨d', senderBalance, rfl⟩
  | nftMaster | nftPrintedCopy => cases h

theorem moveBetween_from_fungible {amount balance : U128} {d : AccountId} {rh sh' rh' : TokenHolding}
    (h : moveBetween amount (.fungible d balance) rh = .ok (sh', rh')) :
    ∃ d' recipientBalance, rh = .fungible d' recipientBalance := by
  cases rh with
  | fungible d' recipientBalance => exact ⟨d', recipientBalance, rfl⟩
  | nftMaster | nftPrintedCopy => cases h

/-- A fungible holding has room for what is transferred to it. -/
theorem transfer_into_fungible {sender recipient : AccountWithMetadata} {amount : U128} {post : List AccountPostState}
    (h : transfer sender recipient amount = .ok post) {d : AccountId} {balance : U128}
    (hread : TokenHolding.tryFrom recipient.account.data = .some (.fungible d balance)) :
    balance.toNat + amount.toNat < 2 ^ 128 := by
  obtain ⟨sh, rh, sh', rh', ht⟩ := transfer_ok h
  have hmoved := ht.moved
  rw [recipientHolding_read ht.to_holding hread] at hmoved
  obtain ⟨d', senderBalance, rfl⟩ := moveBetween_into_fungible hmoved
  obtain ⟨_, b₂, -, -, -, hb₂⟩ := moveBetween_fungible hmoved
  rw [← hb₂]
  exact b₂.isLt

/-! ## Burning and minting -/

/-- **A burn** reads a definition and a holding of it. -/
structure Burned (definitionAccount holdingAccount : AccountWithMetadata) (amount : U128) (d d' : TokenDefinition)
    (h h' : TokenHolding) (post : List AccountPostState) : Prop where
  authorized : holdingAccount.isAuthorized = true
  definition : TokenDefinition.tryFrom definitionAccount.account.data = .some d
  holding : TokenHolding.tryFrom holdingAccount.account.data = .some h
  matching : definitionAccount.accountId = h.definitionId
  burned : burnFrom amount d h = .ok (d', h')
  post : ∃ definitionData holdingData, TokenDefinition.tryFrom definitionData = .some d' ∧
    TokenHolding.tryFrom holdingData = .some h' ∧
    post = [.new { definitionAccount.account with data := definitionData },
      .new { holdingAccount.account with data := holdingData }]

theorem burn_ok {definitionAccount holdingAccount : AccountWithMetadata} {amount : U128} {post : List AccountPostState}
    (h : burn definitionAccount holdingAccount amount = .ok post) :
    ∃ d d' t t', Burned definitionAccount holdingAccount amount d d' t t' post := by
  simp only [burn, bind_ok_iff, ensure_ok_iff, expect_ok_iff, pure_ok_iff, Prod.exists] at h
  obtain ⟨-, hauth, d, hd, t, ht, -, hmatch, d', t', hburn, dd, hdd, td, htd, rfl⟩ := h
  exact ⟨d, d', t, t', hauth, hd, ht, hmatch, hburn, dd, td, TokenDefinition.toData_ok hdd, TokenHolding.toData_ok htd, rfl⟩

/-- From a fungible holding the amount leaves it and the supply. -/
theorem burnFrom_fungible {amount balance : U128} {definitionId : AccountId} {d d' : TokenDefinition} {h' : TokenHolding}
    (h : burnFrom amount d (.fungible definitionId balance) = .ok (d', h')) :
    ∃ name supply metadataId supply' balance', d = .fungible name supply metadataId ∧
      d' = .fungible name supply' metadataId ∧ h' = .fungible definitionId balance' ∧
      supply'.toNat + amount.toNat = supply.toNat ∧ balance'.toNat + amount.toNat = balance.toNat := by
  cases d with
  | fungible name supply metadataId =>
    simp only [burnFrom, bind_ok_iff, expect_ok_iff, pure_ok_iff, Prod.mk.injEq] at h
    obtain ⟨b, hb, t, ht, rfl, rfl⟩ := h
    exact ⟨name, supply, metadataId, t, b, rfl, rfl, rfl, Checked.sub_eq_some.mp ht, Checked.sub_eq_some.mp hb⟩
  | nonFungible => cases h

/-- No more is burned than is held. -/
theorem burn_of_fungible {definitionAccount holdingAccount : AccountWithMetadata} {amount : U128}
    {post : List AccountPostState} (h : burn definitionAccount holdingAccount amount = .ok post) {definitionId : AccountId}
    {balance : U128} (hread : TokenHolding.tryFrom holdingAccount.account.data = .some (.fungible definitionId balance)) :
    amount.toNat ≤ balance.toNat := by
  obtain ⟨d, d', t, t', hb⟩ := burn_ok h
  have hburned := hb.burned
  cases hb.holding.symm.trans hread
  obtain ⟨_, _, _, _, _, -, -, -, -, hle⟩ := burnFrom_fungible hburned
  omega

theorem mintHolding_ok {definitionId : AccountId} {d : TokenDefinition} {holding : Account} {h : TokenHolding}
    (he : mintHolding definitionId d holding = .ok h) :
    holding = Account.default ∧ h = TokenHolding.zeroizedFromDefinition definitionId d ∨
      holding ≠ Account.default ∧ TokenHolding.tryFrom holding.data = .some h := by
  unfold mintHolding at he
  split at he
  next hdefault =>
    cases he
    exact .inl ⟨hdefault, rfl⟩
  next hne => exact .inr ⟨hne, expect_ok_iff.mp he⟩

/-- **A mint** reads a definition, authorized, and a holding of it, perhaps one that does not exist yet. -/
structure Minted (definitionAccount holdingAccount : AccountWithMetadata) (amount : U128) (d d' : TokenDefinition)
    (h h' : TokenHolding) (post : List AccountPostState) : Prop where
  authorized : definitionAccount.isAuthorized = true
  definition : TokenDefinition.tryFrom definitionAccount.account.data = .some d
  holding : mintHolding definitionAccount.accountId d holdingAccount.account = .ok h
  matching : definitionAccount.accountId = h.definitionId
  minted : mintTo amount d h = .ok (d', h')
  post : ∃ definitionData holdingData, TokenDefinition.tryFrom definitionData = .some d' ∧
    TokenHolding.tryFrom holdingData = .some h' ∧
    post = [.new { definitionAccount.account with data := definitionData },
      .newClaimedIfDefault { holdingAccount.account with data := holdingData } .authorized]

theorem mint_ok {definitionAccount holdingAccount : AccountWithMetadata} {amount : U128} {post : List AccountPostState}
    (h : mint definitionAccount holdingAccount amount = .ok post) :
    ∃ d d' t t', Minted definitionAccount holdingAccount amount d d' t t' post := by
  simp only [mint, bind_ok_iff, ensure_ok_iff, expect_ok_iff, pure_ok_iff, Prod.exists] at h
  obtain ⟨-, hauth, d, hd, t, ht, -, hmatch, d', t', hmint, dd, hdd, td, htd, rfl⟩ := h
  exact ⟨d, d', t, t', hauth, hd, ht, hmatch, hmint, dd, td, TokenDefinition.toData_ok hdd, TokenHolding.toData_ok htd,
    rfl⟩

/-- Only fungible tokens are minted: the amount enters the supply and the holding. -/
theorem mintTo_ok {amount : U128} {d d' : TokenDefinition} {h h' : TokenHolding} (hm : mintTo amount d h = .ok (d', h')) :
    ∃ name supply metadataId supply' definitionId balance balance', d = .fungible name supply metadataId ∧
      h = .fungible definitionId balance ∧ d' = .fungible name supply' metadataId ∧
      h' = .fungible definitionId balance' ∧ supply'.toNat = supply.toNat + amount.toNat ∧
      balance'.toNat = balance.toNat + amount.toNat := by
  cases d with
  | nonFungible => cases h <;> cases hm
  | fungible name supply metadataId =>
    cases h with
    | nftMaster | nftPrintedCopy => cases hm
    | fungible definitionId balance =>
      simp only [mintTo, bind_ok_iff, expect_ok_iff, pure_ok_iff, Prod.mk.injEq] at hm
      obtain ⟨b, hb, t, ht, rfl, rfl⟩ := hm
      exact ⟨name, supply, metadataId, t, definitionId, balance, b, rfl, rfl, rfl, rfl, Checked.add_eq_some.mp ht,
        Checked.add_eq_some.mp hb⟩

/-! ## New accounts -/

/-- A new definition and the holding of all of it. -/
theorem newFungibleDefinition_ok {definitionTarget holdingTarget : AccountWithMetadata} {name : Borsh.Text}
    {totalSupply : U128} {post : List AccountPostState}
    (h : newFungibleDefinition definitionTarget holdingTarget name totalSupply = .ok post) :
    definitionTarget.account = Account.default ∧ holdingTarget.account = Account.default ∧
      ∃ definitionData holdingData,
        TokenDefinition.tryFrom definitionData = .some (.fungible name totalSupply .none) ∧
        TokenHolding.tryFrom holdingData = .some (.fungible definitionTarget.accountId totalSupply) ∧
        post = [.newClaimed { definitionTarget.account with data := definitionData } .authorized,
          .newClaimed { holdingTarget.account with data := holdingData } .authorized] := by
  simp only [newFungibleDefinition, bind_ok_iff, ensure_ok_iff, pure_ok_iff] at h
  obtain ⟨-, hd, -, hh, dd, hdd, td, htd, rfl⟩ := h
  exact ⟨hd, hh, dd, td, TokenDefinition.toData_ok hdd, TokenHolding.toData_ok htd, rfl⟩

theorem newDefinitionWithMetadata_ok {definitionTarget holdingTarget metadataTarget : AccountWithMetadata}
    {newDefinition : NewTokenDefinition} {metadata : NewTokenMetadata} {post : List AccountPostState}
    (h : newDefinitionWithMetadata definitionTarget holdingTarget metadataTarget newDefinition metadata = .ok post) :
    definitionTarget.account = Account.default ∧ holdingTarget.account = Account.default ∧
      metadataTarget.account = Account.default ∧ ∃ definitionData holdingData metadataData,
        TokenDefinition.tryFrom definitionData =
          .some (newDefinition.create definitionTarget.accountId metadataTarget.accountId).1 ∧
        TokenHolding.tryFrom holdingData =
          .some (newDefinition.create definitionTarget.accountId metadataTarget.accountId).2 ∧
        metadataData.1 = TokenMetadata.format.write
          ⟨definitionTarget.accountId, metadata.standard, metadata.uri, metadata.creators, 0⟩ ∧
        post = [.newClaimed { definitionTarget.account with data := definitionData } .authorized,
          .newClaimed { holdingTarget.account with data := holdingData } .authorized,
          .newClaimed { metadataTarget.account with data := metadataData } .authorized] := by
  simp only [newDefinitionWithMetadata, bind_ok_iff, ensure_ok_iff, pure_ok_iff] at h
  obtain ⟨-, hd, -, hh, -, hm, dd, hdd, td, htd, md, hmd, rfl⟩ := h
  exact ⟨hd, hh, hm, dd, td, md, TokenDefinition.toData_ok hdd, TokenHolding.toData_ok htd, TokenMetadata.toData_ok hmd,
    rfl⟩

theorem initializeAccount_ok {definitionAccount accountToInitialize : AccountWithMetadata} {post : List AccountPostState}
    (h : initializeAccount definitionAccount accountToInitialize = .ok post) :
    accountToInitialize.account = Account.default ∧ ∃ d data,
      TokenDefinition.tryFrom definitionAccount.account.data = .some d ∧
      TokenHolding.tryFrom data = .some (TokenHolding.zeroizedFromDefinition definitionAccount.accountId d) ∧
      post = [.new definitionAccount.account,
        .newClaimed { accountToInitialize.account with data := data } .authorized] := by
  simp only [initializeAccount, bind_ok_iff, ensure_ok_iff, expect_ok_iff, pure_ok_iff] at h
  obtain ⟨-, ha, d, hd, data, hdata, rfl⟩ := h
  exact ⟨ha, d, data, hd, TokenHolding.toData_ok hdata, rfl⟩

/-- Printing takes one off the master and makes a copy that is owned. -/
theorem printNft_ok {masterAccount printedAccount : AccountWithMetadata} {post : List AccountPostState}
    (h : printNft masterAccount printedAccount = .ok post) :
    masterAccount.isAuthorized = true ∧ printedAccount.account = Account.default ∧
      ∃ definitionId printBalance printBalance' masterData printedData,
        TokenHolding.tryFrom masterAccount.account.data = .some (.nftMaster definitionId printBalance) ∧
        printBalance'.toNat + 1 = printBalance.toNat ∧
        TokenHolding.tryFrom masterData = .some (.nftMaster definitionId printBalance') ∧
        TokenHolding.tryFrom printedData = .some (.nftPrintedCopy definitionId true) ∧
        post = [.new { masterAccount.account with data := masterData },
          .newClaimed { printedAccount.account with data := printedData } .authorized] := by
  simp only [printNft, bind_ok_iff, ensure_ok_iff, expect_ok_iff] at h
  obtain ⟨-, hauth, -, hnew, master, hmaster, h⟩ := h
  cases master with
  | fungible | nftPrintedCopy => cases h
  | nftMaster definitionId printBalance =>
    simp only [bind_ok_iff, ensure_ok_iff, expect_ok_iff, pure_ok_iff] at h
    obtain ⟨-, -, printBalance', hsub, md, hmd, pd, hpd, rfl⟩ := h
    have hone : printBalance'.toNat + (1 : U128).toNat = printBalance.toNat := Checked.sub_eq_some.mp hsub
    exact ⟨hauth, hnew, definitionId, printBalance, printBalance', md, pd, hmaster, hone, TokenHolding.toData_ok hmd,
      TokenHolding.toData_ok hpd, rfl⟩

/-! ## `main` -/

theorem process_transfer_ok {pre : List AccountWithMetadata} {amount : U128} {post : List AccountPostState}
    (h : process pre (.transfer amount) = .ok post) :
    ∃ sender recipient, pre = [sender, recipient] ∧ transfer sender recipient amount = .ok post := by
  simp only [process] at h
  split at h
  next sender recipient => exact ⟨sender, recipient, rfl, h⟩
  next => cases h

theorem process_burn_ok {pre : List AccountWithMetadata} {amount : U128} {post : List AccountPostState}
    (h : process pre (.burn amount) = .ok post) :
    ∃ definitionAccount holdingAccount, pre = [definitionAccount, holdingAccount] ∧
      burn definitionAccount holdingAccount amount = .ok post := by
  simp only [process] at h
  split at h
  next definitionAccount holdingAccount => exact ⟨definitionAccount, holdingAccount, rfl, h⟩
  next => cases h

theorem process_mint_ok {pre : List AccountWithMetadata} {amount : U128} {post : List AccountPostState}
    (h : process pre (.mint amount) = .ok post) :
    ∃ definitionAccount holdingAccount, pre = [definitionAccount, holdingAccount] ∧
      mint definitionAccount holdingAccount amount = .ok post := by
  simp only [process] at h
  split at h
  next definitionAccount holdingAccount => exact ⟨definitionAccount, holdingAccount, rfl, h⟩
  next => cases h

/-- **Every answer** is that of one of the seven instructions on accounts in its order. -/
inductive Answered : List AccountWithMetadata → Instruction → List AccountPostState → Prop
  | transfer {sender recipient : AccountWithMetadata} {amount : U128} {post : List AccountPostState} :
      Token.transfer sender recipient amount = .ok post → Answered [sender, recipient] (.transfer amount) post
  | newFungibleDefinition {d h : AccountWithMetadata} {name : Borsh.Text} {totalSupply : U128}
      {post : List AccountPostState} : Token.newFungibleDefinition d h name totalSupply = .ok post →
      Answered [d, h] (.newFungibleDefinition name totalSupply) post
  | newDefinitionWithMetadata {d h m : AccountWithMetadata} {new : NewTokenDefinition} {metadata : NewTokenMetadata}
      {post : List AccountPostState} : Token.newDefinitionWithMetadata d h m new metadata = .ok post →
      Answered [d, h, m] (.newDefinitionWithMetadata new metadata) post
  | initializeAccount {d h : AccountWithMetadata} {post : List AccountPostState} :
      Token.initializeAccount d h = .ok post → Answered [d, h] .initializeAccount post
  | burn {d h : AccountWithMetadata} {amount : U128} {post : List AccountPostState} :
      Token.burn d h amount = .ok post → Answered [d, h] (.burn amount) post
  | mint {d h : AccountWithMetadata} {amount : U128} {post : List AccountPostState} :
      Token.mint d h amount = .ok post → Answered [d, h] (.mint amount) post
  | printNft {master printed : AccountWithMetadata} {post : List AccountPostState} :
      Token.printNft master printed = .ok post → Answered [master, printed] .printNft post

theorem process_ok {pre : List AccountWithMetadata} {i : Instruction} {post : List AccountPostState}
    (h : process pre i = .ok post) : Answered pre i post := by
  cases i with
  | transfer amount =>
    obtain ⟨_, _, rfl, h⟩ := process_transfer_ok h
    exact .transfer h
  | burn amount =>
    obtain ⟨_, _, rfl, h⟩ := process_burn_ok h
    exact .burn h
  | mint amount =>
    obtain ⟨_, _, rfl, h⟩ := process_mint_ok h
    exact .mint h
  | newFungibleDefinition name totalSupply =>
    simp only [process] at h
    split at h
    next => exact .newFungibleDefinition h
    next => cases h
  | newDefinitionWithMetadata new metadata =>
    simp only [process] at h
    split at h
    next => exact .newDefinitionWithMetadata h
    next => cases h
  | initializeAccount =>
    simp only [process] at h
    split at h
    next => exact .initializeAccount h
    next => cases h
  | printNft =>
    simp only [process] at h
    split at h
    next => exact .printNft h
    next => cases h

end Lez.Token
