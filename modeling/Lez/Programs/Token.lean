/-
The `token` program: definitions, holdings and metadata, each the borsh bytes
of its type in the data of an account, and the seven instructions on them.
Nothing in the bytes says which of the three types they are; an instruction
reads an account as what its place in the instruction calls for. A panic of
the guest is an error with its text.
-/
import Lez.Core.Program
import Lez.Lib.Borsh
import Lez.Lib.Checked

namespace Lez.Token

open Borsh (Text Format Variants)

/-! ## Account data -/

inductive TokenDefinition
  | fungible (name : Text) (totalSupply : U128) (metadataId : Option AccountId)
  | nonFungible (name : Text) (printableSupply : U128) (metadataId : AccountId)
deriving DecidableEq

inductive TokenHolding
  | fungible (definitionId : AccountId) (balance : U128)
  | nftMaster (definitionId : AccountId) (printBalance : U128)
  | nftPrintedCopy (definitionId : AccountId) (owned : Bool)
deriving DecidableEq

inductive MetadataStandard
  | simple
  | expanded
deriving DecidableEq

structure TokenMetadata where
  definitionId : AccountId
  standard : MetadataStandard
  uri : Text
  creators : Text
  primarySaleDate : BitVec 64
deriving DecidableEq

def TokenDefinition.format : Format TokenDefinition :=
  (Borsh.either (Borsh.prod Borsh.text (Borsh.prod Borsh.u128 (Borsh.option (Borsh.bytes 32))))
      (Borsh.prod Borsh.text (Borsh.prod Borsh.u128 (Borsh.bytes 32)))).map
    { toFun := fun
        | .inl (name, totalSupply, metadataId) => .fungible name totalSupply metadataId
        | .inr (.inl (name, printableSupply, metadataId)) => .nonFungible name printableSupply metadataId
        | .inr (.inr e) => e.elim
      invFun := fun
        | .fungible name totalSupply metadataId => .inl (name, totalSupply, metadataId)
        | .nonFungible name printableSupply metadataId => .inr (.inl (name, printableSupply, metadataId))
      left_inv := by
        rintro (_ | _ | e)
        · rfl
        · rfl
        · exact e.elim
      right_inv := by
        intro d
        cases d <;> rfl }

def TokenHolding.format : Format TokenHolding :=
  (Variants.cons Borsh.tag₀ (Borsh.prod (Borsh.bytes 32) Borsh.u128)
      (.cons Borsh.tag₁ (Borsh.prod (Borsh.bytes 32) Borsh.u128)
        (.cons Borsh.tag₂ (Borsh.prod (Borsh.bytes 32) Borsh.bool) (.none 3)))).toFormat.map
    { toFun := fun
        | .inl (definitionId, balance) => .fungible definitionId balance
        | .inr (.inl (definitionId, printBalance)) => .nftMaster definitionId printBalance
        | .inr (.inr (.inl (definitionId, owned))) => .nftPrintedCopy definitionId owned
        | .inr (.inr (.inr e)) => e.elim
      invFun := fun
        | .fungible definitionId balance => .inl (definitionId, balance)
        | .nftMaster definitionId printBalance => .inr (.inl (definitionId, printBalance))
        | .nftPrintedCopy definitionId owned => .inr (.inr (.inl (definitionId, owned)))
      left_inv := by
        rintro (_ | _ | _ | e)
        · rfl
        · rfl
        · rfl
        · exact e.elim
      right_inv := by
        intro h
        cases h <;> rfl }

def MetadataStandard.format : Format MetadataStandard :=
  (Borsh.either Borsh.unit Borsh.unit).map
    { toFun := fun
        | .inl _ => .simple
        | .inr (.inl _) => .expanded
        | .inr (.inr e) => e.elim
      invFun := fun
        | .simple => .inl ()
        | .expanded => .inr (.inl ())
      left_inv := by
        rintro (_ | _ | e)
        · rfl
        · rfl
        · exact e.elim
      right_inv := by
        intro s
        cases s <;> rfl }

def TokenMetadata.format : Format TokenMetadata :=
  (Borsh.prod (Borsh.bytes 32) (Borsh.prod MetadataStandard.format (Borsh.prod Borsh.text
      (Borsh.prod Borsh.text Borsh.u64)))).map
    { toFun := fun (definitionId, standard, uri, creators, date) => ⟨definitionId, standard, uri, creators, date⟩
      invFun := fun m => (m.definitionId, m.standard, m.uri, m.creators, m.primarySaleDate)
      left_inv := fun _ => rfl
      right_inv := fun _ => rfl }

/-- `TryFrom<&Data>`. -/
def TokenDefinition.tryFrom (data : Data) : Option TokenDefinition := TokenDefinition.format.tryFromSlice data.1

def TokenHolding.tryFrom (data : Data) : Option TokenHolding := TokenHolding.format.tryFromSlice data.1

/-- `From<&TokenDefinition> for Data`. -/
def TokenDefinition.toData (d : TokenDefinition) : Except String Data :=
  expect "Token definition encoded data should fit into Data" (Data.tryFrom (TokenDefinition.format.write d))

def TokenHolding.toData (h : TokenHolding) : Except String Data :=
  expect "Token holding encoded data should fit into Data" (Data.tryFrom (TokenHolding.format.write h))

def TokenMetadata.toData (m : TokenMetadata) : Except String Data :=
  expect "Token metadata encoded data should fit into Data" (Data.tryFrom (TokenMetadata.format.write m))

namespace TokenHolding

def zeroizedCloneFrom : TokenHolding → TokenHolding
  | fungible definitionId _ => .fungible definitionId 0
  | nftMaster definitionId _ => .nftMaster definitionId 0
  | nftPrintedCopy definitionId _ => .nftPrintedCopy definitionId false

def zeroizedFromDefinition (definitionId : AccountId) : TokenDefinition → TokenHolding
  | .fungible .. => .fungible definitionId 0
  | .nonFungible .. => .nftPrintedCopy definitionId false

def definitionId : TokenHolding → AccountId
  | fungible definitionId _ => definitionId
  | nftMaster definitionId _ => definitionId
  | nftPrintedCopy definitionId _ => definitionId

end TokenHolding

/-! ## Instructions -/

inductive NewTokenDefinition
  | fungible (name : Text) (totalSupply : U128)
  | nonFungible (name : Text) (printableSupply : U128)
deriving DecidableEq

structure NewTokenMetadata where
  standard : MetadataStandard
  uri : Text
  creators : Text
deriving DecidableEq

inductive Instruction
  | transfer (amountToTransfer : U128)
  | newFungibleDefinition (name : Text) (totalSupply : U128)
  | newDefinitionWithMetadata (newDefinition : NewTokenDefinition) (metadata : NewTokenMetadata)
  | initializeAccount
  | burn (amountToBurn : U128)
  | mint (amountToMint : U128)
  | printNft
deriving DecidableEq

/-- The match of `transfer` on the two holdings. -/
def moveBetween (balanceToMove : U128) : TokenHolding → TokenHolding → Except String (TokenHolding × TokenHolding)
  | .fungible senderId senderBalance, .fungible recipientId recipientBalance => do
    let senderBalance ← expect "Insufficient balance" (Checked.sub senderBalance balanceToMove)
    let recipientBalance ← expect "Recipient balance overflow" (Checked.add recipientBalance balanceToMove)
    pure (.fungible senderId senderBalance, .fungible recipientId recipientBalance)
  | .nftMaster senderId senderPrintBalance, .nftMaster recipientId recipientPrintBalance => do
    ensure (recipientPrintBalance = 0) "Invalid balance in recipient account for NFT transfer"
    ensure (senderPrintBalance = balanceToMove) "Invalid balance for NFT Master transfer"
    pure (.nftMaster senderId recipientPrintBalance, .nftMaster recipientId senderPrintBalance)
  | .nftPrintedCopy senderId senderOwned, .nftPrintedCopy recipientId recipientOwned => do
    ensure (balanceToMove = 1) "Invalid balance for NFT Printed Copy transfer"
    ensure (senderOwned = true) "Sender does not own the NFT Printed Copy"
    ensure (recipientOwned = false) "Recipient already owns the NFT Printed Copy"
    pure (.nftPrintedCopy senderId false, .nftPrintedCopy recipientId true)
  | _, _ => .error "Mismatched token holding types for transfer"

/-- A recipient that does not exist yet stands for an empty holding like the sender's. -/
def recipientHolding (sender : TokenHolding) (recipient : Account) : Except String TokenHolding :=
  if recipient = Account.default then .ok sender.zeroizedCloneFrom
  else expect "Invalid recipient data" (TokenHolding.tryFrom recipient.data)

def transfer (sender recipient : AccountWithMetadata) (balanceToMove : U128) :
    Except String (List AccountPostState) := do
  ensure sender.isAuthorized "Sender authorization is missing"
  let senderHolding ← expect "Invalid sender data" (TokenHolding.tryFrom sender.account.data)
  let recipientHolding ← recipientHolding senderHolding recipient.account
  ensure (senderHolding.definitionId = recipientHolding.definitionId) "Sender and recipient definition id mismatch"
  let (senderHolding, recipientHolding) ← moveBetween balanceToMove senderHolding recipientHolding
  let senderData ← senderHolding.toData
  let recipientData ← recipientHolding.toData
  pure [.new { sender.account with data := senderData },
    .newClaimedIfDefault { recipient.account with data := recipientData } .authorized]

def newFungibleDefinition (definitionTarget holdingTarget : AccountWithMetadata) (name : Text) (totalSupply : U128) :
    Except String (List AccountPostState) := do
  ensure (definitionTarget.account = Account.default) "Definition target account must have default values"
  ensure (holdingTarget.account = Account.default) "Holding target account must have default values"
  let definitionData ← (TokenDefinition.fungible name totalSupply .none).toData
  let holdingData ← (TokenHolding.fungible definitionTarget.accountId totalSupply).toData
  pure [.newClaimed { definitionTarget.account with data := definitionData } .authorized,
    .newClaimed { holdingTarget.account with data := holdingData } .authorized]

/-- The definition and the first holding of `new_definition_with_metadata`. -/
def NewTokenDefinition.create (definitionId metadataId : AccountId) :
    NewTokenDefinition → TokenDefinition × TokenHolding
  | .fungible name totalSupply => (.fungible name totalSupply (.some metadataId), .fungible definitionId totalSupply)
  | .nonFungible name printableSupply =>
    (.nonFungible name printableSupply metadataId, .nftMaster definitionId printableSupply)

def newDefinitionWithMetadata (definitionTarget holdingTarget metadataTarget : AccountWithMetadata)
    (newDefinition : NewTokenDefinition) (metadata : NewTokenMetadata) : Except String (List AccountPostState) := do
  ensure (definitionTarget.account = Account.default) "Definition target account must have default values"
  ensure (holdingTarget.account = Account.default) "Holding target account must have default values"
  ensure (metadataTarget.account = Account.default) "Metadata target account must have default values"
  let (tokenDefinition, tokenHolding) := newDefinition.create definitionTarget.accountId metadataTarget.accountId
  let tokenMetadata : TokenMetadata :=
    ⟨definitionTarget.accountId, metadata.standard, metadata.uri, metadata.creators, 0⟩
  let definitionData ← tokenDefinition.toData
  let holdingData ← tokenHolding.toData
  let metadataData ← tokenMetadata.toData
  pure [.newClaimed { definitionTarget.account with data := definitionData } .authorized,
    .newClaimed { holdingTarget.account with data := holdingData } .authorized,
    .newClaimed { metadataTarget.account with data := metadataData } .authorized]

def initializeAccount (definitionAccount accountToInitialize : AccountWithMetadata) :
    Except String (List AccountPostState) := do
  ensure (accountToInitialize.account = Account.default) "Only Uninitialized accounts can be initialized"
  let definition ← expect "Definition account must be valid" (TokenDefinition.tryFrom definitionAccount.account.data)
  let data ← (TokenHolding.zeroizedFromDefinition definitionAccount.accountId definition).toData
  pure [.new definitionAccount.account, .newClaimed { accountToInitialize.account with data := data } .authorized]

/-- The match of `burn`. -/
def burnFrom (amountToBurn : U128) : TokenDefinition → TokenHolding → Except String (TokenDefinition × TokenHolding)
  | .fungible name totalSupply metadataId, .fungible definitionId balance => do
    let balance ← expect "Insufficient balance to burn" (Checked.sub balance amountToBurn)
    let totalSupply ← expect "Total supply underflow" (Checked.sub totalSupply amountToBurn)
    pure (.fungible name totalSupply metadataId, .fungible definitionId balance)
  | .nonFungible name printableSupply metadataId, .nftMaster definitionId printBalance => do
    let printableSupply ← expect "Printable supply underflow" (Checked.sub printableSupply amountToBurn)
    let printBalance ← expect "Insufficient balance to burn" (Checked.sub printBalance amountToBurn)
    pure (.nonFungible name printableSupply metadataId, .nftMaster definitionId printBalance)
  | .nonFungible name printableSupply metadataId, .nftPrintedCopy definitionId owned => do
    ensure (amountToBurn = 1) "Invalid balance to burn for NFT Printed Copy"
    ensure (owned = true) "Cannot burn unowned NFT Printed Copy"
    let printableSupply ← expect "Printable supply underflow" (Checked.sub printableSupply 1)
    pure (.nonFungible name printableSupply metadataId, .nftPrintedCopy definitionId false)
  | _, _ => .error "Mismatched Token Definition and Token Holding types"

def burn (definitionAccount userHoldingAccount : AccountWithMetadata) (amountToBurn : U128) :
    Except String (List AccountPostState) := do
  ensure userHoldingAccount.isAuthorized "Authorization is missing"
  let definition ← expect "Token Definition account must be valid"
    (TokenDefinition.tryFrom definitionAccount.account.data)
  let holding ← expect "Token Holding account must be valid" (TokenHolding.tryFrom userHoldingAccount.account.data)
  ensure (definitionAccount.accountId = holding.definitionId) "Mismatch Token Definition and Token Holding"
  let (definition, holding) ← burnFrom amountToBurn definition holding
  let definitionData ← definition.toData
  let holdingData ← holding.toData
  pure [.new { definitionAccount.account with data := definitionData },
    .new { userHoldingAccount.account with data := holdingData }]

/-- The match of `mint`. -/
def mintTo (amountToMint : U128) : TokenDefinition → TokenHolding → Except String (TokenDefinition × TokenHolding)
  | .fungible name totalSupply metadataId, .fungible definitionId balance => do
    let balance ← expect "Balance overflow on minting" (Checked.add balance amountToMint)
    let totalSupply ← expect "Total supply overflow" (Checked.add totalSupply amountToMint)
    pure (.fungible name totalSupply metadataId, .fungible definitionId balance)
  | .nonFungible .., .nftMaster .. => .error "Cannot mint additional supply for Non-Fungible Tokens"
  | .nonFungible .., .nftPrintedCopy .. => .error "Cannot mint additional supply for Non-Fungible Tokens"
  | _, _ => .error "Mismatched Token Definition and Token Holding types"

/-- A holding that does not exist yet stands for an empty one of the definition. -/
def mintHolding (definitionId : AccountId) (definition : TokenDefinition) (userHolding : Account) :
    Except String TokenHolding :=
  if userHolding = Account.default then .ok (TokenHolding.zeroizedFromDefinition definitionId definition)
  else expect "Token Holding account must be valid" (TokenHolding.tryFrom userHolding.data)

def mint (definitionAccount userHoldingAccount : AccountWithMetadata) (amountToMint : U128) :
    Except String (List AccountPostState) := do
  ensure definitionAccount.isAuthorized "Definition authorization is missing"
  let definition ← expect "Token Definition account must be valid"
    (TokenDefinition.tryFrom definitionAccount.account.data)
  let holding ← mintHolding definitionAccount.accountId definition userHoldingAccount.account
  ensure (definitionAccount.accountId = holding.definitionId) "Mismatch Token Definition and Token Holding"
  let (definition, holding) ← mintTo amountToMint definition holding
  let definitionData ← definition.toData
  let holdingData ← holding.toData
  pure [.new { definitionAccount.account with data := definitionData },
    .newClaimedIfDefault { userHoldingAccount.account with data := holdingData } .authorized]

def printNft (masterAccount printedAccount : AccountWithMetadata) : Except String (List AccountPostState) := do
  ensure masterAccount.isAuthorized "Master NFT Account must be authorized"
  ensure (printedAccount.account = Account.default) "Printed Account must be uninitialized"
  let master ← expect "Invalid Token Holding data" (TokenHolding.tryFrom masterAccount.account.data)
  match master with
  | .nftMaster definitionId printBalance =>
    ensure (1 < printBalance.toNat) "Insufficient balance to print another NFT copy"
    let printBalance ← expect "Checked above" (Checked.sub printBalance 1)
    let masterData ← (TokenHolding.nftMaster definitionId printBalance).toData
    let printedData ← (TokenHolding.nftPrintedCopy definitionId true).toData
    pure [.new { masterAccount.account with data := masterData },
      .newClaimed { printedAccount.account with data := printedData } .authorized]
  | _ => .error "Invalid Token Holding provided as NFT Master Account"

/-- The match of `main`. -/
def process (pre : List AccountWithMetadata) : Instruction → Except String (List AccountPostState)
  | .transfer balanceToMove =>
    match pre with
    | [sender, recipient] => transfer sender recipient balanceToMove
    | _ => .error "Transfer instruction requires exactly two accounts"
  | .newFungibleDefinition name totalSupply =>
    match pre with
    | [definitionAccount, holdingAccount] => newFungibleDefinition definitionAccount holdingAccount name totalSupply
    | _ => .error "NewFungibleDefinition instruction requires exactly two accounts"
  | .newDefinitionWithMetadata newDefinition metadata =>
    match pre with
    | [definitionAccount, holdingAccount, metadataAccount] =>
      newDefinitionWithMetadata definitionAccount holdingAccount metadataAccount newDefinition metadata
    | _ => .error "NewDefinitionWithMetadata instruction requires exactly three accounts"
  | .initializeAccount =>
    match pre with
    | [definitionAccount, accountToInitialize] => initializeAccount definitionAccount accountToInitialize
    | _ => .error "InitializeAccount instruction requires exactly two accounts"
  | .burn amountToBurn =>
    match pre with
    | [definitionAccount, userHoldingAccount] => burn definitionAccount userHoldingAccount amountToBurn
    | _ => .error "Burn instruction requires exactly two accounts"
  | .mint amountToMint =>
    match pre with
    | [definitionAccount, userHoldingAccount] => mint definitionAccount userHoldingAccount amountToMint
    | _ => .error "Mint instruction requires exactly two accounts"
  | .printNft =>
    match pre with
    | [masterAccount, printedAccount] => printNft masterAccount printedAccount
    | _ => .error "PrintNft instruction requires exactly two accounts"

/-- `main`; `read` is the deserializer of its instructions. -/
def main (read : InstructionData → Option Instruction) (self : ProgramId) (caller : Option ProgramId)
    (pre : List AccountWithMetadata) (data : InstructionData) : Except String ProgramOutput := do
  let instruction ← expect "instruction does not deserialize" (read data)
  let post ← process pre instruction
  pure (.new self caller data pre post)

/-- An output echoes its accounts, makes no calls, and is what `process` answers. -/
theorem main_ok {read : InstructionData → Option Instruction} {self : ProgramId} {caller : Option ProgramId}
    {pre : List AccountWithMetadata} {data : InstructionData} {out : ProgramOutput}
    (h : main read self caller pre data = .ok out) :
    ∃ i post, read data = .some i ∧ process pre i = .ok post ∧ out = .new self caller data pre post := by
  simp only [main, bind_ok_iff, expect_ok_iff, pure_ok_iff] at h
  obtain ⟨i, hi, post, hpost, rfl⟩ := h
  exact ⟨i, post, hi, hpost, rfl⟩

end Lez.Token
