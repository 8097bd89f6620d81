/-
What is assumed of the code around the token and the AMM program: the zkVM
runs both as modelled, what the AMM writes the token program reads, and the
program ids are distinct. `Reference.exchange` is a host that meets the
assumptions, with the word encoding of the two programs' instructions.
-/
import Lez.Programs.Amm
import Lez.Programs.MsigHost

namespace Lez

/-- A host that runs the token program as modelled. An output there is, is the model's. -/
structure TokenHost extends Host where
  readToken : InstructionData → Option Token.Instruction
  guest_token : ∀ caller pre data out, guest token.id token.id caller pre data = .ok out →
    Token.main readToken token.id caller pre data = .ok out
  token_ne_default : token.id ≠ defaultProgramId
  token_ne_transfer : token.id ≠ authenticatedTransfer.id
  token_ne_clock : token.id ≠ clock.id

/-- A token instruction of the AMM. -/
def Token.Instruction.OfAmm : Token.Instruction → Prop
  | .transfer _ | .mint _ | .burn _ => True
  | .newFungibleDefinition name _ => name = Amm.lpTokenName
  | _ => False

/-- A host that runs the AMM as modelled too. -/
structure AmmHost extends TokenHost where
  readAmm : InstructionData → Option Amm.Instruction
  writeToken : Token.Instruction → InstructionData
  guest_amm : ∀ caller pre data out, guest amm.id amm.id caller pre data = .ok out →
    Amm.main sha256 writeToken readAmm amm.id caller pre data = .ok out
  read_write : ∀ i, i.OfAmm → readToken (writeToken i) = .some i
  amm_ne_default : amm.id ≠ defaultProgramId
  amm_ne_transfer : amm.id ≠ authenticatedTransfer.id
  amm_ne_clock : amm.id ≠ clock.id
  amm_ne_token : amm.id ≠ token.id

namespace Serde

open Borsh (Text)

/-- A string that is well-formed. -/
def text : Reader Text := fun ws => do
  let (b, ws) ← str ws
  if h : Borsh.utf8Valid b = true ∧ b.length < 2 ^ 32 then pure (⟨b, h⟩, ws) else .none

def accountId : Reader AccountId := fun ws => do
  let (s, ws) ← str ws
  let id ← fromBase58 s
  pure (id, ws)

def writeAccountId (id : AccountId) : InstructionData := writeStr (toBase58 id)

def newTokenDefinition : Reader Token.NewTokenDefinition
  | 0 :: ws => do
    let (name, ws) ← text ws
    let (totalSupply, ws) ← u128 ws
    pure (.fungible name totalSupply, ws)
  | 1 :: ws => do
    let (name, ws) ← text ws
    let (printableSupply, ws) ← u128 ws
    pure (.nonFungible name printableSupply, ws)
  | _ => .none

def metadataStandard : Reader Token.MetadataStandard
  | 0 :: ws => .some (.simple, ws)
  | 1 :: ws => .some (.expanded, ws)
  | _ => .none

def readToken : InstructionData → Option Token.Instruction
  | 0 :: ws => (u128 ws).map fun r => .transfer r.1
  | 1 :: ws => do
    let (name, ws) ← text ws
    let (totalSupply, _) ← u128 ws
    pure (.newFungibleDefinition name totalSupply)
  | 2 :: ws => do
    let (newDefinition, ws) ← newTokenDefinition ws
    let (standard, ws) ← metadataStandard ws
    let (uri, ws) ← text ws
    let (creators, _) ← text ws
    pure (.newDefinitionWithMetadata newDefinition ⟨standard, uri, creators⟩)
  | 3 :: _ => .some .initializeAccount
  | 4 :: ws => (u128 ws).map fun r => .burn r.1
  | 5 :: ws => (u128 ws).map fun r => .mint r.1
  | 6 :: _ => .some .printNft
  | _ => .none

def writeNewTokenDefinition : Token.NewTokenDefinition → InstructionData
  | .fungible name totalSupply => 0 :: writeStr name.1 ++ writeU128 totalSupply
  | .nonFungible name printableSupply => 1 :: writeStr name.1 ++ writeU128 printableSupply

def writeMetadataStandard : Token.MetadataStandard → InstructionData
  | .simple => [0]
  | .expanded => [1]

def writeToken : Token.Instruction → InstructionData
  | .transfer amount => 0 :: writeU128 amount
  | .newFungibleDefinition name totalSupply => 1 :: writeStr name.1 ++ writeU128 totalSupply
  | .newDefinitionWithMetadata newDefinition metadata =>
    2 :: writeNewTokenDefinition newDefinition ++ writeMetadataStandard metadata.standard ++ writeStr metadata.uri.1 ++
      writeStr metadata.creators.1
  | .initializeAccount => [3]
  | .burn amount => 4 :: writeU128 amount
  | .mint amount => 5 :: writeU128 amount
  | .printNft => [6]

def readAmm : InstructionData → Option Amm.Instruction
  | 0 :: ws => do
    let (a, ws) ← u128 ws
    let (b, ws) ← u128 ws
    let (amm, _) ← programId ws
    pure (.newDefinition a b amm)
  | 1 :: ws => do
    let (minLiquidity, ws) ← u128 ws
    let (maxA, ws) ← u128 ws
    let (maxB, _) ← u128 ws
    pure (.addLiquidity minLiquidity maxA maxB)
  | 2 :: ws => do
    let (amount, ws) ← u128 ws
    let (minA, ws) ← u128 ws
    let (minB, _) ← u128 ws
    pure (.removeLiquidity amount minA minB)
  | 3 :: ws => do
    let (amountIn, ws) ← u128 ws
    let (minOut, ws) ← u128 ws
    let (tokenIn, _) ← accountId ws
    pure (.swapExactInput amountIn minOut tokenIn)
  | 4 :: ws => do
    let (amountOut, ws) ← u128 ws
    let (maxIn, ws) ← u128 ws
    let (tokenIn, _) ← accountId ws
    pure (.swapExactOutput amountOut maxIn tokenIn)
  | _ => .none

def writeAmm : Amm.Instruction → InstructionData
  | .newDefinition a b amm => 0 :: writeU128 a ++ writeU128 b ++ writeProgramId amm
  | .addLiquidity minLiquidity maxA maxB => 1 :: writeU128 minLiquidity ++ writeU128 maxA ++ writeU128 maxB
  | .removeLiquidity amount minA minB => 2 :: writeU128 amount ++ writeU128 minA ++ writeU128 minB
  | .swapExactInput amountIn minOut tokenIn => 3 :: writeU128 amountIn ++ writeU128 minOut ++ writeAccountId tokenIn
  | .swapExactOutput amountOut maxIn tokenIn => 4 :: writeU128 amountOut ++ writeU128 maxIn ++ writeAccountId tokenIn

theorem readToken_writeToken {i : Token.Instruction} (hi : i.OfAmm) : readToken (writeToken i) = .some i := by
  have hu : ∀ v, u128 (writeU128 v) = .some (v, []) := by
    intro v
    have h := reads_u128 v [] trivial
    rwa [List.append_nil] at h
  cases i with
  | transfer amount => simp [readToken, writeToken, hu]
  | mint amount => simp [readToken, writeToken, hu]
  | burn amount => simp [readToken, writeToken, hu]
  | newFungibleDefinition name totalSupply =>
    have hname : name = Amm.lpTokenName := hi
    subst hname
    have hread : ∀ rest, text (writeStr Amm.lpTokenName.1 ++ rest) = .some (Amm.lpTokenName, rest) := by
      intro rest
      rfl
    simp [readToken, writeToken, hread, hu]
  | newDefinitionWithMetadata | initializeAccount | printNft => exact hi.elim

end Serde

namespace Reference

def tokenId : ProgramId := programId 3
def ammId : ProgramId := programId 4

/-- The programs of a script, with the token program and the AMM among them. -/
def exchangeGuest (script : Script) (id : ProgramId) : Guest :=
  if id = tokenId then Token.main Serde.readToken
  else if id = ammId then Amm.main Sha256.hash Serde.writeToken Serde.readAmm
  else guest script id

/-- A host with SHA-256, the word encoding, the token program, the AMM and the programs of a script. -/
def exchange (script : Script) : AmmHost where
  toHost := { bare script with guest := exchangeGuest script }
  readToken := Serde.readToken
  readAmm := Serde.readAmm
  writeToken := Serde.writeToken
  guest_token := by
    intro caller pre data out h
    have hg : exchangeGuest script tokenId = Token.main Serde.readToken := if_pos rfl
    exact hg ▸ h
  guest_amm := by
    intro caller pre data out h
    have hg : exchangeGuest script ammId = Amm.main Sha256.hash Serde.writeToken Serde.readAmm := by
      unfold exchangeGuest
      rw [if_neg (by decide), if_pos rfl]
    exact hg ▸ h
  read_write := fun _ => Serde.readToken_writeToken
  token_ne_default := show tokenId ≠ defaultProgramId by decide
  token_ne_transfer := show tokenId ≠ transferId by decide
  token_ne_clock := show tokenId ≠ programId 1 by decide
  amm_ne_default := show ammId ≠ defaultProgramId by decide
  amm_ne_transfer := show ammId ≠ transferId by decide
  amm_ne_clock := show ammId ≠ programId 1 by decide
  amm_ne_token := show ammId ≠ tokenId by decide

def packedExchangeGuest (script : Script) (id : ProgramId) : Guest :=
  if id = tokenId then Token.main Serde.readToken
  else if id = ammId then Amm.main Sha256.packed Serde.writeToken Serde.readAmm
  else packedGuest script id

theorem exchange_packed (script : Script) :
    (exchange script).toHost = { packedBare script with guest := packedExchangeGuest script } := by
  have hguest : exchangeGuest script = packedExchangeGuest script := by
    funext id
    unfold exchangeGuest packedExchangeGuest
    rw [guest_packed, Sha256.hash_eq_packed]
  rw [← hguest, ← bare_packed]
  rfl

/-- A public transaction with these signatures, not real ones. -/
def signedBy (signers : List (PublicKey × U128)) (programId : ProgramId) (accountIds : List AccountId)
    (data : InstructionData) : PublicTransaction :=
  ⟨⟨programId, accountIds, signers.map (·.2), data⟩, signers.map fun s => (ByteVec.fill 64 0, s.1)⟩

/-! ## Token accounts -/

/-- Account data of these bytes. -/
def dataOf (b : Bytes) : Data := (Data.tryFrom b).getD Data.empty

/-- A holding of the token program. -/
def holdingAccount (definitionId : AccountId) (balance : U128) : Account :=
  ⟨tokenId, 0, dataOf (Token.TokenHolding.format.write (.fungible definitionId balance)), 0⟩

def tokenA : AccountId := ByteVec.fill 32 1
def tokenB : AccountId := ByteVec.fill 32 2

/-- The pool of the two tokens, its vaults and its liquidity token, computed once. -/
def poolId : AccountId := bytes32OfNat 0x1637695d138ef0bf2d1df7cb20782d30a5b828e41e243f189e3bef12672c5b4a
def vaultAId : AccountId := bytes32OfNat 0xf984ef5dd79f3094306b39365798bff4ab7db90d61e1be243dae66ce604a8385
def vaultBId : AccountId := bytes32OfNat 0x1061bde89520eaed0042060ef36b6735def9f88bc332f6cde4059e5ccd985979
def lpId : AccountId := bytes32OfNat 0x424281a23185a64d6c92f468886fdf4173ab50ef2a72a6ca58ffc5f0794a8074

def providerKey : PublicKey := ByteVec.fill 32 11
def provider : AccountId := bytes32OfNat 0x1aec7e9ef79e926ee25278e5d388c8675d9510158c50aca14b46d33f0bb778de

theorem pool_accounts_derived : Amm.computePoolPda Sha256.hash ammId tokenA tokenB = .ok poolId ∧
    vaultAId = Amm.computeVaultPda Sha256.hash ammId poolId tokenA ∧
    vaultBId = Amm.computeVaultPda Sha256.hash ammId poolId tokenB ∧
    lpId = Amm.computeLiquidityTokenPda Sha256.hash ammId poolId ∧
    provider = accountIdFromPublicKey Sha256.hash providerKey := by decide +kernel

end Reference

end Lez
