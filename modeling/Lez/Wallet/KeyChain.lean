/-
The private side of the wallet's key chain (`UserKeyChain`): imported key
chains, the tree of generated keys, shared accounts and the key holders of
their groups, with the operations that change them. `insert_private_account`
looks for the account in three stores in turn, each by its own key.
-/
import Lez.Wallet.Keys

def Lez.PrivateAccountKind.identifier : Lez.PrivateAccountKind → Lez.Identifier
  | .regular identifier => identifier
  | .pda _ _ identifier => identifier

namespace Lez.Wallet

abbrev Label := String

structure ImportedPrivateAccountKey where
  keyChain : KeyChain
  chainIndex : Option ChainIndex
deriving DecidableEq

structure SharedAccountEntry where
  groupLabel : Label
  identifier : Identifier
  pdaSeed : Option PdaSeed
  authorityProgramId : Option ProgramId
  account : Account
deriving DecidableEq

structure UserKeyChain where
  importedPrivateAccounts : Table ImportedPrivateAccountKey (Table PrivateAccountKind Account)
  privateKeyTree : KeyTree
  sharedPrivateAccounts : Table AccountId SharedAccountEntry
  groupKeyHolders : Table Label GroupKeyHolder

/-- Why an account was not stored. -/
inductive InsertError
  /-- `anyhow!("Account ID {account_id} not found in key chain")`. -/
  | notFound (accountId : AccountId)
  /-- The panic "Node must be present in a tree". -/
  | nodeNotPresent (chainIndex : ChainIndex)
deriving DecidableEq

namespace UserKeyChain

section
variable (H : WalletHost)

def newWithAccounts (privateKeyTree : KeyTree) : UserKeyChain := ⟨∅, privateKeyTree, ∅, ∅⟩

/-- The accounts of the imported key chains, one after the other. -/
def importedAccounts (kc : UserKeyChain) : List (ImportedPrivateAccountKey × PrivateAccountKind) :=
  kc.importedPrivateAccounts.toPairs.flatMap fun (key, accounts) => accounts.keys.map fun kind => (key, kind)

/-- `private_account_key_chains`: a key chain for each account it has. -/
def privateAccountKeyChains (kc : UserKeyChain) : List KeyChain :=
  kc.importedAccounts.map (·.1.keyChain) ++
    kc.privateKeyTree.keyMap.toPairs.flatMap fun (_, node) => node.accounts.keys.map fun _ => node.keyChain

def addImportedPrivateAccount (kc : UserKeyChain) (keyChain : KeyChain) (chainIndex : Option ChainIndex)
    (identifier : Identifier) (account : Account) : UserKeyChain :=
  let key : ImportedPrivateAccountKey := ⟨keyChain, chainIndex⟩
  let accounts := kc.importedPrivateAccounts.getD key ∅
  { kc with importedPrivateAccounts := kc.importedPrivateAccounts.insert key (accounts.insert (.regular identifier) account) }

def insertSharedPrivateAccount (kc : UserKeyChain) (accountId : AccountId) (entry : SharedAccountEntry) : UserKeyChain :=
  { kc with sharedPrivateAccounts := kc.sharedPrivateAccounts.insert accountId entry }

def updateSharedPrivateAccountState (kc : UserKeyChain) (accountId : AccountId) (account : Account) : UserKeyChain :=
  { kc with sharedPrivateAccounts := kc.sharedPrivateAccounts.modify accountId fun entry => { entry with account } }

def insertGroupKeyHolder (kc : UserKeyChain) (label : Label) (holder : GroupKeyHolder) : UserKeyChain :=
  { kc with groupKeyHolders := kc.groupKeyHolders.insert label holder }

def removeGroupKeyHolder (kc : UserKeyChain) (label : Label) : UserKeyChain :=
  { kc with groupKeyHolders := kc.groupKeyHolders.erase label }

/-- The account of a node is written, whether the node had it or not. -/
def insertOnNode (kc : UserKeyChain) (ci : ChainIndex) (kind : PrivateAccountKind) (account : Account) : KeyTree :=
  { kc.privateKeyTree with
    keyMap := kc.privateKeyTree.keyMap.modify ci fun node => { node with accounts := node.accounts.insert kind account } }

/-- The first imported account with this id. -/
def findImported (kc : UserKeyChain) (accountId : AccountId) : Option (ImportedPrivateAccountKey × PrivateAccountKind) :=
  kc.importedAccounts.find? fun (key, kind) =>
    forPrivateAccount H.sha256 key.keyChain.nullifierPublicKey kind = accountId

/-- The first node whose key has this id for the kind. -/
def findNode (kc : UserKeyChain) (accountId : AccountId) (kind : PrivateAccountKind) : Option ChainIndex :=
  (kc.privateKeyTree.keyMap.toPairs.find? fun (_, node) => forPrivateAccount H.sha256 node.npk kind = accountId).map (·.1)

def insertPrivateAccount (kc : UserKeyChain) (accountId : AccountId) (kind : PrivateAccountKind) (account : Account) :
    Except InsertError UserKeyChain :=
  if accountId ∈ kc.sharedPrivateAccounts then .ok (kc.updateSharedPrivateAccountState accountId account)
  else match kc.findImported H accountId with
  -- the kind of the note is not looked at here: the account's own is kept
  | .some (key, own) =>
    .ok { kc with importedPrivateAccounts := kc.importedPrivateAccounts.modify key fun accounts => accounts.insert own account }
  | .none =>
    match kc.privateKeyTree.accountIdMap.lookup accountId with
    | .some ci =>
      if ci ∈ kc.privateKeyTree.keyMap then .ok { kc with privateKeyTree := kc.insertOnNode ci kind account }
      else .error (.nodeNotPresent ci)
    | .none =>
      match kc.findNode H accountId kind with
      | .some ci =>
        .ok { kc with privateKeyTree := { kc.insertOnNode ci kind account with
          accountIdMap := kc.privateKeyTree.accountIdMap.insert accountId ci } }
      | .none => .error (.notFound accountId)

/-- `from_persistent` of `to_persistent`: imported accounts come back as regular ones. -/
def reload (kc : UserKeyChain) : Option UserKeyChain := do
  let tree ← kc.privateKeyTree.reload H
  let imported := kc.importedPrivateAccounts.toPairs.foldl (fun t (key, accounts) =>
    accounts.toPairs.foldl (fun t (kind, account) =>
      t.insert key ((t.getD key ∅).insert (.regular kind.identifier) account)) t) ∅
  return { kc with privateKeyTree := tree, importedPrivateAccounts := imported }

end

end UserKeyChain

end Lez.Wallet
