/-
Programs as the ledger sees them (`lee_core::program`): chained calls, post
states with their claims, validity windows, the output a program commits, and
`validate_execution`, the rules every output has to meet whatever the program
does.
-/
import Lez.Core.Identity
import Lez.Lib.Outcome
import Mathlib.Data.Finset.Card

namespace Lez

/-- `MAX_NUMBER_CHAINED_CALLS`. -/
def maxNumberChainedCalls : Nat := 10

abbrev InstructionData := List UInt32

structure ChainedCall where
  programId : ProgramId
  preStates : List AccountWithMetadata
  instructionData : InstructionData
  pdaSeeds : List PdaSeed
deriving DecidableEq

inductive Claim
  | authorized
  | pda (seed : PdaSeed)
deriving DecidableEq

structure AccountPostState where
  account : Account
  claim : Option Claim
deriving DecidableEq

namespace AccountPostState

def new (account : Account) : AccountPostState := ⟨account, .none⟩

def newClaimed (account : Account) (claim : Claim) : AccountPostState := ⟨account, .some claim⟩

def newClaimedIfDefault (account : Account) (claim : Claim) : AccountPostState :=
  ⟨account, if account.programOwner = defaultProgramId then .some claim else .none⟩

end AccountPostState

/-! ## Validity windows -/

structure ValidityWindow (T : Type) where
  start : Option T
  stop : Option T
deriving DecidableEq

namespace ValidityWindow

variable {T : Type} [LE T] [LT T] [DecidableLE T] [DecidableLT T]

omit [LE T] [LT T] [DecidableLE T] [DecidableLT T] in
def newUnbounded : ValidityWindow T := ⟨.none, .none⟩

/-- `[from, to)`. -/
def isValidFor (w : ValidityWindow T) (value : T) : Bool :=
  w.start.all (fun s => decide (s ≤ value)) && w.stop.all (fun e => decide (value < e))

/-- `TryFrom<(Option<T>, Option<T>)>`: an empty window is refused. -/
def tryFrom (start stop : Option T) : Option (ValidityWindow T) :=
  match start, stop with
  | .some s, .some e => if e ≤ s then .none else .some ⟨start, stop⟩
  | _, _ => .some ⟨start, stop⟩

end ValidityWindow

abbrev BlockValidityWindow := ValidityWindow BlockId
abbrev TimestampValidityWindow := ValidityWindow Timestamp

structure ProgramOutput where
  selfProgramId : ProgramId
  callerProgramId : Option ProgramId
  instructionData : InstructionData
  preStates : List AccountWithMetadata
  postStates : List AccountPostState
  chainedCalls : List ChainedCall
  blockValidityWindow : BlockValidityWindow
  timestampValidityWindow : TimestampValidityWindow
deriving DecidableEq

/-- `ProgramOutput::new`: no chained calls, unbounded windows. -/
def ProgramOutput.new (self : ProgramId) (caller : Option ProgramId) (data : InstructionData)
    (pre : List AccountWithMetadata) (post : List AccountPostState) : ProgramOutput :=
  ⟨self, caller, data, pre, post, [], .newUnbounded, .newUnbounded⟩

/-- The word encoding `risc0_zkvm::serde` gives a type: what `to_vec` writes,
`Deserializer` reads back. -/
structure Codec (α : Type) where
  encode : α → InstructionData
  decode : InstructionData → Option α
  decode_encode : ∀ a, decode (encode a) = .some a

/-! ## `validate_execution` -/

/-- `lo + hi * 2^128`. -/
structure WrappedBalanceSum where
  lo : U128
  hi : U128
deriving DecidableEq

namespace WrappedBalanceSum

def toNat (w : WrappedBalanceSum) : Nat := w.lo.toNat + w.hi.toNat * 2 ^ 128

/-- One round of `from_balances`: `overflowing_add` below, `checked_add` above. -/
def add (w : WrappedBalanceSum) (balance : U128) : Option WrappedBalanceSum :=
  if w.lo.toNat + balance.toNat < 2 ^ 128 then .some ⟨w.lo + balance, w.hi⟩
  else if w.hi.toNat + 1 < 2 ^ 128 then .some ⟨w.lo + balance, w.hi + 1⟩
  else .none

def fromBalances (balances : List U128) : Option WrappedBalanceSum := balances.foldlM add ⟨0, 0⟩

end WrappedBalanceSum

inductive ExecutionValidationError
  | preStateAccountIdsNotUnique
  | mismatchedPreStatePostStateLength (preStateLength postStateLength : Nat)
  | modifiedNonce (accountId : AccountId)
  | modifiedProgramOwner (accountId : AccountId)
  | unauthorizedBalanceDecrease (accountId : AccountId) (ownerProgramId executingProgramId : ProgramId)
  | unauthorizedDataModification (accountId : AccountId) (executingProgramId : ProgramId)
  | nonDefaultAccountWithDefaultOwner (accountId : AccountId)
  | balanceSumOverflow
  | mismatchedTotalBalance (totalBalancePreStates totalBalancePostStates : WrappedBalanceSum)
deriving DecidableEq

open ExecutionValidationError

/-- As many distinct ids as accounts. -/
def validateUniquenessOfAccountIds (pre : List AccountWithMetadata) : Bool :=
  pre.length == (pre.map (·.accountId)).toFinset.card

/-- The body of the loop over `(pre, post)`: rules 3 to 7. -/
def validateAccount (executing : ProgramId) (pp : AccountWithMetadata × AccountPostState) :
    Except ExecutionValidationError Unit := do
  let pre := pp.1.account
  let post := pp.2.account
  ensure (pre.nonce = post.nonce) (modifiedNonce pp.1.accountId)
  ensure (pre.programOwner = post.programOwner) (modifiedProgramOwner pp.1.accountId)
  ensure (¬(post.balance < pre.balance ∧ pre.programOwner ≠ executing))
    (unauthorizedBalanceDecrease pp.1.accountId pre.programOwner executing)
  ensure (¬(pre.data ≠ post.data ∧ pre ≠ Account.default ∧ pre.programOwner ≠ executing))
    (unauthorizedDataModification pp.1.accountId executing)
  ensure (¬(post.programOwner = defaultProgramId ∧ pre ≠ Account.default))
    (nonDefaultAccountWithDefaultOwner pp.1.accountId)

def validateExecution (pre : List AccountWithMetadata) (post : List AccountPostState) (executing : ProgramId) :
    Except ExecutionValidationError Unit := do
  ensure (validateUniquenessOfAccountIds pre) preStateAccountIdsNotUnique
  ensure (pre.length = post.length) (mismatchedPreStatePostStateLength pre.length post.length)
  (pre.zip post).forM (validateAccount executing)
  let before ← expect balanceSumOverflow (WrappedBalanceSum.fromBalances (pre.map (·.account.balance)))
  let after ← expect balanceSumOverflow (WrappedBalanceSum.fromBalances (post.map (·.account.balance)))
  ensure (before = after) (mismatchedTotalBalance before after)

/-- `compute_public_authorized_pdas`. -/
def computePublicAuthorizedPdas (sha256 : Bytes → Bytes32) (caller : Option ProgramId) (seeds : List PdaSeed) :
    Finset AccountId :=
  match caller with
  | .none => ∅
  | .some caller => (seeds.map (forPublicPda sha256 caller)).toFinset

end Lez
