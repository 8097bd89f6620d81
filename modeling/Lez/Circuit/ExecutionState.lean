/-
`ExecutionState` of the privacy-preserving circuit: the outputs of a call
tree, each proven by a receipt, are replayed against the accounts seen so
far. A panic of the circuit means there is no proof, and is an error here.
-/
import Lez.State.Ledger

namespace Lez.Circuit

/-- A panic with its text, and the account or position the text names. -/
inductive Panic
  | plain (text : String)
  | account (text : String) (accountId : AccountId)
  | position (text : String) (pos : Nat)
deriving DecidableEq

open Panic

inductive InputAccountIdentity
  | «public»
  | privateAuthorizedInit (epk : Bytes) (viewTag : UInt8) (ssk : Bytes32) (nsk : NullifierSecretKey)
      (identifier : Identifier)
  | privateAuthorizedUpdate (epk : Bytes) (viewTag : UInt8) (ssk : Bytes32) (nsk : NullifierSecretKey)
      (membershipProof : MembershipProof) (identifier : Identifier)
  | privateUnauthorized (epk : Bytes) (viewTag : UInt8) (npk : NullifierPublicKey) (ssk : Bytes32)
      (identifier : Identifier)
  | privatePdaInit (epk : Bytes) (viewTag : UInt8) (npk : NullifierPublicKey) (ssk : Bytes32)
      (identifier : Identifier) (seed : Option (PdaSeed × ProgramId))
  | privatePdaUpdate (epk : Bytes) (viewTag : UInt8) (ssk : Bytes32) (nsk : NullifierSecretKey)
      (membershipProof : MembershipProof) (identifier : Identifier) (seed : Option (PdaSeed × ProgramId))
deriving DecidableEq

namespace InputAccountIdentity

def isPublic : InputAccountIdentity → Bool
  | .public => true
  | _ => false

def isPrivatePda : InputAccountIdentity → Bool
  | .privatePdaInit .. | .privatePdaUpdate .. => true
  | _ => false

def npkIfPrivatePda (sha256 : Bytes → Bytes32) : InputAccountIdentity → Option (NullifierPublicKey × Identifier)
  | .privatePdaInit _ _ npk _ identifier _ => .some (npk, identifier)
  | .privatePdaUpdate _ _ _ nsk _ identifier _ => .some (nullifierPublicKey sha256 nsk, identifier)
  | _ => .none

end InputAccountIdentity

structure ExecutionState where
  preStates : List AccountWithMetadata
  postStates : Table AccountId Account
  blockValidityWindow : BlockValidityWindow
  timestampValidityWindow : TimestampValidityWindow
  privatePdaBoundPositions : Table Nat (ProgramId × PdaSeed)
  pdaFamilyBinding : Table (ProgramId × PdaSeed) AccountId
  privatePdaNpkByPosition : Table Nat (NullifierPublicKey × Identifier)
  authorizedAccounts : Finset AccountId

/-- `assert_family_binding`: one account for each program and seed. -/
def assertFamilyBinding (bindings : Table (ProgramId × PdaSeed) AccountId) (programId : ProgramId) (seed : PdaSeed)
    (accountId : AccountId) : Except Panic (Table (ProgramId × PdaSeed) AccountId) :=
  match bindings.lookup (programId, seed) with
  | .none => .ok (bindings.insert (programId, seed) accountId)
  | .some bound => do
    ensure (bound = accountId)
      (account "Two different accounts resolved under the same (program, seed) in one transaction" accountId)
    pure bindings

/-- `bind_private_pda_position`. -/
def bindPrivatePdaPosition (map : Table Nat (ProgramId × PdaSeed)) (pos : Nat) (programId : ProgramId)
    (seed : PdaSeed) : Except Panic (Table Nat (ProgramId × PdaSeed)) :=
  match map.lookup pos with
  | .none => .ok (map.insert pos (programId, seed))
  | .some bound => do
    ensure (bound = (programId, seed)) (position "Duplicate binding: conflicting (program_id, seed)" pos)
    pure map

section
variable (sha256 : Bytes → Bytes32)

/-- The first seed of the caller that derives the account, publicly or from
the npk of its position; the flag is `is_private_form`. -/
def matchedCallerSeed (st : ExecutionState) (id : AccountId) (pos : Nat) (caller : Option ProgramId)
    (seeds : List PdaSeed) : Option (PdaSeed × Bool × ProgramId) :=
  caller.bind fun caller => seeds.findSome? fun seed =>
    if forPublicPda sha256 caller seed = id then .some (seed, false, caller)
    else match st.privatePdaNpkByPosition.lookup pos with
      | .some (npk, identifier) =>
        if forPrivatePda sha256 caller seed npk identifier = id then .some (seed, true, caller) else .none
      | .none => .none

/-- The bindings a matched seed records. -/
def recordBindings (st : ExecutionState) (id : AccountId) (pos : Nat) :
    Option (PdaSeed × Bool × ProgramId) → Except Panic ExecutionState
  | .none => .ok st
  | .some (seed, isPrivateForm, caller) => do
    let families ← assertFamilyBinding st.pdaFamilyBinding caller seed id
    let bound ←
      if isPrivateForm then bindPrivatePdaPosition st.privatePdaBoundPositions pos caller seed
      else .ok st.privatePdaBoundPositions
    pure { st with pdaFamilyBinding := families, privatePdaBoundPositions := bound }

def resolveAuthorizationAndRecordBindings (st : ExecutionState) (id : AccountId) (pos : Nat)
    (caller : Option ProgramId) (seeds : List PdaSeed) (previousIsAuthorized : Bool) :
    Except Panic (Bool × ExecutionState) := do
  let matched := matchedCallerSeed sha256 st id pos caller seeds
  let st ← recordBindings st id pos matched
  if id ∈ st.authorizedAccounts then pure (true, st)
  else if previousIsAuthorized || matched.isSome then
    pure (true, { st with authorizedAccounts := insert id st.authorizedAccounts })
  else pure (false, st)

/-- The seed the circuit's input supplies for a private PDA seen for the first time. -/
def externalSeed (identity : Option InputAccountIdentity) (id : AccountId) (pos : Nat) :
    Except Panic (Option (PdaSeed × ProgramId)) :=
  match identity with
  | .some (.privatePdaInit _ _ npk _ identifier (.some (seed, authority))) => do
    ensure (id = forPrivatePda sha256 authority seed npk identifier)
      (position "External seed mismatch for PrivatePdaInit" pos)
    pure (.some (seed, authority))
  | .some (.privatePdaUpdate _ _ _ nsk _ identifier (.some (seed, authority))) => do
    ensure (id = forPrivatePda sha256 authority seed (nullifierPublicKey sha256 nsk) identifier)
      (position "External seed mismatch for PrivatePdaUpdate" pos)
    pure (.some (seed, authority))
  | _ => .ok .none

/-- `Entry::Occupied`: an account seen before. -/
def syncSeen (st : ExecutionState) (known : Account) (caller : Option ProgramId) (seeds : List PdaSeed)
    (pre : AccountWithMetadata) : Except Panic ExecutionState := do
  ensure (known = pre.account) (account "Inconsistent pre state for account" pre.accountId)
  let (previous, pos) ← expect (account "Pre state must exist in execution state for account" pre.accountId)
    (st.preStates.zipIdx.find? fun a => a.1.accountId = pre.accountId)
  let (isAuthorized, st) ← resolveAuthorizationAndRecordBindings sha256 st pre.accountId pos caller seeds
    previous.isAuthorized
  ensure (pre.isAuthorized = isAuthorized) (account "Inconsistent authorization for account" pre.accountId)
  pure st

/-- `Entry::Vacant`: an account seen for the first time takes the next position. -/
def syncFresh (identities : List InputAccountIdentity) (st : ExecutionState) (pre : AccountWithMetadata) :
    Except Panic ExecutionState := do
  let pos := st.preStates.length
  let seed ← externalSeed sha256 identities[pos]? pre.accountId pos
  let st ← match seed with
    | .none => .ok st
    | .some (seed, authority) => do
      ensure (¬pre.isAuthorized) (position "Private PDA with externally-provided seed must not be authorized" pos)
      let bound ← bindPrivatePdaPosition st.privatePdaBoundPositions pos authority seed
      let families ← assertFamilyBinding st.pdaFamilyBinding authority seed pre.accountId
      pure { st with privatePdaBoundPositions := bound, pdaFamilyBinding := families }
  pure { st with preStates := st.preStates ++ [pre] }

/-- A claim on a public account. -/
def claimPublic (st : ExecutionState) (programId : ProgramId) (pre : AccountWithMetadata) :
    Claim → Except Panic ExecutionState
  | .authorized => do
    ensure pre.isAuthorized (account "Cannot claim unauthorized account" pre.accountId)
    pure st
  | .pda seed => do
    ensure (pre.accountId = forPublicPda sha256 programId seed)
      (account "Invalid PDA claim for account which does not match derived PDA" pre.accountId)
    let families ← assertFamilyBinding st.pdaFamilyBinding programId seed pre.accountId
    pure { st with pdaFamilyBinding := families }

/-- A claim on a private account: only a PDA claim is checked. -/
def claimPrivate (st : ExecutionState) (programId : ProgramId) (pos : Nat) (pre : AccountWithMetadata) :
    Claim → Except Panic ExecutionState
  | .authorized => .ok st
  | .pda seed => do
    let (npk, identifier) ← expect (plain "private PDA pre_state must have an npk in the position map")
      (st.privatePdaNpkByPosition.lookup pos)
    ensure (pre.accountId = forPrivatePda sha256 programId seed npk identifier)
      (account "Invalid private PDA claim for account" pre.accountId)
    let bound ← bindPrivatePdaPosition st.privatePdaBoundPositions pos programId seed
    let families ← assertFamilyBinding st.pdaFamilyBinding programId seed pre.accountId
    pure { st with privatePdaBoundPositions := bound, pdaFamilyBinding := families }

/-- The claim of a post state, if it has one, and the account it leaves. -/
def syncClaim (identities : List InputAccountIdentity) (st : ExecutionState) (programId : ProgramId)
    (pre : AccountWithMetadata) (post : AccountPostState) : Except Panic (Account × ExecutionState) :=
  match post.claim with
  | .none => .ok (post.account, st)
  | .some claim => do
    ensure (post.account.programOwner = defaultProgramId)
      (account "Cannot claim an initialized account" pre.accountId)
    let pos ← expect (plain "Pre state must exist at this point")
      (st.preStates.findIdx? fun a => a.accountId = pre.accountId)
    let identity ← expect (position "index out of bounds" pos) identities[pos]?
    let st ← if identity.isPublic then claimPublic sha256 st programId pre claim
      else claimPrivate sha256 st programId pos pre claim
    pure ({ post.account with programOwner := programId }, st)

/-- The body of the loop of `validate_and_sync_states`. -/
def syncState (identities : List InputAccountIdentity) (programId : ProgramId) (caller : Option ProgramId)
    (seeds : List PdaSeed) (st : ExecutionState) (pp : AccountWithMetadata × AccountPostState) :
    Except Panic ExecutionState := do
  let st ← match st.postStates.lookup pp.1.accountId with
    | .some known => syncSeen sha256 st known caller seeds pp.1
    | .none => syncFresh sha256 identities st pp.1
  let (left, st) ← syncClaim sha256 identities st programId pp.1 pp.2
  pure { st with postStates := st.postStates.insert pp.1.accountId left }

/-- `validate_and_sync_states`. -/
def validateAndSyncStates (identities : List InputAccountIdentity) (programId : ProgramId)
    (caller : Option ProgramId) (seeds : List PdaSeed) (st : ExecutionState) (out : ProgramOutput) :
    Except Panic ExecutionState :=
  (out.preStates.zip out.postStates).foldlM (syncState sha256 identities programId caller seeds) st

end

/-! ## `derive_from_outputs` -/

section
variable (H : Host)

/-- The body of the loop: an output is held against the call it answers. -/
def acceptOutput (identities : List InputAccountIdentity) (st : ExecutionState) (call : ChainedCall)
    (caller : Option ProgramId) (out : ProgramOutput) : Except Panic ExecutionState := do
  ensure (call.instructionData = out.instructionData)
    (plain "Mismatched instruction data between chained call and program output")
  ensure (H.receipt call.programId out) (plain "unresolved assumption")
  ensure (out.selfProgramId = call.programId)
    (plain "Program output self_program_id does not match chained call program_id")
  ensure (out.callerProgramId = caller) (plain "Program output caller_program_id does not match actual caller")
  (validateExecution out.preStates out.postStates call.programId).mapError
    fun _ => plain "Invalid program behavior in program"
  validateAndSyncStates H.sha256 identities call.programId caller call.pdaSeeds st out

/-- The `while` loop; `budget` is the number of calls `chain_calls_counter`
still allows. The outputs left over are returned. -/
def runOutputs (identities : List InputAccountIdentity) :
    Nat → List (ChainedCall × Option ProgramId) → List ProgramOutput → ExecutionState →
      Except Panic (ExecutionState × List ProgramOutput)
  | _, [], outs, st => .ok (st, outs)
  | 0, _ :: _, _, _ => .error (plain "Max chained calls depth is exceeded")
  | _ + 1, _ :: _, [], _ => .error (plain "Insufficient program outputs for chained calls")
  | budget + 1, (call, caller) :: rest, out :: outs, st => do
    let st ← acceptOutput H identities st call caller out
    let callees := out.chainedCalls.map fun c => (c, Option.some call.programId)
    runOutputs identities budget (callees ++ rest) outs st

/-- `private_pda_npk_by_position`. -/
def npkByPosition (identities : List InputAccountIdentity) : Table Nat (NullifierPublicKey × Identifier) :=
  Table.writeAll ∅ (identities.zipIdx.filterMap fun ip =>
    (ip.1.npkIfPrivatePda H.sha256).map fun npk => (ip.2, npk))

/-- The intersection of the outputs' block windows, then of their timestamp windows. -/
def outputWindows (outs : List ProgramOutput) : Except Panic (BlockValidityWindow × TimestampValidityWindow) := do
  let block ← expect (plain "There should be non empty intersection in the program output block validity windows")
    (ValidityWindow.tryFrom (outs.filterMap (·.blockValidityWindow.start)).max?
      (outs.filterMap (·.blockValidityWindow.stop)).min?)
  let time ← expect (plain "There should be non empty intersection in the program output timestamp validity windows")
    (ValidityWindow.tryFrom (outs.filterMap (·.timestampValidityWindow.start)).max?
      (outs.filterMap (·.timestampValidityWindow.stop)).min?)
  pure (block, time)

/-- A default account that was modified has an owner. -/
def checkModifiedClaimed (st : ExecutionState) (pre : AccountWithMetadata) : Except Panic Unit :=
  if pre.account.programOwner = defaultProgramId then do
    let post ← expect (plain "Post state must exist for pre state") (st.postStates.lookup pre.accountId)
    ensure (pre.account = post ∨ post.programOwner ≠ defaultProgramId)
      (account "Account was modified but not claimed" pre.accountId)
  else .ok ()

/-- The call the loop starts with: the first output answers it. -/
def initialCall (programId : ProgramId) (first : ProgramOutput) : ChainedCall :=
  ⟨programId, first.preStates, first.instructionData, []⟩

def deriveFromOutputs (identities : List InputAccountIdentity) (programId : ProgramId)
    (outs : List ProgramOutput) : Except Panic ExecutionState := do
  let (block, time) ← outputWindows outs
  let start : ExecutionState := ⟨[], ∅, block, time, ∅, ∅, npkByPosition H identities, ∅⟩
  let first ← expect (plain "No program outputs provided") outs.head?
  let (st, left) ← runOutputs H identities (maxNumberChainedCalls + 1) [(initialCall programId first, .none)]
    outs start
  ensure (left = []) (plain "Inner call without a chained call found")
  identities.zipIdx.forM fun ip =>
    ensure (¬ip.1.isPrivatePda ∨ (st.privatePdaBoundPositions.lookup ip.2).isSome)
      (position "private PDA pre_state has no proven (seed, npk) binding via Claim::Pda or caller pda_seeds" ip.2)
  st.preStates.forM (checkModifiedClaimed st)
  pure st

end

end Lez.Circuit
