/-
The three transitions of the ledger: a transaction is validated into a diff
and the diff applied. A rejected transaction changes nothing, and neither does
one whose diff cannot be applied (the nonce overflow panic); both are `none`.
-/
import Lez.State.PrivacyTransaction

namespace Lez.V03State

section
variable (H : Host) (s : V03State)

/-- Applies what validation answered. -/
def settle (validated : Except LeeError StateDiff) : Option V03State :=
  validated.toOption.bind (s.applyStateDiff H)

def transitionFromPublicTransaction (tx : PublicTransaction) (blockId : BlockId) (timestamp : Timestamp) :
    Option V03State :=
  s.settle H (fromPublicTransaction H tx s blockId timestamp)

def transitionFromPrivacyPreservingTransaction (tx : PrivacyPreservingTransaction) (blockId : BlockId)
    (timestamp : Timestamp) : Option V03State :=
  s.settle H (fromPrivacyPreservingTransaction H tx s blockId timestamp)

def transitionFromProgramDeploymentTransaction (bytecode : Bytes) : Option V03State :=
  s.settle H (fromProgramDeploymentTransaction H bytecode s)

end

theorem settle_eq_some {H : Host} {s s' : V03State} {validated : Except LeeError StateDiff} :
    s.settle H validated = .some s' ↔ ∃ diff, validated = .ok diff ∧ s.applyStateDiff H diff = .some s' := by
  cases validated <;> simp [settle, Except.toOption]

end Lez.V03State
