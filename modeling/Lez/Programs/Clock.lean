/-
The `clock` program: the last transaction of every block, which files the
block's number and timestamp under three accounts, every block, every tenth
and every fiftieth.
-/
import Lez.Programs.Serde
import Lez.State.Ledger

namespace Lez.Clock

structure ClockAccountData where
  blockId : UInt64
  timestamp : Timestamp
deriving DecidableEq

def ClockAccountData.toData (d : ClockAccountData) : Data :=
  ⟨toLe 8 d.blockId.toNat ++ toLe 8 d.timestamp.toNat, by simp [dataMaxLength]⟩

def ClockAccountData.fromBytes (b : Bytes) : Option ClockAccountData :=
  if b.length = 16 then .some ⟨UInt64.ofNat (ofLe (b.take 8)), UInt64.ofNat (ofLe (b.drop 8))⟩ else .none

def updateIfMultiple (divisor : Nat) (updated : ClockAccountData) (pre : AccountWithMetadata) : AccountPostState :=
  if updated.blockId.toNat % divisor = 0 then .new { pre.account with data := updated.toData } else .new pre.account

/-- The post states of `main`. -/
def process (self : ProgramId) (timestamp : Timestamp) : List AccountWithMetadata → Except String (List AccountPostState)
  | [pre01, pre10, pre50] => do
    ensure ([pre01.accountId, pre10.accountId, pre50.accountId] = clockProgramAccountIds) "Invalid input accounts"
    ensure (pre01.account.programOwner = self ∧ pre10.account.programOwner = self ∧ pre50.account.programOwner = self)
      "Clock accounts must be owned by the clock program"
    let prev ← expect "ClockAccountData deserialization should not fail" (ClockAccountData.fromBytes pre01.account.data.1)
    ensure (prev.blockId.toNat + 1 < 2 ^ 64) "Next block id should be within u64 boundaries"
    let updated : ClockAccountData := ⟨prev.blockId + 1, timestamp⟩
    pure [updateIfMultiple 1 updated pre01, updateIfMultiple 10 updated pre10, updateIfMultiple 50 updated pre50]
  | _ => .error "Invalid number of input accounts"

def main (self : ProgramId) (caller : Option ProgramId) (pre : List AccountWithMetadata) (data : InstructionData) :
    Except String ProgramOutput := do
  let timestamp ← expect "instruction does not deserialize" (Serde.u64 data)
  let post ← process self timestamp.1 pre
  pure (.new self caller data pre post)

end Lez.Clock
