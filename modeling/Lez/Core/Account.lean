/-
Accounts (`lee_core::account`) and the values they are made of: 32-byte
account ids, program ids of eight words, `u128` balances and nonces, and data
of at most `DATA_MAX_LENGTH` bytes. A `Data` carries its bound, so no account
of the model is larger than the ledger stores.
-/
import Lez.Lib.Bytes

namespace Lez

abbrev U128 := BitVec 128

abbrev BlockId := UInt64
/-- Unix milliseconds. -/
abbrev Timestamp := UInt64

/-- `[u32; 8]`. -/
abbrev ProgramId := List.Vector UInt32 8

/-- `DEFAULT_PROGRAM_ID`. -/
def defaultProgramId : ProgramId := ⟨List.replicate 8 0, by simp⟩

/-- The 32 bytes `bytemuck` casts a program id to (little-endian words). -/
def ProgramId.toBytes (p : ProgramId) : Bytes := p.toList.flatMap fun w => toLe 4 w.toNat

abbrev AccountId := Bytes32

/-- `DATA_MAX_LENGTH`, 100 KiB. -/
def dataMaxLength : Nat := 100 * 1024

/-- Account data within its limit. -/
abbrev Data := {b : Bytes // b.length ≤ dataMaxLength}

/-- `Data::default()`. -/
def Data.empty : Data := ⟨[], Nat.zero_le _⟩

/-- `TryFrom<Vec<u8>>`. -/
def Data.tryFrom (b : Bytes) : Option Data := if h : b.length ≤ dataMaxLength then .some ⟨b, h⟩ else .none

structure Account where
  programOwner : ProgramId
  balance : U128
  data : Data
  nonce : U128
deriving DecidableEq

/-- `Account::default()`. -/
def Account.default : Account := ⟨defaultProgramId, 0, Data.empty, 0⟩

instance : Inhabited Account := ⟨Account.default⟩

structure AccountWithMetadata where
  account : Account
  isAuthorized : Bool
  accountId : AccountId
deriving DecidableEq

/-- `Account::to_bytes`. -/
def Account.toBytes (a : Account) : Bytes :=
  a.programOwner.toBytes ++ toLe 16 a.balance.toNat ++ toLe 16 a.nonce.toNat ++ toLe 4 a.data.1.length ++ a.data.1

@[simp] theorem Data.tryFrom_eq_some {b : Bytes} {d : Data} : Data.tryFrom b = .some d ↔ d.1 = b := by
  unfold Data.tryFrom
  split
  next h =>
    rw [Option.some.injEq]
    exact ⟨fun he => by rw [← he], fun he => Subtype.ext he.symm⟩
  next h => exact ⟨fun he => by simp at he, fun he => absurd (he ▸ d.2) h⟩

theorem wordBytes_inj : ∀ {as bs : List UInt32}, as.length = bs.length →
    (as.flatMap fun w => toLe 4 w.toNat) = (bs.flatMap fun w => toLe 4 w.toNat) → as = bs
  | [], [], _, _ => rfl
  | [], _ :: _, hl, _ => by simp at hl
  | _ :: _, [], hl, _ => by simp at hl
  | a :: as, b :: bs, hl, h => by
    rw [List.flatMap_cons, List.flatMap_cons] at h
    obtain ⟨h₁, h₂⟩ := List.append_inj h (by simp)
    have hab : a = b := UInt32.toNat_inj.mp (toLe_inj a.toNat_lt b.toNat_lt h₁)
    rw [hab, wordBytes_inj (by simpa using hl) h₂]

@[simp] theorem ProgramId.toBytes_length (p : ProgramId) : p.toBytes.length = 32 := by
  obtain ⟨l, hl⟩ := p
  simp only [ProgramId.toBytes, List.Vector.toList, List.length_flatMap, toLe_length, List.map_const', hl]
  rfl

theorem ProgramId.toBytes_inj {p q : ProgramId} (h : p.toBytes = q.toBytes) : p = q := by
  apply List.Vector.eq
  exact wordBytes_inj (by simp) h

end Lez
