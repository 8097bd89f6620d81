/-
The `authenticated_transfer` program: it claims accounts that hold nothing
and moves balance out of accounts it owns when they authorize it. A panic of
the guest is an error with its text.
-/
import Lez.Core.Program

namespace Lez.AuthenticatedTransfer

inductive Instruction
  | transfer (amount : U128)
  /-- `Initialize`. -/
  | initAccount
deriving DecidableEq

/-- `initialize_account`. -/
def initializeAccount (pre : AccountWithMetadata) : Except String AccountPostState := do
  ensure (pre.account = Account.default) "Account must be uninitialized"
  pure (.newClaimed pre.account .authorized)

def transfer (sender recipient : AccountWithMetadata) (amount : U128) : Except String (List AccountPostState) := do
  ensure sender.isAuthorized "Sender must be authorized"
  ensure (amount.toNat ≤ sender.account.balance.toNat) "Sender has insufficient balance"
  ensure (recipient.account.balance.toNat + amount.toNat < 2 ^ 128) "Recipient balance overflow"
  let senderPost := { sender.account with balance := sender.account.balance - amount }
  let recipientPost := { recipient.account with balance := recipient.account.balance + amount }
  pure [.new senderPost, .newClaimedIfDefault recipientPost .authorized]

/-- The match of `main`. -/
def process (pre : List AccountWithMetadata) : Instruction → Except String (List AccountPostState)
  | .initAccount =>
    match pre with
    | [a] => (fun post => [post]) <$> initializeAccount a
    | _ => .error "Initialize requires exactly 1 account"
  | .transfer amount =>
    match pre with
    | [sender, recipient] => transfer sender recipient amount
    | _ => .error "Transfer requires exactly 2 accounts"

def main (C : Codec Instruction) (self : ProgramId) (caller : Option ProgramId) (pre : List AccountWithMetadata)
    (data : InstructionData) : Except String ProgramOutput := do
  let instruction ← expect "instruction does not deserialize" (C.decode data)
  let post ← process pre instruction
  pure (.new self caller data pre post)

/-! ## What an output says -/

/-- An output echoes its input, makes no calls, and is what `process` answers. -/
theorem main_ok {C : Codec Instruction} {self : ProgramId} {caller : Option ProgramId}
    {pre : List AccountWithMetadata} {data : InstructionData} {out : ProgramOutput}
    (h : main C self caller pre data = .ok out) :
    ∃ i post, C.decode data = .some i ∧ process pre i = .ok post ∧ out = .new self caller data pre post := by
  simp only [main, bind_ok_iff, expect_ok_iff, pure_ok_iff] at h
  obtain ⟨i, hi, post, hpost, rfl⟩ := h
  exact ⟨i, post, hi, hpost, rfl⟩

/-- A transfer has two accounts, the first of them authorized and able to pay,
the second able to take it. -/
theorem process_transfer_ok {pre : List AccountWithMetadata} {amount : U128} {post : List AccountPostState}
    (h : process pre (.transfer amount) = .ok post) :
    ∃ sender recipient, pre = [sender, recipient] ∧ sender.isAuthorized = true ∧
      amount.toNat ≤ sender.account.balance.toNat ∧ recipient.account.balance.toNat + amount.toNat < 2 ^ 128 ∧
      post = [.new { sender.account with balance := sender.account.balance - amount },
        .newClaimedIfDefault { recipient.account with balance := recipient.account.balance + amount } .authorized] := by
  simp only [process] at h
  split at h
  next sender recipient =>
    simp only [transfer, bind_ok_iff, ensure_ok_iff, pure_ok_iff] at h
    obtain ⟨-, hauth, -, hle, -, hfits, rfl⟩ := h
    exact ⟨sender, recipient, rfl, hauth, hle, hfits, rfl⟩
  next => cases h

/-- An initialization has one account, which holds nothing and is claimed. -/
theorem process_initAccount_ok {pre : List AccountWithMetadata} {post : List AccountPostState}
    (h : process pre .initAccount = .ok post) :
    ∃ a, pre = [a] ∧ a.account = Account.default ∧ post = [.newClaimed a.account .authorized] := by
  simp only [process] at h
  split at h
  next a =>
    simp only [map_ok_iff, initializeAccount, bind_ok_iff, ensure_ok_iff, pure_ok_iff] at h
    obtain ⟨_, ⟨-, hdef, rfl⟩, rfl⟩ := h
    exact ⟨a, rfl, hdef, rfl⟩
  next => cases h

/-- What is lowered is the first account of a transfer, authorized. -/
theorem process_lowers {pre : List AccountWithMetadata} {i : Instruction} {post : List AccountPostState}
    (h : process pre i = .ok post) {pp : AccountWithMetadata × AccountPostState} (hmem : pp ∈ pre.zip post)
    (hlt : pp.2.account.balance < pp.1.account.balance) :
    pp.1.isAuthorized = true ∧ pre.head? = .some pp.1 ∧ ∃ amount, amount ≠ 0 ∧ i = .transfer amount := by
  cases i with
  | initAccount =>
    obtain ⟨a, rfl, -, rfl⟩ := process_initAccount_ok h
    rw [List.zip_cons_cons, List.zip_nil_left, List.mem_singleton] at hmem
    subst hmem
    exact absurd hlt (BitVec.lt_irrefl _)
  | transfer amount =>
    obtain ⟨sender, recipient, rfl, hauth, hle, hfits, rfl⟩ := process_transfer_ok h
    rcases List.mem_cons.mp hmem with rfl | hmem
    · refine ⟨hauth, rfl, amount, ?_, rfl⟩
      rintro rfl
      simp [AccountPostState.new] at hlt
    · -- the recipient gains
      cases List.mem_singleton.mp hmem
      change recipient.account.balance + amount < recipient.account.balance at hlt
      rw [BitVec.lt_def, BitVec.toNat_add, Nat.mod_eq_of_lt hfits] at hlt
      omega

end Lez.AuthenticatedTransfer
