/-
The word encoding of instructions (`risc0_zkvm::serde`, a crate the programs
are built on, written here from its format): a byte or a `u32` is a word, a
`u64` two words, a `u128` four, an enum its variant's index and then its
fields, a sequence its length and then its elements, a string its length and
then its bytes, four to a word. A reader takes its value off the front and
hands the rest on, so readers compose; each one undoes its writer whatever
follows (`Reads`).
-/
import Lez.Programs.Msig
import Lez.Programs.Vault

namespace Lez.Serde

/-- A value off the front of the words, and the words after it. -/
abbrev Reader (α : Type) := InstructionData → Option (α × InstructionData)

/-- `read` undoes `write` on `p`, whatever comes after. -/
def Reads {α : Type} (p : α → Prop) (read : Reader α) (write : α → InstructionData) : Prop :=
  ∀ a rest, p a → read (write a ++ rest) = .some (a, rest)

/-! ## Words, bytes and sequences -/

def word : Reader UInt32
  | w :: ws => .some (w, ws)
  | [] => .none

def byte : Reader UInt8
  | w :: ws => if w.toNat < 256 then .some (UInt8.ofNat w.toNat, ws) else .none
  | [] => .none

def writeByte (b : UInt8) : InstructionData := [UInt32.ofNat b.toNat]

/-- `n` values in a row. -/
def times {α : Type} (read : Reader α) : Nat → Reader (List α)
  | 0, ws => .some ([], ws)
  | n + 1, ws => do
    let (a, ws) ← read ws
    let (as, ws) ← times read n ws
    pure (a :: as, ws)

/-- A list of a known length as an array. -/
def toVector {α : Type} (n : Nat) (l : List α) : Option (List.Vector α n) :=
  if h : l.length = n then .some ⟨l, h⟩ else .none

/-- An array: its elements in a row. -/
def array {α : Type} (read : Reader α) (n : Nat) : Reader (List.Vector α n) := fun ws => do
  let (l, ws) ← times read n ws
  let v ← toVector n l
  pure (v, ws)

def writeArray {α : Type} {n : Nat} (write : α → InstructionData) (v : List.Vector α n) : InstructionData :=
  v.toList.flatMap write

def bytes32 : Reader Bytes32 := array byte 32
def writeBytes32 : Bytes32 → InstructionData := writeArray writeByte

def programId : Reader ProgramId := array word 8
def writeProgramId (p : ProgramId) : InstructionData := p.toList

/-- A sequence: its length in a word, then its elements. -/
def seq {α : Type} (read : Reader α) : Reader (List α) := fun ws => do
  let (n, ws) ← word ws
  times read n.toNat ws

def writeSeq {α : Type} (write : α → InstructionData) (l : List α) : InstructionData :=
  UInt32.ofNat l.length :: l.flatMap write

/-- Two words, lowest first. -/
def u64 : Reader UInt64
  | a :: b :: ws => .some (UInt64.ofNat (a.toNat + 2 ^ 32 * b.toNat), ws)
  | _ => .none

def writeU64 (v : UInt64) : InstructionData := [UInt32.ofNat v.toNat, UInt32.ofNat (v.toNat / 2 ^ 32)]

/-- Four words, lowest first. -/
def u128 : Reader U128
  | a :: b :: c :: d :: ws =>
    .some (BitVec.ofNat 128 (a.toNat + 2 ^ 32 * (b.toNat + 2 ^ 32 * (c.toNat + 2 ^ 32 * d.toNat))), ws)
  | _ => .none

def writeU128 (v : U128) : InstructionData :=
  [UInt32.ofNat v.toNat, UInt32.ofNat (v.toNat / 2 ^ 32), UInt32.ofNat (v.toNat / 2 ^ 64),
    UInt32.ofNat (v.toNat / 2 ^ 96)]

theorem reads_byte : Reads (fun _ => True) byte writeByte := by
  intro b rest _
  have hb := b.toNat_lt
  have hlt : b.toNat % 2 ^ 32 = b.toNat := Nat.mod_eq_of_lt (by omega)
  have hw : (UInt32.ofNat b.toNat).toNat = b.toNat := by rw [UInt32.toNat_ofNat', hlt]
  simp only [byte, writeByte, List.cons_append, List.nil_append, hw]
  rw [if_pos (by omega), UInt8.ofNat_toNat]

theorem reads_times {α : Type} {p : α → Prop} {read : Reader α} {write : α → InstructionData}
    (h : Reads p read write) : ∀ (l : List α) (rest : InstructionData), (∀ a ∈ l, p a) →
      times read l.length (l.flatMap write ++ rest) = .some (l, rest)
  | [], rest, _ => rfl
  | a :: l, rest, hp => by
    have ih := reads_times h l rest fun b hb => hp b (List.mem_cons_of_mem _ hb)
    rw [List.length_cons, times, List.flatMap_cons, List.append_assoc, h a _ (hp a List.mem_cons_self)]
    simp [ih]

theorem reads_array {α : Type} {read : Reader α} {write : α → InstructionData} {n : Nat}
    (h : Reads (fun _ => True) read write) : Reads (fun _ => True) (array read n) (writeArray write) := by
  intro v rest _
  have ht := reads_times h v.toList rest fun _ _ => trivial
  rw [List.Vector.toList_length] at ht
  simp only [array, writeArray, ht]
  have hv : toVector n v.toList = .some v := by
    obtain ⟨l, hl⟩ := v
    simp only [toVector, List.Vector.toList, hl, ↓reduceDIte]
  simp [hv]

theorem reads_bytes32 : Reads (fun _ => True) bytes32 writeBytes32 := reads_array reads_byte

theorem reads_programId : Reads (fun _ => True) programId writeProgramId := by
  have hw : Reads (fun _ => True) word fun w => [w] := fun w rest _ => rfl
  intro p rest _
  have h := reads_array (n := 8) hw p rest trivial
  simpa [writeArray, writeProgramId, programId] using h

theorem reads_seq {α : Type} {read : Reader α} {write : α → InstructionData}
    (h : Reads (fun _ => True) read write) :
    Reads (fun l => l.length < 2 ^ 32) (seq read) (writeSeq write) := by
  intro l rest hl
  have hw : (UInt32.ofNat l.length).toNat = l.length := by
    rw [UInt32.toNat_ofNat', Nat.mod_eq_of_lt hl]
  have ht := reads_times h l rest fun _ _ => trivial
  simp only [seq, writeSeq, word, List.cons_append, Option.bind_eq_bind, Option.bind_some, hw]
  exact ht

theorem reads_u128 : Reads (fun _ => True) u128 writeU128 := by
  intro v rest _
  have hv := v.isLt
  simp only [u128, writeU128, List.cons_append, List.nil_append, UInt32.toNat_ofNat', Option.some.injEq,
    Prod.mk.injEq, and_true]
  apply BitVec.eq_of_toNat_eq
  rw [BitVec.toNat_ofNat]
  omega

/-! ## Instructions -/

open AuthenticatedTransfer (Instruction)
open Msig (MsigInstruction)

def readTransfer : InstructionData → Option Instruction
  | 0 :: ws => (u128 ws).map fun r => .transfer r.1
  | 1 :: _ => .some .initAccount
  | _ => .none

def writeTransfer : Instruction → InstructionData
  | .transfer amount => 0 :: writeU128 amount
  | .initAccount => [1]

/-- The transfer program's instructions. -/
def transferCodec : Codec Instruction where
  encode := writeTransfer
  decode := readTransfer
  decode_encode := by
    intro i
    cases i with
    | transfer amount =>
      have h := reads_u128 amount [] trivial
      rw [List.append_nil] at h
      simp [readTransfer, writeTransfer, h]
    | initAccount => rfl

def readMsig : InstructionData → Option MsigInstruction
  | 0 :: ws => do
    let (root, ws) ← bytes32 ws
    let (id, _) ← bytes32 ws
    pure (.createProposal root id)
  | 1 :: ws => do
    let (secret, ws) ← bytes32 ws
    let (index, ws) ← word ws
    let (path, ws) ← seq bytes32 ws
    let (id, _) ← bytes32 ws
    pure (.approve secret (index, path) id)
  | 2 :: ws => do
    let (leaf, _) ← bytes32 ws
    pure (.enroll leaf)
  | 3 :: ws => do
    let (seed, ws) ← bytes32 ws
    let (target, _) ← programId ws
    pure (.initTreasury seed target)
  | 4 :: ws => do
    let (threshold, ws) ← word ws
    let (seed, _) ← bytes32 ws
    pure (.execute threshold seed)
  | _ => .none

def writeMsig : MsigInstruction → InstructionData
  | .createProposal root id => 0 :: writeBytes32 root ++ writeBytes32 id
  | .approve secret path id =>
    1 :: writeBytes32 secret ++ path.1 :: writeSeq writeBytes32 path.2 ++ writeBytes32 id
  | .enroll leaf => 2 :: writeBytes32 leaf
  | .initTreasury seed target => 3 :: writeBytes32 seed ++ writeProgramId target
  | .execute threshold seed => 4 :: threshold :: writeBytes32 seed

/-- An instruction whose path fits a length word. -/
def Writable : MsigInstruction → Prop
  | .approve _ path _ => path.2.length < 2 ^ 32
  | _ => True

/-- **Every instruction is read back as it was written**, whatever follows it. -/
theorem readMsig_writeMsig (i : MsigInstruction) (rest : InstructionData) (h : Writable i) :
    readMsig (writeMsig i ++ rest) = .some i := by
  have hb := fun b ws => reads_bytes32 b ws trivial
  cases i with
  | createProposal root id => simp [readMsig, writeMsig, List.append_assoc, hb]
  | approve secret path id =>
    have hs := fun ws => reads_seq reads_bytes32 path.2 ws h
    simp [readMsig, writeMsig, List.append_assoc, hb, word, hs]
  | enroll leaf => simp [readMsig, writeMsig, hb]
  | initTreasury seed target =>
    have hp := fun ws => reads_programId target ws trivial
    simp [readMsig, writeMsig, List.append_assoc, hb, hp]
  | execute threshold seed => simp [readMsig, writeMsig, hb, word]

/-! ## Account ids (`base58`) -/

def str : Reader Bytes := fun ws => do
  let (n, ws) ← word ws
  let (packed, ws) ← times word ((n.toNat + 3) / 4) ws
  pure ((packed.flatMap fun w => toLe 4 w.toNat).take n.toNat, ws)

def writeStr (b : Bytes) : InstructionData :=
  UInt32.ofNat b.length :: (List.range ((b.length + 3) / 4)).map fun k => UInt32.ofNat (ofLe ((b.drop (4 * k)).take 4))

def base58Alphabet : Bytes := ascii "123456789ABCDEFGHJKLMNPQRSTUVWXYZabcdefghijkmnopqrstuvwxyz"

/-- The digits of an id, highest first, behind a `1` for each zero byte it starts with. -/
def toBase58 (id : AccountId) : Bytes :=
  let n := ofLe id.toList.reverse
  let digits := ((List.range 44).reverse.map fun k => n / 58 ^ k % 58).dropWhile (· == 0)
  (id.toList.takeWhile (· == 0)).map (fun _ => base58Alphabet.headD 0) ++ digits.map fun d => base58Alphabet.getD d 0

def fromBase58 (s : Bytes) : Option AccountId := do
  let digits ← s.mapM fun c => base58Alphabet.findIdx? (· == c)
  let n := digits.foldl (fun n d => 58 * n + d) 0
  let zeros := digits.takeWhile (· == 0)
  toVector 32 (zeros.map (fun _ => 0) ++ ((toLe 33 n).reverse.dropWhile (· == 0)))

/-- The vault program's instructions; an account id is its `Display` string. -/
def readVault : InstructionData → Option Vault.Instruction
  | 0 :: ws => do
    let (s, ws) ← str ws
    let recipientId ← fromBase58 s
    let (amount, _) ← u128 ws
    pure (.transfer recipientId amount)
  | 1 :: ws => (u128 ws).map fun r => .claim r.1
  | _ => .none

def writeVault : Vault.Instruction → InstructionData
  | .transfer recipientId amount => 0 :: writeStr (toBase58 recipientId) ++ writeU128 amount
  | .claim amount => 1 :: writeU128 amount

def codecs : Msig.Codecs := ⟨readMsig, transferCodec⟩

end Lez.Serde
