/-
Notes on the receiving side: `EncryptionScheme::decrypt` and the decoders
under it. What was encrypted under a shared secret decrypts under it to the
same kind and account (`decrypt_encrypt`), for a cipher that is its own
inverse. Nothing in a note is authenticated: any ciphertext whose keystream
turns it into a header and an account decrypts to them.
-/
import Lez.Circuit.Output
import Lez.Lib.Cursor

namespace Lez.Wallet

open Circuit Cursor

def readProgramId (buf : Bytes) : Option (ProgramId × Bytes) := do
  let (ws, buf) ← readWords 8 buf
  if h : ws.length = 8 then .some (⟨ws, h⟩, buf) else .none

/-- `Account::from_cursor`; what follows the account is not read. -/
def accountFromCursor (buf : Bytes) : Option Account := do
  let (programOwner, buf) ← readProgramId buf
  let (balance, buf) ← readLe 16 buf
  let (nonce, buf) ← readLe 16 buf
  let (dataLength, buf) ← readLe 4 buf
  if dataMaxLength < dataLength then .none
  else do
    let (bytes, _) ← read dataLength buf
    let data ← Data.tryFrom bytes
    return ⟨programOwner, BitVec.ofNat 128 balance, data, BitVec.ofNat 128 nonce⟩

/-- `PrivateAccountKind::HEADER_LEN`. -/
def headerLen : Nat := 81

/-- `PrivateAccountKind::from_header_bytes`; the padding is not read. -/
def fromHeaderBytes : Bytes → Option PrivateAccountKind
  | [] => .none
  | tag :: buf =>
    if tag = 0 then do
      let (identifier, _) ← readLe 16 buf
      return .regular (BitVec.ofNat 128 identifier)
    else if tag = 1 then do
      let (programId, buf) ← readProgramId buf
      let seed ← readArray 32 buf
      let (identifier, _) ← readLe 16 (buf.drop 32)
      return .pda programId seed (BitVec.ofNat 128 identifier)
    else .none

/-- `EncryptionScheme::decrypt`. -/
def decrypt (H : Host) (ciphertext : Bytes) (sharedSecret : Bytes32) (commitment : Commitment) (outputIndex : Nat) :
    Option (PrivateAccountKind × Account) :=
  let buffer := H.chacha20 (kdf H sharedSecret commitment outputIndex) ciphertext
  if buffer.length < headerLen then .none
  else do
    let kind ← fromHeaderBytes (buffer.take headerLen)
    let account ← accountFromCursor (buffer.drop headerLen)
    return (kind, account)

/-! ## What was encrypted decrypts -/

theorem readProgramId_append (p : ProgramId) (rest : Bytes) : readProgramId (p.toBytes ++ rest) = .some (p, rest) := by
  obtain ⟨ws, hws⟩ := p
  have hread := readWords_append ws rest
  rw [hws] at hread
  simp [readProgramId, ProgramId.toBytes, List.Vector.toList, hread, hws]

theorem toNat_lt_256 (x : U128) : x.toNat < 256 ^ 16 := x.isLt

theorem accountFromCursor_toBytes (a : Account) (rest : Bytes) : accountFromCursor (a.toBytes ++ rest) = .some a := by
  obtain ⟨owner, balance, data, nonce⟩ := a
  have hmax : data.1.length < 256 ^ 4 := lt_of_le_of_lt data.2 (by decide)
  have hle : ¬dataMaxLength < data.1.length := Nat.not_lt.mpr data.2
  have htry : Data.tryFrom data.1 = .some data := Data.tryFrom_eq_some.mpr rfl
  simp [accountFromCursor, Account.toBytes, List.append_assoc, readProgramId_append, readLe_append (toNat_lt_256 _),
    readLe_append hmax, read_append rfl, hle, htry]

theorem toHeaderBytes_length (kind : PrivateAccountKind) : (toHeaderBytes kind).length = headerLen := by
  cases kind <;> simp [toHeaderBytes, headerLen]

theorem fromHeaderBytes_toHeaderBytes (kind : PrivateAccountKind) :
    fromHeaderBytes (toHeaderBytes kind) = .some kind := by
  cases kind with
  | regular identifier => simp [toHeaderBytes, fromHeaderBytes, readLe_append (toNat_lt_256 _)]
  | pda programId seed identifier =>
    have hdrop : (seed.toList ++ toLe 16 identifier.toNat).drop 32 = toLe 16 identifier.toNat :=
      List.drop_left' (by simp)
    have hlast := readLe_append (toNat_lt_256 identifier) []
    rw [List.append_nil] at hlast
    simp [toHeaderBytes, fromHeaderBytes, List.append_assoc, readProgramId_append, readArray_append, hdrop, hlast]

/-- **A note opens under the secret it was made with.** -/
theorem decrypt_encrypt {H : Host} (hcipher : ∀ key m, H.chacha20 key (H.chacha20 key m) = m) (a : Account)
    (kind : PrivateAccountKind) (sharedSecret : Bytes32) (commitment : Commitment) (outputIndex : Nat) :
    decrypt H (encrypt H a kind sharedSecret commitment outputIndex) sharedSecret commitment outputIndex =
      .some (kind, a) := by
  have hlen := toHeaderBytes_length kind
  have hlong : ¬(toHeaderBytes kind ++ a.toBytes).length < headerLen := by
    rw [List.length_append, hlen]
    omega
  have haccount := accountFromCursor_toBytes a []
  rw [List.append_nil] at haccount
  simp only [decrypt, encrypt, hcipher, hlong, if_false, List.take_left' hlen, List.drop_left' hlen,
    fromHeaderBytes_toHeaderBytes, haccount]
  rfl

end Lez.Wallet
