/-
Reading a byte buffer from the front: a run of bytes, a little-endian number,
a row of 32-bit words. A read returns what is left, and fails where the buffer
ends early. Each reader undoes the writer of the same layout, whatever follows.
-/
import Lez.Lib.Bytes

namespace Lez.Cursor

/-- `read_exact` into a buffer of `n` bytes. -/
def read (n : Nat) (buf : Bytes) : Option (Bytes × Bytes) :=
  if n ≤ buf.length then .some (buf.take n, buf.drop n) else .none

/-- A number of `w` bytes, lowest first. -/
def readLe (w : Nat) (buf : Bytes) : Option (Nat × Bytes) := do
  let (bytes, rest) ← read w buf
  return (ofLe bytes, rest)

/-- `n` words of four bytes. -/
def readWords : Nat → Bytes → Option (List UInt32 × Bytes)
  | 0, buf => .some ([], buf)
  | n + 1, buf => do
    let (w, buf) ← readLe 4 buf
    let (ws, buf) ← readWords n buf
    return (UInt32.ofNat w :: ws, buf)

theorem read_append {n : Nat} {bytes : Bytes} (h : bytes.length = n) (rest : Bytes) :
    read n (bytes ++ rest) = .some (bytes, rest) := by
  subst h
  simp [read]

theorem readLe_append {w n : Nat} (h : n < 256 ^ w) (rest : Bytes) :
    readLe w (toLe w n ++ rest) = .some (n, rest) := by
  simp [readLe, read_append (toLe_length w n), ofLe_toLe_of_lt h]

theorem readWords_append : ∀ (ws : List UInt32) (rest : Bytes),
    readWords ws.length ((ws.flatMap fun w => toLe 4 w.toNat) ++ rest) = .some (ws, rest)
  | [], rest => rfl
  | w :: ws, rest => by
    have hw : w.toNat < 256 ^ 4 := w.toNat_lt
    rw [List.length_cons, readWords, List.flatMap_cons, List.append_assoc, readLe_append hw]
    simp [readWords_append ws rest]

end Lez.Cursor
