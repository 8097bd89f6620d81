/-
The ChaCha20 stream cipher in the form with a 32-bit block counter and a
96-bit nonce, on natural numbers below `2 ^ 32`. The model takes its cipher
as a parameter; this one is what the parameter stands for wherever a concrete
run is evaluated.
-/
import Lez.Lib.Bytes

namespace Lez.ChaCha20

/-- A sum as a 32-bit word. -/
def word (n : Nat) : Nat := Nat.mod n 0x100000000

def rotl (x n : Nat) : Nat := Nat.lor (word (Nat.shiftLeft x n)) (Nat.shiftRight x (Nat.sub 32 n))

/-- A column of the state, or a diagonal. -/
structure Column where
  (a b c d : Nat)

def quarterRound : Column → Column
  | ⟨a, b, c, d⟩ =>
    let a := word (a + b)
    let d := rotl (Nat.xor d a) 16
    let c := word (c + d)
    let b := rotl (Nat.xor b c) 12
    let a := word (a + b)
    let d := rotl (Nat.xor d a) 8
    let c := word (c + d)
    let b := rotl (Nat.xor b c) 7
    ⟨a, b, c, d⟩

/-- The sixteen words, by columns. -/
structure State where
  (p q r s : Column)

/-- The columns of one state are the diagonals of another. -/
def State.diagonals : State → State
  | ⟨p, q, r, s⟩ => ⟨⟨p.a, q.b, r.c, s.d⟩, ⟨q.a, r.b, s.c, p.d⟩, ⟨r.a, s.b, p.c, q.d⟩, ⟨s.a, p.b, q.c, r.d⟩⟩

def State.undiagonals : State → State
  | ⟨p, q, r, s⟩ => ⟨⟨p.a, s.b, r.c, q.d⟩, ⟨q.a, p.b, s.c, r.d⟩, ⟨r.a, q.b, p.c, s.d⟩, ⟨s.a, r.b, q.c, p.d⟩⟩

def State.columnRound (t : State) : State :=
  ⟨quarterRound t.p, quarterRound t.q, quarterRound t.r, quarterRound t.s⟩

def State.doubleRound (t : State) : State := t.columnRound.diagonals.columnRound.undiagonals

def doubleRounds : Nat → State → State
  | 0, t => t
  | n + 1, t => doubleRounds n t.doubleRound

/-- The words row by row. -/
def State.words : State → List Nat
  | ⟨p, q, r, s⟩ => [p.a, q.a, r.a, s.a, p.b, q.b, r.b, s.b, p.c, q.c, r.c, s.c, p.d, q.d, r.d, s.d]

/-- The `i`-th little-endian word. -/
def leWord (b : Bytes) (i : Nat) : Nat := ofLe ((b.drop (4 * i)).take 4)

def start (key nonce : Bytes) (counter : Nat) : State :=
  ⟨⟨0x61707865, leWord key 0, leWord key 4, counter⟩, ⟨0x3320646e, leWord key 1, leWord key 5, leWord nonce 0⟩,
    ⟨0x79622d32, leWord key 2, leWord key 6, leWord nonce 1⟩, ⟨0x6b206574, leWord key 3, leWord key 7, leWord nonce 2⟩⟩

/-- The 64 bytes of keystream for one value of the counter. -/
def block (key nonce : Bytes) (counter : Nat) : Bytes :=
  let t := start key nonce counter
  (List.zipWith (fun x y => toLe 4 (word (x + y))) (doubleRounds 10 t).words t.words).flatten

/-- `apply_keystream` from the first block on. -/
def applyKeystream (key nonce : Bytes) (b : Bytes) : Bytes :=
  List.zipWith (· ^^^ ·) b ((List.range ((b.length + 63) / 64)).flatMap (block key nonce))

theorem block_length (key nonce : Bytes) (counter : Nat) : (block key nonce counter).length = 64 := by
  unfold block
  generalize doubleRounds 10 (start key nonce counter) = t
  rfl

theorem keystream_length (key nonce : Bytes) (n : Nat) : ((List.range n).flatMap (block key nonce)).length = 64 * n := by
  induction n with
  | zero => rfl
  | succ n ih =>
    rw [List.range_succ, List.flatMap_append, List.length_append, ih, List.flatMap_singleton, block_length]
    omega

theorem zipWith_xor_cancel : ∀ {b k : Bytes}, b.length ≤ k.length →
    List.zipWith (· ^^^ ·) (List.zipWith (· ^^^ ·) b k) k = b
  | [], _, _ => by simp
  | _ :: _, [], h => by simp at h
  | x :: b, y :: k, h => by
    have hrest : b.length ≤ k.length := by simpa using h
    rw [List.zipWith_cons_cons, List.zipWith_cons_cons, zipWith_xor_cancel hrest, UInt8.xor_assoc, UInt8.xor_self,
      UInt8.xor_zero]

/-- Applying the keystream again takes it off. -/
theorem applyKeystream_involutive (key nonce b : Bytes) :
    applyKeystream key nonce (applyKeystream key nonce b) = b := by
  have hlong : b.length ≤ ((List.range ((b.length + 63) / 64)).flatMap (block key nonce)).length := by
    rw [keystream_length]
    omega
  have hlength : (applyKeystream key nonce b).length = b.length := by
    rw [applyKeystream, List.length_zipWith]
    omega
  rw [applyKeystream, hlength, applyKeystream]
  exact zipWith_xor_cancel hlong

end Lez.ChaCha20
