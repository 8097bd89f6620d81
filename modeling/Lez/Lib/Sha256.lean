/-
SHA-256 as FIPS 180-4 writes it, on natural numbers below `2 ^ 32`: padding
to 64-byte blocks, the message schedule as a window of sixteen words, sixty-four
rounds a block. The model takes its hash function as a parameter; this one is
what the parameter stands for wherever a concrete run is evaluated.
-/
import Lez.Lib.Bytes

namespace Lez.Sha256

/-- The eight working variables. -/
structure Working where
  (a b c d e f g h : Nat)

def initial : Working :=
  ⟨0x6a09e667, 0xbb67ae85, 0x3c6ef372, 0xa54ff53a, 0x510e527f, 0x9b05688c, 0x1f83d9ab, 0x5be0cd19⟩

def roundConstants : List Nat := [
  0x428a2f98, 0x71374491, 0xb5c0fbcf, 0xe9b5dba5, 0x3956c25b, 0x59f111f1, 0x923f82a4, 0xab1c5ed5,
  0xd807aa98, 0x12835b01, 0x243185be, 0x550c7dc3, 0x72be5d74, 0x80deb1fe, 0x9bdc06a7, 0xc19bf174,
  0xe49b69c1, 0xefbe4786, 0x0fc19dc6, 0x240ca1cc, 0x2de92c6f, 0x4a7484aa, 0x5cb0a9dc, 0x76f988da,
  0x983e5152, 0xa831c66d, 0xb00327c8, 0xbf597fc7, 0xc6e00bf3, 0xd5a79147, 0x06ca6351, 0x14292967,
  0x27b70a85, 0x2e1b2138, 0x4d2c6dfc, 0x53380d13, 0x650a7354, 0x766a0abb, 0x81c2c92e, 0x92722c85,
  0xa2bfe8a1, 0xa81a664b, 0xc24b8b70, 0xc76c51a3, 0xd192e819, 0xd6990624, 0xf40e3585, 0x106aa070,
  0x19a4c116, 0x1e376c08, 0x2748774c, 0x34b0bcb5, 0x391c0cb3, 0x4ed8aa4a, 0x5b9cca4f, 0x682e6ff3,
  0x748f82ee, 0x78a5636f, 0x84c87814, 0x8cc70208, 0x90befffa, 0xa4506ceb, 0xbef9a3f7, 0xc67178f2]

/-- A sum as a 32-bit word. -/
def word (n : Nat) : Nat := Nat.mod n 0x100000000

def rotr (x n : Nat) : Nat := Nat.lor (Nat.shiftRight x n) (word (Nat.shiftLeft x (Nat.sub 32 n)))

def xor3 (x y z : Nat) : Nat := Nat.xor (Nat.xor x y) z

/-- `W[t]` from the window `W[t-16] … W[t-1]`. -/
def scheduleNext : List Nat → Nat
  | [w0, w1, _, _, _, _, _, _, _, w9, _, _, _, _, w14, _] =>
    word (w0 + xor3 (rotr w1 7) (rotr w1 18) (Nat.shiftRight w1 3) + w9 +
      xor3 (rotr w14 17) (rotr w14 19) (Nat.shiftRight w14 10))
  | _ => 0

def round (s : Working) (k w : Nat) : Working :=
  match s with
  | ⟨a, b, c, d, e, f, g, h⟩ =>
    let t₁ := h + xor3 (rotr e 6) (rotr e 11) (rotr e 25) +
      Nat.xor (Nat.land e f) (Nat.land (Nat.xor e 0xffffffff) g) + k + w
    let t₂ := xor3 (rotr a 2) (rotr a 13) (rotr a 22) + xor3 (Nat.land a b) (Nat.land a c) (Nat.land b c)
    ⟨word (t₁ + t₂), a, b, c, word (d + t₁), e, f, g⟩

/-- The rounds for the constants `ks`, `window` holding the words not used yet. -/
def rounds : List Nat → List Nat → Working → Working
  | [], _, s => s
  | _ :: _, [], s => s
  | k :: ks, w :: ws, s => rounds ks (ws ++ [scheduleNext (w :: ws)]) (round s k w)

def Working.add (s t : Working) : Working :=
  ⟨word (s.a + t.a), word (s.b + t.b), word (s.c + t.c), word (s.d + t.d),
    word (s.e + t.e), word (s.f + t.f), word (s.g + t.g), word (s.h + t.h)⟩

def compress (s : Working) (block : List Nat) : Working := s.add (rounds roundConstants block s)

/-- Big-endian words. -/
def words : Bytes → List Nat
  | b₀ :: b₁ :: b₂ :: b₃ :: rest =>
    (((b₀.toNat * 256 + b₁.toNat) * 256 + b₂.toNat) * 256 + b₃.toNat) :: words rest
  | _ => []

/-- The message, a `1` bit, zeros, and the length in bits, in whole blocks. -/
def padding (m : Bytes) : Bytes :=
  m ++ 0x80 :: (List.replicate ((119 - m.length % 64) % 64) 0 ++ (toLe 8 (8 * m.length)).reverse)

def blocks : Nat → List Nat → Working → Working
  | 0, _, s => s
  | n + 1, ws, s => blocks n (ws.drop 16) (compress s (ws.take 16))

def bytesOf (w : Nat) : Bytes :=
  [UInt8.ofNat (Nat.shiftRight w 24), UInt8.ofNat (Nat.shiftRight w 16), UInt8.ofNat (Nat.shiftRight w 8),
    UInt8.ofNat w]

def output (s : Working) : Bytes32 :=
  ⟨bytesOf s.a ++ bytesOf s.b ++ bytesOf s.c ++ bytesOf s.d ++ bytesOf s.e ++ bytesOf s.f ++ bytesOf s.g ++
    bytesOf s.h, by simp [bytesOf]⟩

/-- SHA-256 of a byte string. -/
def hash (m : Bytes) : Bytes32 :=
  output (blocks ((m.length + 72) / 64) (words (padding m)) initial)

end Lez.Sha256
