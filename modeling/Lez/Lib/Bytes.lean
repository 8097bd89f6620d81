/-
Byte strings: arrays of a fixed length, little-endian numbers, and the two
readers every fixed layout is parsed with (one array off the front of a
buffer, `n` arrays in a row). Each writer comes with the reader that undoes
it, and concatenation at a known length is injective.
-/
import Mathlib.Data.Vector.Basic
import Mathlib.Tactic.Ring

namespace Lez

/-- A byte string of any length. -/
abbrev Bytes := List UInt8

/-- `[u8; n]`. -/
abbrev ByteVec (n : Nat) := List.Vector UInt8 n

abbrev Bytes32 := ByteVec 32

-- A byte array is also a `Fintype`; what holds of the members of a list is decided over the list.
instance (priority := 2000) decidableForallMem {α : Type} {p : α → Prop} [DecidablePred p] (l : List α) :
    Decidable (∀ a ∈ l, p a) := List.decidableBAll p l

instance (priority := 2000) decidableExistsMem {α : Type} {p : α → Prop} [DecidablePred p] (l : List α) :
    Decidable (∃ a ∈ l, p a) := List.decidableBEx p l

instance (priority := 2000) decidableMem {n : Nat} (a : ByteVec n) (l : List (ByteVec n)) : Decidable (a ∈ l) :=
  List.instDecidableMemOfLawfulBEq a l

/-- `[b; n]`. -/
def ByteVec.fill (n : Nat) (b : UInt8) : ByteVec n := ⟨List.replicate n b, by simp⟩

/-- The bytes of the first and then of the second. -/
def pairPreimage (p : Bytes32 × Bytes32) : Bytes := p.1.toList ++ p.2.toList

theorem pairPreimage_injective : Function.Injective pairPreimage := by
  rintro ⟨a, b⟩ ⟨c, d⟩ h
  obtain ⟨hac, hbd⟩ := List.append_inj h (by simp)
  exact Prod.ext (List.Vector.toList_injective hac) (List.Vector.toList_injective hbd)

/-! ## Little-endian numbers -/

/-- The `w` low bytes of `n`, lowest first. -/
def toLe : Nat → Nat → Bytes
  | 0, _ => []
  | w + 1, n => UInt8.ofNat n :: toLe w (n / 256)

/-- The number a little-endian byte string denotes. -/
def ofLe : Bytes → Nat
  | [] => 0
  | b :: bs => b.toNat + 256 * ofLe bs

@[simp] theorem toLe_length : ∀ (w n : Nat), (toLe w n).length = w
  | 0, _ => rfl
  | w + 1, n => by simp [toLe, toLe_length w]

theorem ofLe_toLe : ∀ (w n : Nat), ofLe (toLe w n) = n % 256 ^ w
  | 0, n => by simp [toLe, ofLe, Nat.mod_one]
  | w + 1, n => by
    have hb : (UInt8.ofNat n).toNat = n % 256 := by simp
    rw [toLe, ofLe, ofLe_toLe w, hb, Nat.pow_succ', Nat.mod_mul]

theorem ofLe_toLe_of_lt {w n : Nat} (h : n < 256 ^ w) : ofLe (toLe w n) = n := by
  rw [ofLe_toLe, Nat.mod_eq_of_lt h]

theorem toLe_inj {w m n : Nat} (hm : m < 256 ^ w) (hn : n < 256 ^ w) (h : toLe w m = toLe w n) : m = n := by
  rw [← ofLe_toLe_of_lt hm, ← ofLe_toLe_of_lt hn, h]

theorem ofLe_lt : ∀ (bs : Bytes), ofLe bs < 256 ^ bs.length
  | [] => by simp [ofLe]
  | b :: bs => by
    have ih := ofLe_lt bs
    have hb := b.toNat_lt
    rw [ofLe, List.length_cons, Nat.pow_succ']
    omega

theorem toLe_ofLe : ∀ (bs : Bytes), toLe bs.length (ofLe bs) = bs
  | [] => rfl
  | b :: bs => by
    have hb := b.toNat_lt
    have hdiv : (b.toNat + 256 * ofLe bs) / 256 = ofLe bs := by omega
    have hhead : UInt8.ofNat (b.toNat + 256 * ofLe bs) = b := by
      apply UInt8.toNat_inj.mp
      simp
    rw [List.length_cons, toLe, ofLe, hdiv, toLe_ofLe bs, hhead]

/-! ## Reading arrays off a buffer -/

/-- `buf[..n]` as an array, `none` when the buffer is too short. -/
def readArray (n : Nat) (buf : Bytes) : Option (ByteVec n) :=
  if h : n ≤ buf.length then .some ⟨buf.take n, by simp [h]⟩ else .none

/-- `n` arrays of 32 bytes in a row, `none` when the buffer runs out. -/
def readArrays : Nat → Bytes → Option (List Bytes32)
  | 0, _ => .some []
  | n + 1, buf => do
    let a ← readArray 32 buf
    let as ← readArrays n (buf.drop 32)
    return a :: as

/-- The concatenation of 32-byte arrays. -/
def flatten (as : List Bytes32) : Bytes := as.flatMap (·.toList)

@[simp] theorem flatten_cons (a : Bytes32) (as : List Bytes32) :
    flatten (a :: as) = a.toList ++ flatten as := rfl

@[simp] theorem flatten_length : ∀ (as : List Bytes32), (flatten as).length = 32 * as.length
  | [] => rfl
  | a :: as => by simp [flatten_length as]; ring

theorem readArray_append {n : Nat} (a : ByteVec n) (rest : Bytes) :
    readArray n (a.toList ++ rest) = .some a := by
  have h : n ≤ (a.toList ++ rest).length := by simp
  simp only [readArray, h, ↓reduceDIte]
  congr 1
  apply List.Vector.eq
  exact List.take_left' (by simp)

theorem readArray_some {n : Nat} {buf : Bytes} {a : ByteVec n} (h : readArray n buf = .some a) :
    buf = a.toList ++ buf.drop n := by
  unfold readArray at h
  split at h
  · cases h; simp [List.Vector.toList]
  · cases h

theorem readArrays_flatten : ∀ (as : List Bytes32) (rest : Bytes),
    readArrays as.length (flatten as ++ rest) = .some as
  | [], _ => rfl
  | a :: as, rest => by
    have hd : (flatten (a :: as) ++ rest).drop 32 = flatten as ++ rest := by
      rw [flatten_cons, List.append_assoc]
      exact List.drop_left' (by simp)
    rw [List.length_cons, readArrays, hd, flatten_cons, List.append_assoc, readArray_append,
      readArrays_flatten as rest]
    rfl

theorem readArrays_some : ∀ {n : Nat} {buf : Bytes} {as : List Bytes32}, readArrays n buf = .some as →
    as.length = n ∧ ∃ rest, buf = flatten as ++ rest
  | 0, buf, as, h => by cases h; exact ⟨rfl, buf, rfl⟩
  | n + 1, buf, as, h => by
    simp only [readArrays, Option.bind_eq_bind, Option.bind_eq_some_iff] at h
    obtain ⟨a, ha, bs, hbs, h⟩ := h
    cases h
    obtain ⟨hlen, rest, hrest⟩ := readArrays_some hbs
    refine ⟨by simp [hlen], rest, ?_⟩
    rw [flatten_cons, List.append_assoc, ← hrest]
    exact readArray_some ha

end Lez
