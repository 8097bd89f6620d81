/-
Borsh, the format of the crate of that name, whose code is not part of the
program: the formats here are written from its specification, and the types
they are derived for are the program's. A `Format` writes values and reads
them off the front of a buffer, and carries the two laws that tie the
directions: what is written is read back whatever follows, and what is read
was written so. Numbers are little-endian, strings are a length and
well-formed UTF-8, a struct is its fields in order and an enum the number of
its variant before the variant's fields. `tryFromSlice` wants the whole
buffer, so it answers on the written bytes of a value and on nothing else
(`tryFromSlice_eq_some`).
-/
import Lez.Lib.Cursor
import Mathlib.Logic.Equiv.Defs

namespace Lez.Borsh

structure Format (α : Type) where
  write : α → Bytes
  read : Bytes → Option (α × Bytes)
  read_write : ∀ a rest, read (write a ++ rest) = .some (a, rest)
  write_read : ∀ {buf a rest}, read buf = .some (a, rest) → buf = write a ++ rest

variable {α β : Type}

/-- `try_from_slice`: nothing may be left over. -/
def Format.tryFromSlice (F : Format α) (buf : Bytes) : Option α :=
  (F.read buf).bind fun r => if r.2 = [] then .some r.1 else .none

theorem Format.tryFromSlice_eq_some (F : Format α) {buf : Bytes} {a : α} :
    F.tryFromSlice buf = .some a ↔ buf = F.write a := by
  unfold tryFromSlice
  rw [Option.bind_eq_some_iff]
  constructor
  · rintro ⟨⟨b, rest⟩, hread, h⟩
    split at h
    next hrest =>
      cases h
      rw [F.write_read hread, show rest = [] from hrest, List.append_nil]
    next => cases h
  · intro h
    refine ⟨(a, []), ?_, if_pos rfl⟩
    rw [h, ← F.read_write a [], List.append_nil]

theorem Format.tryFromSlice_write (F : Format α) (a : α) : F.tryFromSlice (F.write a) = .some a :=
  F.tryFromSlice_eq_some.mpr rfl

/-! ## Numbers and arrays -/

theorem read_eq_some {n : Nat} {buf bytes rest : Bytes} (h : Cursor.read n buf = .some (bytes, rest)) :
    buf = bytes ++ rest ∧ bytes.length = n := by
  unfold Cursor.read at h
  split at h
  next hle =>
    cases h
    exact ⟨(List.take_append_drop n buf).symm, by simp [hle]⟩
  next => cases h

theorem readLe_eq_some {w n : Nat} {buf rest : Bytes} (h : Cursor.readLe w buf = .some (n, rest)) :
    buf = toLe w n ++ rest ∧ n < 256 ^ w := by
  simp only [Cursor.readLe, Option.bind_eq_bind, Option.bind_eq_some_iff, Prod.exists] at h
  obtain ⟨bytes, rest', hread, h⟩ := h
  cases h
  obtain ⟨rfl, rfl⟩ := read_eq_some hread
  exact ⟨by rw [toLe_ofLe], ofLe_lt bytes⟩

/-- An unsigned number of `k` bytes. -/
def uint (k : Nat) : Format (BitVec (8 * k)) where
  write v := toLe k v.toNat
  read buf := (Cursor.readLe k buf).map fun r => (BitVec.ofNat _ r.1, r.2)
  read_write := by
    intro v rest
    have hv : v.toNat < 256 ^ k := by
      have := v.isLt
      rwa [Nat.pow_mul] at this
    rw [Cursor.readLe_append hv]
    simp
  write_read := by
    intro buf v rest h
    obtain ⟨⟨n, r⟩, hread, h⟩ := Option.map_eq_some_iff.mp h
    cases h
    obtain ⟨hbuf, hn⟩ := readLe_eq_some hread
    have hfits : n < 2 ^ (8 * k) := by rwa [Nat.pow_mul]
    rw [BitVec.toNat_ofNat, Nat.mod_eq_of_lt hfits]
    exact hbuf

def u128 : Format (BitVec 128) := uint 16

def u64 : Format (BitVec 64) := uint 8

/-- `[u8; n]`. -/
def bytes (n : Nat) : Format (ByteVec n) where
  write v := v.toList
  read buf := (readArray n buf).map fun v => (v, buf.drop n)
  read_write := by
    intro v rest
    rw [readArray_append, Option.map_some, List.drop_left' v.toList_length]
  write_read := by
    intro buf v rest h
    obtain ⟨v', hread, h⟩ := Option.map_eq_some_iff.mp h
    cases h
    exact readArray_some hread

/-! ## Strings -/

/-- Where a UTF-8 decoder stands: how many bytes of a character are missing, and the range of the next one. -/
structure Utf8State where
  missing : Nat
  low : UInt8
  high : UInt8

/-- The well-formed sequences of the Unicode standard, byte by byte. -/
def Utf8State.step (s : Utf8State) (b : UInt8) : Option Utf8State :=
  match s.missing with
  | missing + 1 => if s.low ≤ b ∧ b ≤ s.high then .some ⟨missing, 0x80, 0xBF⟩ else .none
  | 0 =>
    if b ≤ 0x7F then .some ⟨0, 0x80, 0xBF⟩
    else if 0xC2 ≤ b ∧ b ≤ 0xDF then .some ⟨1, 0x80, 0xBF⟩
    else if b = 0xE0 then .some ⟨2, 0xA0, 0xBF⟩
    else if b = 0xED then .some ⟨2, 0x80, 0x9F⟩
    else if 0xE1 ≤ b ∧ b ≤ 0xEF then .some ⟨2, 0x80, 0xBF⟩
    else if b = 0xF0 then .some ⟨3, 0x90, 0xBF⟩
    else if 0xF1 ≤ b ∧ b ≤ 0xF3 then .some ⟨3, 0x80, 0xBF⟩
    else if b = 0xF4 then .some ⟨3, 0x80, 0x8F⟩
    else .none

/-- `str::from_utf8` accepts. -/
def utf8Valid (b : Bytes) : Bool := (b.foldlM Utf8State.step ⟨0, 0x80, 0xBF⟩).any (·.missing == 0)

/-- A `String` whose length fits its length word. -/
abbrev Text := {b : Bytes // utf8Valid b = true ∧ b.length < 2 ^ 32}

def text : Format Text where
  write s := toLe 4 s.1.length ++ s.1
  read buf := do
    let (n, buf) ← Cursor.readLe 4 buf
    let (b, buf) ← Cursor.read n buf
    if h : utf8Valid b = true ∧ b.length < 2 ^ 32 then return (⟨b, h⟩, buf) else .none
  read_write := by
    intro s rest
    have hlen : s.1.length < 256 ^ 4 := s.2.2
    rw [List.append_assoc, Cursor.readLe_append hlen]
    have hfits : s.1.length < 4294967296 := s.2.2
    simp [Cursor.read_append (n := s.1.length) rfl, s.2.1, hfits]
  write_read := by
    intro buf s rest h
    simp only [Option.bind_eq_bind, Option.bind_eq_some_iff, Prod.exists] at h
    obtain ⟨n, buf', hn, b, buf'', hb, h⟩ := h
    split at h
    next =>
      cases h
      obtain ⟨rfl, -⟩ := readLe_eq_some hn
      obtain ⟨rfl, rfl⟩ := read_eq_some hb
      rw [List.append_assoc]
    next => cases h

/-! ## Structs -/

def unit : Format Unit where
  write _ := []
  read buf := .some ((), buf)
  read_write _ _ := rfl
  write_read := by
    intro buf a rest h
    cases h
    rfl

def prod (F : Format α) (G : Format β) : Format (α × β) where
  write p := F.write p.1 ++ G.write p.2
  read buf := do
    let (a, buf) ← F.read buf
    let (b, buf) ← G.read buf
    return ((a, b), buf)
  read_write := by
    intro p rest
    simp [List.append_assoc, F.read_write, G.read_write]
  write_read := by
    intro buf p rest h
    simp only [Option.bind_eq_bind, Option.bind_eq_some_iff, Prod.exists] at h
    obtain ⟨a, buf', ha, b, buf'', hb, h⟩ := h
    cases h
    rw [F.write_read ha, G.write_read hb, List.append_assoc]

/-- The same bytes for another representation of the values. -/
def Format.map (F : Format α) (e : α ≃ β) : Format β where
  write b := F.write (e.symm b)
  read buf := (F.read buf).map fun r => (e r.1, r.2)
  read_write := by
    intro b rest
    simp [F.read_write]
  write_read := by
    intro buf b rest h
    obtain ⟨⟨a, r⟩, hread, h⟩ := Option.map_eq_some_iff.mp h
    cases h
    simpa using F.write_read hread

/-! ## Enums -/

/-- The variants of an enum from number `t` on. -/
structure Variants (t : Nat) (α : Type) extends Format α where
  /-- Each starts with its number. -/
  numbered : ∀ a, ∃ n rest, t ≤ n ∧ n < 256 ∧ write a = UInt8.ofNat n :: rest

def Variants.none (t : Nat) : Variants t Empty where
  write := Empty.elim
  read _ := .none
  read_write := by
    intro a
    exact a.elim
  write_read := by
    intro buf a
    exact a.elim
  numbered := by
    intro a
    exact a.elim

/-- One variant more, before the others. -/
def Variants.cons {t : Nat} (ht : t < 256) (F : Format α) (V : Variants (t + 1) β) : Variants t (α ⊕ β) where
  write
    | .inl a => UInt8.ofNat t :: F.write a
    | .inr b => V.write b
  read
    | [] => .none
    | n :: buf =>
      if n = UInt8.ofNat t then (F.read buf).map fun r => (.inl r.1, r.2)
      else (V.read (n :: buf)).map fun r => (.inr r.1, r.2)
  read_write := by
    intro a rest
    cases a with
    | inl a => simp [F.read_write]
    | inr b =>
      obtain ⟨n, tail, hn, hlt, hw⟩ := V.numbered b
      have hne : UInt8.ofNat n ≠ UInt8.ofNat t := by
        intro he
        have := congrArg UInt8.toNat he
        rw [UInt8.toNat_ofNat_of_lt' hlt, UInt8.toNat_ofNat_of_lt' ht] at this
        exact Nat.ne_of_gt hn this
      have hread := V.read_write b rest
      simp only [hw, List.cons_append] at hread
      simp only [hw, List.cons_append, if_neg hne, hread, Option.map_some]
  write_read := by
    intro buf a rest h
    cases buf with
    | nil => cases h
    | cons n buf =>
      dsimp only at h
      split at h
      next hn =>
        obtain ⟨⟨a', r⟩, hread, h⟩ := Option.map_eq_some_iff.mp h
        cases h
        rw [hn, F.write_read hread, List.cons_append]
      next =>
        obtain ⟨⟨b, r⟩, hread, h⟩ := Option.map_eq_some_iff.mp h
        cases h
        exact V.write_read hread
  numbered := by
    intro a
    cases a with
    | inl a => exact ⟨t, _, Nat.le_refl t, ht, rfl⟩
    | inr b =>
      obtain ⟨n, tail, hn, hrest⟩ := V.numbered b
      exact ⟨n, tail, Nat.le_of_succ_le hn, hrest⟩

theorem tag₀ : 0 < 256 := by decide

theorem tag₁ : 0 + 1 < 256 := by decide

theorem tag₂ : 0 + 1 + 1 < 256 := by decide

/-- An enum of two variants. -/
def either (F : Format α) (G : Format β) : Format (α ⊕ β ⊕ Empty) :=
  (Variants.cons tag₀ F (.cons tag₁ G (.none 2))).toFormat

def bool : Format Bool :=
  (either unit unit).map
    { toFun := fun
        | .inl _ => false
        | .inr (.inl _) => true
        | .inr (.inr e) => e.elim
      invFun := fun
        | false => .inl ()
        | true => .inr (.inl ())
      left_inv := by
        rintro (_ | _ | e)
        · rfl
        · rfl
        · exact e.elim
      right_inv := by
        intro b
        cases b <;> rfl }

def option (F : Format α) : Format (Option α) :=
  (either unit F).map
    { toFun := fun
        | .inl _ => .none
        | .inr (.inl a) => .some a
        | .inr (.inr e) => e.elim
      invFun := fun
        | .none => .inl ()
        | .some a => .inr (.inl a)
      left_inv := by
        rintro (_ | a | e)
        · rfl
        · rfl
        · exact e.elim
      right_inv := by
        intro o
        cases o <;> rfl }

end Lez.Borsh
