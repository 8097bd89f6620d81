/-
Machine arithmetic with its checks: `checked_add` and its relatives, and the
division that stops on a zero divisor. Each answers exactly when the integer
operation fits, and each `_eq_some` says which integer the answer is.
-/
import Mathlib.Data.Nat.Sqrt
import Mathlib.Tactic.Ring

namespace Lez.Checked

variable {w : Nat}

def add (a b : BitVec w) : Option (BitVec w) := if a.toNat + b.toNat < 2 ^ w then .some (a + b) else .none

def sub (a b : BitVec w) : Option (BitVec w) := if b.toNat ≤ a.toNat then .some (a - b) else .none

def mul (a b : BitVec w) : Option (BitVec w) := if a.toNat * b.toNat < 2 ^ w then .some (a * b) else .none

/-- `/`, which panics on a zero divisor. -/
def div (a b : BitVec w) : Option (BitVec w) := if b = 0 then .none else .some (a / b)

/-- `div_ceil`, which panics on a zero divisor. -/
def divCeil (a b : BitVec w) : Option (BitVec w) :=
  if b = 0 then .none else .some (if a % b = 0 then a / b else a / b + 1)

/-- `isqrt`. -/
def isqrt (a : BitVec w) : BitVec w := BitVec.ofNat w a.toNat.sqrt

theorem add_eq_some {a b c : BitVec w} : add a b = .some c ↔ c.toNat = a.toNat + b.toNat := by
  unfold add
  constructor
  · intro h
    split at h
    next hfits =>
      cases h
      rw [BitVec.toNat_add, Nat.mod_eq_of_lt hfits]
    next => cases h
  · intro h
    have hfits : a.toNat + b.toNat < 2 ^ w := h ▸ c.isLt
    rw [if_pos hfits, Option.some.injEq]
    apply BitVec.eq_of_toNat_eq
    rw [BitVec.toNat_add, Nat.mod_eq_of_lt hfits, h]

theorem sub_eq_some {a b c : BitVec w} : sub a b = .some c ↔ c.toNat + b.toNat = a.toNat := by
  unfold sub
  constructor
  · intro h
    split at h
    next hle =>
      cases h
      rw [BitVec.toNat_sub_of_le hle]
      omega
    next => cases h
  · intro h
    have hle : b.toNat ≤ a.toNat := by omega
    rw [if_pos hle, Option.some.injEq]
    apply BitVec.eq_of_toNat_eq
    rw [BitVec.toNat_sub_of_le hle]
    omega

theorem mul_eq_some {a b c : BitVec w} : mul a b = .some c ↔ c.toNat = a.toNat * b.toNat := by
  unfold mul
  constructor
  · intro h
    split at h
    next hfits =>
      cases h
      rw [BitVec.toNat_mul, Nat.mod_eq_of_lt hfits]
    next => cases h
  · intro h
    have hfits : a.toNat * b.toNat < 2 ^ w := h ▸ c.isLt
    rw [if_pos hfits, Option.some.injEq]
    apply BitVec.eq_of_toNat_eq
    rw [BitVec.toNat_mul, Nat.mod_eq_of_lt hfits, h]

theorem toNat_pos_of_ne_zero {b : BitVec w} (h : b ≠ 0) : 0 < b.toNat := by
  rcases Nat.eq_zero_or_pos b.toNat with hz | hp
  · exact absurd (BitVec.eq_of_toNat_eq (by simpa using hz)) h
  · exact hp

theorem div_eq_some {a b c : BitVec w} (h : div a b = .some c) : 0 < b.toNat ∧ c.toNat = a.toNat / b.toNat := by
  unfold div at h
  split at h
  next => cases h
  next hb =>
    cases h
    exact ⟨toNat_pos_of_ne_zero hb, BitVec.toNat_udiv⟩

/-- A quotient rounded down takes no more than the dividend. -/
theorem div_mul_le {a b c : BitVec w} (h : div a b = .some c) : c.toNat * b.toNat ≤ a.toNat := by
  rw [(div_eq_some h).2]
  exact Nat.div_mul_le_self _ _

theorem divCeil_eq_some {a b c : BitVec w} (h : divCeil a b = .some c) :
    0 < b.toNat ∧ c.toNat = if a.toNat % b.toNat = 0 then a.toNat / b.toNat else a.toNat / b.toNat + 1 := by
  unfold divCeil at h
  split at h
  next => cases h
  next hb =>
    have hpos := toNat_pos_of_ne_zero hb
    have hzero : a % b = 0 ↔ a.toNat % b.toNat = 0 := by
      rw [← BitVec.toNat_umod]
      exact ⟨fun hr => by rw [hr]; rfl, fun hr => BitVec.eq_of_toNat_eq (by simpa using hr)⟩
    cases h
    refine ⟨hpos, ?_⟩
    by_cases hr : a % b = 0
    · rw [if_pos hr, if_pos (hzero.mp hr), BitVec.toNat_udiv]
    · rw [if_neg hr, if_neg fun hz => hr (hzero.mpr hz)]
      -- the quotient is below the dividend, so one more still fits
      have hrem := Nat.pos_of_ne_zero fun hz => hr (hzero.mpr hz)
      have hle : a.toNat / b.toNat ≤ a.toNat / b.toNat * b.toNat := Nat.le_mul_of_pos_right _ hpos
      have hdiv := Nat.div_add_mod' a.toNat b.toNat
      have hfits : a.toNat / b.toNat + 1 < 2 ^ w := by
        have := a.isLt
        omega
      have hone : (1 : BitVec w).toNat = 1 % 2 ^ w := rfl
      have hw : 1 % 2 ^ w = 1 := Nat.mod_eq_of_lt (by omega)
      rw [BitVec.toNat_add, BitVec.toNat_udiv, hone, hw, Nat.mod_eq_of_lt hfits]

/-- A quotient rounded up is the least number that covers the dividend. -/
theorem divCeil_le_iff {a b c : BitVec w} (h : divCeil a b = .some c) (n : Nat) :
    c.toNat ≤ n ↔ a.toNat ≤ n * b.toNat := by
  obtain ⟨hpos, hc⟩ := divCeil_eq_some h
  have hdiv := Nat.div_add_mod' a.toNat b.toNat
  have hmod := Nat.mod_lt a.toNat hpos
  rw [hc]
  constructor
  · intro hle
    split at hle
    next => calc
      a.toNat = a.toNat / b.toNat * b.toNat := by omega
      _ ≤ n * b.toNat := Nat.mul_le_mul_right _ hle
    next => calc
      a.toNat ≤ (a.toNat / b.toNat + 1) * b.toNat := by rw [Nat.add_mul]; omega
      _ ≤ n * b.toNat := Nat.mul_le_mul_right _ hle
  · intro hle
    have hq : a.toNat / b.toNat ≤ n := Nat.div_le_of_le_mul (by rwa [Nat.mul_comm])
    split
    next => exact hq
    next hr =>
      rcases Nat.lt_or_eq_of_le hq with hlt | heq
      · exact hlt
      · rw [heq] at hdiv
        omega

/-- A quotient rounded up covers the dividend. -/
theorem le_divCeil_mul {a b c : BitVec w} (h : divCeil a b = .some c) : a.toNat ≤ c.toNat * b.toNat :=
  (divCeil_le_iff h c.toNat).mp le_rfl

theorem divCeil_of_pos {a b : BitVec w} (h : 0 < b.toNat) : ∃ c, divCeil a b = .some c := by
  refine ⟨_, if_neg fun hb => ?_⟩
  rw [hb] at h
  exact absurd h (by simp)

theorem toNat_isqrt (a : BitVec w) : (isqrt a).toNat = a.toNat.sqrt := by
  rw [isqrt, BitVec.toNat_ofNat, Nat.mod_eq_of_lt (Nat.lt_of_le_of_lt (Nat.sqrt_le_self _) a.isLt)]

theorem div_of_pos {a b : BitVec w} (h : 0 < b.toNat) :
    ∃ c, div a b = .some c ∧ c.toNat = a.toNat / b.toNat := by
  refine ⟨a / b, if_neg fun hb => ?_, BitVec.toNat_udiv⟩
  rw [hb] at h
  exact absurd h (by simp)

/-- A wrapped product divided by one factor gives the other exactly when it did not wrap. -/
theorem mul_div_exact_iff {a b : BitVec w} (hb : 0 < b.toNat) :
    div (a * b) b = .some a ↔ a.toNat * b.toNat < 2 ^ w := by
  obtain ⟨c, hc, hval⟩ := div_of_pos (a := a * b) hb
  rw [hc, Option.some.injEq, ← BitVec.toNat_inj, hval, BitVec.toNat_mul]
  constructor
  · intro heq
    by_contra hwrap
    -- what is left of the product is short by at least a whole divisor
    have hmod : a.toNat * b.toNat % 2 ^ w + b.toNat ≤ a.toNat * b.toNat := by
      have hdiv := Nat.mod_add_div (a.toNat * b.toNat) (2 ^ w)
      have hone : 1 ≤ a.toNat * b.toNat / 2 ^ w := (Nat.one_le_div_iff (Nat.two_pow_pos w)).mpr (by omega)
      have hpow : 2 ^ w ≤ 2 ^ w * (a.toNat * b.toNat / 2 ^ w) := Nat.le_mul_of_pos_right _ hone
      have := b.isLt
      omega
    have hle := Nat.div_mul_le_self (a.toNat * b.toNat % 2 ^ w) b.toNat
    have hlt := Nat.lt_div_mul_add (a := a.toNat * b.toNat % 2 ^ w) hb
    rw [heq] at hle hlt
    omega
  · intro hfits
    rw [Nat.mod_eq_of_lt hfits, Nat.mul_div_cancel _ hb]

end Lez.Checked
