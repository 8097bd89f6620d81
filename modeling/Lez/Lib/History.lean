/-
Points of a history. A point is an event with the events before it; a
property of points holds at some point of a history, or at every one. A
history grows at its end, and adds one point each time.
-/
import Mathlib.Data.List.Basic

namespace Lez.History

variable {α : Type} {P : List α → α → Prop} {l : List α} {x : α}

def Sometime (P : List α → α → Prop) (l : List α) : Prop := ∃ l₁ x l₂, l = l₁ ++ x :: l₂ ∧ P l₁ x

def Always (P : List α → α → Prop) (l : List α) : Prop := ∀ l₁ x l₂, l = l₁ ++ x :: l₂ → P l₁ x

/-- The points of a longer history are the old ones and its end. -/
theorem split_snoc {l₁ l₂ : List α} {y : α} (h : l ++ [x] = l₁ ++ y :: l₂) :
    l₁ = l ∧ y = x ∨ ∃ l₃, l = l₁ ++ y :: l₃ := by
  rcases List.eq_nil_or_concat l₂ with rfl | ⟨l₃, z, rfl⟩
  · obtain ⟨rfl, hy⟩ := List.append_inj' h rfl
    cases hy
    exact .inl ⟨rfl, rfl⟩
  · rw [List.concat_eq_append, ← List.cons_append, ← List.append_assoc] at h
    obtain ⟨rfl, -⟩ := List.append_inj' h rfl
    exact .inr ⟨l₃, rfl⟩

theorem not_sometime_nil : ¬Sometime P [] := by
  rintro ⟨l₁, x, l₂, h, -⟩
  simp at h

theorem always_nil : Always P [] := by
  intro l₁ x l₂ h
  simp at h

theorem sometime_snoc : Sometime P (l ++ [x]) ↔ Sometime P l ∨ P l x := by
  constructor
  · rintro ⟨l₁, y, l₂, h, hp⟩
    rcases split_snoc h with ⟨rfl, rfl⟩ | ⟨l₃, rfl⟩
    · exact .inr hp
    · exact .inl ⟨l₁, y, l₃, rfl, hp⟩
  · rintro (⟨l₁, y, l₂, rfl, hp⟩ | hp)
    · exact ⟨l₁, y, l₂ ++ [x], by simp, hp⟩
    · exact ⟨l, x, [], rfl, hp⟩

theorem always_snoc (h : Always P l) (hx : P l x) : Always P (l ++ [x]) := by
  intro l₁ y l₂ heq
  rcases split_snoc heq with ⟨rfl, rfl⟩ | ⟨l₃, rfl⟩
  · exact hx
  · exact h l₁ y l₃ rfl

theorem Always.imp {Q : List α → α → Prop} (h : Always P l) (himp : ∀ l₁ x, P l₁ x → Q l₁ x) : Always Q l :=
  fun l₁ x l₂ heq => himp l₁ x (h l₁ x l₂ heq)

end Lez.History
