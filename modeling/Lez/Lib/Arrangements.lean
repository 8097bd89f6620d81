/-
Two iterator adaptors of the crate `itertools`: the arrangements of a list,
and its elements without repetition. The crate's code is not part of the
program: a program that uses it has the adaptors as a parameter (`Itertools`),
of which no more is assumed than what they are documented to yield.
`positional`, which yields arrangements by position and keeps first
occurrences, stands for them wherever a concrete run is evaluated.
-/
import Mathlib.Data.List.Perm.Subperm
import Mathlib.Data.List.Dedup
import Mathlib.Data.Nat.Factorial.Basic

namespace Lez.Arrangements

/-- `permutations(k)`, which is only called with the length of the list, and `unique`. -/
structure Itertools where
  permutations : {α : Type} → Nat → List α → List (List α)
  unique : {α : Type} → [DecidableEq α] → List α → List α
  mem_permutations : ∀ {α : Type} {l p : List α}, p ∈ permutations l.length l ↔ p.Perm l
  length_permutations : ∀ {α : Type} (l : List α), (permutations l.length l).length = l.length.factorial
  mem_unique : ∀ {α : Type} [DecidableEq α] {l : List α} {a : α}, a ∈ unique l ↔ a ∈ l
  nodup_unique : ∀ {α : Type} [DecidableEq α] (l : List α), (unique l).Nodup

theorem Itertools.length_unique_le (I : Itertools) {α : Type} [DecidableEq α] (l : List α) :
    (I.unique l).length ≤ l.length :=
  (List.subperm_of_subset (I.nodup_unique l) fun _ h => I.mem_unique.mp h).length_le

variable {α : Type}

/-! ## Permutations -/

/-- Each element with the others, by position. -/
def picks : List α → List (α × List α)
  | [] => []
  | a :: l => (a, l) :: (picks l).map fun (b, rest) => (b, a :: rest)

/-- By the position of the first element, then of the second, and so on. -/
def permutations : Nat → List α → List (List α)
  | 0, _ => [[]]
  | k + 1, l => (picks l).flatMap fun (a, rest) => (permutations k rest).map (a :: ·)

theorem perm_of_mem_picks : ∀ {l rest : List α} {a : α}, (a, rest) ∈ picks l → (a :: rest).Perm l
  | [], _, _, h => nomatch h
  | b :: l, rest, a, h => by
    rcases List.mem_cons.mp h with heq | hmem
    · cases heq
      exact .refl _
    · obtain ⟨⟨c, rest'⟩, hpick, heq⟩ := List.mem_map.mp hmem
      cases heq
      exact (List.Perm.swap ..).trans ((perm_of_mem_picks hpick).cons b)

theorem exists_mem_picks : ∀ {l : List α} {a : α}, a ∈ l → ∃ rest, (a, rest) ∈ picks l
  | b :: l, a, h => by
    rcases List.mem_cons.mp h with rfl | hmem
    · exact ⟨l, List.mem_cons_self ..⟩
    · obtain ⟨rest, hrest⟩ := exists_mem_picks hmem
      exact ⟨b :: rest, List.mem_cons_of_mem _ (List.mem_map.mpr ⟨_, hrest, rfl⟩)⟩

theorem length_picks : ∀ l : List α, (picks l).length = l.length
  | [] => rfl
  | _ :: l => by simp [picks, length_picks l]

/-- **All arrangements of the list, and nothing else.** -/
theorem mem_permutations_iff : ∀ {k : Nat} {l p : List α}, l.length = k → (p ∈ permutations k l ↔ p.Perm l)
  | 0, l, p, hk => by
    rw [List.eq_nil_of_length_eq_zero hk, permutations, List.mem_singleton, List.perm_nil]
  | k + 1, l, p, hk => by
    have hrest : ∀ {a rest}, (a, rest) ∈ picks l → rest.length = k := by
      intro a rest hpick
      have hlen := (perm_of_mem_picks hpick).length_eq
      rw [List.length_cons] at hlen
      omega
    simp only [permutations, List.mem_flatMap, List.mem_map, Prod.exists]
    constructor
    · rintro ⟨a, rest, hpick, q, hq, rfl⟩
      exact (((mem_permutations_iff (hrest hpick)).mp hq).cons a).trans (perm_of_mem_picks hpick)
    · intro hperm
      cases p with
      | nil =>
        have hlen := hperm.length_eq
        rw [List.length_nil] at hlen
        omega
      | cons a q =>
        obtain ⟨rest, hpick⟩ := exists_mem_picks (hperm.subset (List.mem_cons_self ..))
        have hq : q.Perm rest := (hperm.trans (perm_of_mem_picks hpick).symm).cons_inv
        exact ⟨a, rest, hpick, q, (mem_permutations_iff (hrest hpick)).mpr hq, rfl⟩

theorem length_permutations : ∀ {k : Nat} {l : List α}, l.length = k → (permutations k l).length = k.factorial
  | 0, _, _ => rfl
  | k + 1, l, hk => by
    have hblock : ∀ pick ∈ picks l, ((permutations k pick.2).map (pick.1 :: ·)).length = k.factorial := by
      intro pick hpick
      have hlen := (perm_of_mem_picks hpick).length_eq
      rw [List.length_map, length_permutations]
      rw [List.length_cons] at hlen
      omega
    rw [permutations, List.length_flatMap, List.map_congr_left hblock, List.map_const',
      List.sum_replicate_nat, length_picks, hk, Nat.factorial_succ]

/-! ## First occurrences -/

/-- An element is kept where it comes up first. -/
def unique [DecidableEq α] (l : List α) : List α := l.reverse.dedup.reverse

def positional : Itertools where
  permutations := permutations
  unique := unique
  mem_permutations := mem_permutations_iff rfl
  length_permutations := fun _ => length_permutations rfl
  mem_unique := by simp [unique]
  nodup_unique := fun _ => List.nodup_reverse.mpr (List.nodup_dedup _)

end Lez.Arrangements
