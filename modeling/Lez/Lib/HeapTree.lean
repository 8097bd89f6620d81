/-
Perfect binary trees laid out in one array, root first and level by level.
In a tree of `D` levels above its leaves the node `j` of level `ℓ`, counted
from the leaves, stands at `pos D ℓ j`; `doubled` is where a node moves when
the whole tree becomes the left half of one a level taller.

An array is read bottom up. Where every node on the way from a leaf is the
combination of its two children the siblings lead to the node at the top
(`climb_path`), and where that holds of a whole subtree its levels are those
of the hash tree over its leaves (`level_eq`).
-/
import Lez.Lib.HashTree
import Mathlib.Data.Nat.Log

namespace Lez.HeapTree

/-- The array index of node `j` of level `ℓ`. -/
def pos (D ℓ j : Nat) : Nat := 2 ^ (D - ℓ) - 1 + j

/-! ## Indices -/

theorem pos_leaf (D j : Nat) : pos D 0 j = 2 ^ D - 1 + j := rfl

theorem pos_left {D ℓ k : Nat} (h : ℓ < D) : 2 * pos D (ℓ + 1) k + 1 = pos D ℓ (2 * k) := by
  have hpow : 2 ^ (D - ℓ) = 2 * 2 ^ (D - (ℓ + 1)) := by
    rw [show D - ℓ = D - (ℓ + 1) + 1 by omega, Nat.pow_succ']
  have hpos := Nat.two_pow_pos (D - (ℓ + 1))
  simp only [pos, hpow]
  omega

theorem pos_right {D ℓ k : Nat} (h : ℓ < D) : 2 * pos D (ℓ + 1) k + 2 = pos D ℓ (2 * k + 1) := by
  have := pos_left (k := k) h
  simp only [pos] at this ⊢
  omega

/-- The parent of a node, found from its index. -/
theorem pos_parent {D ℓ : Nat} (j : Nat) (h : ℓ < D) : (pos D ℓ j - 1) / 2 = pos D (ℓ + 1) (j / 2) := by
  have hleft := pos_left (k := j / 2) h
  have hmod := Nat.div_add_mod j 2
  simp only [pos] at hleft ⊢
  omega

/-- Below the top, left children have odd indices. -/
theorem pos_mod_two {D ℓ : Nat} (j : Nat) (h : ℓ < D) : pos D ℓ j % 2 = 1 ↔ j % 2 = 0 := by
  have hleft := pos_left (k := j / 2) h
  have hmod := Nat.div_add_mod j 2
  simp only [pos] at hleft ⊢
  omega

/-- The sibling of a node, found from its index. -/
theorem pos_sibling {D ℓ : Nat} (j : Nat) (h : ℓ < D) :
    (if pos D ℓ j % 2 = 1 then pos D ℓ j + 1 else pos D ℓ j - 1) = pos D ℓ (j ^^^ 1) := by
  rw [HashTree.xor_one]
  simp only [pos_mod_two j h]
  split
  next => rfl
  next hj =>
    simp only [pos]
    omega

/-- Every node of a level stands before the next level down. -/
theorem pos_lt {D ℓ j : Nat} (hj : j < 2 ^ (D - ℓ)) : pos D ℓ j < 2 ^ (D - ℓ + 1) - 1 := by
  rw [pos, Nat.pow_succ]
  omega

theorem pos_lt_size {D ℓ j : Nat} (hj : j < 2 ^ (D - ℓ)) : pos D ℓ j < 2 ^ (D + 1) - 1 := by
  have hlt := pos_lt hj
  have hle : 2 ^ (D - ℓ + 1) ≤ 2 ^ (D + 1) := Nat.pow_le_pow_right (by decide) (by omega)
  omega

/-- The index gives back the level: it is the position of the top bit of the index plus one. -/
theorem log2_pos {D ℓ j : Nat} (hj : j < 2 ^ (D - ℓ)) : (pos D ℓ j + 1).log2 = D - ℓ := by
  have hpos := Nat.two_pow_pos (D - ℓ)
  rw [Nat.log2_eq_iff (by omega), pos, Nat.pow_succ]
  omega

theorem pos_inj {D ℓ ℓ' j j' : Nat} (hℓ : ℓ ≤ D) (hℓ' : ℓ' ≤ D) (hj : j < 2 ^ (D - ℓ))
    (hj' : j' < 2 ^ (D - ℓ')) (h : pos D ℓ j = pos D ℓ' j') : ℓ = ℓ' ∧ j = j' := by
  have hlog : D - ℓ = D - ℓ' := by rw [← log2_pos hj, ← log2_pos hj', h]
  have hlevel : ℓ = ℓ' := by omega
  subst hlevel
  exact ⟨rfl, by simpa [pos] using h⟩

/-- Every index of the array is a node's. -/
theorem exists_pos {D i : Nat} (hi : i < 2 ^ (D + 1) - 1) :
    ∃ ℓ j, ℓ ≤ D ∧ j < 2 ^ (D - ℓ) ∧ i = pos D ℓ j := by
  have hlow := Nat.log2_self_le (show i + 1 ≠ 0 by omega)
  have hhigh := Nat.lt_log2_self (n := i + 1)
  have htop : (i + 1).log2 ≤ D := by
    have : (i + 1).log2 < D + 1 := (Nat.log2_lt (by omega)).mpr (by omega)
    omega
  refine ⟨D - (i + 1).log2, i + 1 - 2 ^ (i + 1).log2, by omega, ?_, ?_⟩
  · rw [show D - (D - (i + 1).log2) = (i + 1).log2 by omega]
    rw [Nat.pow_succ] at hhigh
    omega
  · rw [pos, show D - (D - (i + 1).log2) = (i + 1).log2 by omega]
    have := Nat.two_pow_pos (i + 1).log2
    omega

/-- Where the node at index `i` moves when the tree becomes the left half of a taller one. -/
def doubled (i : Nat) : Nat := i + 2 ^ (i + 1).log2

theorem doubled_pos {D ℓ j : Nat} (hℓ : ℓ ≤ D) (hj : j < 2 ^ (D - ℓ)) :
    doubled (pos D ℓ j) = pos (D + 1) ℓ j := by
  rw [doubled, log2_pos hj, pos, pos, show D + 1 - ℓ = D - ℓ + 1 by omega, Nat.pow_succ]
  have := Nat.two_pow_pos (D - ℓ)
  omega

theorem doubled_strictMono : StrictMono doubled := by
  intro i j hij
  have hlog : (i + 1).log2 ≤ (j + 1).log2 := by
    rw [Nat.log2_eq_log_two, Nat.log2_eq_log_two]
    exact Nat.log_mono_right (by omega)
  have := Nat.pow_le_pow_right (n := 2) (by decide) hlog
  unfold doubled
  omega

/-! ## Levels of one value -/

section Levels
variable {α : Type}

/-- An array whose level `i` from the top repeats the `i`th value. -/
def uniform (s : Nat) (values : List α) : List α :=
  (values.mapIdx fun i v => List.replicate (2 ^ (s + i)) v).flatten

theorem uniform_cons (s : Nat) (v : α) (values : List α) :
    uniform s (v :: values) = List.replicate (2 ^ s) v ++ uniform (s + 1) values := by
  simp only [uniform, List.mapIdx_cons, List.flatten_cons, Nat.add_zero, Nat.add_assoc, Nat.add_comm 1]

theorem uniform_length : ∀ (s : Nat) (values : List α),
    (uniform s values).length + 2 ^ s = 2 ^ (s + values.length)
  | s, [] => by simp [uniform]
  | s, v :: values => by
    have ih := uniform_length (s + 1) values
    rw [uniform_cons, List.length_append, List.length_replicate, List.length_cons,
      show s + (values.length + 1) = s + 1 + values.length by omega, ← ih, Nat.pow_succ]
    omega

theorem uniform_getElem? : ∀ (s : Nat) (values : List α) {m j : Nat}, m < values.length → j < 2 ^ (s + m) →
    (uniform s values)[2 ^ (s + m) - 2 ^ s + j]? = values[m]?
  | s, [], m, j, hm, _ => by simp at hm
  | s, v :: values, 0, j, _, hj => by
    rw [Nat.add_zero] at hj ⊢
    rw [uniform_cons, Nat.sub_self, Nat.zero_add, List.getElem?_append_left (by simpa using hj)]
    simp [hj]
  | s, v :: values, m + 1, j, hm, hj => by
    have hexp : s + (m + 1) = s + 1 + m := by omega
    rw [hexp] at hj ⊢
    have hle : 2 ^ (s + 1) ≤ 2 ^ (s + 1 + m) := Nat.pow_le_pow_right (by decide) (by omega)
    have hdouble : 2 ^ (s + 1) = 2 ^ s + 2 ^ s := by rw [Nat.pow_succ]; omega
    have hindex : 2 ^ (s + 1 + m) - 2 ^ s + j - 2 ^ s = 2 ^ (s + 1 + m) - 2 ^ (s + 1) + j := by omega
    rw [uniform_cons, List.getElem?_append_right (by simp only [List.length_replicate]; omega),
      List.length_replicate, hindex, List.getElem?_cons_succ]
    exact uniform_getElem? (s + 1) values (by simpa using hm) hj

end Levels

/-! ## Trees of combinations -/

section Combined
variable {α : Type} (h : α → α → α) {nodes : List α} {D : Nat}

/-- Node `k` of level `ℓ + 1` is the combination of its two children. -/
def Combines (nodes : List α) (D ℓ k : Nat) : Prop :=
  ∃ a b, nodes[pos D ℓ (2 * k)]? = .some a ∧ nodes[pos D ℓ (2 * k + 1)]? = .some b ∧
    nodes[pos D (ℓ + 1) k]? = .some (h a b)

/-- The siblings of node `j` of level `ℓ` and of the `n - 1` nodes above it. -/
def path (nodes : List α) (D : Nat) : Nat → Nat → Nat → Option (List α)
  | 0, _, _ => .some []
  | n + 1, ℓ, j => do
    let s ← nodes[pos D ℓ (j ^^^ 1)]?
    let p ← path nodes D n (ℓ + 1) (j / 2)
    return s :: p

/-- One step of the climb. -/
theorem Combines.step {ℓ j : Nat} {x : α} (hc : Combines h nodes D ℓ (j / 2)) (hx : nodes[pos D ℓ j]? = .some x) :
    ∃ s, nodes[pos D ℓ (j ^^^ 1)]? = .some s ∧
      nodes[pos D (ℓ + 1) (j / 2)]? = .some (h (HashTree.combine j s x).1 (HashTree.combine j s x).2) := by
  obtain ⟨a, b, ha, hb, hab⟩ := hc
  rw [HashTree.xor_one]
  rcases Nat.mod_two_eq_zero_or_one j with hj | hj
  · have hleft : 2 * (j / 2) = j := by omega
    rw [hleft] at ha hb
    cases hx.symm.trans ha
    exact ⟨b, by simpa [hj] using hb, by simpa [hj, HashTree.combine] using hab⟩
  · have hright : 2 * (j / 2) + 1 = j := by omega
    have hleft : 2 * (j / 2) = j - 1 := by omega
    rw [hright] at hb
    rw [hleft] at ha
    cases hx.symm.trans hb
    exact ⟨a, by simpa [hj] using ha, by simpa [hj, HashTree.combine] using hab⟩

/-- **The siblings of a node lead to the node above it**, as far up as the
nodes on the way are combinations of their children. -/
theorem climb_path : ∀ {n ℓ j : Nat} {x : α}, nodes[pos D ℓ j]? = .some x →
    (∀ m < n, Combines h nodes D (ℓ + m) (j / 2 ^ (m + 1))) →
    ∃ p, path nodes D n ℓ j = .some p ∧ p.length = n ∧
      nodes[pos D (ℓ + n) (j / 2 ^ n)]? = .some (HashTree.climb h j p x)
  | 0, ℓ, j, x, hx, _ => ⟨[], rfl, rfl, by simpa [HashTree.climb] using hx⟩
  | n + 1, ℓ, j, x, hx, hc => by
    obtain ⟨s, hs, hup⟩ := (show Combines h nodes D ℓ (j / 2) by simpa using hc 0 (by omega)).step h hx
    obtain ⟨p, hp, hlen, htop⟩ := climb_path (n := n) hup (fun m hm => by
      have := hc (m + 1) (by omega)
      rwa [Nat.pow_succ', ← Nat.div_div_eq_div_mul, show ℓ + (m + 1) = ℓ + 1 + m by omega] at this)
    refine ⟨s :: p, by simp [path, hs, hp], by simp [hlen], ?_⟩
    rw [show ℓ + (n + 1) = ℓ + 1 + n by omega, Nat.pow_succ', ← Nat.div_div_eq_div_mul, HashTree.climb]
    exact htop

/-- **The levels of an array of combinations** are those of the hash tree over its leaves. -/
theorem level_eq {d : Nat} {leaves : List α} (hlen : leaves.length = 2 ^ d)
    (hleaves : ∀ {j}, j < 2 ^ d → leaves[j]? = nodes[pos D 0 j]?)
    (hc : ∀ {ℓ k}, ℓ < d → k < 2 ^ (d - (ℓ + 1)) → Combines h nodes D ℓ k) :
    ∀ {ℓ j}, ℓ ≤ d → j < 2 ^ (d - ℓ) → (HashTree.level h ℓ leaves)[j]? = nodes[pos D ℓ j]?
  | 0, j, _, hj => hleaves hj
  | ℓ + 1, j, hℓ, hj => by
    have hhalf : 2 ^ (d - ℓ) = 2 * 2 ^ (d - (ℓ + 1)) := by
      rw [show d - ℓ = d - (ℓ + 1) + 1 by omega, Nat.pow_succ']
    obtain ⟨a, b, ha, hb, hab⟩ := hc hℓ hj
    rw [← level_eq hlen hleaves hc (by omega) (by omega)] at ha hb
    rw [hab, HashTree.level_add h ℓ 1, HashTree.level, HashTree.level, HashTree.pairUp, List.getElem?_map,
      HashTree.pairs_getElem?, ha, hb]
    rfl

/-- **The siblings in the array** are those of the hash tree over its leaves. -/
theorem path_eq_siblings {d : Nat} {leaves : List α} (hlen : leaves.length = 2 ^ d)
    (hleaves : ∀ {j}, j < 2 ^ d → leaves[j]? = nodes[pos D 0 j]?)
    (hc : ∀ {ℓ k}, ℓ < d → k < 2 ^ (d - (ℓ + 1)) → Combines h nodes D ℓ k) :
    ∀ {n ℓ j : Nat}, ℓ + n ≤ d → j < 2 ^ (d - ℓ) →
      path nodes D n ℓ j = HashTree.siblings h n (HashTree.level h ℓ leaves) j
  | 0, _, _, _, _ => rfl
  | n + 1, ℓ, j, hn, hj => by
    have hhalf : 2 ^ (d - ℓ) = 2 * 2 ^ (d - (ℓ + 1)) := by
      rw [show d - ℓ = d - (ℓ + 1) + 1 by omega, Nat.pow_succ']
    have hsibling : j ^^^ 1 < 2 ^ (d - ℓ) := by
      rw [HashTree.xor_one]
      split <;> omega
    have hup : HashTree.pairUp h (HashTree.level h ℓ leaves) = HashTree.level h (ℓ + 1) leaves := by
      rw [HashTree.level_add h ℓ 1, HashTree.level, HashTree.level]
    rw [path, HashTree.siblings, hup, level_eq h hlen hleaves hc (by omega) hsibling,
      path_eq_siblings hlen hleaves hc (by omega) (by omega)]

end Combined

end Lez.HeapTree
