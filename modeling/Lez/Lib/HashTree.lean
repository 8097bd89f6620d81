/-
Binary hash trees over any node type and any two-to-one combiner: the levels
of a tree, the climb from a value along siblings of the climber's choosing,
and the pairs each of them feeds to the combiner.

A climb that meets the tree does so only at the tree's own nodes
(`climb_pins`), and the assumption for it is no more than that the combiner
does not collide on the pairs that were actually combined. The siblings a
tree hands out lead back to it (`climb_siblings`).
-/
import Mathlib.Data.Nat.Bitwise
import Mathlib.Data.Set.Function
import Mathlib.Tactic.Ring

namespace Lez.HashTree

variable {α : Type} (h : α → α → α)

/-- Neighbours, two by two; an odd last node is dropped. -/
def pairs : List α → List (α × α)
  | a :: b :: rest => (a, b) :: pairs rest
  | _ => []

/-- One level up. -/
def pairUp (l : List α) : List α := (pairs l).map fun p => h p.1 p.2

/-- The level `n` above `l`. -/
def level : Nat → List α → List α
  | 0, l => l
  | n + 1, l => level n (pairUp h l)

/-- The pairs combined on the way to level `n`. -/
def treePairs : Nat → List α → List (α × α)
  | 0, _ => []
  | n + 1, l => pairs l ++ treePairs n (pairUp h l)

/-- The pair a climber at index `i` combines with sibling `s`. -/
def combine (i : Nat) (s x : α) : α × α := if i % 2 = 0 then (x, s) else (s, x)

/-- From `x` at index `i` up along the siblings `p`. -/
def climb : Nat → List α → α → α
  | _, [], x => x
  | i, s :: p, x => climb (i / 2) p (h (combine i s x).1 (combine i s x).2)

/-- The pairs a climb combines. -/
def climbPairs : Nat → List α → α → List (α × α)
  | _, [], _ => []
  | i, s :: p, x => combine i s x :: climbPairs (i / 2) p (h (combine i s x).1 (combine i s x).2)

/-- The siblings of index `i` on `n` levels, `none` off the tree. -/
def siblings : Nat → List α → Nat → Option (List α)
  | 0, _, _ => .some []
  | n + 1, l, i => do
    let s ← l[i ^^^ 1]?
    let p ← siblings n (pairUp h l) (i / 2)
    return s :: p

/-! ## Levels -/

theorem pairs_getElem? : ∀ (l : List α) (k : Nat),
    (pairs l)[k]? = l[2 * k]?.bind fun a => l[2 * k + 1]?.map fun b => (a, b)
  | [], k => by simp [pairs]
  | [a], k => by cases k <;> simp [pairs, Nat.mul_succ]
  | a :: b :: rest, 0 => by simp [pairs]
  | a :: b :: rest, k + 1 => by
    have ih := pairs_getElem? rest k
    have h₀ : 2 * (k + 1) = 2 * k + 1 + 1 := by ring
    rw [pairs, List.getElem?_cons_succ, ih, h₀]
    simp only [List.getElem?_cons_succ]

theorem pairs_length : ∀ (l : List α), (pairs l).length = l.length / 2
  | [] => by simp [pairs]
  | [a] => by simp [pairs]
  | a :: b :: rest => by simp only [pairs, List.length_cons, pairs_length rest]; omega

theorem pairUp_length (l : List α) : (pairUp h l).length = l.length / 2 := by
  simp [pairUp, pairs_length]

/-- A node of the level above is the combination of its two children. -/
theorem pairUp_getElem?_some {l : List α} {k : Nat} {v : α} (hv : (pairUp h l)[k]? = .some v) :
    ∃ a b, l[2 * k]? = .some a ∧ l[2 * k + 1]? = .some b ∧ (a, b) ∈ pairs l ∧ v = h a b := by
  rw [pairUp, List.getElem?_map, Option.map_eq_some_iff] at hv
  obtain ⟨⟨a, b⟩, hp, rfl⟩ := hv
  have hmem := List.mem_of_getElem? hp
  rw [pairs_getElem?] at hp
  cases ha : l[2 * k]? with
  | none => simp [ha] at hp
  | some a' =>
    cases hb : l[2 * k + 1]? with
    | none => simp [ha, hb] at hp
    | some b' =>
      simp only [ha, hb, Option.bind_some, Option.map_some, Option.some.injEq, Prod.mk.injEq] at hp
      obtain ⟨rfl, rfl⟩ := hp
      exact ⟨a', b', rfl, rfl, hmem, rfl⟩

theorem level_add (m n : Nat) : ∀ (l : List α), level h (m + n) l = level h n (level h m l) := by
  induction m with
  | zero => intro l; simp [level]
  | succ m ih => intro l; rw [Nat.succ_add]; exact ih (pairUp h l)

theorem level_length : ∀ (n : Nat) (l : List α), (level h n l).length = l.length / 2 ^ n
  | 0, l => by simp [level]
  | n + 1, l => by rw [level, level_length n, pairUp_length, Nat.div_div_eq_div_mul, ← Nat.pow_succ']

theorem treePairs_level (m n : Nat) : ∀ (l : List α), ∀ p ∈ treePairs h n (level h m l), p ∈ treePairs h (m + n) l := by
  induction m with
  | zero => intro l p hp; simpa [level] using hp
  | succ m ih =>
    intro l p hp
    rw [Nat.succ_add]
    exact List.mem_append_right _ (ih (pairUp h l) p hp)

theorem treePairs_mono (m n : Nat) (l : List α) : ∀ p ∈ treePairs h m l, p ∈ treePairs h (m + n) l := by
  induction m generalizing l with
  | zero => intro p hp; simp [treePairs] at hp
  | succ m ih =>
    intro p hp
    rw [Nat.succ_add]
    rcases List.mem_append.mp hp with hp | hp
    · exact List.mem_append_left _ hp
    · exact List.mem_append_right _ (ih (pairUp h l) p hp)

/-- Every node above the leaves is a combination the tree made. -/
theorem mem_level_succ {n : Nat} {l : List α} {v : α} (hv : v ∈ level h (n + 1) l) :
    ∃ p ∈ treePairs h (n + 1) l, v = h p.1 p.2 := by
  rw [level_add h n 1, level, level, pairUp, List.mem_map] at hv
  obtain ⟨p, hp, rfl⟩ := hv
  refine ⟨p, treePairs_level h n 1 l p ?_, rfl⟩
  exact List.mem_append_left _ hp

/-! ## Climbs -/

theorem climb_append : ∀ (p q : List α) (i : Nat) (x : α),
    climb h i (p ++ q) x = climb h (i / 2 ^ p.length) q (climb h i p x)
  | [], q, i, x => by simp [climb]
  | s :: p, q, i, x => by
    rw [List.cons_append, climb, climb_append p q, climb, List.length_cons, Nat.div_div_eq_div_mul,
      ← Nat.pow_succ']

theorem climbPairs_append : ∀ (p q : List α) (i : Nat) (x : α),
    climbPairs h i (p ++ q) x = climbPairs h i p x ++ climbPairs h (i / 2 ^ p.length) q (climb h i p x)
  | [], q, i, x => by simp [climb, climbPairs]
  | s :: p, q, i, x => by
    rw [List.cons_append, climbPairs, climbPairs_append p q, climb, climbPairs, List.length_cons,
      Nat.div_div_eq_div_mul, ← Nat.pow_succ', List.cons_append]

theorem combine_mod (i n : Nat) (s x : α) : combine (i % 2 ^ (n + 1)) s x = combine i s x := by
  rw [combine, combine, Nat.mod_mod_of_dvd i (dvd_pow_self 2 (Nat.succ_ne_zero n))]

/-- A climb reads as many bits of its index as it has steps. -/
theorem climb_mod : ∀ (p : List α) (i : Nat) (x : α), climb h (i % 2 ^ p.length) p x = climb h i p x
  | [], _, _ => rfl
  | s :: p, i, x => by
    rw [List.length_cons, climb, climb, combine_mod, Nat.pow_succ', Nat.mod_mul_right_div_self, climb_mod p]

theorem climbPairs_mod : ∀ (p : List α) (i : Nat) (x : α), climbPairs h (i % 2 ^ p.length) p x = climbPairs h i p x
  | [], _, _ => rfl
  | s :: p, i, x => by
    rw [List.length_cons, climbPairs, climbPairs, combine_mod, Nat.pow_succ', Nat.mod_mul_right_div_self,
      climbPairs_mod p]

/-- A climb of one step or more ends in a combination it made. -/
theorem climb_cons : ∀ (p : List α) (s : α) (i : Nat) (x : α),
    ∃ q ∈ climbPairs h i (s :: p) x, climb h i (s :: p) x = h q.1 q.2
  | [], s, i, x => ⟨combine i s x, by simp [climbPairs], rfl⟩
  | t :: p, s, i, x => by
    obtain ⟨q, hq, he⟩ := climb_cons p t (i / 2) (h (combine i s x).1 (combine i s x).2)
    exact ⟨q, List.mem_cons_of_mem _ hq, he⟩

theorem mod_two_pow_succ (i n : Nat) : i % 2 ^ (n + 1) = 2 * (i / 2 % 2 ^ n) + i % 2 := by
  rw [Nat.pow_succ', Nat.mod_mul, Nat.add_comm]

/-- **A climb that meets the tree started from the tree.** Where a climb of
`p.length` steps arrives at node `j` of that level, its start is the leaf the
climb's index names below `j`, whatever siblings it used, as long as the
combiner does not collide on the pairs of the tree and of the climb. -/
theorem climb_pins {Q : Set (α × α)} (hinj : Set.InjOn (fun p : α × α => h p.1 p.2) Q) :
    ∀ (p l : List α) (i j : Nat) (x : α), (∀ q ∈ treePairs h p.length l, q ∈ Q) →
      (∀ q ∈ climbPairs h i p x, q ∈ Q) → (level h p.length l)[j]? = .some (climb h i p x) →
      l[j * 2 ^ p.length + i % 2 ^ p.length]? = .some x
  | [], l, i, j, x, _, _, he => by
    simpa [level, climb, Nat.mod_one] using he
  | s :: p, l, i, j, x, ht, hc, he => by
    have hpair := hc (combine i s x) (by simp [climbPairs])
    have ih := climb_pins hinj p (pairUp h l) (i / 2) j _
      (fun q hq => ht q (List.mem_append_right _ hq)) (fun q hq => hc q (List.mem_cons_of_mem _ hq)) he
    obtain ⟨a, b, ha, hb, hab, hv⟩ := pairUp_getElem?_some h ih
    have heq := hinj hpair (ht (a, b) (List.mem_append_left _ hab)) hv
    have hidx : j * 2 ^ (p.length + 1) + i % 2 ^ (p.length + 1) =
        2 * (j * 2 ^ p.length + i / 2 % 2 ^ p.length) + i % 2 := by
      rw [mod_two_pow_succ]; ring
    rw [List.length_cons, hidx]
    unfold combine at heq
    split at heq
    next hi =>
      obtain ⟨rfl, rfl⟩ := Prod.mk.inj heq
      rw [hi]; exact ha
    next hi =>
      obtain ⟨rfl, rfl⟩ := Prod.mk.inj heq
      rw [show i % 2 = 1 by omega]; exact hb

/-- **A climb that reaches the root of a tree started at a leaf**, or else a
combination stands where a leaf should: at the start of a climb that was too
short, or among the leaves for one that was too long. -/
theorem climb_reaches {Q : Set (α × α)} (hinj : Set.InjOn (fun p : α × α => h p.1 p.2) Q) {d i : Nat} {l p : List α}
    {x : α} (ht : ∀ q ∈ treePairs h d l, q ∈ Q) (hc : ∀ q ∈ climbPairs h i p x, q ∈ Q)
    (hroot : (level h d l)[0]? = .some (climb h i p x)) :
    x ∈ l ∨ (∃ q ∈ Q, x = h q.1 q.2) ∨ ∃ v ∈ l, ∃ q ∈ Q, v = h q.1 q.2 := by
  rcases Nat.lt_or_ge p.length d with hlt | hge
  · obtain ⟨k, hk⟩ := Nat.exists_eq_add_of_lt hlt
    have hd : d = k + 1 + p.length := by omega
    subst hd
    rw [level_add] at hroot
    have hstart := climb_pins h hinj p _ i 0 x (fun q hq => ht q (treePairs_level h _ _ _ q hq)) hc hroot
    obtain ⟨q, hq, he⟩ := mem_level_succ h (List.mem_of_getElem? hstart)
    exact .inr (.inl ⟨q, ht q (treePairs_mono h _ _ _ q hq), he⟩)
  · -- the last `d` steps climb the tree, the ones before them lead to a leaf of it
    obtain ⟨first, last, rfl, rfl⟩ : ∃ first last, p = first ++ last ∧ last.length = d :=
      ⟨p.take (p.length - d), p.drop (p.length - d), (List.take_append_drop _ p).symm, by simp; omega⟩
    rw [climb_append] at hroot
    rw [climbPairs_append] at hc
    have hstart := climb_pins h hinj _ _ _ 0 _ ht (fun q hq => hc q (List.mem_append_right _ hq)) hroot
    have hleaf := List.mem_of_getElem? hstart
    cases first with
    | nil => exact .inl hleaf
    | cons s rest =>
      obtain ⟨q, hq, he⟩ := climb_cons h rest s i x
      exact .inr (.inr ⟨_, hleaf, q, hc q (List.mem_append_left _ hq), he⟩)

/-! ## The tree's own siblings -/

theorem xor_one (i : Nat) : i ^^^ 1 = if i % 2 = 0 then i + 1 else i - 1 := by
  split
  next hi => exact Nat.xor_one_of_even (Nat.even_iff.mpr hi)
  next hi => exact Nat.xor_one_of_odd (Nat.odd_iff.mpr (by omega))

theorem pairUp_combine {l : List α} {i : Nat} {x s : α} (hx : l[i]? = .some x) (hs : l[i ^^^ 1]? = .some s) :
    combine i s x ∈ pairs l ∧ (pairUp h l)[i / 2]? = .some (h (combine i s x).1 (combine i s x).2) := by
  have hp : (pairs l)[i / 2]? = .some (combine i s x) := by
    rw [xor_one] at hs
    rw [pairs_getElem?, combine]
    split at hs
    next hi =>
      have h₀ : 2 * (i / 2) = i := by omega
      simp [h₀, hx, hs, hi]
    next hi =>
      have h₀ : 2 * (i / 2) = i - 1 := by omega
      have h₁ : i - 1 + 1 = i := by omega
      simp [h₀, h₁, hx, hs, hi]
  exact ⟨List.mem_of_getElem? hp, by simp [pairUp, hp]⟩

/-- **The siblings a tree hands out lead back to it**, through pairs it
combined itself. -/
theorem climb_siblings : ∀ {n : Nat} {l p : List α} {i : Nat} {x : α}, l[i]? = .some x →
    siblings h n l i = .some p →
      (level h n l)[i / 2 ^ n]? = .some (climb h i p x) ∧ ∀ q ∈ climbPairs h i p x, q ∈ treePairs h n l
  | 0, l, p, i, x, hx, hp => by
    cases hp
    simpa [level, climb, climbPairs] using hx
  | n + 1, l, p, i, x, hx, hp => by
    simp only [siblings, Option.bind_eq_bind, Option.bind_eq_some_iff] at hp
    obtain ⟨s, hs, p', hp', he⟩ := hp
    cases he
    obtain ⟨hmem, hup⟩ := pairUp_combine h hx hs
    obtain ⟨ih₁, ih₂⟩ := climb_siblings hup hp'
    refine ⟨?_, ?_⟩
    · rw [level, climb, Nat.pow_succ', ← Nat.div_div_eq_div_mul]; exact ih₁
    · intro q hq
      rw [climbPairs, List.mem_cons] at hq
      rcases hq with rfl | hq
      · exact List.mem_append_left _ hmem
      · exact List.mem_append_right _ (ih₂ q hq)

/-- A tree of `2 ^ n` leaves has siblings for every leaf. -/
theorem siblings_isSome : ∀ {n : Nat} {l : List α} {i : Nat}, l.length = 2 ^ n → i < 2 ^ n →
    ∃ p, siblings h n l i = .some p ∧ p.length = n
  | 0, _, _, _, _ => ⟨[], rfl, rfl⟩
  | n + 1, l, i, hl, hi => by
    have hpow : 2 ^ (n + 1) = 2 * 2 ^ n := Nat.pow_succ'
    have hs : i ^^^ 1 < l.length := by rw [xor_one, hl]; split <;> omega
    obtain ⟨p, hp, hlen⟩ := siblings_isSome (n := n) (l := pairUp h l) (i := i / 2)
      (by rw [pairUp_length, hl]; omega) (by omega)
    exact ⟨l[i ^^^ 1] :: p, by simp [siblings, hs, hp], by simp [hlen]⟩

end Lez.HashTree
