/-
Chain indices (`key_tree/chain_index.rs`): the place of a key in the tree of
keys, and the layers of places of equal depth that key restoration walks
through. The enumeration of a layer starts with the deepest place, merges the
last two components of each place it pops and rearranges the result; the
adaptors it uses for that are a parameter.

The depth is a sum that wraps, so a depth is shared by indices of different
layers; the enumeration yields the layer of its exact depth.
-/
import Lez.Lib.Arrangements
import Lez.Lib.Checked
import Lez.Lib.Worklist
import Lez.Wallet.Keys

open Lez.Arrangements Lez.Worklist

namespace Lez.Wallet

/-- `checked_add`. -/
def checkedAdd (a b : UInt32) : Option UInt32 := (Checked.add a.toBitVec b.toBitVec).map UInt32.ofBitVec

theorem checkedAdd_eq_some {a b c : UInt32} : checkedAdd a b = .some c ↔ c.toNat = a.toNat + b.toNat := by
  rw [checkedAdd, Option.map_eq_some_iff]
  constructor
  · rintro ⟨c', hadd, rfl⟩
    exact Checked.add_eq_some.mp hadd
  · intro h
    exact ⟨c.toBitVec, Checked.add_eq_some.mpr h, rfl⟩

theorem exists_checkedAdd {a b : UInt32} (h : a.toNat + b.toNat < 2 ^ 32) :
    ∃ c, checkedAdd a b = .some c ∧ c.toNat = a.toNat + b.toNat :=
  ⟨_, checkedAdd_eq_some.mpr (UInt32.toNat_ofNat_of_lt' h), UInt32.toNat_ofNat_of_lt' h⟩

theorem toNat_one : (1 : UInt32).toNat = 1 := rfl

namespace ChainIndex

def nextInLine (i : ChainIndex) : Option ChainIndex :=
  match i.getLast? with
  | .none => .some i
  | .some last => (checkedAdd last 1).map fun next => i.dropLast ++ [next]

def parent (i : ChainIndex) : Option ChainIndex := if i.isEmpty then .none else .some i.dropLast

def nthChild (i : ChainIndex) (childId : UInt32) : ChainIndex := i ++ [childId]

/-- `none` is the panic "Max cci reached"; the sum wraps. -/
def depth (i : ChainIndex) : Option UInt32 :=
  i.foldlM (fun total cci => (checkedAdd cci 1).map (total + ·)) 0

def collapseBack (i : ChainIndex) : Option ChainIndex := do
  let res ← parent i
  let lastMut ← res.getLast?
  let last ← i.getLast?
  let step ← checkedAdd last 1
  let merged ← checkedAdd lastMut step
  return res.dropLast ++ [merged]

section
variable (I : Itertools)

def shuffleIter (i : ChainIndex) : List ChainIndex := I.unique (I.permutations i.length i)

/-- One round of the loop over the stack; what it pushes also goes to the cumulative stack. -/
def expand (cumulativeStack : List ChainIndex) (topId : ChainIndex) : Option (List ChainIndex × List ChainIndex) :=
  match collapseBack topId with
  | .none => .some (cumulativeStack, [])
  | .some collapsedId => .some (cumulativeStack ++ shuffleIter I collapsedId, (shuffleIter I collapsedId).reverse)

/-- How many rounds a place of this length can cost. -/
def rounds : Nat → Nat
  | 0 => 1
  | n + 1 => n.factorial * rounds n + 1

def cumulativeStack (depth : Nat) : Option (List ChainIndex) :=
  Worklist.drain (expand I) (rounds depth) [List.replicate depth 0] [List.replicate depth 0]

def chainIdsAtDepth (depth : Nat) : Option (List ChainIndex) := (cumulativeStack I depth).map I.unique

def chainIdsAtDepthRev (depth : Nat) : Option (List ChainIndex) :=
  (cumulativeStack I depth).map fun ids => I.unique ids.reverse

end

/-! ## Depths -/

/-- The depth as an exact number. -/
def layer (i : ChainIndex) : Nat := (i.map fun cci => cci.toNat + 1).sum

@[simp] theorem layer_nil : layer [] = 0 := rfl

@[simp] theorem layer_cons (a : UInt32) (i : ChainIndex) : layer (a :: i) = a.toNat + 1 + layer i := by simp [layer]

@[simp] theorem layer_append (i j : ChainIndex) : layer (i ++ j) = layer i + layer j := by simp [layer]

theorem layer_replicate_zero (n : Nat) : layer (List.replicate n 0) = n := by simp [layer]

theorem layer_perm {i j : ChainIndex} (h : i.Perm j) : layer i = layer j := (h.map _).sum_eq

theorem length_le_layer : ∀ i : ChainIndex, i.length ≤ layer i
  | [] => Nat.le_refl 0
  | a :: i => by
    have ih := length_le_layer i
    simp only [List.length_cons, layer_cons]
    omega

/-- Only zeros keep the depth at the length. -/
theorem eq_replicate_of_layer_le : ∀ {i : ChainIndex}, layer i ≤ i.length → i = List.replicate i.length 0
  | [], _ => rfl
  | a :: i, h => by
    have hlen := length_le_layer i
    simp only [List.length_cons, layer_cons] at h
    have hzero : a = 0 := UInt32.toNat_inj.mp (show a.toNat = 0 by omega)
    rw [hzero, List.length_cons, List.replicate_succ, ← eq_replicate_of_layer_le (show layer i ≤ i.length by omega)]

theorem depth_eq_some {i : ChainIndex} {d : UInt32} :
    depth i = .some d ↔ (∀ cci ∈ i, cci.toNat + 1 < 2 ^ 32) ∧ d.toNat = layer i % 2 ^ 32 := by
  -- the loop from any running total
  have hloop : ∀ (i : ChainIndex) (t : UInt32),
      i.foldlM (fun total cci => (checkedAdd cci 1).map (total + ·)) t = .some d ↔
        (∀ cci ∈ i, cci.toNat + 1 < 2 ^ 32) ∧ d.toNat = (t.toNat + layer i) % 2 ^ 32 := by
    intro i
    induction i with
    | nil =>
      intro t
      simp [← UInt32.toNat_inj, Nat.mod_eq_of_lt t.toNat_lt, eq_comm]
    | cons a i ih =>
      intro t
      rw [List.foldlM_cons, List.forall_mem_cons, layer_cons, and_assoc]
      by_cases ha : a.toNat + 1 < 2 ^ 32
      · obtain ⟨step, hstep, hval⟩ := exists_checkedAdd (show a.toNat + (1 : UInt32).toNat < 2 ^ 32 from ha)
        have hnext : ((t + step).toNat + layer i) % 2 ^ 32 = (t.toNat + (a.toNat + 1 + layer i)) % 2 ^ 32 := by
          rw [UInt32.toNat_add, hval, toNat_one, Nat.mod_add_mod, Nat.add_assoc]
        rw [hstep, Option.map_some, Option.bind_eq_bind, Option.bind_some, ih, hnext]
        simp only [ha, true_and]
      · have hnone : checkedAdd a 1 = .none := by
          rw [Option.eq_none_iff_forall_ne_some]
          intro c hc
          exact ha (by rw [← toNat_one, ← checkedAdd_eq_some.mp hc]; exact c.toNat_lt)
        rw [hnone, Option.map_none, Option.bind_eq_bind, Option.bind_none]
        exact ⟨fun h => absurd h (by simp), fun h => absurd h.1 ha⟩
  simpa [depth] using hloop i 0

theorem succ_le_layer_of_mem : ∀ {i : ChainIndex} {a : UInt32}, a ∈ i → a.toNat + 1 ≤ layer i
  | b :: i, a, h => by
    rw [layer_cons]
    rcases List.mem_cons.mp h with rfl | hmem
    · exact Nat.le_add_right _ _
    · have := succ_le_layer_of_mem hmem
      omega

/-- An exact depth that a `u32` can hold is the depth. -/
theorem layer_eq_iff {i : ChainIndex} {d : UInt32} :
    layer i = d.toNat ↔ depth i = .some d ∧ layer i < 2 ^ 32 := by
  rw [depth_eq_some]
  constructor
  · intro h
    have hlt : layer i < 2 ^ 32 := h ▸ d.toNat_lt
    refine ⟨⟨fun a ha => Nat.lt_of_le_of_lt (succ_le_layer_of_mem ha) hlt, ?_⟩, hlt⟩
    rw [Nat.mod_eq_of_lt hlt, h]
  · rintro ⟨⟨-, hd⟩, hlt⟩
    rw [hd, Nat.mod_eq_of_lt hlt]

/-! ## Merging -/

theorem collapseBack_eq_some {i j : ChainIndex} : collapseBack i = .some j ↔
    ∃ (l : ChainIndex) (a b c : UInt32), i = l ++ [a, b] ∧ j = l ++ [c] ∧ c.toNat = a.toNat + (b.toNat + 1) := by
  constructor
  · intro h
    simp only [collapseBack, parent, Option.bind_eq_bind, Option.bind_eq_some_iff, Option.ite_none_left_eq_some,
      Option.some.injEq, Option.pure_def] at h
    obtain ⟨res, ⟨hne, rfl⟩, a, ha, b, hb, step, hstep, c, hc, rfl⟩ := h
    have hne : i ≠ [] := by simpa using hne
    have hne' : i.dropLast ≠ [] := by
      intro hnil
      rw [hnil] at ha
      cases ha
    rw [List.getLast?_eq_some_getLast hne, Option.some.injEq] at hb
    rw [List.getLast?_eq_some_getLast hne', Option.some.injEq] at ha
    refine ⟨i.dropLast.dropLast, a, b, c, ?_, rfl, ?_⟩
    · rw [show [a, b] = [a] ++ [b] from rfl, ← List.append_assoc, ← ha, List.dropLast_append_getLast hne', ← hb,
        List.dropLast_append_getLast hne]
    · rw [checkedAdd_eq_some.mp hc, checkedAdd_eq_some.mp hstep]
      rfl
  · rintro ⟨l, a, b, c, rfl, rfl, hc⟩
    have hlt := c.toNat_lt
    obtain ⟨step, hstep, hval⟩ := exists_checkedAdd (show b.toNat + (1 : UInt32).toNat < 2 ^ 32 by
      rw [toNat_one]; omega)
    have hmerged : checkedAdd a step = .some c := checkedAdd_eq_some.mpr (by rw [hval, toNat_one, hc])
    have hsplit : l ++ [a, b] = (l ++ [a]) ++ [b] := by simp
    rw [hsplit]
    simp [collapseBack, parent, hstep, hmerged]

theorem layer_collapseBack {i j : ChainIndex} (h : collapseBack i = .some j) : layer j = layer i := by
  obtain ⟨l, a, b, c, rfl, rfl, hc⟩ := collapseBack_eq_some.mp h
  simp only [layer_append, layer_cons, layer_nil]
  omega

theorem length_collapseBack {i j : ChainIndex} (h : collapseBack i = .some j) : i.length = j.length + 1 := by
  obtain ⟨l, a, b, c, rfl, rfl, _⟩ := collapseBack_eq_some.mp h
  simp

theorem mem_shuffleIter {I : Itertools} {i j : ChainIndex} : j ∈ shuffleIter I i ↔ j.Perm i := by
  rw [shuffleIter, I.mem_unique, I.mem_permutations]

/-- Every place that is not the deepest of its layer is a rearrangement of a merged one. -/
theorem exists_collapse_perm {i : ChainIndex} (h : i.length < layer i) :
    ∃ p j, layer p = layer i ∧ p.length = i.length + 1 ∧ collapseBack p = .some j ∧ i.Perm j := by
  obtain ⟨a, ha, hpos⟩ : ∃ a ∈ i, a ≠ 0 := by
    by_contra hall
    have hzero : i = List.replicate i.length 0 :=
      List.eq_replicate_of_mem fun a ha => by_contra fun hne => hall ⟨a, ha, hne⟩
    rw [hzero, layer_replicate_zero, List.length_replicate] at h
    exact absurd h (Nat.lt_irrefl _)
  obtain ⟨l, r, rfl⟩ := List.append_of_mem ha
  have hle : (1 : UInt32) ≤ a := by
    have := UInt32.toNat_inj.not.mpr hpos
    rw [UInt32.le_iff_toNat_le, toNat_one]
    simp at this
    omega
  have hpred : (a - 1).toNat + 1 = a.toNat := by
    rw [UInt32.toNat_sub_of_le _ _ hle, toNat_one]
    rw [UInt32.le_iff_toNat_le, toNat_one] at hle
    omega
  refine ⟨l ++ r ++ [a - 1, 0], l ++ r ++ [a], ?_, by simp; omega, ?_, ?_⟩
  · simp only [layer_append, layer_cons, layer_nil, UInt32.toNat_zero]
    omega
  · exact collapseBack_eq_some.mpr ⟨l ++ r, a - 1, 0, a, rfl, rfl, by rw [← hpred]; rfl⟩
  · rw [List.append_assoc]
    exact List.Perm.append_left l (List.perm_append_singleton a r).symm

/-! ## The enumeration -/

section
variable (I : Itertools)

/-- What holds before each round: only places of the layer, and each one popped has had its rearrangements
pushed. -/
structure Layered (d : Nat) (stack cumulativeStack : List ChainIndex) : Prop where
  layer_eq : ∀ i ∈ cumulativeStack, layer i = d
  stacked : ∀ i ∈ stack, i ∈ cumulativeStack
  deepest : List.replicate d 0 ∈ cumulativeStack
  expanded : ∀ i ∈ cumulativeStack, i ∈ stack ∨
    ∀ j, collapseBack i = .some j → ∀ k, k.Perm j → k ∈ cumulativeStack

theorem Layered.expand {d : Nat} {i : ChainIndex} {rest cumulative : List ChainIndex}
    (h : Layered d (i :: rest) cumulative) : ∃ cumulative' pushed,
      expand I cumulative i = .some (cumulative', pushed) ∧ Layered d (pushed ++ rest) cumulative' ∧
      work (fun i => rounds i.length) pushed < rounds i.length := by
  have hi := h.stacked i (List.mem_cons_self ..)
  unfold ChainIndex.expand
  cases hcollapse : collapseBack i with
  | none =>
    refine ⟨_, _, rfl, ⟨h.layer_eq, fun k hk => h.stacked k (List.mem_cons_of_mem _ hk), h.deepest, ?_⟩, ?_⟩
    · intro k hk
      rcases h.expanded k hk with hstack | hdone
      · rcases List.mem_cons.mp hstack with rfl | hrest
        · exact .inr fun j hj => nomatch hcollapse.symm.trans hj
        · exact .inl hrest
      · exact .inr hdone
    · cases i <;> simp [work, rounds]
  | some j =>
    have hmem : ∀ k, k ∈ (shuffleIter I j).reverse ++ rest ↔ k.Perm j ∨ k ∈ rest := by
      intro k
      rw [List.mem_append, List.mem_reverse, mem_shuffleIter]
    refine ⟨_, _, rfl, ⟨?_, ?_, List.mem_append_left _ h.deepest, ?_⟩, ?_⟩
    · intro k hk
      rcases List.mem_append.mp hk with hk | hk
      · exact h.layer_eq k hk
      · rw [layer_perm (mem_shuffleIter.mp hk), layer_collapseBack hcollapse, h.layer_eq i hi]
    · intro k hk
      rcases (hmem k).mp hk with hk | hk
      · exact List.mem_append_right _ (mem_shuffleIter.mpr hk)
      · exact List.mem_append_left _ (h.stacked k (List.mem_cons_of_mem _ hk))
    · intro k hk
      rcases List.mem_append.mp hk with hk | hk
      · rcases h.expanded k hk with hstack | hdone
        · rcases List.mem_cons.mp hstack with rfl | hrest
          · right
            intro j' hj' k' hk'
            cases hcollapse.symm.trans hj'
            exact List.mem_append_right _ (mem_shuffleIter.mpr hk')
          · exact .inl ((hmem k).mpr (.inr hrest))
        · exact .inr fun j' hj' k' hk' => List.mem_append_left _ (hdone j' hj' k' hk')
      · exact .inl ((hmem k).mpr (.inl (mem_shuffleIter.mp hk)))
    · -- at most `j.length!` places, each of the length of `j`
      have hweights : ∀ k ∈ (shuffleIter I j).reverse, rounds k.length = rounds j.length := by
        intro k hk
        rw [(mem_shuffleIter.mp (List.mem_reverse.mp hk)).length_eq]
      have hcount : (shuffleIter I j).length ≤ j.length.factorial := by
        rw [← I.length_permutations]
        exact I.length_unique_le _
      rw [work, List.map_congr_left hweights, List.map_const', List.sum_replicate_nat, List.length_reverse,
        length_collapseBack hcollapse, rounds]
      exact Nat.lt_succ_of_le (Nat.mul_le_mul_right _ hcount)

/-- A layer whose places have all had their rearrangements pushed is whole. -/
theorem Layered.complete {d : Nat} {cumulative : List ChainIndex} (h : Layered d [] cumulative) :
    ∀ {i : ChainIndex}, layer i = d → i ∈ cumulative := by
  -- from the deepest place up: a place of length `d - n` comes from one of length `d - n + 1`
  have hup : ∀ (n : Nat) (i : ChainIndex), layer i = d → d ≤ i.length + n → i ∈ cumulative := by
    intro n
    induction n with
    | zero =>
      intro i hlayer hlen
      have hrep := eq_replicate_of_layer_le (show layer i ≤ i.length by omega)
      have hlen' : i.length = d := Nat.le_antisymm (hlayer ▸ length_le_layer i) (by omega)
      rw [hrep, hlen']
      exact h.deepest
    | succ n ih =>
      intro i hlayer hlen
      by_cases hfull : d ≤ i.length + n
      · exact ih i hlayer hfull
      · obtain ⟨p, j, hp, hplen, hcollapse, hperm⟩ := exists_collapse_perm (show i.length < layer i by omega)
        have hmem := ih p (hp.trans hlayer) (by omega)
        rcases h.expanded p hmem with hstack | hdone
        · cases hstack
        · exact hdone j hcollapse i hperm
  intro i hlayer
  exact hup d i hlayer (by omega)

theorem cumulativeStack_complete (d : Nat) :
    ∃ ids, cumulativeStack I d = .some ids ∧ ∀ i, i ∈ ids ↔ layer i = d := by
  have hstart : Layered d [List.replicate d 0] [List.replicate d 0] := by
    refine ⟨?_, fun i hi => hi, List.mem_cons_self .., fun i hi => .inl hi⟩
    intro i hi
    rw [List.mem_singleton.mp hi, layer_replicate_zero]
  have hwork : work (fun i : ChainIndex => rounds i.length) [List.replicate d 0] ≤ rounds d := by simp [work]
  obtain ⟨ids, hrun, hend⟩ := drain_total _ (Layered d) (fun h => h.expand I) hstart hwork
  exact ⟨ids, hrun, fun i => ⟨hend.layer_eq i, hend.complete⟩⟩

theorem chainIdsAtDepth_complete (d : Nat) :
    ∃ ids, chainIdsAtDepth I d = .some ids ∧ ids.Nodup ∧ ∀ i, i ∈ ids ↔ layer i = d := by
  obtain ⟨ids, hrun, hmem⟩ := cumulativeStack_complete I d
  exact ⟨I.unique ids, by rw [chainIdsAtDepth, hrun]; rfl, I.nodup_unique _, fun i => by rw [I.mem_unique, hmem]⟩

theorem chainIdsAtDepthRev_complete (d : Nat) :
    ∃ ids, chainIdsAtDepthRev I d = .some ids ∧ ids.Nodup ∧ ∀ i, i ∈ ids ↔ layer i = d := by
  obtain ⟨ids, hrun, hmem⟩ := cumulativeStack_complete I d
  exact ⟨I.unique ids.reverse, by rw [chainIdsAtDepthRev, hrun]; rfl, I.nodup_unique _,
    fun i => by rw [I.mem_unique, List.mem_reverse, hmem]⟩

/-- **A layer is enumerated exactly**: at every depth both iterators end, and yield each place of that depth whose
sum does not wrap once, and no other. -/
theorem layer_enumeration_exact (d : UInt32) :
    (∃ ids, chainIdsAtDepth I d.toNat = .some ids ∧ ids.Nodup ∧
      ∀ i, i ∈ ids ↔ depth i = .some d ∧ layer i < 2 ^ 32) ∧
    (∃ ids, chainIdsAtDepthRev I d.toNat = .some ids ∧ ids.Nodup ∧
      ∀ i, i ∈ ids ↔ depth i = .some d ∧ layer i < 2 ^ 32) := by
  simp only [← layer_eq_iff]
  exact ⟨chainIdsAtDepth_complete I d.toNat, chainIdsAtDepthRev_complete I d.toNat⟩

end

example : chainIdsAtDepth positional 3 = .some [[0, 0, 0], [0, 1], [1, 0], [2]] := by decide

/-- A place far down whose depth is zero: neither iterator has it in the layer of the root. -/
theorem wrapped_depth_not_enumerated : depth [0xFFFFFFFE, 0] = .some 0 ∧ ∀ I : Itertools,
    (∃ ids, chainIdsAtDepth I 0 = .some ids ∧ [0xFFFFFFFE, 0] ∉ ids) ∧
      ∃ ids, chainIdsAtDepthRev I 0 = .some ids ∧ [0xFFFFFFFE, 0] ∉ ids := by
  have hlayer : layer [0xFFFFFFFE, 0] ≠ 0 := by decide
  refine ⟨by decide, fun I => ⟨?_, ?_⟩⟩
  · obtain ⟨ids, hrun, -, hmem⟩ := chainIdsAtDepth_complete I 0
    exact ⟨ids, hrun, fun h => hlayer ((hmem _).mp h)⟩
  · obtain ⟨ids, hrun, -, hmem⟩ := chainIdsAtDepthRev_complete I 0
    exact ⟨ids, hrun, fun h => hlayer ((hmem _).mp h)⟩

end ChainIndex

end Lez.Wallet
