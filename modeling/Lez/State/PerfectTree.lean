/-
The tree of commitments does not depend on the capacity it started with.
Whatever that was, and however often the array was reallocated, the root is
that of the perfect binary tree over the hashes of the values, padded to the
next power of two, and the paths handed out are its sibling paths.
-/
import Lez.Lib.PackedSha256
import Lez.State.MerkleFacts

namespace Lez.MerkleTree

open HeapTree

variable {sha256 : Bytes → Bytes32} {D : Nat} {values : List Bytes32} {t : MerkleTree}

/-- The tree after the insertion of `values`, one by one, into one of this capacity. -/
def treeFrom (sha256 : Bytes → Bytes32) (capacity : Nat) (values : List Bytes32) : Option MerkleTree :=
  (withCapacity capacity).bind fun t => values.foldlM (fun t v => (t.insert sha256 v).map (·.2)) t

/-- The capacity is rounded up to a power of two. -/
theorem withCapacity_eq (capacity : Nat) : withCapacity capacity = withCapacity (2 ^ Nat.clog 2 capacity) := by
  rw [withCapacity, withCapacity, nextPowerOfTwo_pow, nextPowerOfTwo_eq]

theorem treeFrom_snoc (capacity : Nat) (v : Bytes32) :
    treeFrom sha256 capacity (values ++ [v]) =
      (treeFrom sha256 capacity values).bind fun t => (t.insert sha256 v).map (·.2) := by
  simp only [treeFrom, List.foldlM_append, List.foldlM_cons, List.foldlM_nil, Option.bind_eq_bind, Option.bind_assoc,
    Option.pure_def, Option.bind_fun_some]

/-- **Within the table of default values there is a tree over the values.** -/
theorem exists_treeFrom {capacity : Nat} (hcapacity : capacity ≤ 2 ^ 31) (hlen : values.length ≤ 2 ^ 31) :
    ∃ t, treeFrom sha256 capacity values = .some t ∧ ∃ D ≤ 31, Holds sha256 D values t := by
  induction values using List.reverseRecOn with
  | nil =>
    have hD : Nat.clog 2 capacity ≤ 31 := (Nat.clog_le_iff_le_pow Nat.one_lt_two).mpr hcapacity
    obtain ⟨t, ht⟩ := Option.isSome_iff_exists.mp (withCapacity_isSome.mpr (Nat.lt_succ_of_le hD))
    exact ⟨t, by rw [treeFrom, withCapacity_eq, ht]; rfl, _, hD, withCapacity_holds ht⟩
  | append_singleton values v ih =>
    rw [List.length_append, List.length_singleton] at hlen
    obtain ⟨t, ht, D, hD, hh⟩ := ih (by omega)
    obtain ⟨⟨i, t'⟩, hinsert⟩ := Option.isSome_iff_exists.mp ((hh.insert_isSome hD v).mpr (by omega))
    obtain ⟨-, D', hD', hh'⟩ := hh.insert_le hinsert
    exact ⟨t', by rw [treeFrom_snoc, ht, Option.bind_some, hinsert, Option.map_some], D', hD' hD, hh'⟩

/-- Only a capacity within the table has a tree. -/
theorem treeFrom_capacity {capacity : Nat} (h : treeFrom sha256 capacity values = .some t) : capacity ≤ 2 ^ 31 := by
  obtain ⟨u, hu, -⟩ := Option.bind_eq_some_iff.mp h
  rw [withCapacity_eq] at hu
  have hD := withCapacity_isSome.mp (by rw [hu]; rfl)
  exact (Nat.clog_le_iff_le_pow Nat.one_lt_two).mp (Nat.le_of_lt_succ hD)

/-- The sibling path of index `i` in the perfect tree. -/
theorem Holds.siblings (hempty : EmptyRoots sha256) (hh : Holds sha256 D values t) {i : Nat} (hi : i < values.length) :
    ∃ p, t.getAuthenticationPathFor i = .some p ∧
      HashTree.siblings (hashTwo sha256) (Nat.clog 2 values.length) (paddedLeaves sha256 values) i = .some p := by
  obtain ⟨p, hp, hpath, -⟩ := hh.path_up (List.getElem?_eq_getElem hi)
  refine ⟨p, hpath, ?_⟩
  have hsame := path_eq_siblings (hashTwo sha256) (paddedLeaves_length sha256 values) hh.leaf (hh.combines hempty)
    (Nat.le_of_eq (Nat.zero_add _)) (lt_of_lt_of_le hi (Nat.le_pow_clog Nat.one_lt_two _))
  rw [← hp, hsame, HashTree.level]

/-- **The commitment tree does not depend on its capacity.** With sizes within the table of default values, the
insertions succeed; the perfect tree over the hashes of the values, padded with the default leaf to the next power
of two, has one node at its top, and that is the root; the paths handed out are its sibling paths. So the root
after the same insertions into a tree of any other capacity is the same. -/
theorem tree_capacity_independent (hempty : EmptyRoots sha256) {capacity : Nat} (hcapacity : capacity ≤ 2 ^ 31)
    (hlen : values.length ≤ 2 ^ 31) :
    ∃ t root, treeFrom sha256 capacity values = .some t ∧ t.root = .some root ∧
      HashTree.level (hashTwo sha256) (Nat.clog 2 values.length) (paddedLeaves sha256 values) = [root] ∧
      (∀ i < values.length, ∃ p, t.getAuthenticationPathFor i = .some p ∧
        HashTree.siblings (hashTwo sha256) (Nat.clog 2 values.length) (paddedLeaves sha256 values) i = .some p) ∧
      (∀ i ≥ values.length, t.getAuthenticationPathFor i = .none) ∧
      ∀ capacity' t', treeFrom sha256 capacity' values = .some t' → t'.root = .some root := by
  obtain ⟨t, ht, D, -, hh⟩ := exists_treeFrom hcapacity hlen
  have hone : (HashTree.level (hashTwo sha256) (Nat.clog 2 values.length) (paddedLeaves sha256 values)).length = 1 := by
    rw [HashTree.level_length, paddedLeaves_length, Nat.div_self (Nat.two_pow_pos _)]
  obtain ⟨root, htop⟩ := List.length_eq_one_iff.mp hone
  have hroot : ∀ {D t}, Holds sha256 D values t → t.root = .some root := by
    intro D t hh
    rw [hh.root_eq hempty, htop]
    rfl
  refine ⟨t, root, ht, hroot hh, htop, fun i hi => hh.siblings hempty hi, ?_, ?_⟩
  · intro i hi
    rw [getAuthenticationPathFor, if_pos (by rw [hh.length]; exact hi)]
  · intro capacity' t' ht'
    obtain ⟨u, hu, D', -, hh'⟩ := exists_treeFrom (treeFrom_capacity ht') hlen
    cases ht'.symm.trans hu
    exact hroot hh'

/-- `DEFAULT_VALUES` are the roots of empty trees. -/
theorem emptyRoots_sha256 : EmptyRoots Sha256.hash := by
  have hpairs : (defaultValues.zip defaultValues.tail).all (fun p => decide (p.2 = hashTwo Sha256.hash p.1 p.1)) = true := by
    rw [Sha256.hash_eq_packed]
    decide +kernel
  intro ℓ a b ha hb
  have hmem : (a, b) ∈ defaultValues.zip defaultValues.tail := by
    refine List.mem_of_getElem? (i := ℓ) ?_
    rw [List.getElem?_zip_eq_some]
    exact ⟨ha, by rwa [List.getElem?_tail]⟩
  exact of_decide_eq_true (List.all_eq_true.mp hpairs _ hmem)

/-- Three values into a tree of capacity one, which is reallocated twice, and into one of capacity 64. -/
theorem three_values_one_root :
    ∃ t t' root, treeFrom Sha256.hash 1 [bytes32OfNat 1, bytes32OfNat 2, bytes32OfNat 3] = .some t ∧
      treeFrom Sha256.hash 64 [bytes32OfNat 1, bytes32OfNat 2, bytes32OfNat 3] = .some t' ∧
      t.root = .some root ∧ t'.root = .some root := by
  obtain ⟨t, root, ht, hroot, -, -, -, hother⟩ :=
    @tree_capacity_independent Sha256.hash [bytes32OfNat 1, bytes32OfNat 2, bytes32OfNat 3] emptyRoots_sha256 1
      (by decide) (by decide)
  obtain ⟨t', -, ht', -⟩ :=
    @tree_capacity_independent Sha256.hash [bytes32OfNat 1, bytes32OfNat 2, bytes32OfNat 3] emptyRoots_sha256 64
      (by decide) (by decide)
  exact ⟨t, t', root, ht, ht', hroot, hother 64 t' ht'⟩

end Lez.MerkleTree
