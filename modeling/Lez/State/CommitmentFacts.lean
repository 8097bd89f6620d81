/-
What the commitment set holds: extending it adds the commitments given and
forgets none. `Over inserted s` says that `s` came about by inserting the
commitments `inserted` in this order: the index it has for a commitment is its
place there, and each root it remembers is the root after some of them.
-/
import Lez.State.MerkleFacts

namespace Lez.CommitmentSet

variable {sha256 : Bytes → Bytes32} {s s' : CommitmentSet}

theorem insertOne_contains {c c' : Commitment} (h : s.insertOne sha256 c = .some s') :
    s'.contains c' ↔ s.contains c' ∨ c' = c := by
  simp only [insertOne, Option.bind_eq_bind, Option.bind_eq_some_iff] at h
  obtain ⟨⟨index, tree⟩, -, h⟩ := h
  cases h
  by_cases hc : c' = c
  · subst hc
    simp [contains]
  · simp [contains, AList.lookup_insert_ne hc, hc]

theorem foldlM_insertOne_contains {c : Commitment} : ∀ {cs : List Commitment} {s s' : CommitmentSet},
    cs.foldlM (insertOne sha256) s = .some s' → (s'.contains c ↔ s.contains c ∨ c ∈ cs)
  | [], s, s', h => by
    cases h
    simp
  | c' :: cs, s, s', h => by
    rw [List.foldlM_cons, Option.bind_eq_bind, Option.bind_eq_some_iff] at h
    obtain ⟨t, ht, h⟩ := h
    rw [foldlM_insertOne_contains h, insertOne_contains ht, List.mem_cons, or_assoc]

theorem extend_contains {cs : List Commitment} {c : Commitment} (h : s.extend sha256 cs = .some s') :
    s'.contains c ↔ s.contains c ∨ c ∈ cs := by
  simp only [extend, Option.bind_eq_bind, Option.bind_eq_some_iff] at h
  obtain ⟨t, ht, digest, -, h⟩ := h
  cases h
  rw [← foldlM_insertOne_contains ht]
  rfl

/-- An extended set has a root. -/
theorem extend_root {cs : List Commitment} (h : s.extend sha256 cs = .some s') : s'.merkleTree.root.isSome := by
  simp only [extend, Option.bind_eq_bind, Option.bind_eq_some_iff] at h
  obtain ⟨t, -, digest, hdigest, h⟩ := h
  cases h
  simp [hdigest]

/-! ## The insertions behind a set -/

/-- The tree after the insertion of `values`, one by one, into one of the genesis capacity. -/
def treeOver (sha256 : Bytes → Bytes32) (values : List Commitment) : Option MerkleTree :=
  (MerkleTree.withCapacity 32).bind fun t => values.foldlM (fun t v => (t.insert sha256 v).map (·.2)) t

/-- The digest after the insertion of `values`. -/
def digestOver (sha256 : Bytes → Bytes32) (values : List Commitment) : Option CommitmentSetDigest :=
  (treeOver sha256 values).bind MerkleTree.root

structure Over (sha256 : Bytes → Bytes32) (inserted : List Commitment) (s : CommitmentSet) : Prop where
  tree : treeOver sha256 inserted = .some s.merkleTree
  members : ∀ {c}, s.contains c ↔ c ∈ inserted
  indexed : ∀ {c i}, s.commitments.lookup c = .some i → inserted[i]? = .some c
  roots : ∀ r ∈ s.rootHistory, ∃ earlier, earlier ≠ [] ∧ earlier <+: inserted ∧ digestOver sha256 earlier = .some r

theorem treeOver_snoc (values : List Commitment) (c : Commitment) :
    treeOver sha256 (values ++ [c]) = (treeOver sha256 values).bind fun t => (t.insert sha256 c).map (·.2) := by
  simp only [treeOver, List.foldlM_append, List.foldlM_cons, List.foldlM_nil, Option.bind_eq_bind, Option.bind_assoc,
    Option.pure_def, Option.bind_fun_some]

theorem treeOver_holds_le {values : List Commitment} {t : MerkleTree} (h : treeOver sha256 values = .some t) :
    ∃ D ≤ 31, MerkleTree.Holds sha256 D values t := by
  induction values using List.reverseRecOn generalizing t with
  | nil =>
    rw [treeOver, Option.bind_eq_some_iff] at h
    obtain ⟨u, hu, h⟩ := h
    cases h
    exact ⟨5, by decide, MerkleTree.withCapacity_holds hu⟩
  | append_singleton values c ih =>
    rw [treeOver_snoc, Option.bind_eq_some_iff] at h
    obtain ⟨u, hu, h⟩ := h
    obtain ⟨⟨i, t'⟩, hins, rfl⟩ := Option.map_eq_some_iff.mp h
    obtain ⟨D, hle, hD⟩ := ih hu
    obtain ⟨-, D', hle', hD'⟩ := hD.insert_le hins
    exact ⟨D', hle' hle, hD'⟩

theorem treeOver_holds {values : List Commitment} {t : MerkleTree} (h : treeOver sha256 values = .some t) :
    ∃ D, MerkleTree.Holds sha256 D values t := by
  obtain ⟨D, -, hD⟩ := treeOver_holds_le h
  exact ⟨D, hD⟩

theorem withCapacity_over (h : withCapacity 32 = .some s) : Over sha256 [] s := by
  obtain ⟨t, ht, rfl⟩ := Option.map_eq_some_iff.mp h
  refine ⟨by simp [treeOver, ht], by simp [contains], by simp, by simp⟩

theorem Over.insertOne {inserted : List Commitment} {c : Commitment} (ho : Over sha256 inserted s)
    (h : s.insertOne sha256 c = .some s') : Over sha256 (inserted ++ [c]) s' ∧ s'.rootHistory = s.rootHistory := by
  have hmembers : ∀ c', s'.contains c' ↔ s.contains c' ∨ c' = c := fun _ => insertOne_contains h
  simp only [CommitmentSet.insertOne, Option.bind_eq_bind, Option.bind_eq_some_iff] at h
  obtain ⟨⟨index, tree⟩, htree, h⟩ := h
  cases h
  obtain ⟨D, hD⟩ := treeOver_holds ho.tree
  obtain ⟨rfl, -⟩ := hD.insert htree
  refine ⟨⟨?_, ?_, ?_, ?_⟩, rfl⟩
  · rw [treeOver_snoc, ho.tree, Option.bind_some, htree, Option.map_some]
  · intro c'
    rw [hmembers, ho.members, List.mem_append, List.mem_singleton]
  · intro c' i hi
    dsimp only at hi
    by_cases hc : c' = c
    · subst hc
      rw [AList.lookup_insert] at hi
      cases hi
      simp
    · rw [AList.lookup_insert_ne hc] at hi
      have hlt := (List.getElem?_eq_some_iff.mp (ho.indexed hi)).1
      rw [List.getElem?_append_left hlt]
      exact ho.indexed hi
  · intro r hr
    obtain ⟨earlier, hne, hprefix, hdigest⟩ := ho.roots r hr
    exact ⟨earlier, hne, hprefix.trans (List.prefix_append _ _), hdigest⟩

theorem Over.foldlM_insertOne : ∀ {cs inserted : List Commitment} {s s' : CommitmentSet}, Over sha256 inserted s →
    cs.foldlM (CommitmentSet.insertOne sha256) s = .some s' →
      Over sha256 (inserted ++ cs) s' ∧ s'.rootHistory = s.rootHistory
  | [], inserted, s, s', ho, h => by
    cases h
    simpa using ho
  | c :: cs, inserted, s, s', ho, h => by
    rw [List.foldlM_cons, Option.bind_eq_bind, Option.bind_eq_some_iff] at h
    obtain ⟨t, ht, h⟩ := h
    obtain ⟨hstep, hroots⟩ := ho.insertOne ht
    obtain ⟨hrest, hroots'⟩ := hstep.foldlM_insertOne h
    rw [List.append_cons]
    exact ⟨hrest, hroots'.trans hroots⟩

/-- **A batch appends its commitments and remembers the root after the last.** -/
theorem Over.extend {inserted cs : List Commitment} (ho : Over sha256 inserted s)
    (h : s.extend sha256 cs = .some s') (hne : inserted ++ cs ≠ []) :
    Over sha256 (inserted ++ cs) s' ∧ ∃ d, s'.digest = .some d ∧ d ∈ s'.rootHistory := by
  simp only [CommitmentSet.extend, Option.bind_eq_bind, Option.bind_eq_some_iff] at h
  obtain ⟨t, ht, digest, hdigest, h⟩ := h
  cases h
  obtain ⟨hover, -⟩ := ho.foldlM_insertOne ht
  refine ⟨⟨hover.tree, hover.members, hover.indexed, ?_⟩, digest, hdigest, Finset.mem_insert_self _ _⟩
  intro r hr
  rcases Finset.mem_insert.mp hr with rfl | hr
  · exact ⟨inserted ++ cs, hne, List.prefix_refl _, by rw [digestOver, hover.tree, Option.bind_some, hdigest]⟩
  · exact hover.roots r hr

/-- **Every commitment of the set has a path to the root.** -/
theorem Over.getProofFor {inserted : List Commitment} {c : Commitment} (ho : Over sha256 inserted s)
    (h : s.contains c) :
    ∃ proof, s.getProofFor c = .some proof ∧ s.digest = .some (computeDigestForPath sha256 c proof) := by
  obtain ⟨i, hi⟩ := Option.isSome_iff_exists.mp h
  obtain ⟨D, hD⟩ := treeOver_holds ho.tree
  obtain ⟨path, hpath, hroot⟩ := hD.path (ho.indexed hi)
  exact ⟨(i, path), by simp [CommitmentSet.getProofFor, hi, hpath], hroot⟩

/-- **A digest of the history opens to an insertion**: a path that replays to it starts there. -/
theorem Over.opens {inserted : List Commitment} (ho : Over sha256 inserted s)
    (hempty : MerkleTree.EmptyRoots sha256) {Q : Set Bytes} (hfree : MerkleTree.CollisionFree sha256 Q)
    (htree : ∀ earlier, earlier <+: inserted → ∀ q ∈ MerkleTree.treePreimages sha256 earlier, q ∈ Q) {c : Commitment}
    {proof : MembershipProof} (hpath : ∀ q ∈ MerkleTree.pathPreimages sha256 c proof, q ∈ Q)
    (hroot : computeDigestForPath sha256 c proof ∈ s.rootHistory) : c ∈ inserted := by
  obtain ⟨earlier, -, hprefix, hdigest⟩ := ho.roots _ hroot
  obtain ⟨t, ht, hroot⟩ := Option.bind_eq_some_iff.mp hdigest
  obtain ⟨D, hD⟩ := treeOver_holds ht
  exact hprefix.subset (hD.opens hempty hfree (htree earlier hprefix) hpath hroot)

/-! ## Room -/

/-- The tree over `values`, not deeper than there are default values for. -/
def TreeOn (sha256 : Bytes → Bytes32) (values : List Commitment) (t : MerkleTree) : Prop :=
  ∃ D ≤ 31, MerkleTree.Holds sha256 D values t

section
variable {inserted : List Commitment} {t : MerkleTree}

theorem TreeOn.root (h : TreeOn sha256 inserted t) : t.root.isSome := by
  obtain ⟨D, -, hD⟩ := h
  obtain ⟨v, hv⟩ := hD.node_isSome (ℓ := t.depth) (j := 0) (Nat.two_pow_pos _)
  rw [MerkleTree.root, MerkleTree.rootIndex_eq hD, hv]
  rfl

theorem TreeOn.length_le (h : TreeOn sha256 inserted t) : inserted.length ≤ 2 ^ 31 := by
  obtain ⟨D, hle, hD⟩ := h
  exact hD.fits.trans (Nat.pow_le_pow_right (by decide) hle)

theorem TreeOn.insertOne_isSome (h : TreeOn sha256 inserted s.merkleTree) (c : Commitment) :
    (s.insertOne sha256 c).isSome ↔ inserted.length < 2 ^ 31 := by
  obtain ⟨D, hle, hD⟩ := h
  rw [← hD.insert_isSome hle c, CommitmentSet.insertOne]
  cases s.merkleTree.insert sha256 c <;> rfl

theorem TreeOn.insertOne {c : Commitment} (h : TreeOn sha256 inserted s.merkleTree)
    (hs : s.insertOne sha256 c = .some s') : TreeOn sha256 (inserted ++ [c]) s'.merkleTree := by
  simp only [CommitmentSet.insertOne, Option.bind_eq_bind, Option.bind_eq_some_iff, Prod.exists] at hs
  obtain ⟨index, tree, htree, hs⟩ := hs
  cases hs
  obtain ⟨D, hle, hD⟩ := h
  obtain ⟨-, D', hle', hD'⟩ := hD.insert_le htree
  exact ⟨D', hle' hle, hD'⟩

end

theorem TreeOn.foldlM_insertOne : ∀ (cs : List Commitment) {inserted : List Commitment} {s : CommitmentSet},
    TreeOn sha256 inserted s.merkleTree →
      ((cs.foldlM (CommitmentSet.insertOne sha256) s).isSome ↔ inserted.length + cs.length ≤ 2 ^ 31) ∧
        ∀ s', cs.foldlM (CommitmentSet.insertOne sha256) s = .some s' → TreeOn sha256 (inserted ++ cs) s'.merkleTree
  | [], inserted, s, h => by
    refine ⟨iff_of_true rfl h.length_le, ?_⟩
    intro s' hs'
    cases hs'
    rwa [List.append_nil]
  | c :: cs, inserted, s, h => by
    have hroom := h.insertOne_isSome c
    rw [List.foldlM_cons, Option.bind_eq_bind, List.length_cons]
    cases hinsert : s.insertOne sha256 c with
    | none =>
      rw [hinsert] at hroom
      have hfull : ¬inserted.length < 2 ^ 31 := fun hlt => by simpa using hroom.mpr hlt
      refine ⟨iff_of_false (by simp) (by omega), ?_⟩
      intro s' hs'
      cases hs'
    | some s₁ =>
      have ih := TreeOn.foldlM_insertOne cs (h.insertOne hinsert)
      rw [List.length_append, List.length_singleton, List.append_assoc, List.singleton_append] at ih
      rw [Option.bind_some, show inserted.length + (cs.length + 1) = inserted.length + 1 + cs.length by omega]
      exact ih

/-- **A batch of commitments fits as long as the tree has no more than `2 ^ 31` after it.** -/
theorem TreeOn.extend_isSome {cs inserted : List Commitment} (h : TreeOn sha256 inserted s.merkleTree) :
    (s.extend sha256 cs).isSome ↔ inserted.length + cs.length ≤ 2 ^ 31 := by
  obtain ⟨hfits, htree⟩ := TreeOn.foldlM_insertOne cs h
  rw [← hfits, CommitmentSet.extend]
  cases hinserted : cs.foldlM (CommitmentSet.insertOne sha256) s with
  | none => rfl
  | some s₁ =>
    obtain ⟨root, hroot⟩ := Option.isSome_iff_exists.mp (htree s₁ hinserted).root
    simp [hroot]

end Lez.CommitmentSet
