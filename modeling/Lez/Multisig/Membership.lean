/-
Membership: what a path that replays to the root of enrolled leaves proves
about the leaf it starts from.

`root_from_path` takes a path of any length and a leaf is any 32 bytes, so a
path longer than the tree can come in through an enrolled leaf that is itself
an inner hash. That is the only way in: as long as no enrolled leaf is grafted
onto a stranger's leaf (`NoGraftedLeaf`) a path to the root starts from an
enrolled leaf, and a proposal collects no more approvals than there are
distinct leaves. What is assumed of the hash is said of the strings hashed.
-/
import Lez.Lib.PackedSha256
import Lez.Programs.MsigFacts
import Mathlib.Data.Set.Lattice
import Mathlib.Data.Finset.Card

namespace Lez.Msig

/-- What `member_leaf` hashes. -/
def leafPreimage (secret : Bytes32) : Bytes := leafDomain ++ secret.toList

/-- No two of these strings share a digest, and none has the digest that
stands for an empty slot. -/
structure CollisionFree (sha256 : Bytes → Bytes32) (Q : Set Bytes) : Prop where
  injOn : Set.InjOn sha256 Q
  nonzero : ∀ q ∈ Q, sha256 q ≠ emptyLeaf

theorem CollisionFree.mono {sha256 : Bytes → Bytes32} {P Q : Set Bytes} (h : CollisionFree sha256 Q) (hPQ : P ⊆ Q) :
    CollisionFree sha256 P :=
  ⟨h.injOn.mono hPQ, fun q hq => h.nonzero q (hPQ hq)⟩

section
variable (sha256 : Bytes → Bytes32)

/-- The pairs hashed to build the root of `leaves` and to replay `w` from a secret's leaf. -/
def hashedPairs (leaves : List Bytes32) (secret : Bytes32) (w : MerkleProof) : List (Bytes32 × Bytes32) :=
  HashTree.climbPairs (hashPair sha256) w.1.toNat w.2 (memberLeaf sha256 secret) ++
    HashTree.treePairs (hashPair sha256) treeDepth (resized leaves)

/-- The strings hashed: the secret's leaf and the pairs. -/
def queries (leaves : List Bytes32) (secret : Bytes32) (w : MerkleProof) : Set Bytes :=
  {q | q ∈ leafPreimage secret :: (hashedPairs sha256 leaves secret w).map pairPreimage}

/-- A path that replays to the root starts from an enrolled leaf. -/
def MembershipSound (leaves : List Bytes32) : Prop :=
  ∀ secret w, CollisionFree sha256 (queries sha256 leaves secret w) →
    rootFromPath sha256 (memberLeaf sha256 secret) w = merkleRoot sha256 leaves → memberLeaf sha256 secret ∈ leaves

/-- A proposal frozen with the root of `leaves` never counts more approvals
than there are distinct leaves. -/
def ApprovalBound (leaves : List Bytes32) : Prop :=
  ∀ id votes data, Approvals sha256 (merkleRoot sha256 leaves) id votes data →
    CollisionFree sha256 (⋃ v ∈ votes, queries sha256 leaves v.1 v.2) →
      storedCount data.1 ≤ leaves.toFinset.card

/-- No enrolled leaf is the hash of a path, of one step or more, up from the
leaf of a secret that is not enrolled, at the slot the rest of the path's
index names. -/
def NoGraftedLeaf (leaves : List Bytes32) : Prop :=
  ∀ secret (idx : UInt32) path, path ≠ [] → memberLeaf sha256 secret ∉ leaves →
    CollisionFree sha256 (queries sha256 leaves secret (idx, path)) →
      leaves[idx.toNat / 2 ^ path.length % 2 ^ treeDepth]? ≠
        .some (rootFromPath sha256 (memberLeaf sha256 secret) (idx, path))

end

variable {sha256 : Bytes → Bytes32} {leaves : List Bytes32}

/-! ## From the hash to the tree -/

/-- A leaf is a hash of 46 bytes, a pair of 64. -/
theorem leafPreimage_ne_pairPreimage (secret : Bytes32) (p : Bytes32 × Bytes32) :
    leafPreimage secret ≠ pairPreimage p := by
  intro h
  have hl := congrArg List.length h
  simp [leafPreimage, pairPreimage, leafDomain, ascii] at hl

section
variable {secret : Bytes32} {w : MerkleProof}

theorem leafPreimage_mem_queries : leafPreimage secret ∈ queries sha256 leaves secret w := List.mem_cons_self

theorem pairPreimage_mem_queries {p : Bytes32 × Bytes32} (hp : p ∈ hashedPairs sha256 leaves secret w) :
    pairPreimage p ∈ queries sha256 leaves secret w :=
  List.mem_cons_of_mem _ (List.mem_map_of_mem hp)

theorem climbPair_mem_queries {p : Bytes32 × Bytes32}
    (hp : p ∈ HashTree.climbPairs (hashPair sha256) w.1.toNat w.2 (memberLeaf sha256 secret)) :
    pairPreimage p ∈ queries sha256 leaves secret w :=
  pairPreimage_mem_queries (List.mem_append_left _ hp)

theorem treePair_mem_queries {p : Bytes32 × Bytes32}
    (hp : p ∈ HashTree.treePairs (hashPair sha256) treeDepth (resized leaves)) :
    pairPreimage p ∈ queries sha256 leaves secret w :=
  pairPreimage_mem_queries (List.mem_append_right _ hp)

/-- Fewer pairs, fewer strings. -/
theorem queries_subset {v : MerkleProof}
    (h : ∀ p ∈ hashedPairs sha256 leaves secret v, p ∈ hashedPairs sha256 leaves secret w) :
    queries sha256 leaves secret v ⊆ queries sha256 leaves secret w := by
  intro q hq
  rcases List.mem_cons.mp hq with rfl | hq
  · exact leafPreimage_mem_queries
  · obtain ⟨p, hp, rfl⟩ := List.mem_map.mp hq
    exact pairPreimage_mem_queries (h p hp)

theorem CollisionFree.pairs (h : CollisionFree sha256 (queries sha256 leaves secret w)) :
    Set.InjOn (fun p : Bytes32 × Bytes32 => hashPair sha256 p.1 p.2)
      {p | pairPreimage p ∈ queries sha256 leaves secret w} := by
  intro p hp q hq he
  exact pairPreimage_injective (h.injOn hp hq he)

/-- The leaf of a secret is no node of the tree above its leaves. -/
theorem CollisionFree.leaf_ne_pair (h : CollisionFree sha256 (queries sha256 leaves secret w))
    {p : Bytes32 × Bytes32} (hp : pairPreimage p ∈ queries sha256 leaves secret w) :
    memberLeaf sha256 secret ≠ hashPair sha256 p.1 p.2 := by
  intro he
  exact leafPreimage_ne_pairPreimage secret p (h.injOn leafPreimage_mem_queries hp he)

end

/-- A path shorter than the tree never replays to the root: it would start
from an inner node. -/
theorem short_path_misses {secret : Bytes32} {w : MerkleProof} (hshort : w.2.length < treeDepth)
    (hfree : CollisionFree sha256 (queries sha256 leaves secret w)) :
    rootFromPath sha256 (memberLeaf sha256 secret) w ≠ merkleRoot sha256 leaves := by
  intro hroot
  obtain ⟨k, hk⟩ : ∃ k, treeDepth = k + 1 + w.2.length := ⟨treeDepth - 1 - w.2.length, by omega⟩
  have hlevel := merkleRoot_level sha256 leaves
  rw [hk, HashTree.level_add] at hlevel
  have hmeet : (HashTree.level (hashPair sha256) w.2.length
      (HashTree.level (hashPair sha256) (k + 1) (resized leaves)))[0]? =
        .some (HashTree.climb (hashPair sha256) w.1.toNat w.2 (memberLeaf sha256 secret)) := by
    rw [hlevel]
    exact congrArg Option.some hroot.symm
  have hpin := HashTree.climb_pins (hashPair sha256) hfree.pairs w.2 _ w.1.toNat 0 _
    (fun p hp => treePair_mem_queries (hk ▸ HashTree.treePairs_level _ (k + 1) w.2.length _ p hp))
    (fun p hp => climbPair_mem_queries hp) hmeet
  obtain ⟨p, hp, he⟩ := HashTree.mem_level_succ (hashPair sha256) (List.mem_of_getElem? hpin)
  have hp' : p ∈ HashTree.treePairs (hashPair sha256) treeDepth (resized leaves) := by
    rw [hk]
    exact HashTree.treePairs_mono _ (k + 1) w.2.length _ p hp
  exact hfree.leaf_ne_pair (treePair_mem_queries hp') he

/-- Where the last steps of a longer path replay to the root, what the first
steps built is the enrolled leaf at the slot the index names. -/
theorem long_path_lands {secret : Bytes32} {idx : UInt32} {p₁ p₂ : List Bytes32} (hlen : p₂.length = treeDepth)
    (hfree : CollisionFree sha256 (queries sha256 leaves secret (idx, p₁ ++ p₂)))
    (hroot : rootFromPath sha256 (memberLeaf sha256 secret) (idx, p₁ ++ p₂) = merkleRoot sha256 leaves) :
    leaves[idx.toNat / 2 ^ p₁.length % 2 ^ treeDepth]? =
      .some (rootFromPath sha256 (memberLeaf sha256 secret) (idx, p₁)) := by
  have hmeet : (HashTree.level (hashPair sha256) p₂.length (resized leaves))[0]? =
      .some (HashTree.climb (hashPair sha256) (idx.toNat / 2 ^ p₁.length) p₂
        (rootFromPath sha256 (memberLeaf sha256 secret) (idx, p₁))) := by
    rw [hlen, merkleRoot_level]
    simp only [rootFromPath, HashTree.climb_append] at hroot ⊢
    exact congrArg Option.some hroot.symm
  have hpin := HashTree.climb_pins (hashPair sha256) hfree.pairs p₂ (resized leaves) _ 0 _
    (fun p hp => treePair_mem_queries (hlen ▸ hp))
    (fun p hp => climbPair_mem_queries (by rw [HashTree.climbPairs_append]; exact List.mem_append_right _ hp)) hmeet
  rw [hlen, Nat.zero_mul, Nat.zero_add] at hpin
  rcases resized_getElem?_some hpin with hleaf | hempty
  · exact hleaf
  · exfalso
    -- an empty slot is no digest, neither the leaf's nor a pair's
    cases p₁ with
    | nil => exact hfree.nonzero _ leafPreimage_mem_queries hempty
    | cons s p₁ =>
      obtain ⟨q, hq, he⟩ := HashTree.climb_cons (hashPair sha256) p₁ s idx.toNat (memberLeaf sha256 secret)
      refine hfree.nonzero (pairPreimage q) (climbPair_mem_queries ?_) (he.symm.trans hempty)
      rw [HashTree.climbPairs_append]
      exact List.mem_append_left _ hq

/-- A path as long as the tree is deep starts from an enrolled leaf. -/
theorem full_path_member {secret : Bytes32} {w : MerkleProof} (hlen : w.2.length = treeDepth)
    (hfree : CollisionFree sha256 (queries sha256 leaves secret w))
    (hroot : rootFromPath sha256 (memberLeaf sha256 secret) w = merkleRoot sha256 leaves) :
    memberLeaf sha256 secret ∈ leaves := by
  obtain ⟨idx, path⟩ := w
  have hland := @long_path_lands sha256 leaves secret idx [] path hlen hfree hroot
  exact List.mem_of_getElem? hland

/-! ## Soundness under the condition -/

/-- The strings of the first steps of a path are among those of the path. -/
theorem queries_prefix {secret : Bytes32} {idx : UInt32} {p₁ p₂ : List Bytes32} :
    queries sha256 leaves secret (idx, p₁) ⊆ queries sha256 leaves secret (idx, p₁ ++ p₂) := by
  refine queries_subset ?_
  intro p hp
  simp only [hashedPairs, HashTree.climbPairs_append, List.mem_append] at hp ⊢
  exact hp.imp_left .inl

theorem NoGraftedLeaf.sound (h : NoGraftedLeaf sha256 leaves) : MembershipSound sha256 leaves := by
  intro secret w hfree hroot
  obtain ⟨idx, path⟩ := w
  by_cases hshort : path.length < treeDepth
  · exact absurd hroot (short_path_misses hshort hfree)
  · -- the last `TREE_DEPTH` steps are in the tree, the ones before led to its leaf
    obtain ⟨p₁, p₂, rfl, hlen⟩ : ∃ p₁ p₂, path = p₁ ++ p₂ ∧ p₂.length = treeDepth :=
      ⟨path.take (path.length - treeDepth), path.drop (path.length - treeDepth),
        (List.take_append_drop _ _).symm, by rw [List.length_drop]; omega⟩
    by_cases hnil : p₁ = []
    · subst hnil
      exact full_path_member hlen hfree hroot
    · by_contra hout
      exact h secret idx p₁ hnil hout (hfree.mono queries_prefix) (long_path_lands hlen hfree hroot)

/-- Sound membership bounds the approvals: votes come from different secrets,
whose leaves are different and enrolled. -/
theorem MembershipSound.approvalBound (h : MembershipSound sha256 leaves) : ApprovalBound sha256 leaves := by
  intro id votes data happ hfree
  have hsub : ∀ v ∈ votes, queries sha256 leaves v.1 v.2 ⊆ ⋃ v ∈ votes, queries sha256 leaves v.1 v.2 :=
    fun v hv => Set.subset_biUnion_of_mem (u := fun v : Vote => queries sha256 leaves v.1 v.2) hv
  have hmem : ∀ v ∈ votes, memberLeaf sha256 v.1 ∈ leaves := by
    intro v hv
    exact h v.1 v.2 (hfree.mono (hsub v hv)) (happ.layout.2.2 v hv)
  have hnodup : ((votes.map (·.1)).map (memberLeaf sha256)).Nodup := by
    refine List.Nodup.map_on ?_ happ.secrets_nodup
    intro s hs t ht he
    obtain ⟨v, hv, rfl⟩ := List.mem_map.mp hs
    obtain ⟨u, hu, rfl⟩ := List.mem_map.mp ht
    have hpre := hfree.injOn (hsub v hv leafPreimage_mem_queries) (hsub u hu leafPreimage_mem_queries) he
    exact List.Vector.toList_injective (List.append_cancel_left hpre)
  calc storedCount data.1
      = ((votes.map (·.1)).map (memberLeaf sha256)).toFinset.card := by
        rw [List.toFinset_card_of_nodup hnodup, happ.storedCount, List.length_map, List.length_map]
    _ ≤ leaves.toFinset.card := by
        refine Finset.card_le_card ?_
        intro leaf hleaf
        simp only [List.mem_toFinset, List.mem_map] at hleaf ⊢
        obtain ⟨s, ⟨v, hv, rfl⟩, rfl⟩ := hleaf
        exact hmem v hv

/-! ## The condition is needed -/

/-- A grafted leaf is a way in: its own path in the tree extends the stranger's. -/
theorem grafted_leaf_enters {secret : Bytes32} {idx : UInt32} {path : List Bytes32}
    (hfree : CollisionFree sha256 (queries sha256 leaves secret (idx, path)))
    (hgraft : leaves[idx.toNat / 2 ^ path.length % 2 ^ treeDepth]? =
      .some (rootFromPath sha256 (memberLeaf sha256 secret) (idx, path))) :
    ∃ p₂, CollisionFree sha256 (queries sha256 leaves secret (idx, path ++ p₂)) ∧
      rootFromPath sha256 (memberLeaf sha256 secret) (idx, path ++ p₂) = merkleRoot sha256 leaves := by
  have hslot : idx.toNat / 2 ^ path.length % 2 ^ treeDepth < 2 ^ treeDepth := Nat.mod_lt _ (by decide)
  obtain ⟨p₂, hp₂, hlen⟩ := HashTree.siblings_isSome (hashPair sha256) (resized_length leaves) hslot
  obtain ⟨hup, hpairs⟩ := HashTree.climb_siblings (hashPair sha256) (resized_getElem? hslot hgraft) hp₂
  rw [Nat.div_eq_of_lt hslot, merkleRoot_level] at hup
  have hmod := HashTree.climb_mod (hashPair sha256) p₂ (idx.toNat / 2 ^ path.length)
    (rootFromPath sha256 (memberLeaf sha256 secret) (idx, path))
  have hmodPairs := HashTree.climbPairs_mod (hashPair sha256) p₂ (idx.toNat / 2 ^ path.length)
    (rootFromPath sha256 (memberLeaf sha256 secret) (idx, path))
  rw [hlen] at hmod hmodPairs
  refine ⟨p₂, hfree.mono (queries_subset ?_), ?_⟩
  · intro p hp
    simp only [hashedPairs, HashTree.climbPairs_append, List.mem_append] at hp ⊢
    rcases hp with (hp | hp) | hp
    · exact .inl hp
    · exact .inr (hpairs p (hmodPairs ▸ hp))
    · exact .inr hp
  · simp only [List.getElem?_cons_zero, Option.some.injEq] at hup
    rw [hup, hmod, rootFromPath, HashTree.climb_append]
    rfl

/-- **Membership is sound exactly when no enrolled leaf is grafted.** For any
leaves whatever, paths to their root start from enrolled leaves, and a
proposal with that root counts no more approvals than distinct leaves, if and
only if none of the leaves hides the leaf of a secret that is not enrolled. -/
theorem membership_sound_iff_no_grafted_leaf (sha256 : Bytes → Bytes32) (leaves : List Bytes32) :
    MembershipSound sha256 leaves ∧ ApprovalBound sha256 leaves ↔ NoGraftedLeaf sha256 leaves := by
  constructor
  · rintro ⟨hsound, -⟩ secret idx path - hout hfree hgraft
    obtain ⟨p₂, hfree', hroot⟩ := grafted_leaf_enters hfree hgraft
    exact hout (hsound secret (idx, path ++ p₂) hfree' hroot)
  · intro h
    exact ⟨h.sound, h.sound.approvalBound⟩

/-! ## A grafted leaf -/

/-- Strings without a collision, decided on a list of them. -/
theorem collisionFree_of_nodup {Q : List Bytes} (hn : (Q.dedup.map sha256).Nodup)
    (hz : emptyLeaf ∉ Q.dedup.map sha256) : CollisionFree sha256 {q | q ∈ Q} := by
  refine ⟨?_, ?_⟩
  · intro a ha b hb he
    exact List.inj_on_of_nodup_map hn (List.mem_dedup.mpr ha) (List.mem_dedup.mpr hb) he
  · intro q hq he
    exact hz (List.mem_map.mpr ⟨q, List.mem_dedup.mpr hq, he⟩)

section
open Sha256 (hash)

namespace Sample

/-- A secret nobody enrolled. -/
def stranger : Bytes32 := ByteVec.fill 32 1

/-- The leaf of another. -/
def accompliceLeaf : Bytes32 := memberLeaf hash (ByteVec.fill 32 2)

/-- What is enrolled instead: the pair of both. -/
def graft : Bytes32 := hashPair hash (memberLeaf hash stranger) accompliceLeaf

end Sample

open Msig.Sample

theorem graft_admits_stranger : ¬(MembershipSound hash [graft] ∧ ApprovalBound hash [graft]) := by
  rintro ⟨hsound, -⟩
  let Q := leafPreimage stranger :: (hashedPairs hash [graft] stranger (0, [accompliceLeaf])).map pairPreimage
  have hQ : (Q.dedup.map hash).Nodup ∧ emptyLeaf ∉ Q.dedup.map hash := by
    simp only [Q, graft, accompliceLeaf, Sha256.hash_eq_packed]
    decide +kernel
  have hfree : CollisionFree hash (queries hash [graft] stranger (0, [accompliceLeaf])) :=
    collisionFree_of_nodup hQ.1 hQ.2
  obtain ⟨p₂, hfree', hroot⟩ := grafted_leaf_enters hfree rfl
  have hin := hsound stranger (0, [accompliceLeaf] ++ p₂) hfree' hroot
  have hout : memberLeaf hash stranger ∉ [graft] := by decide +kernel
  exact hout hin

end

end Lez.Msig
