/-
The member registry over a sequence of enrollments: its bytes are the leaves
enrolled, in order, under their root. The tree has `2 ^ TREE_DEPTH` slots and
`Vec::resize` drops what does not fit, so leaves past the last slot are stored
and counted but are in no tree, and `merkle_path` has no path for them.
-/
import Lez.Lib.Sha256
import Lez.Programs.MsigFacts

namespace Lez.Msig

/-- **What a registry's bytes should say** after these leaves were enrolled:
they decode to the leaves; and once there is one, the stored count is their
number, and the stored root is the root of a tree that has them all, each with
a path that replays to it. -/
structure RegistryConsistent (sha256 : Bytes → Bytes32) (leaves : List Bytes32) (data : Bytes) : Prop where
  decodes : readRegistry data = .ok leaves
  count : leaves ≠ [] → ofLe ((data.drop 32).take 4) = leaves.length
  root : leaves ≠ [] → readArray 32 data = .some (merkleRoot sha256 leaves)
  contains : ∀ leaf ∈ leaves, leaf ∈ resized leaves
  paths : ∀ i leaf, leaves[i]? = .some leaf → ∃ path, merklePath sha256 leaves i = .some path ∧
    .some (rootFromPath sha256 leaf path) = readArray 32 data

variable {sha256 : Bytes → Bytes32} {leaves : List Bytes32} {data : Data}

theorem registryBytes_root {root : Bytes32} : readArray 32 (registryBytes root leaves) = .some root := by
  simp only [registryBytes, List.append_assoc]
  exact readArray_append root _

/-- A leaf with a slot has a path, and the path replays to the root. -/
theorem merklePath_replays {i : Nat} {leaf : Bytes32} (hi : i < 2 ^ treeDepth) (hleaf : leaves[i]? = .some leaf) :
    ∃ path, merklePath sha256 leaves i = .some path ∧ rootFromPath sha256 leaf path = merkleRoot sha256 leaves := by
  obtain ⟨p, hp, -⟩ := HashTree.siblings_isSome (hashPair sha256) (resized_length leaves) hi
  obtain ⟨hup, -⟩ := HashTree.climb_siblings (hashPair sha256) (resized_getElem? hi hleaf) hp
  refine ⟨(UInt32.ofNat i, p), by simp [merklePath, hp], ?_⟩
  rw [Nat.div_eq_of_lt hi, merkleRoot_level, List.getElem?_cons_zero, Option.some.injEq] at hup
  have hidx : (UInt32.ofNat i).toNat = i := by
    rw [UInt32.toNat_ofNat', Nat.mod_eq_of_lt (lt_trans hi (by decide))]
  rw [rootFromPath, hidx]
  exact hup.symm

/-- An index past the last slot has no path. -/
theorem merklePath_none {i : Nat} (hi : 2 ^ treeDepth ≤ i) : merklePath sha256 leaves i = .none := by
  have hx : 2 ^ treeDepth ≤ i ^^^ 1 := by
    rw [HashTree.xor_one]
    have hd : 2 ^ treeDepth = 32 := rfl
    split <;> omega
  have hs : (resized leaves)[i ^^^ 1]? = .none := List.getElem?_eq_none (by rw [resized_length]; exact hx)
  have hsib : HashTree.siblings (hashPair sha256) treeDepth (resized leaves) i = .none := by
    rw [treeDepth, HashTree.siblings, hs]
    rfl
  rw [merklePath, hsib]
  rfl

/-- **A registry is consistent exactly while its leaves fit the tree.** After
any sequence of accepted enrollments on a fresh account, the bytes are
consistent if and only if no more than `2 ^ TREE_DEPTH` leaves were enrolled. -/
theorem registry_consistent_iff (h : Enrollments sha256 leaves data) :
    RegistryConsistent sha256 leaves data.1 ↔ leaves.length ≤ 2 ^ treeDepth := by
  obtain ⟨hread, hbytes⟩ := h.layout
  constructor
  · intro hc
    by_contra hlong
    have hi : 2 ^ treeDepth < leaves.length := by omega
    obtain ⟨path, hpath, -⟩ := hc.paths (2 ^ treeDepth) leaves[2 ^ treeDepth] (List.getElem?_eq_getElem hi)
    rw [merklePath_none (le_refl _)] at hpath
    cases hpath
  · intro hfit
    rcases hbytes with ⟨rfl, rfl⟩ | ⟨hne, hdata⟩
    · exact ⟨hread, by simp, by simp, by simp, by simp⟩
    · refine ⟨hread, ?_, ?_, ?_, ?_⟩
      · intro _
        have hlt : leaves.length < 256 ^ 4 := lt_of_le_of_lt hfit (by decide)
        rw [hdata, registryBytes_count]
        exact ofLe_toLe_of_lt hlt
      · intro _
        rw [hdata, registryBytes_root]
      · intro leaf hleaf
        rw [resized, List.take_of_length_le hfit]
        exact List.mem_append_left _ hleaf
      · intro i leaf hleaf
        have hi : i < 2 ^ treeDepth := lt_of_lt_of_le (List.getElem?_eq_some_iff.mp hleaf).1 hfit
        obtain ⟨path, hpath, hreplay⟩ := merklePath_replays hi hleaf
        exact ⟨path, hpath, by rw [hreplay, hdata, registryBytes_root]⟩

/-! ## Enrollments there are -/

theorem enroll_of_fits (sha256 : Bytes → Bytes32) (registry : AccountWithMetadata) (leaf : Bytes32) {bytes : Bytes}
    (hread : readRegistry registry.account.data.1 = .ok leaves)
    (hbytes : registryBytes (merkleRoot sha256 (leaves ++ [leaf])) (leaves ++ [leaf]) = bytes)
    (hfit : bytes.length ≤ dataMaxLength) :
    enroll sha256 registry leaf =
      .ok [.newClaimedIfDefault { registry.account with data := ⟨bytes, hfit⟩ } .authorized] := by
  have htry : Data.tryFrom bytes = .some ⟨bytes, hfit⟩ := dif_pos hfit
  simp only [enroll, hread, bind, Except.bind, hbytes, htry, expect, pure, Except.pure]

/-- Every list of leaves within the data limit can be enrolled. -/
theorem enrollments_exist (sha256 : Bytes → Bytes32) (leaves : List Bytes32)
    (hfit : registryHeaderLen + 32 * leaves.length ≤ dataMaxLength) : ∃ data, Enrollments sha256 leaves data := by
  induction leaves using List.reverseRecOn with
  | nil => exact ⟨Data.empty, .fresh⟩
  | append_singleton leaves leaf ih =>
    obtain ⟨data, hdata⟩ := ih (by simp only [List.length_append, List.length_singleton] at hfit; omega)
    have henroll := enroll_of_fits sha256 ⟨{ Account.default with data }, true, emptyLeaf⟩ leaf
      hdata.layout.1 rfl (by rw [registryBytes_length]; exact hfit)
    exact ⟨_, hdata.enroll henroll⟩

namespace Sample

/-- Thirty-three leaves, one more than there are slots. -/
def crowd : List Bytes32 := List.replicate 33 (ByteVec.fill 32 1)

/-- Two members. -/
def pair : List Bytes32 := [ByteVec.fill 32 1, ByteVec.fill 32 2]

end Sample

open Msig.Sample in
theorem crowded_registry_inconsistent :
    ∃ data, Enrollments Sha256.hash crowd data ∧ ¬RegistryConsistent Sha256.hash crowd data.1 := by
  obtain ⟨data, hdata⟩ := enrollments_exist Sha256.hash crowd (by decide)
  refine ⟨data, hdata, ?_⟩
  intro hc
  obtain ⟨path, hpath, -⟩ := hc.paths 32 (ByteVec.fill 32 1) (by decide)
  rw [merklePath_none (by decide)] at hpath
  cases hpath

open Msig.Sample in
theorem pair_registry_consistent :
    ∃ data, Enrollments Sha256.hash pair data ∧ RegistryConsistent Sha256.hash pair data.1 := by
  obtain ⟨data, hdata⟩ := enrollments_exist Sha256.hash pair (by decide)
  exact ⟨data, hdata, (registry_consistent_iff hdata).mpr (by decide)⟩

/-! ## Members vote -/

/-- `approve` once every check passes. -/
theorem approve_of_checks {proposal rider : AccountWithMetadata} {secret root pid : Bytes32} {path : MerkleProof}
    {ns : List Bytes32} (hdata : proposal.account.data.1 = proposalBytes root pid ns.length ns)
    (hrider : rider.accountId = riderId sha256 secret) (hlive : rider.account ≠ Account.default)
    (hpath : rootFromPath sha256 (memberLeaf sha256 secret) path = root) (hfresh : voteNullifier sha256 secret pid ∉ ns)
    {newData : Data} (hnew : newData.1 = proposalBytes root pid (ns.length + 1) (ns ++ [voteNullifier sha256 secret pid])) :
    approve sha256 proposal rider secret path pid =
      .ok [.new { proposal.account with data := newData }, .new rider.account] := by
  have hcount : storedCount proposal.account.data.1 = ns.length := by
    rw [hdata, storedCount_proposalBytes (proposalBytes_count_lt hdata rfl)]
  have hlen : proposalHeaderLen ≤ proposal.account.data.1.length := by
    rw [hdata, proposalBytes_length]
    omega
  have hrecorded : readArrays ns.length (proposal.account.data.1.drop proposalHeaderLen) = .some ns := by
    rw [hdata, proposalBytes_nullifiers, ← List.append_nil (flatten ns)]
    exact readArrays_flatten ns []
  have hroot : readArray 32 proposal.account.data.1 = .some root := by rw [hdata, proposalBytes_root]
  have hid : readArray 32 (proposal.account.data.1.drop 32) = .some pid := by rw [hdata, proposalBytes_id]
  simp only [approve, bind_ok_iff, ensure_ok_iff, expect_ok_iff, pure_ok_iff, hcount, Data.tryFrom_eq_some]
  exact ⟨(), hlen, root, hroot, pid, hid, (), rfl, (), hrider, (), hlive, (), hpath, ns, hrecorded, (), hfresh, newData,
    hnew, rfl⟩

/-- **Every enrolled member can vote**: on a proposal over the root of up to 32 members' leaves with fewer than 32
votes, a member whose vote is not recorded approves with the path `merkle_path` gives, and the vote is appended. -/
theorem enrolled_member_can_vote {secrets : List Bytes32} (hmany : secrets.length ≤ 32)
    {proposal rider : AccountWithMetadata} {pid : Bytes32} {ns : List Bytes32} (hroom : ns.length < 32)
    (hdata : proposal.account.data.1 =
      proposalBytes (merkleRoot sha256 (secrets.map (memberLeaf sha256))) pid ns.length ns)
    {i : Nat} {secret : Bytes32} (hmember : secrets[i]? = .some secret) (hfresh : voteNullifier sha256 secret pid ∉ ns)
    (hrider : rider.accountId = riderId sha256 secret) (hlive : rider.account ≠ Account.default) :
    ∃ path, ∃ newData : Data, merklePath sha256 (secrets.map (memberLeaf sha256)) i = .some path ∧
      newData.1 = proposalBytes (merkleRoot sha256 (secrets.map (memberLeaf sha256))) pid (ns.length + 1)
        (ns ++ [voteNullifier sha256 secret pid]) ∧
      approve sha256 proposal rider secret path pid =
        .ok [.new { proposal.account with data := newData }, .new rider.account] := by
  have hi : i < 2 ^ treeDepth := Nat.lt_of_lt_of_le (List.getElem?_eq_some_iff.mp hmember).1 hmany
  have hleaf : (secrets.map (memberLeaf sha256))[i]? = .some (memberLeaf sha256 secret) := by
    rw [List.getElem?_map, hmember, Option.map_some]
  obtain ⟨path, hpath, hreplay⟩ := @merklePath_replays sha256 _ _ _ hi hleaf
  have hfits : (proposalBytes (merkleRoot sha256 (secrets.map (memberLeaf sha256))) pid (ns.length + 1)
      (ns ++ [voteNullifier sha256 secret pid])).length ≤ dataMaxLength := by
    rw [proposalBytes_length, List.length_append, List.length_singleton, proposalHeaderLen, dataMaxLength]
    omega
  exact ⟨path, ⟨_, hfits⟩, hpath, rfl, approve_of_checks hdata hrider hlive hreplay hfresh rfl⟩

namespace Sample

/-- A proposal over the two members, and the second one's voting account. -/
def pairProposal : AccountWithMetadata :=
  ⟨{ Account.default with data := ⟨proposalBytes (merkleRoot Sha256.hash (pair.map (memberLeaf Sha256.hash))) emptyLeaf
    0 [], by rw [proposalBytes_length]; decide⟩ }, true, emptyLeaf⟩

def pairRider : AccountWithMetadata :=
  ⟨{ Account.default with balance := 1 }, true, riderId Sha256.hash (ByteVec.fill 32 2)⟩

end Sample

open Msig.Sample in
theorem second_of_pair_can_vote : ∃ path, ∃ newData : Data,
    merklePath Sha256.hash (pair.map (memberLeaf Sha256.hash)) 1 = .some path ∧
    approve Sha256.hash pairProposal pairRider (ByteVec.fill 32 2) path emptyLeaf =
      .ok [.new { pairProposal.account with data := newData }, .new pairRider.account] := by
  obtain ⟨path, newData, hpath, _, happrove⟩ := @enrolled_member_can_vote Sha256.hash pair (by decide) pairProposal
    pairRider emptyLeaf [] (by decide) rfl 1 (ByteVec.fill 32 2) rfl (by simp) rfl (by decide)
  exact ⟨path, newData, hpath, happrove⟩

end Lez.Msig
