/-
What an output of `msig` says, one lemma for each instruction, and what a
sequence of accepted calls on one account leaves there: `Approvals` for a
proposal, `Enrollments` for a registry. Both relations follow the bytes the
program reads and writes, and each ends in the layout those bytes have.
-/
import Lez.Programs.Msig

namespace Lez.Msig

variable {sha256 : Bytes → Bytes32} {C : Codecs}

/-- An output echoes its input and is what `process` answers. -/
theorem main_ok {self : ProgramId} {caller : Option ProgramId} {pre : List AccountWithMetadata}
    {data : InstructionData} {out : ProgramOutput} (h : main sha256 C self caller pre data = .ok (.some out)) :
    ∃ i post calls, C.readMsig data = .some i ∧ process sha256 C pre i = .ok (.some (post, calls)) ∧
      out = { ProgramOutput.new self caller data pre post with chainedCalls := calls } := by
  simp only [main, bind_ok_iff, expect_ok_iff, pure_ok_iff] at h
  obtain ⟨i, hi, answer, hanswer, h⟩ := h
  cases answer with
  | none => cases h
  | some pc =>
    obtain ⟨post, calls⟩ := pc
    exact ⟨i, post, calls, hi, hanswer, (Option.some.inj h).symm⟩

section
variable {pre : List AccountWithMetadata} {post : List AccountPostState} {calls : List ChainedCall}

theorem process_createProposal_ok {root id : Bytes32}
    (h : process sha256 C pre (.createProposal root id) = .ok (.some (post, calls))) :
    ∃ proposal data, pre = [proposal] ∧ data.1 = proposalBytes root id 0 [] ∧
      post = [.newClaimed { proposal.account with data } .authorized] ∧ calls = [] := by
  simp only [process] at h
  split at h
  next proposal =>
    simp only [map_ok_iff, createProposal, bind_ok_iff, expect_ok_iff, pure_ok_iff, Data.tryFrom_eq_some,
      Option.some.injEq, Prod.mk.injEq] at h
    obtain ⟨_, ⟨data, hdata, rfl⟩, rfl, rfl⟩ := h
    exact ⟨proposal, data, rfl, hdata, rfl, rfl⟩
  next => cases h

theorem process_approve_ok {secret id : Bytes32} {path : MerkleProof}
    (h : process sha256 C pre (.approve secret path id) = .ok (.some (post, calls))) :
    ∃ proposal rider, pre = [proposal, rider] ∧ approve sha256 proposal rider secret path id = .ok post ∧
      calls = [] := by
  simp only [process] at h
  split at h
  next proposal rider =>
    simp only [map_ok_iff, Option.some.injEq, Prod.mk.injEq] at h
    obtain ⟨_, happrove, rfl, rfl⟩ := h
    exact ⟨proposal, rider, rfl, happrove, rfl⟩
  next => cases h

theorem process_enroll_ok {leaf : Bytes32}
    (h : process sha256 C pre (.enroll leaf) = .ok (.some (post, calls))) :
    ∃ registry, pre = [registry] ∧ enroll sha256 registry leaf = .ok post ∧ calls = [] := by
  simp only [process] at h
  split at h
  next registry =>
    simp only [map_ok_iff, Option.some.injEq, Prod.mk.injEq] at h
    obtain ⟨_, henroll, rfl, rfl⟩ := h
    exact ⟨registry, rfl, henroll, rfl⟩
  next => cases h

theorem process_initTreasury_ok {seed : PdaSeed} {target : ProgramId}
    (h : process sha256 C pre (.initTreasury seed target) = .ok (.some (post, calls))) :
    ∃ treasury, pre = [treasury] ∧ post = [.new treasury.account] ∧
      calls = [⟨target, [{ treasury with isAuthorized := true }], C.transfer.encode .initAccount, [seed]⟩] := by
  simp only [process] at h
  split at h
  next treasury =>
    simp only [initTreasury, Except.ok.injEq, Option.some.injEq, Prod.mk.injEq] at h
    obtain ⟨rfl, rfl⟩ := h
    exact ⟨treasury, rfl, rfl, rfl⟩
  next => cases h

theorem process_execute_ok {threshold : UInt32} {seed : PdaSeed}
    (h : process sha256 C pre (.execute threshold seed) = .ok (.some (post, calls))) :
    ∃ proposal treasury recipient, pre = [proposal, treasury, recipient] ∧
      proposalHeaderLen ≤ proposal.account.data.1.length ∧
      threshold.toNat ≤ storedCount proposal.account.data.1 ∧
      post = [.new proposal.account, .new treasury.account, .new recipient.account] ∧
      calls = [⟨treasury.account.programOwner, [{ treasury with isAuthorized := true }, recipient],
        C.transfer.encode (.transfer treasury.account.balance), [seed]⟩] := by
  simp only [process] at h
  split at h
  next proposal treasury recipient =>
    simp only [map_ok_iff, execute, bind_ok_iff, ensure_ok_iff, pure_ok_iff, Option.some.injEq] at h
    obtain ⟨pc, ⟨-, hlen, -, hcount, rfl⟩, hpc⟩ := h
    cases hpc
    exact ⟨proposal, treasury, recipient, rfl, hlen, hcount, rfl, rfl⟩
  next => cases h

end

/-! ## Proposals -/

section
variable {root id : Bytes32}

theorem proposalBytes_root {count : Nat} {ns : List Bytes32} :
    readArray 32 (proposalBytes root id count ns) = .some root := by
  simp only [proposalBytes, List.append_assoc]
  exact readArray_append root _

theorem proposalBytes_id {count : Nat} {ns : List Bytes32} :
    readArray 32 ((proposalBytes root id count ns).drop 32) = .some id := by
  have hd : (proposalBytes root id count ns).drop 32 = id.toList ++ (toLe 4 count ++ flatten ns) := by
    simp only [proposalBytes, List.append_assoc]
    exact List.drop_left' (by simp)
  rw [hd]
  exact readArray_append id _

theorem proposalBytes_drop_64 {count : Nat} {ns : List Bytes32} :
    (proposalBytes root id count ns).drop 64 = toLe 4 count ++ flatten ns := by
  simp only [proposalBytes]
  rw [List.append_assoc (root.toList ++ id.toList)]
  exact List.drop_left' (by simp)

theorem storedCount_proposalBytes {count : Nat} {ns : List Bytes32} (hc : count < 2 ^ 32) :
    storedCount (proposalBytes root id count ns) = count := by
  rw [storedCount, proposalBytes_drop_64, List.take_left' (by simp)]
  exact ofLe_toLe_of_lt (by simpa using hc)

theorem proposalBytes_nullifiers {count : Nat} {ns : List Bytes32} :
    (proposalBytes root id count ns).drop proposalHeaderLen = flatten ns := by
  have h : proposalHeaderLen = 64 + 4 := rfl
  rw [h, ← List.drop_drop, proposalBytes_drop_64]
  exact List.drop_left' (by simp)

/-- A proposal within the data limit has a count that fits its word. -/
theorem proposalBytes_count_lt {count : Nat} {ns : List Bytes32} {data : Data}
    (h : data.1 = proposalBytes root id count ns) (hn : ns.length = count) : count < 2 ^ 32 := by
  have hlen := data.2
  rw [h, proposalBytes_length, dataMaxLength] at hlen
  omega

end

/-- A vote: the secret and the path it was proven with. -/
abbrev Vote := Bytes32 × MerkleProof

/-- **What an accepted approval is**, whatever the bytes it is given. -/
theorem approve_inv {proposal rider : AccountWithMetadata} {secret pid : Bytes32} {path : MerkleProof}
    {post : List AccountPostState} (h : approve sha256 proposal rider secret path pid = .ok post) :
    ∃ root recorded, ∃ data : Data,
      proposalHeaderLen ≤ proposal.account.data.1.length ∧
      readArray 32 proposal.account.data.1 = .some root ∧
      readArray 32 (proposal.account.data.1.drop 32) = .some pid ∧
      rider.accountId = riderId sha256 secret ∧ rootFromPath sha256 (memberLeaf sha256 secret) path = root ∧
      readArrays (storedCount proposal.account.data.1) (proposal.account.data.1.drop proposalHeaderLen) = .some recorded ∧
      voteNullifier sha256 secret pid ∉ recorded ∧
      data.1 = proposalBytes root pid (storedCount proposal.account.data.1 + 1)
        (recorded ++ [voteNullifier sha256 secret pid]) ∧
      post = [.new { proposal.account with data }, .new rider.account] := by
  simp only [approve, bind_ok_iff, ensure_ok_iff, expect_ok_iff, pure_ok_iff, Data.tryFrom_eq_some] at h
  obtain ⟨-, hlen, root, hroot, id, hid, -, rfl, -, hrider, -, -, -, hpath, recorded, hrec, -, hfresh, data, hd, rfl⟩ := h
  exact ⟨root, recorded, data, hlen, hroot, hid, hrider, hpath, hrec, hfresh, hd, rfl⟩

/-- An accepted approval on a proposal whose bytes have the layout. -/
theorem approve_ok {proposal rider : AccountWithMetadata} {secret pid root id : Bytes32} {path : MerkleProof}
    {ns : List Bytes32} {post : List AccountPostState}
    (hdata : proposal.account.data.1 = proposalBytes root id ns.length ns)
    (h : approve sha256 proposal rider secret path pid = .ok post) :
    pid = id ∧ rootFromPath sha256 (memberLeaf sha256 secret) path = root ∧ voteNullifier sha256 secret id ∉ ns ∧
      ∃ data : Data, data.1 = proposalBytes root id (ns.length + 1) (ns ++ [voteNullifier sha256 secret id]) ∧
        post = [.new { proposal.account with data }, .new rider.account] := by
  obtain ⟨root', recorded, data, -, hroot, hid, -, hpath, hrec, hfresh, hd, hpost⟩ := approve_inv h
  rw [hdata, proposalBytes_root, Option.some.injEq] at hroot
  rw [hdata, proposalBytes_id, Option.some.injEq] at hid
  rw [hdata, storedCount_proposalBytes (proposalBytes_count_lt hdata rfl)] at hrec hd
  have hns : readArrays ns.length (flatten ns ++ []) = .some ns := readArrays_flatten ns []
  rw [List.append_nil, ← proposalBytes_nullifiers, hrec, Option.some.injEq] at hns
  subst hroot hid hns
  exact ⟨rfl, hpath, hfresh, data, hd, hpost⟩

/-- The bytes of a proposal frozen with `root` and `id` after these votes. -/
inductive Approvals (sha256 : Bytes → Bytes32) (root id : Bytes32) : List Vote → Data → Prop
  | fresh {data : Data} : data.1 = proposalBytes root id 0 [] → Approvals sha256 root id [] data
  | vote {votes : List Vote} {proposal rider : AccountWithMetadata} {secret pid : Bytes32} {path : MerkleProof}
      {account : Account} {rest : List AccountPostState} :
      Approvals sha256 root id votes proposal.account.data →
      approve sha256 proposal rider secret path pid = .ok (.new account :: rest) →
      Approvals sha256 root id (votes ++ [(secret, path)]) account.data

/-- The nullifiers of votes. -/
def nullifiers (sha256 : Bytes → Bytes32) (id : Bytes32) (votes : List Vote) : List Bytes32 :=
  votes.map fun v => voteNullifier sha256 v.1 id

@[simp] theorem nullifiers_length (id : Bytes32) (votes : List Vote) :
    (nullifiers sha256 id votes).length = votes.length := by simp [nullifiers]

/-- **A proposal's bytes tell its votes**: the header it was frozen with, as
many nullifiers as votes, all different, each of a secret with a path to the root. -/
theorem Approvals.layout {root id : Bytes32} {votes : List Vote} {data : Data}
    (h : Approvals sha256 root id votes data) :
    data.1 = proposalBytes root id votes.length (nullifiers sha256 id votes) ∧
      (nullifiers sha256 id votes).Nodup ∧
      ∀ v ∈ votes, rootFromPath sha256 (memberLeaf sha256 v.1) v.2 = root := by
  induction h with
  | fresh hd => exact ⟨hd, by simp [nullifiers], by simp⟩
  | @vote votes proposal rider secret pid path account rest _ happrove ih =>
    obtain ⟨hd, hnodup, hroot⟩ := ih
    have hd' : proposal.account.data.1 =
        proposalBytes root id (nullifiers sha256 id votes).length (nullifiers sha256 id votes) := by simpa using hd
    obtain ⟨-, hpath, hfresh, data, hdata, hpost⟩ := approve_ok hd' happrove
    simp only [List.cons.injEq, AccountPostState.new, AccountPostState.mk.injEq] at hpost
    obtain ⟨⟨rfl, -⟩, -⟩ := hpost
    have happ : nullifiers sha256 id (votes ++ [(secret, path)]) =
        nullifiers sha256 id votes ++ [voteNullifier sha256 secret id] := by simp [nullifiers]
    refine ⟨?_, ?_, ?_⟩
    · rw [happ]
      simpa using hdata
    · rw [happ]
      exact List.nodup_append.mpr ⟨hnodup, by simp, by
        rintro n hn m hm rfl
        exact hfresh (List.mem_singleton.mp hm ▸ hn)⟩
    · intro v hv
      rcases List.mem_append.mp hv with hv | hv
      · exact hroot v hv
      · rw [List.mem_singleton.mp hv]
        exact hpath

theorem Approvals.storedCount {root id : Bytes32} {votes : List Vote} {data : Data}
    (h : Approvals sha256 root id votes data) : storedCount data.1 = votes.length := by
  obtain ⟨hd, -, -⟩ := h.layout
  rw [hd, storedCount_proposalBytes (proposalBytes_count_lt hd (by simp))]

/-- No secret votes twice. -/
theorem Approvals.secrets_nodup {root id : Bytes32} {votes : List Vote} {data : Data}
    (h : Approvals sha256 root id votes data) : (votes.map (·.1)).Nodup := by
  obtain ⟨-, hnodup, -⟩ := h.layout
  have hmap : nullifiers sha256 id votes = (votes.map (·.1)).map fun s => voteNullifier sha256 s id := by
    simp [nullifiers]
  rw [hmap] at hnodup
  exact hnodup.of_map _

/-! ## Registries -/

theorem readRegistry_nil : readRegistry [] = .ok [] := rfl

theorem registryBytes_count {root : Bytes32} {leaves : List Bytes32} :
    ((registryBytes root leaves).drop 32).take 4 = toLe 4 leaves.length := by
  have hd : (registryBytes root leaves).drop 32 = toLe 4 leaves.length ++ flatten leaves := by
    simp only [registryBytes, List.append_assoc]
    exact List.drop_left' (by simp)
  rw [hd]
  exact List.take_left' (by simp)

theorem registryBytes_leaves {root : Bytes32} {leaves : List Bytes32} :
    (registryBytes root leaves).drop registryHeaderLen = flatten leaves := by
  simp only [registryBytes]
  exact List.drop_left' (by simp [registryHeaderLen])

/-- A registry reads back the leaves it was written with. -/
theorem readRegistry_registryBytes {root : Bytes32} {leaves : List Bytes32} (hlen : leaves.length < 2 ^ 32) :
    readRegistry (registryBytes root leaves) = .ok leaves := by
  have hn : ofLe (toLe 4 leaves.length) = leaves.length := ofLe_toLe_of_lt (by simpa using hlen)
  have hr : readArrays leaves.length (flatten leaves ++ []) = .some leaves := readArrays_flatten leaves []
  rw [List.append_nil] at hr
  unfold readRegistry
  rw [if_pos (by rw [registryBytes_length]; omega), registryBytes_count, registryBytes_leaves, hn, hr]
  rfl

/-- **What an accepted enrollment is**: the leaves that were there and one more. -/
theorem enroll_ok {registry : AccountWithMetadata} {leaf : Bytes32} {post : List AccountPostState}
    (h : enroll sha256 registry leaf = .ok post) :
    ∃ known, readRegistry registry.account.data.1 = .ok known ∧
      ∃ data : Data, data.1 = registryBytes (merkleRoot sha256 (known ++ [leaf])) (known ++ [leaf]) ∧
        post = [.newClaimedIfDefault { registry.account with data } .authorized] := by
  simp only [enroll, bind_ok_iff, expect_ok_iff, pure_ok_iff, Data.tryFrom_eq_some] at h
  obtain ⟨known, hknown, data, hdata, rfl⟩ := h
  exact ⟨known, hknown, data, hdata, rfl⟩

/-- The bytes of a registry, fresh at first, after these leaves were enrolled. -/
inductive Enrollments (sha256 : Bytes → Bytes32) : List Bytes32 → Data → Prop
  | fresh : Enrollments sha256 [] Data.empty
  | enroll {leaves : List Bytes32} {registry : AccountWithMetadata} {leaf : Bytes32} {post : AccountPostState} :
      Enrollments sha256 leaves registry.account.data →
      Msig.enroll sha256 registry leaf = .ok [post] → Enrollments sha256 (leaves ++ [leaf]) post.account.data

/-- **A registry's bytes are its leaves** under the root over them. -/
theorem Enrollments.layout {leaves : List Bytes32} {data : Data} (h : Enrollments sha256 leaves data) :
    readRegistry data.1 = .ok leaves ∧
      (leaves = [] ∧ data = Data.empty ∨
        leaves ≠ [] ∧ data.1 = registryBytes (merkleRoot sha256 leaves) leaves) := by
  induction h with
  | fresh => exact ⟨readRegistry_nil, .inl ⟨rfl, rfl⟩⟩
  | @enroll leaves registry leaf post _ henroll ih =>
    obtain ⟨known, hknown, data, hdata, hpost⟩ := enroll_ok henroll
    rw [ih.1] at hknown
    cases hknown
    cases hpost
    have hlen := data.2
    rw [hdata, registryBytes_length, dataMaxLength] at hlen
    refine ⟨?_, .inr ⟨by simp, hdata⟩⟩
    show readRegistry data.1 = _
    rw [hdata, readRegistry_registryBytes (by omega)]

end Lez.Msig
