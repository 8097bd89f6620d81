/-
The ledger's maps taken as maps. Nothing a transaction does depends on the
order in which accounts, commitments or programs were written: on two ledgers
that are the same as maps it is accepted or refused alike, and what it leaves
is the same again.
-/
import Lez.Node.Block

namespace Lez

namespace V03State.Same

variable {H : Host} {s s' s'' : V03State}

theorem symm (h : s.Same s') : s'.Same s :=
  ⟨fun id => (h.accounts id).symm, h.merkleTree.symm, fun c => (h.commitments c).symm, h.rootHistory.symm,
    h.nullifiers.symm, fun id => (h.programs id).symm⟩

theorem trans (h : s.Same s') (h' : s'.Same s'') : s.Same s'' :=
  ⟨fun id => (h.accounts id).trans (h'.accounts id), h.merkleTree.trans h'.merkleTree,
    fun c => (h.commitments c).trans (h'.commitments c), h.rootHistory.trans h'.rootHistory,
    h.nullifiers.trans h'.nullifiers, fun id => (h.programs id).trans (h'.programs id)⟩

theorem getAccountById (h : s.Same s') : s.getAccountById = s'.getAccountById := by
  funext id
  unfold V03State.getAccountById Table.getD
  rw [h.accounts]

/-! ## Validation reads the maps -/

theorem executeCall (h : s.Same s') (blockId : BlockId) (timestamp : Timestamp) (diff : Diff) (call : ChainedCall)
    (caller : CallerData) :
    Lez.executeCall H s blockId timestamp diff call caller = Lez.executeCall H s' blockId timestamp diff call caller := by
  have hcheck : checkPreState H s diff call caller = checkPreState H s' diff call caller := by
    funext pre
    simp only [checkPreState, h.getAccountById]
  simp only [Lez.executeCall, h.programs, hcheck]

theorem runCalls (h : s.Same s') (blockId : BlockId) (timestamp : Timestamp) (budget : Nat)
    (calls : List (ChainedCall × CallerData)) (diff : Diff) :
    Lez.runCalls H s blockId timestamp budget calls diff = Lez.runCalls H s' blockId timestamp budget calls diff := by
  induction budget generalizing calls diff with
  | zero => cases calls <;> rfl
  | succ budget ih =>
    cases calls with
    | nil => rfl
    | cons head rest =>
      obtain ⟨call, caller⟩ := head
      simp only [Lez.runCalls, h.executeCall, ih]

theorem checkNonces (h : s.Same s') (signers : List AccountId) (nonces : List U128) :
    Lez.checkNonces s signers nonces = Lez.checkNonces s' signers nonces := by
  simp only [Lez.checkNonces, h.getAccountById]

theorem signedPreState (h : s.Same s') (signers : List AccountId) :
    Lez.signedPreState s signers = Lez.signedPreState s' signers := by
  funext id
  simp only [Lez.signedPreState, h.getAccountById]

theorem fromPublicTransaction (h : s.Same s') (tx : PublicTransaction) (blockId : BlockId) (timestamp : Timestamp) :
    Lez.fromPublicTransaction H tx s blockId timestamp = Lez.fromPublicTransaction H tx s' blockId timestamp := by
  have hclaimed : checkClaimed s = checkClaimed s' := by
    funext post
    simp only [checkClaimed, h.getAccountById]
  have hinitial : initialCall H s tx = initialCall H s' tx := by
    simp only [initialCall, h.signedPreState]
  simp only [Lez.fromPublicTransaction, h.checkNonces, h.runCalls, hclaimed, hinitial]

theorem fromPrivacyPreservingTransaction (h : s.Same s') (tx : PrivacyPreservingTransaction) (blockId : BlockId)
    (timestamp : Timestamp) : Lez.fromPrivacyPreservingTransaction H tx s blockId timestamp =
      Lez.fromPrivacyPreservingTransaction H tx s' blockId timestamp := by
  have hexpected : expectedCircuitOutput H tx s = expectedCircuitOutput H tx s' := by
    simp only [expectedCircuitOutput, h.signedPreState]
  have hcontains : s.commitmentSet.contains = s'.commitmentSet.contains := by
    funext c
    rw [CommitmentSet.contains, CommitmentSet.contains, h.commitments]
  have hnew : s.checkCommitmentsAreNew = s'.checkCommitmentsAreNew := by
    funext cs
    simp only [checkCommitmentsAreNew, hcontains]
  have hvalid : s.checkNullifiersAreValid = s'.checkNullifiersAreValid := by
    funext ns
    simp only [checkNullifiersAreValid, h.nullifiers, h.rootHistory]
  simp only [Lez.fromPrivacyPreservingTransaction, h.checkNonces, hexpected, hnew, hvalid]

/-- **A transaction is validated alike on two ledgers that are the same.** -/
theorem validate (h : s.Same s') (tx : LeeTransaction) (blockId : BlockId) (timestamp : Timestamp) :
    tx.validate H s blockId timestamp = tx.validate H s' blockId timestamp := by
  cases tx with
  | publicTx tx => exact h.fromPublicTransaction tx blockId timestamp
  | privacyPreserving tx => exact h.fromPrivacyPreservingTransaction tx blockId timestamp
  | programDeployment bytecode =>
    simp only [LeeTransaction.validate, fromProgramDeploymentTransaction, h.programs]

end V03State.Same

/-! ## Applying a diff writes the maps -/

/-- Two tables with the same entries. -/
def Table.Same {K V : Type} [DecidableEq K] (t t' : Table K V) : Prop := ∀ k, t.lookup k = t'.lookup k

namespace Table.Same

variable {K V : Type} [DecidableEq K] {t t' : Table K V}

theorem insert (h : t.Same t') (k : K) (v : V) : Table.Same (t.insert k v) (t'.insert k v) := by
  intro k'
  by_cases hk : k' = k
  · rw [hk, AList.lookup_insert, AList.lookup_insert]
  · rw [AList.lookup_insert_ne hk, AList.lookup_insert_ne hk, h k']

theorem writeAll : ∀ {kvs : List (K × V)} {t t' : Table K V}, t.Same t' → (t.writeAll kvs).Same (t'.writeAll kvs)
  | [], _, _, h => h
  | kv :: kvs, t, t', h => by
    have ih : Table.Same (Table.writeAll (t.insert kv.1 kv.2) kvs) (Table.writeAll (t'.insert kv.1 kv.2) kvs) :=
      writeAll (h.insert kv.1 kv.2)
    exact ih

end Table.Same

/-- A fold of steps that answer alike on related states. -/
theorem foldlM_related {α β : Type} {R : β → β → Prop} {step : β → α → Option β}
    (hstep : ∀ a b b' c, R b b' → step b a = .some c → ∃ c', step b' a = .some c' ∧ R c c') :
    ∀ {l : List α} {b b' c : β}, R b b' → l.foldlM step b = .some c → ∃ c', l.foldlM step b' = .some c' ∧ R c c'
  | [], b, b', c, hR, h => by
    cases h
    exact ⟨b', rfl, hR⟩
  | a :: l, b, b', c, hR, h => by
    rw [List.foldlM_cons, Option.bind_eq_bind, Option.bind_eq_some_iff] at h
    obtain ⟨d, hd, h⟩ := h
    obtain ⟨d', hd', hR'⟩ := hstep a b b' d hR hd
    obtain ⟨c', hc', hR''⟩ := foldlM_related hstep hR' h
    refine ⟨c', ?_, hR''⟩
    rw [List.foldlM_cons, hd', Option.bind_eq_bind, Option.bind_some, hc']

theorem incrementNonce_same (id : AccountId) (t t' u : Table AccountId Account) (h : t.Same t')
    (hu : incrementNonce t id = .some u) : ∃ u', incrementNonce t' id = .some u' ∧ u.Same u' := by
  have haccount : t.getD id Account.default = t'.getD id Account.default := by
    unfold Table.getD
    rw [h id]
  unfold incrementNonce at hu ⊢
  dsimp only at hu ⊢
  rw [haccount] at hu
  split at hu
  next hfits =>
    cases hu
    rw [if_pos hfits]
    exact ⟨_, rfl, h.insert id _⟩
  next => cases hu

/-- The same tree and roots, and the same commitments as a map. -/
structure CommitmentSet.Same (c c' : CommitmentSet) : Prop where
  merkleTree : c.merkleTree = c'.merkleTree
  commitments : c.commitments.Same c'.commitments
  rootHistory : c.rootHistory = c'.rootHistory

theorem CommitmentSet.insertOne_same {sha256 : Bytes → Bytes32} (commitment : Commitment) (c c' d : CommitmentSet)
    (h : c.Same c') (hd : c.insertOne sha256 commitment = .some d) :
    ∃ d', c'.insertOne sha256 commitment = .some d' ∧ d.Same d' := by
  simp only [insertOne, Option.bind_eq_bind, Option.bind_eq_some_iff, Prod.exists] at hd ⊢
  obtain ⟨index, tree, htree, hd⟩ := hd
  cases hd
  rw [h.merkleTree] at htree
  exact ⟨_, ⟨index, tree, htree, rfl⟩, rfl, h.commitments.insert _ _, h.rootHistory⟩

theorem CommitmentSet.extend_same {sha256 : Bytes → Bytes32} {cs : List Commitment} {c c' d : CommitmentSet}
    (h : c.Same c') (hd : c.extend sha256 cs = .some d) : ∃ d', c'.extend sha256 cs = .some d' ∧ d.Same d' := by
  simp only [extend, Option.bind_eq_bind, Option.bind_eq_some_iff] at hd ⊢
  obtain ⟨e, he, root, hroot, hd⟩ := hd
  cases hd
  obtain ⟨e', he', hsame⟩ := foldlM_related insertOne_same h he
  rw [hsame.merkleTree] at hroot
  refine ⟨_, ⟨e', he', root, hroot, rfl⟩, hsame.merkleTree, hsame.commitments, ?_⟩
  rw [hsame.rootHistory]

namespace V03State.Same

variable {H : Host} {s s' u : V03State} {diff : StateDiff} {tx : LeeTransaction} {blockId : BlockId}
  {timestamp : Timestamp}

theorem insertProgram (h : s.Same s') (p : Program) : (s.insertProgram p).Same (s'.insertProgram p) where
  accounts := h.accounts
  merkleTree := h.merkleTree
  commitments := h.commitments
  rootHistory := h.rootHistory
  nullifiers := h.nullifiers
  programs := Table.Same.insert h.programs p.id p

theorem applyStateDiff (h : s.Same s') (hu : s.applyStateDiff H diff = .some u) :
    ∃ u', s'.applyStateDiff H diff = .some u' ∧ u.Same u' := by
  simp only [V03State.applyStateDiff, Option.bind_eq_bind, Option.bind_eq_some_iff] at hu ⊢
  obtain ⟨accounts, haccounts, c, hc, hu⟩ := hu
  cases hu
  have hwritten : Table.Same (s.publicState.writeAll diff.publicDiff.toPairs)
      (s'.publicState.writeAll diff.publicDiff.toPairs) := Table.Same.writeAll h.accounts
  have hset : s.commitmentSet.Same s'.commitmentSet := ⟨h.merkleTree, h.commitments, h.rootHistory⟩
  obtain ⟨accounts', haccounts', hsame⟩ := foldlM_related incrementNonce_same hwritten haccounts
  obtain ⟨c', hc', hset'⟩ := CommitmentSet.extend_same hset hc
  have hnullifiers : s.nullifierSet ∪ diff.newNullifiers.toFinset = s'.nullifierSet ∪ diff.newNullifiers.toFinset := by
    rw [h.nullifiers]
  refine ⟨_, ⟨accounts', haccounts', c', hc', rfl⟩, ?_⟩
  cases diff.program with
  | none => exact ⟨hsame, hset'.merkleTree, hset'.commitments, hset'.rootHistory, hnullifiers, h.programs⟩
  | some p =>
    refine insertProgram ?_ p
    exact ⟨hsame, hset'.merkleTree, hset'.commitments, hset'.rootHistory, hnullifiers, h.programs⟩

/-- **A transaction leads from the same ledger to the same ledger.** -/
theorem transition (h : s.Same s') (hu : s.transition H tx blockId timestamp = .some u) :
    ∃ u', s'.transition H tx blockId timestamp = .some u' ∧ u.Same u' := by
  obtain ⟨diff, hdiff, happly⟩ := settle_eq_some.mp hu
  obtain ⟨u', happly', hsame⟩ := h.applyStateDiff happly
  exact ⟨u', settle_eq_some.mpr ⟨diff, by rw [← h.validate, hdiff], happly'⟩, hsame⟩

end V03State.Same

/-! ## Transactions that can be taken back -/

/-- A public transaction nobody signed. All it does is write public accounts. -/
def LeeTransaction.Unsigned : LeeTransaction → Prop
  | publicTx tx => tx.signaturesAndPublicKeys = []
  | _ => False

section
variable {H : Host} {s s' u v : V03State} {tx : LeeTransaction} {blockId : BlockId} {timestamp : Timestamp}

/-- A private transaction adds a commitment or a nullifier, a deployment a program, and no later transaction
takes it away. -/
theorem transition_public_of_same (hbefore : Grows s u) (hstep : u.transition H tx blockId timestamp = .some v)
    (hafter : Grows v s') (hsame : s'.Same s) : ∃ ptx, tx = .publicTx ptx := by
  obtain ⟨diff, hdiff, happly⟩ := V03State.settle_eq_some.mp hstep
  have happlied := applyStateDiff_applied happly
  cases tx with
  | publicTx ptx => exact ⟨ptx, rfl⟩
  | privacyPreserving tx =>
    have hchecks := fromPrivacyPreservingTransaction_checks hdiff
    exfalso
    rcases hchecks.nonempty with hne | hne
    · obtain ⟨c, hc⟩ := List.exists_mem_of_ne_nil _ hne
      refine hchecks.fresh c hc (hbefore.commitments c ?_)
      have hv : v.commitmentSet.contains c :=
        (CommitmentSet.extend_contains happlied.commitments).mpr (.inr (hchecks.commitments ▸ hc))
      have hs' := hafter.commitments c hv
      rwa [CommitmentSet.contains, hsame.commitments] at hs'
    · obtain ⟨nd, hnd⟩ := List.exists_mem_of_ne_nil _ hne
      refine hchecks.unseen nd hnd (hbefore.nullifiers ?_)
      rw [← hsame.nullifiers]
      refine hafter.nullifiers ?_
      rw [happlied.nullifiers, hchecks.nullifiers]
      exact Finset.mem_union_right _ (List.mem_toFinset.mpr (List.mem_map_of_mem hnd))
  | programDeployment bytecode =>
    obtain ⟨p, rfl, hnew⟩ := fromProgramDeploymentTransaction_ok hdiff
    have hs' := hafter.programs p.id (happlied.deployed p rfl)
    rw [hsame.programs] at hs'
    have hu := hbefore.programs p.id hs'
    rw [hnew] at hu
    cases hu

/-- Public transactions take no nonce back. -/
theorem Chain.public_nonce_le {txs : List LeeTransaction} (h : Chain H s txs s')
    (hpublic : ∀ tx ∈ txs, ∃ ptx, tx = .publicTx ptx) (id : AccountId) :
    (s.getAccountById id).nonce.toNat ≤ (s'.getAccountById id).nonce.toNat := by
  induction h with
  | nil => exact Nat.le_refl _
  | @cons s s' s'' tx txs _ _ hstep _ ih =>
    obtain ⟨ptx, rfl⟩ := hpublic tx List.mem_cons_self
    have hnonce := publicTx_nonce hstep id
    have hrest := ih fun t ht => hpublic t (List.mem_cons_of_mem _ ht)
    omega

/-- **Transactions that lead back to the ledger they started from are public and unsigned.** -/
theorem Chain.unsigned_of_same {txs : List LeeTransaction} (h : Chain H s txs s') (hsame : s'.Same s) :
    ∀ tx ∈ txs, tx.Unsigned := by
  have hpublic : ∀ tx ∈ txs, ∃ ptx, tx = .publicTx ptx := by
    intro tx htx
    obtain ⟨before, later, rfl⟩ := List.append_of_mem htx
    obtain ⟨u, v, _, _, hbefore, hstep, hlater⟩ := h.split
    exact transition_public_of_same hbefore.grows hstep hlater.grows hsame
  intro tx htx
  obtain ⟨before, later, rfl⟩ := List.append_of_mem htx
  obtain ⟨u, v, _, _, hbefore, hstep, hlater⟩ := h.split
  obtain ⟨ptx, rfl⟩ := hpublic tx htx
  -- A signature moves its account's nonce for good.
  refine List.eq_nil_iff_forall_not_mem.mpr ?_
  intro sk hsk
  have hid : accountIdFromPublicKey H.sha256 sk.2 ∈ signerAccountIds H ptx.signaturesAndPublicKeys :=
    List.mem_map_of_mem hsk
  have hmoved := publicTx_nonce hstep (accountIdFromPublicKey H.sha256 sk.2)
  have hcount := List.count_pos_iff.mpr hid
  have hstart := hbefore.public_nonce_le (fun t ht => hpublic t (by simp [ht])) (accountIdFromPublicKey H.sha256 sk.2)
  have hend := hlater.public_nonce_le (fun t ht => hpublic t (by simp [ht])) (accountIdFromPublicKey H.sha256 sk.2)
  rw [hsame.getAccountById] at hend
  omega

end

end Lez
