/-
No private double spend. A run from genesis gives every private account a line
of commitments: genesis or an initialisation gives it a first, and every
update replaces the one before (`history`). Two facts keep the line single. An
update proves that its old commitment was inserted, against some root of the
tree, however old; and its nullifier is fixed by the old commitment and the one
key the account is derived from, so a commitment replaced once cannot be
replaced again. Initialisation nullifiers do the same for the first.

The hash is assumed not to collide on the strings hashed in the run
(`hashed`), and not to give the empty leaf there. No more can be asked of a
function to 32 bytes.
-/
import Lez.Ledger.MembershipProofs
import Lez.Lib.Succession
import Lez.State.PerfectTree
import Lez.Trace.Emission

namespace Lez

open Circuit Succession MerkleTree

/-- An event of a private account: a new commitment, and the one it replaces. -/
abbrev NoteEvent := Event AccountId Commitment

/-! ## Lines of commitments -/

section
variable (sha256 : Bytes → Bytes32) (Q : Set Bytes)

/-- `c` is a commitment to a state of `id`, hashed in the run. -/
def Opens (id : AccountId) (c : Commitment) : Prop :=
  ∃ a, c = commitmentNew sha256 id a ∧ commitmentPreimage sha256 id a ∈ Q

/-- `id` is derived from the key, by hashes of the run. -/
def KeyOf (id : AccountId) (nsk : NullifierSecretKey) : Prop :=
  nullifierKeyPreimage nsk ∈ Q ∧ ∃ kind, id = forPrivateAccount sha256 (nullifierPublicKey sha256 nsk) kind ∧
    accountPreimage (nullifierPublicKey sha256 nsk) kind ∈ Q

/-- The commitments of every account form one line, and the nullifiers published say so. -/
structure Lineage (nullifiers : Finset Nullifier) (events : List NoteEvent) : Prop where
  linear : Linear events
  owned : ∀ a ∈ events, a.owner ≠ bytes32OfNat 0 ∧ Opens sha256 Q a.owner a.token
  initialized : ∀ a ∈ events, nullifierForAccountInitialization sha256 a.owner ∈ nullifiers
  spent : ∀ a ∈ events, ∀ c, a.replaces = .some c → Opens sha256 Q a.owner c ∧
    ∃ nsk, KeyOf sha256 Q a.owner nsk ∧ nullifierForAccountUpdate sha256 c nsk ∈ nullifiers
  spends_nodup : (events.filterMap (·.replaces)).Nodup
  inits_nodup : ((events.filter (·.replaces.isNone)).map (·.owner)).Nodup

end

section
variable {sha256 : Bytes → Bytes32} {Q : Set Bytes} {N N' : Finset Nullifier} {events : List NoteEvent} {e : NoteEvent}

theorem Opens.unique (hfree : CollisionFree sha256 Q) {id id' : AccountId} {c : Commitment} (h : Opens sha256 Q id c)
    (h' : Opens sha256 Q id' c) : id = id' := by
  obtain ⟨a, rfl, ha⟩ := h
  obtain ⟨a', heq, ha'⟩ := h'
  exact commitmentPreimage_id (hfree.injOn ha ha' heq)

theorem KeyOf.unique (hfree : CollisionFree sha256 Q) {id : AccountId} {nsk nsk' : NullifierSecretKey}
    (h : KeyOf sha256 Q id nsk) (h' : KeyOf sha256 Q id nsk') : nsk = nsk' := by
  obtain ⟨hkey, kind, hid, hpre⟩ := h
  obtain ⟨hkey', kind', hid', hpre'⟩ := h'
  rw [hid, forPrivateAccount_eq, forPrivateAccount_eq] at hid'
  have hnpk := (accountPreimage_inj (hfree.injOn hpre hpre' hid')).1
  exact nullifierKeyPreimage_inj (hfree.injOn hkey hkey' hnpk)

theorem Lineage.mono (h : Lineage sha256 Q N events) (hN : N ⊆ N') : Lineage sha256 Q N' events where
  linear := h.linear
  owned := h.owned
  initialized := fun a ha => hN (h.initialized a ha)
  spent := fun a ha c hc => by
    obtain ⟨hopens, nsk, hkey, hnull⟩ := h.spent a ha c hc
    exact ⟨hopens, nsk, hkey, hN hnull⟩
  spends_nodup := h.spends_nodup
  inits_nodup := h.inits_nodup

theorem lineage_nil : Lineage sha256 Q N [] :=
  ⟨linear_nil, by simp, by simp, by simp, by simp, by simp⟩

/-- What holds of the events before and of the new one holds of all. -/
theorem forall_mem_snoc {P : NoteEvent → Prop} (h : ∀ a ∈ events, P a) (he : P e) : ∀ a ∈ events ++ [e], P a := by
  intro a ha
  rcases List.mem_append.mp ha with ha | ha
  · exact h a ha
  · exact List.mem_singleton.mp ha ▸ he

/-- A first commitment for an account that has none. -/
theorem Lineage.init (h : Lineage sha256 Q N events) (hnew : ∀ a ∈ events, a.owner ≠ e.owner)
    (hfirst : e.replaces = .none) (howned : e.owner ≠ bytes32OfNat 0 ∧ Opens sha256 Q e.owner e.token)
    (hnull : nullifierForAccountInitialization sha256 e.owner ∈ N) : Lineage sha256 Q N (events ++ [e]) where
  linear := h.linear.first hnew
  owned := forall_mem_snoc h.owned howned
  initialized := forall_mem_snoc h.initialized hnull
  spent := forall_mem_snoc h.spent fun c hc => by rw [hfirst] at hc; cases hc
  spends_nodup := by simpa [hfirst] using h.spends_nodup
  inits_nodup := by
    have hnodup : ((events.filter (·.replaces.isNone)).map (·.owner) ++ [e.owner]).Nodup := by
      refine List.nodup_append.mpr ⟨h.inits_nodup, List.nodup_singleton _, ?_⟩
      intro id hid id' hid'
      obtain ⟨a, ha, rfl⟩ := List.mem_map.mp hid
      rw [List.mem_singleton.mp hid']
      exact hnew a (List.mem_filter.mp ha).1
    simpa [hfirst] using hnodup

/-- A commitment in place of one that was inserted and whose nullifier is new. -/
theorem Lineage.update (hfree : CollisionFree sha256 Q) (hdummy : Opens sha256 Q (bytes32OfNat 0) dummyCommitment)
    (h : Lineage sha256 Q N events) {c : Commitment} {nsk : NullifierSecretKey} (hreplaces : e.replaces = .some c)
    (howned : e.owner ≠ bytes32OfNat 0 ∧ Opens sha256 Q e.owner e.token) (hopens : Opens sha256 Q e.owner c)
    (hkey : KeyOf sha256 Q e.owner nsk) (hinserted : c ∈ dummyCommitment :: events.map (·.token))
    (hfresh : nullifierForAccountUpdate sha256 c nsk ∉ N) :
    Lineage sha256 Q (insert (nullifierForAccountUpdate sha256 c nsk) N) (events ++ [e]) := by
  have hkept : ∀ b ∈ events, b.replaces ≠ .some c := by
    intro b hb hc
    obtain ⟨hopens', nsk', hkey', hnull⟩ := h.spent b hb c hc
    rw [hopens'.unique hfree hopens] at hkey'
    exact hfresh (hkey'.unique hfree hkey ▸ hnull)
  obtain ⟨a, ha, rfl⟩ : ∃ a ∈ events, a.token = c := by
    rcases List.mem_cons.mp hinserted with rfl | hmem
    · exact absurd (hopens.unique hfree hdummy) howned.1
    · exact List.mem_map.mp hmem
  have howner : a.owner = e.owner := (h.owned a ha).2.unique hfree hopens
  have hmono := h.mono (Finset.subset_insert (nullifierForAccountUpdate sha256 a.token nsk) N)
  exact {
    linear := h.linear.replace ha howner hreplaces fun b hb _ => hkept b hb
    owned := forall_mem_snoc h.owned howned
    initialized := forall_mem_snoc hmono.initialized (howner ▸ hmono.initialized a ha)
    spent := forall_mem_snoc hmono.spent fun c' hc' => by
      rw [hreplaces] at hc'
      cases hc'
      exact ⟨hopens, nsk, hkey, Finset.mem_insert_self _ _⟩
    spends_nodup := by
      have hnodup : (events.filterMap (·.replaces) ++ [a.token]).Nodup := by
        refine List.nodup_append.mpr ⟨h.spends_nodup, List.nodup_singleton _, ?_⟩
        rintro c' hc' _ hc'' rfl
        obtain ⟨b, hb, hbc⟩ := List.mem_filterMap.mp hc'
        exact hkept b hb (List.mem_singleton.mp hc'' ▸ hbc)
      simpa [hreplaces] using hnodup
    inits_nodup := by simpa [hreplaces] using h.inits_nodup }

end

/-! ## The events of a run -/

section
variable (H : Host)

/-- The commitment an update spends. -/
def Emission.spent (e : Emission) : Option Commitment := e.identity.spending.map fun _ => e.commitmentPre H

def Emission.event (e : Emission) : NoteEvent := ⟨e.id, e.commitment H, e.spent H⟩

/-- The strings hashed for an emission, save for nullifiers. -/
def Emission.preimages (e : Emission) : List Bytes :=
  commitmentPreimage H.sha256 e.id e.account ::
    ((e.identity.npk H.sha256).toList.map fun npk => accountPreimage npk e.output.kind) ++
    e.identity.spending.toList.flatMap fun nskProof =>
      nullifierKeyPreimage nskProof.1 :: commitmentPreimage H.sha256 e.id e.pre.account ::
        pathPreimages H.sha256 (e.commitmentPre H) nskProof.2

/-- An entry of `initial_commitments` as `initial_state` makes an account of it. -/
def initialAccount (data : NullifierPublicKey × Account) : AccountId × Account :=
  (forRegularPrivateAccount H.sha256 data.1 0, { data.2 with programOwner := H.authenticatedTransfer.id })

/-- `initial_private_accounts` of `initial_state`. -/
def initialPrivateAccounts (initialCommitments : List (NullifierPublicKey × Account)) :
    List (Commitment × Nullifier) :=
  initialCommitments.map fun data =>
    let (accountId, acc) := initialAccount H data
    (commitmentNew H.sha256 accountId acc, nullifierForAccountInitialization H.sha256 accountId)

def initialEvent (data : NullifierPublicKey × Account) : NoteEvent :=
  ⟨(initialAccount H data).1, commitmentNew H.sha256 (initialAccount H data).1 (initialAccount H data).2, .none⟩

/-- Every event of a run: those of genesis, then those of the circuit's inputs. -/
def history (initialCommitments : List (NullifierPublicKey × Account)) (inputs : List PrivacyPreservingCircuitInput) :
    List NoteEvent :=
  initialCommitments.map (initialEvent H) ++ inputs.flatMap fun i => (emissionsOf H i).map (Emission.event H)

/-- The strings hashed in a run: the openings of the commitments, the dummy's
among them, the derivations of their accounts, the trees and the paths; and the
openings `opened` that one looks at. -/
def hashed (initialCommitments : List (NullifierPublicKey × Account)) (inputs : List PrivacyPreservingCircuitInput)
    (opened : List (AccountId × Account)) : List Bytes :=
  commitmentPreimage H.sha256 (bytes32OfNat 0) Account.default ::
    (initialCommitments.flatMap fun data => [privateAccountPreimage data.1 0,
      commitmentPreimage H.sha256 (initialAccount H data).1 (initialAccount H data).2]) ++
    (inputs.flatMap fun i => (emissionsOf H i).flatMap (Emission.preimages H)) ++
    ((dummyCommitment :: (history H initialCommitments inputs).map (·.token)).inits.flatMap
      (treePreimages H.sha256)) ++
    opened.map fun o => commitmentPreimage H.sha256 o.1 o.2

/-- A chain, with an input of the circuit behind each privacy-preserving transaction. -/
inductive Proven : V03State → List LeeTransaction → List PrivacyPreservingCircuitInput → V03State → Prop
  | nil (s : V03State) : Proven s [] [] s
  | plain {s s' s'' : V03State} {tx : LeeTransaction} {txs : List LeeTransaction}
      {inputs : List PrivacyPreservingCircuitInput} {blockId : BlockId} {timestamp : Timestamp} :
      s.transition H tx blockId timestamp = .some s' → (∀ p, tx ≠ .privacyPreserving p) → Proven s' txs inputs s'' →
      Proven s (tx :: txs) inputs s''
  | hidden {s s' s'' : V03State} {tx : PrivacyPreservingTransaction} {txs : List LeeTransaction}
      {i : PrivacyPreservingCircuitInput} {inputs : List PrivacyPreservingCircuitInput} {blockId : BlockId}
      {timestamp : Timestamp} :
      s.transition H (.privacyPreserving tx) blockId timestamp = .some s' →
      circuit H i = .ok (expectedCircuitOutput H tx s) → Proven s' txs inputs s'' →
      Proven s (.privacyPreserving tx :: txs) (i :: inputs) s''

end

section
variable {H : Host} {Q : Set Bytes} {N : Finset Nullifier} {events : List NoteEvent} {s s' : V03State}
  {txs : List LeeTransaction}

/-- Sound proofs have inputs behind them. -/
theorem Chain.proven (hsound : ProofsSound H) (h : Chain H s txs s') : ∃ inputs, Proven H s txs inputs s' := by
  induction h with
  | nil s => exact ⟨[], .nil s⟩
  | @cons s s₁ s₂ tx txs blockId timestamp hstep _ ih =>
    obtain ⟨inputs, ih⟩ := ih
    cases tx with
    | publicTx tx => exact ⟨inputs, .plain hstep (fun _ h => by cases h) ih⟩
    | programDeployment bytecode => exact ⟨inputs, .plain hstep (fun _ h => by cases h) ih⟩
    | privacyPreserving tx =>
      obtain ⟨diff, hok, -⟩ := V03State.settle_eq_some.mp hstep
      obtain ⟨i, hi⟩ := hsound _ _ (fromPrivacyPreservingTransaction_ok hok).2
      exact ⟨i :: inputs, .hidden hstep hi ih⟩

/-- One emission extends the line of its account. -/
theorem Lineage.emit (hfree : CollisionFree H.sha256 Q)
    (hdummy : Opens H.sha256 Q (bytes32OfNat 0) dummyCommitment) (h : Lineage H.sha256 Q N events) {e : Emission}
    (hsound : e.Sound H) (hQ : ∀ q ∈ e.preimages H, q ∈ Q) (hfresh : e.output.newNullifier.1 ∉ N)
    (hinserted : ∀ c, e.spent H = .some c → c ∈ dummyCommitment :: events.map (·.token)) :
    Lineage H.sha256 Q (insert e.output.newNullifier.1 N) (events ++ [e.event H]) := by
  obtain ⟨npk, hnpk, hid⟩ := hsound.derived
  have haccount : accountPreimage npk e.output.kind ∈ Q := hQ _ (by simp [Emission.preimages, hnpk])
  have howned : e.id ≠ bytes32OfNat 0 ∧ Opens H.sha256 Q e.id (e.commitment H) := by
    refine ⟨?_, e.account, rfl, hQ _ (by simp [Emission.preimages])⟩
    rw [hid, forPrivateAccount_eq]
    exact hfree.nonzero _ haccount
  cases hspending : e.identity.spending with
  | none =>
    have hnull := hsound.init hspending
    rw [hnull] at hfresh ⊢
    refine (h.mono (Finset.subset_insert _ N)).init ?_ ?_ howned (Finset.mem_insert_self _ _)
    · intro a ha hne
      have hinit := h.initialized a ha
      rw [hne] at hinit
      exact hfresh hinit
    · simp [Emission.event, Emission.spent, hspending]
  | some nskProof =>
    obtain ⟨nsk, proof⟩ := nskProof
    obtain ⟨hnsk, hnull⟩ := hsound.update nsk proof hspending
    have hspent : e.spent H = .some (e.commitmentPre H) := by simp [Emission.spent, hspending]
    have hpre : commitmentPreimage H.sha256 e.id e.pre.account ∈ Q :=
      hQ _ (by simp [Emission.preimages, hspending])
    rw [hnull] at hfresh ⊢
    refine Lineage.update hfree hdummy h hspent howned ?_ ?_ (hinserted _ hspent) hfresh
    · exact ⟨e.pre.account, rfl, hpre⟩
    · refine ⟨hQ _ (by simp [Emission.preimages, hspending]), e.output.kind, ?_, ?_⟩
      · rw [hnpk] at hnsk
        exact hid.trans (by rw [Option.some.inj hnsk])
      · rw [hnpk] at hnsk
        exact Option.some.inj hnsk ▸ haccount

/-- The emissions of one transaction, one after the other. -/
theorem Lineage.emits (hfree : CollisionFree H.sha256 Q)
    (hdummy : Opens H.sha256 Q (bytes32OfNat 0) dummyCommitment) :
    ∀ {es : List Emission} {N : Finset Nullifier} {events : List NoteEvent}, Lineage H.sha256 Q N events →
      (∀ e ∈ es, e.Sound H ∧ ∀ q ∈ e.preimages H, q ∈ Q) → (es.map (·.output.newNullifier.1)).Nodup →
      (∀ e ∈ es, e.output.newNullifier.1 ∉ N) →
      (∀ e ∈ es, ∀ c, e.spent H = .some c → c ∈ dummyCommitment :: events.map (·.token)) →
      Lineage H.sha256 Q (N ∪ (es.map (·.output.newNullifier.1)).toFinset) (events ++ es.map (Emission.event H))
  | [], N, events, h, _, _, _, _ => by simpa using h
  | e :: es, N, events, h, hes, hnodup, hfresh, hinserted => by
    rw [List.map_cons, List.nodup_cons] at hnodup
    have hstep := Lineage.emit hfree hdummy h (hes e (by simp)).1 (hes e (by simp)).2 (hfresh e (by simp))
      (hinserted e (by simp))
    have hrest := Lineage.emits hfree hdummy hstep (fun e' he' => hes e' (by simp [he'])) hnodup.2 ?_ ?_
    · have hN : insert e.output.newNullifier.1 N ∪ (es.map (·.output.newNullifier.1)).toFinset =
          N ∪ ((e :: es).map (·.output.newNullifier.1)).toFinset := by
        rw [List.map_cons, List.toFinset_cons, Finset.insert_union, Finset.union_insert]
      rw [hN] at hrest
      simpa using hrest
    · intro e' he' hmem
      rcases Finset.mem_insert.mp hmem with heq | hmem
      · exact hnodup.1 (heq ▸ List.mem_map_of_mem he')
      · exact hfresh e' (by simp [he']) hmem
    · intro e' he' c hc
      have := hinserted e' (by simp [he']) c hc
      rw [List.map_append, ← List.cons_append]
      exact List.mem_append_left _ this

/-! ## Runs -/

/-- The lines and the insertions of a state reached. -/
structure Tracked (H : Host) (Q : Set Bytes) (events : List NoteEvent) (s : V03State) : Prop where
  lineage : Lineage H.sha256 Q s.nullifierSet events
  remembers : Remembers H (dummyCommitment :: events.map (·.token)) s

theorem Tracked.hidden (hfree : CollisionFree H.sha256 Q) (hempty : EmptyRoots H.sha256)
    (hdummy : Opens H.sha256 Q (bytes32OfNat 0) dummyCommitment) (h : Tracked H Q events s)
    {tx : PrivacyPreservingTransaction} {blockId : BlockId} {timestamp : Timestamp} {i : PrivacyPreservingCircuitInput}
    (hstep : s.transition H (.privacyPreserving tx) blockId timestamp = .some s')
    (hcircuit : circuit H i = .ok (expectedCircuitOutput H tx s))
    (htree : ∀ earlier, earlier <+: dummyCommitment :: events.map (·.token) →
      ∀ q ∈ treePreimages H.sha256 earlier, q ∈ Q)
    (hQ : ∀ e ∈ emissionsOf H i, ∀ q ∈ e.preimages H, q ∈ Q) :
    Tracked H Q (events ++ (emissionsOf H i).map (Emission.event H)) s' := by
  obtain ⟨diff, hok, -⟩ := V03State.settle_eq_some.mp hstep
  have hchecks := fromPrivacyPreservingTransaction_checks hok
  obtain ⟨hextend, hnullifiers⟩ := transition_private hstep
  obtain ⟨st, hparts, hes⟩ := circuit_emissions hcircuit
  have hcommitments : tx.message.newCommitments = (emissionsOf H i).map (Emission.commitment H) := hes.commitments
  have hnulls : tx.message.newNullifiers = (emissionsOf H i).map (·.output.newNullifier) := hes.nullifiers
  have hnulls' : tx.message.newNullifiers.map (·.1) = (emissionsOf H i).map (·.output.newNullifier.1) := by
    rw [hnulls, List.map_map]
    rfl
  have hmem : ∀ e ∈ emissionsOf H i, e.output.newNullifier ∈ tx.message.newNullifiers := fun e he =>
    hnulls ▸ List.mem_map_of_mem he
  refine ⟨?_, ?_⟩
  · rw [hnullifiers, LeeTransaction.newNullifiers, hnulls']
    refine Lineage.emits hfree hdummy h.lineage (fun e he => ⟨hes.sound hparts he, hQ e he⟩)
      (hnulls' ▸ hchecks.nullifiers_nodup) (fun e he => hchecks.unseen _ (hmem e he)) ?_
    -- the old commitment of an update is one of the insertions: its path leads to a root of the tree
    intro e he c hc
    obtain ⟨⟨nsk, proof⟩, hspending, rfl⟩ := Option.map_eq_some_iff.mp hc
    have hroot := hchecks.recognized _ (hmem e he)
    rw [((hes.sound hparts he).update nsk proof hspending).2] at hroot
    refine h.remembers.inserts.opens hempty hfree htree (fun q hq => hQ e he q ?_) hroot
    simp [Emission.preimages, hspending, hq]
  · obtain ⟨hover, hdigest⟩ := h.remembers.inserts.extend hextend (by simp)
    refine ⟨?_, hdigest⟩
    have hinserted : dummyCommitment :: (events ++ (emissionsOf H i).map (Emission.event H)).map (·.token) =
        (dummyCommitment :: events.map (·.token)) ++ tx.message.newCommitments := by
      rw [hcommitments, List.map_append, List.map_map, List.cons_append]
      rfl
    rw [hinserted]
    exact hover

theorem Tracked.plain (h : Tracked H Q events s) {tx : LeeTransaction} {blockId : BlockId} {timestamp : Timestamp}
    (hstep : s.transition H tx blockId timestamp = .some s') (hplain : ∀ p, tx ≠ .privacyPreserving p) :
    Tracked H Q events s' := by
  obtain ⟨hextend, hnullifiers⟩ := transition_private hstep
  obtain ⟨hcommitments, hnulls⟩ : tx.newCommitments = [] ∧ tx.newNullifiers = [] := by
    cases tx with
    | publicTx | programDeployment => exact ⟨rfl, rfl⟩
    | privacyPreserving p => exact absurd rfl (hplain p)
  rw [hnulls] at hnullifiers
  rw [hcommitments] at hextend
  obtain ⟨hover, hdigest⟩ := h.remembers.inserts.extend hextend (by simp)
  rw [List.append_nil] at hover
  refine ⟨?_, hover, hdigest⟩
  rw [hnullifiers, List.toFinset_nil, Finset.union_empty]
  exact h.lineage

theorem Proven.tracked (hfree : CollisionFree H.sha256 Q) (hempty : EmptyRoots H.sha256)
    (hdummy : Opens H.sha256 Q (bytes32OfNat 0) dummyCommitment) {inputs : List PrivacyPreservingCircuitInput}
    (hrun : Proven H s txs inputs s') : ∀ {events : List NoteEvent}, Tracked H Q events s →
      (∀ earlier, earlier <+: dummyCommitment :: (events ++ inputs.flatMap fun i =>
        (emissionsOf H i).map (Emission.event H)).map (·.token) → ∀ q ∈ treePreimages H.sha256 earlier, q ∈ Q) →
      (∀ i ∈ inputs, ∀ e ∈ emissionsOf H i, ∀ q ∈ e.preimages H, q ∈ Q) →
      Tracked H Q (events ++ inputs.flatMap fun i => (emissionsOf H i).map (Emission.event H)) s' := by
  induction hrun with
  | nil s =>
    intro events h _ _
    simpa using h
  | plain hstep hplain _ ih =>
    intro events h htree hQ
    exact ih (h.plain hstep hplain) htree hQ
  | @hidden s s₁ s₂ tx txs i inputs blockId timestamp hstep hcircuit _ ih =>
    intro events h htree hQ
    have hnext := h.hidden hfree hempty hdummy hstep hcircuit (fun earlier hearlier => htree earlier (by
      refine hearlier.trans ?_
      rw [List.map_append, ← List.cons_append]
      exact List.prefix_append _ _)) (hQ i (by simp))
    have hrest := ih hnext (by simpa [List.append_assoc] using htree) (fun j hj => hQ j (by simp [hj]))
    simpa [List.append_assoc] using hrest

/-- The accounts of genesis, one commitment each. -/
theorem genesis_lineage (hfree : CollisionFree H.sha256 Q) (initialCommitments : List (NullifierPublicKey × Account))
    (hdistinct : (initialCommitments.map (·.1)).Nodup)
    (hQ : ∀ data ∈ initialCommitments, privateAccountPreimage data.1 0 ∈ Q ∧
      commitmentPreimage H.sha256 (initialAccount H data).1 (initialAccount H data).2 ∈ Q)
    (hnull : ∀ data ∈ initialCommitments,
      nullifierForAccountInitialization H.sha256 (initialAccount H data).1 ∈ N) :
    Lineage H.sha256 Q N (initialCommitments.map (initialEvent H)) := by
  induction initialCommitments using List.reverseRecOn with
  | nil => exact lineage_nil
  | append_singleton before data ih =>
    rw [List.map_append, List.nodup_append] at hdistinct
    obtain ⟨haccount, hcommitment⟩ := hQ data (by simp)
    rw [List.map_append, List.map_singleton]
    refine (ih hdistinct.1 (fun d hd => hQ d (by simp [hd])) (fun d hd => hnull d (by simp [hd]))).init ?_ rfl
      ⟨hfree.nonzero _ haccount, _, rfl, hcommitment⟩ (hnull data (by simp))
    intro a ha hid
    obtain ⟨d, hd, rfl⟩ := List.mem_map.mp ha
    have hpre : accountPreimage d.1 (.regular 0) = accountPreimage data.1 (.regular 0) :=
      hfree.injOn (hQ d (by simp [hd])).1 haccount hid
    exact hdistinct.2.2 d.1 (List.mem_map_of_mem hd) data.1 (by simp) (accountPreimage_inj hpre).1

theorem genesis_tracked (hfree : CollisionFree H.sha256 Q) {initialData : List (AccountId × U128)}
    {initialCommitments : List (NullifierPublicKey × Account)} {genesis : Timestamp}
    (hgenesis : newWithGenesisAccounts H initialData (initialPrivateAccounts H initialCommitments) genesis = .some s)
    (hdistinct : (initialCommitments.map (·.1)).Nodup)
    (hQ : ∀ data ∈ initialCommitments, privateAccountPreimage data.1 0 ∈ Q ∧
      commitmentPreimage H.sha256 (initialAccount H data).1 (initialAccount H data).2 ∈ Q) :
    Tracked H Q (initialCommitments.map (initialEvent H)) s := by
  obtain ⟨hremembers, hnull⟩ := genesis_private hgenesis
  refine ⟨genesis_lineage hfree initialCommitments hdistinct hQ ?_, ?_⟩
  · intro data hdata
    rw [hnull, List.mem_toFinset, initialPrivateAccounts, List.map_map]
    exact List.mem_map.mpr ⟨data, hdata, rfl⟩
  · have hinserted : dummyCommitment :: (initialCommitments.map (initialEvent H)).map (·.token) =
        insertions (initialPrivateAccounts H initialCommitments) [] := by
      simp [insertions, initialPrivateAccounts, initialEvent]
    rw [hinserted]
    exact hremembers

theorem transition_nullifiers {tx : LeeTransaction} {blockId : BlockId} {timestamp : Timestamp}
    (h : s.transition H tx blockId timestamp = .some s') :
    tx.newNullifiers.Nodup ∧ ∀ n ∈ tx.newNullifiers, n ∉ s.nullifierSet := by
  cases tx with
  | publicTx | programDeployment => simp [LeeTransaction.newNullifiers]
  | privacyPreserving tx =>
    obtain ⟨diff, hok, -⟩ := V03State.settle_eq_some.mp h
    have hchecks := fromPrivacyPreservingTransaction_checks hok
    refine ⟨hchecks.nullifiers_nodup, ?_⟩
    intro n hn
    obtain ⟨nd, hnd, rfl⟩ := List.mem_map.mp hn
    exact hchecks.unseen nd hnd

/-- No nullifier is accepted twice, nor one of the state the chain starts from. -/
theorem Chain.nullifiers_once (h : Chain H s txs s') :
    (txs.flatMap LeeTransaction.newNullifiers).Nodup ∧
      ∀ n ∈ s.nullifierSet, n ∉ txs.flatMap LeeTransaction.newNullifiers := by
  induction h with
  | nil => simp
  | @cons s s₁ s₂ tx txs blockId timestamp hstep _ ih =>
    obtain ⟨hnodup, hunseen⟩ := transition_nullifiers hstep
    obtain ⟨-, hunion⟩ := transition_private hstep
    rw [hunion] at ih
    rw [List.flatMap_cons]
    refine ⟨List.nodup_append.mpr ⟨hnodup, ih.1, ?_⟩, ?_⟩
    · rintro n hn _ hm rfl
      exact ih.2 n (Finset.mem_union_right _ (List.mem_toFinset.mpr hn)) hm
    · intro n hn hmem
      rcases List.mem_append.mp hmem with hmem | hmem
      · exact hunseen n hmem hn
      · exact ih.2 n (Finset.mem_union_left _ hn) hmem

/-- A commitment to a state of the account is in the set, and no nullifier of
it under a key of the account is published. -/
def Unspent (H : Host) (s : V03State) (id : AccountId) (a : Account) : Prop :=
  s.commitmentSet.contains (commitmentNew H.sha256 id a) ∧
    ∀ nsk kind, id = forPrivateAccount H.sha256 (nullifierPublicKey H.sha256 nsk) kind →
      nullifierForAccountUpdate H.sha256 (commitmentNew H.sha256 id a) nsk ∉ s.nullifierSet

/-- An opening of an unspent commitment is the dummy's or that of an event nothing replaced. -/
theorem Tracked.unspent (hfree : CollisionFree H.sha256 Q) (h : Tracked H Q events s) {id : AccountId} {a : Account}
    (hQ : commitmentPreimage H.sha256 id a ∈ Q) (hunspent : Unspent H s id a) :
    commitmentNew H.sha256 id a = dummyCommitment ∨ ∃ e ∈ events, e.owner = id ∧
      e.token = commitmentNew H.sha256 id a ∧ ∀ b ∈ events, b.owner = e.owner → b.replaces ≠ .some e.token := by
  rcases List.mem_cons.mp (h.remembers.inserts.members.mp hunspent.1) with hdummy | hmem
  · exact .inl hdummy
  · obtain ⟨e, he, htoken⟩ := List.mem_map.mp hmem
    have howner : e.owner = id := by
      have hopens := (h.lineage.owned e he).2
      rw [htoken] at hopens
      exact hopens.unique hfree ⟨a, rfl, hQ⟩
    refine .inr ⟨e, he, howner, htoken, ?_⟩
    intro b hb hbowner hreplaces
    obtain ⟨-, nsk, ⟨-, kind, hid, -⟩, hnull⟩ := h.lineage.spent b hb _ hreplaces
    rw [hbowner, howner] at hid
    rw [htoken] at hnull
    exact hunspent.2 nsk kind hid hnull

theorem Tracked.unspent_eq (hfree : CollisionFree H.sha256 Q)
    (hdummy : Opens H.sha256 Q (bytes32OfNat 0) dummyCommitment) (h : Tracked H Q events s) {id : AccountId}
    {a a' : Account} (hQ : commitmentPreimage H.sha256 id a ∈ Q) (hQ' : commitmentPreimage H.sha256 id a' ∈ Q)
    (hunspent : Unspent H s id a) (hunspent' : Unspent H s id a') :
    commitmentNew H.sha256 id a = commitmentNew H.sha256 id a' := by
  -- the dummy is of no account of the run
  have hzero : ∀ {a : Account}, commitmentPreimage H.sha256 id a ∈ Q → commitmentNew H.sha256 id a = dummyCommitment →
      id = bytes32OfNat 0 := fun hQ heq => Opens.unique hfree ⟨_, heq.symm, hQ⟩ hdummy
  rcases h.unspent hfree hQ hunspent with heq | ⟨e, he, howner, htoken, hkept⟩ <;>
    rcases h.unspent hfree hQ' hunspent' with heq' | ⟨e', he', howner', htoken', hkept'⟩
  · rw [heq, heq']
  · exact absurd (howner'.trans (hzero hQ heq)) (h.lineage.owned e' he').1
  · exact absurd (howner.trans (hzero hQ' heq')) (h.lineage.owned e he).1
  · rw [← htoken, ← htoken']
    exact h.lineage.linear.unreplaced_eq he he' (howner.trans howner'.symm) hkept hkept'

end

/-- Nothing private was spent twice: nullifiers, the commitments that updates
spent and the accounts initialised are all distinct, and of the openings
`opened` no two of one account are unspent with different commitments. -/
structure SpentOnce (H : Host) (initialCommitments : List (NullifierPublicKey × Account)) (txs : List LeeTransaction)
    (inputs : List PrivacyPreservingCircuitInput) (opened : List (AccountId × Account)) (s : V03State) : Prop where
  nullifiers : (txs.flatMap LeeTransaction.newNullifiers).Nodup
  genesis : ∀ n ∈ (initialPrivateAccounts H initialCommitments).map (·.2), n ∉ txs.flatMap LeeTransaction.newNullifiers
  spends : ((history H initialCommitments inputs).filterMap (·.replaces)).Nodup
  inits : (((history H initialCommitments inputs).filter (·.replaces.isNone)).map (·.owner)).Nodup
  unspent : ∀ id a a', (id, a) ∈ opened → (id, a') ∈ opened → Unspent H s id a → Unspent H s id a' →
    commitmentNew H.sha256 id a = commitmentNew H.sha256 id a'

/-- `Q` has all that a run hashed. -/
structure Covers (H : Host) (initialCommitments : List (NullifierPublicKey × Account))
    (inputs : List PrivacyPreservingCircuitInput) (opened : List (AccountId × Account)) (Q : Set Bytes) : Prop where
  dummy : commitmentPreimage H.sha256 (bytes32OfNat 0) Account.default ∈ Q
  initial : ∀ data ∈ initialCommitments, privateAccountPreimage data.1 0 ∈ Q ∧
    commitmentPreimage H.sha256 (initialAccount H data).1 (initialAccount H data).2 ∈ Q
  emissions : ∀ i ∈ inputs, ∀ e ∈ emissionsOf H i, ∀ q ∈ e.preimages H, q ∈ Q
  trees : ∀ earlier, earlier <+: dummyCommitment :: (history H initialCommitments inputs).map (·.token) →
    ∀ q ∈ treePreimages H.sha256 earlier, q ∈ Q
  opened : ∀ o ∈ opened, commitmentPreimage H.sha256 o.1 o.2 ∈ Q

theorem hashed_covers (H : Host) (initialCommitments : List (NullifierPublicKey × Account))
    (inputs : List PrivacyPreservingCircuitInput) (opened : List (AccountId × Account)) :
    Covers H initialCommitments inputs opened {q | q ∈ hashed H initialCommitments inputs opened} where
  dummy := List.mem_append_left _ (List.mem_append_left _ (List.mem_append_left _ List.mem_cons_self))
  initial := fun data hdata => by
    have hmem : ∀ q ∈ [privateAccountPreimage data.1 0,
        commitmentPreimage H.sha256 (initialAccount H data).1 (initialAccount H data).2],
        q ∈ hashed H initialCommitments inputs opened := fun q hq =>
      List.mem_append_left _ (List.mem_append_left _ (List.mem_append_left _
        (List.mem_cons_of_mem _ (List.mem_flatMap.mpr ⟨data, hdata, hq⟩))))
    exact ⟨hmem _ List.mem_cons_self, hmem _ (List.mem_cons_of_mem _ List.mem_cons_self)⟩
  emissions := fun i hi e he q hq =>
    List.mem_append_left _ (List.mem_append_left _ (List.mem_append_right _
      (List.mem_flatMap.mpr ⟨i, hi, List.mem_flatMap.mpr ⟨e, he, hq⟩⟩)))
  trees := fun earlier hprefix q hq =>
    List.mem_append_left _ (List.mem_append_right _
      (List.mem_flatMap.mpr ⟨earlier, (List.mem_inits _ _).mpr hprefix, hq⟩))
  opened := fun o ho => List.mem_append_right _ (List.mem_map.mpr ⟨o, ho, rfl⟩)

section
variable {H : Host} {initialData : List (AccountId × U128)}
  {initialCommitments : List (NullifierPublicKey × Account)} {genesis : Timestamp} {s₀ s : V03State}
  {txs : List LeeTransaction} {inputs : List PrivacyPreservingCircuitInput} {opened : List (AccountId × Account)}
  {Q : Set Bytes}

theorem Proven.chain (h : Proven H s₀ txs inputs s) : Chain H s₀ txs s := by
  induction h with
  | nil s => exact .nil s
  | plain hstep _ _ ih => exact .cons hstep ih
  | hidden hstep _ _ ih => exact .cons hstep ih

theorem Proven.spentOnce (hrun : Proven H s₀ txs inputs s) (hfree : CollisionFree H.sha256 Q)
    (hcovers : Covers H initialCommitments inputs opened Q) (hempty : EmptyRoots H.sha256)
    (hdummy : dummyCommitment = commitmentNew H.sha256 (bytes32OfNat 0) Account.default)
    (hdistinct : (initialCommitments.map (·.1)).Nodup)
    (hgenesis : newWithGenesisAccounts H initialData (initialPrivateAccounts H initialCommitments) genesis = .some s₀) :
    SpentOnce H initialCommitments txs inputs opened s := by
  have hopens : Opens H.sha256 Q (bytes32OfNat 0) dummyCommitment := ⟨_, hdummy, hcovers.dummy⟩
  have htracked : Tracked H Q (history H initialCommitments inputs) s :=
    hrun.tracked hfree hempty hopens (genesis_tracked hfree hgenesis hdistinct hcovers.initial) hcovers.trees
      hcovers.emissions
  obtain ⟨hnodup, hseen⟩ := hrun.chain.nullifiers_once
  refine ⟨hnodup, ?_, htracked.lineage.spends_nodup, htracked.lineage.inits_nodup, ?_⟩
  · intro n hn
    refine hseen n ?_
    rw [(genesis_private hgenesis).2]
    exact List.mem_toFinset.mpr hn
  · intro id a a' ha ha' hunspent hunspent'
    exact htracked.unspent_eq hfree hopens (hcovers.opened (id, a) ha) (hcovers.opened (id, a') ha') hunspent
      hunspent'

/-- **No private double spend.** Where proofs are sound, every chain from
genesis has inputs of the circuit behind its privacy-preserving transactions,
and whatever they are: as long as the hash does not collide on what was hashed,
no nullifier is accepted twice, no commitment is spent twice, no account is
initialised twice, and no account has two unspent commitments. -/
theorem no_private_double_spend (hsound : ProofsSound H) (hempty : EmptyRoots H.sha256)
    (hdummy : dummyCommitment = commitmentNew H.sha256 (bytes32OfNat 0) Account.default)
    (hdistinct : (initialCommitments.map (·.1)).Nodup)
    (hgenesis : newWithGenesisAccounts H initialData (initialPrivateAccounts H initialCommitments) genesis = .some s₀)
    (hchain : Chain H s₀ txs s) :
    (∃ inputs, Proven H s₀ txs inputs s) ∧
    ∀ inputs opened, Proven H s₀ txs inputs s →
      CollisionFree H.sha256 {q | q ∈ hashed H initialCommitments inputs opened} →
      SpentOnce H initialCommitments txs inputs opened s := by
  refine ⟨hchain.proven hsound, ?_⟩
  intro inputs opened hrun hfree
  exact hrun.spentOnce hfree (hashed_covers H initialCommitments inputs opened) hempty hdummy hdistinct hgenesis

end

section
open Reference

namespace Sample

/-- The holder's account as `initial_commitments` has it. -/
def holderData : List (NullifierPublicKey × Account) := [(nullifierPublicKey Sha256.hash holderNsk, funded 9)]

end Sample

open Sample

theorem gift_spends_once :
    ∃ tx s₀ s, newWithGenesisAccounts giftHost.toHost [] (initialPrivateAccounts giftHost.toHost holderData) 0 =
        .some s₀ ∧
      Chain giftHost.toHost s₀ [.privacyPreserving tx] s ∧
      (history giftHost.toHost holderData [gift]).map (fun e => e.replaces.isSome) = [false, true, false] ∧
      SpentOnce giftHost.toHost holderData [.privacyPreserving tx] [gift] [(holder, funded 9)] s := by
  -- the strings of the run, hashed
  have hdigests : ((hashed giftHost.toHost holderData [gift] [(holder, funded 9)]).dedup.map Sha256.hash).Nodup ∧
      (∀ q ∈ hashed giftHost.toHost holderData [gift] [(holder, funded 9)], Sha256.hash q ≠ bytes32OfNat 0) ∧
      (history giftHost.toHost holderData [gift]).map (fun e => e.replaces.isSome) = [false, true, false] := by
    simp only [giftHost, host_packed, gift, holderData, holder, donee, Sha256.hash_eq_packed]
    decide +kernel
  obtain ⟨tx, s₀, s, hs₀, hs, hcircuit, -⟩ := gift_run
  have hchain : Chain giftHost.toHost s₀ [.privacyPreserving tx] s := .cons hs (.nil s)
  have hdistinct : (holderData.map (·.1)).Nodup := List.nodup_singleton _
  have hconstant : dummyCommitment = commitmentNew Sha256.hash (bytes32OfNat 0) Account.default := by
    decide +kernel
  refine ⟨tx, s₀, s, hs₀, hchain, hdigests.2.2, ?_⟩
  refine (no_private_double_spend giftHost.proof_sound emptyRoots_sha256 hconstant hdistinct hs₀ hchain).2 [gift]
    [(holder, funded 9)] (.hidden hs hcircuit (.nil s)) ⟨?_, hdigests.2.1⟩
  intro q hq q' hq' heq
  exact List.inj_on_of_nodup_map hdigests.1 (List.mem_dedup.mpr hq) (List.mem_dedup.mpr hq') heq

end

end Lez
