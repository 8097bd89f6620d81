/-
No transaction is accepted twice. A signature pins the signer's nonce, which
every acceptance moves on and nothing moves back; a privacy-preserving
transaction leaves behind a commitment or a nullifier that has to be new.
-/
import Lez.Ledger.Ownership
import Lez.Trace.Chain

namespace Lez

/-- Carries something that acceptance uses up: a signature, or the private
half of a privacy-preserving transaction. -/
def LeeTransaction.Spends : LeeTransaction → Prop
  | publicTx tx => tx.signaturesAndPublicKeys ≠ []
  | privacyPreserving _ => True
  | programDeployment _ => False

section
variable {H : Host} {u v w w' : V03State} {txs : List LeeTransaction} {blockId blockId' : BlockId}
  {timestamp timestamp' : Timestamp}

/-- Each signer of an accepted public transaction had the nonce its message has for it. -/
theorem fromPublicTransaction_nonces {tx : PublicTransaction} {diff : StateDiff}
    (h : fromPublicTransaction H tx u blockId timestamp = .ok diff) :
    tx.message.nonces.length = tx.signaturesAndPublicKeys.length ∧
      ∀ an ∈ (signerAccountIds H tx.signaturesAndPublicKeys).zip tx.message.nonces,
        (u.getAccountById an.1).nonce = an.2 := by
  simp only [fromPublicTransaction, bind_ok_iff, ensure_ok_iff, pure_ok_iff] at h
  obtain ⟨-, -, -, hlen, -, -, _, hnonces, -⟩ := h
  refine ⟨hlen, ?_⟩
  intro an han
  exact ensure_ok_iff.mp (forM_ok_iff.mp hnonces an han)

/-- The nonce of a first signer has moved past what the message says. -/
theorem publicTx_once (hsound : ProofsSound H) {tx : PublicTransaction} (hsigned : tx.signaturesAndPublicKeys ≠ [])
    (hfirst : u.transition H (.publicTx tx) blockId timestamp = .some v) (hbetween : Chain H v txs w)
    (hsecond : w.transition H (.publicTx tx) blockId' timestamp' = .some w') : False := by
  obtain ⟨_, hok, -⟩ := V03State.settle_eq_some.mp hfirst
  obtain ⟨_, hok', -⟩ := V03State.settle_eq_some.mp hsecond
  obtain ⟨hlen, hnonces⟩ := fromPublicTransaction_nonces hok
  obtain ⟨-, hnonces'⟩ := fromPublicTransaction_nonces hok'
  obtain ⟨sk, sks, hsks⟩ := List.exists_cons_of_ne_nil hsigned
  obtain ⟨n, ns, hns⟩ : ∃ n ns, tx.message.nonces = n :: ns := by
    refine List.exists_cons_of_ne_nil ?_
    intro hnil
    simp [hnil, hsks] at hlen
  let signer := accountIdFromPublicKey H.sha256 sk.2
  have hmem : (signer, n) ∈ (signerAccountIds H tx.signaturesAndPublicKeys).zip tx.message.nonces := by
    simp [signerAccountIds, hsks, hns, signer]
  have hstep := transition_nonce hsound hfirst signer
  have hcount : 0 < (LeeTransaction.signers H (.publicTx tx)).count signer :=
    List.count_pos_iff.mpr (List.of_mem_zip hmem).1
  have hmono := hbetween.nonce_le hsound signer
  rw [hnonces _ hmem] at hstep
  rw [hnonces' _ hmem] at hmono
  omega

/-- A commitment of the message is in the set by then, or a nullifier published. -/
theorem privacyPreserving_once {tx : PrivacyPreservingTransaction}
    (hfirst : u.transition H (.privacyPreserving tx) blockId timestamp = .some v) (hbetween : Chain H v txs w)
    (hsecond : w.transition H (.privacyPreserving tx) blockId' timestamp' = .some w') : False := by
  obtain ⟨diff, hok, happly⟩ := V03State.settle_eq_some.mp hfirst
  obtain ⟨_, hok', -⟩ := V03State.settle_eq_some.mp hsecond
  have hchecks := fromPrivacyPreservingTransaction_checks hok
  have hchecks' := fromPrivacyPreservingTransaction_checks hok'
  have happlied := applyStateDiff_applied happly
  have hgrows := hbetween.grows
  rcases hchecks.nonempty with hne | hne
  · obtain ⟨c, cs, hcs⟩ := List.exists_cons_of_ne_nil hne
    have hc : c ∈ tx.message.newCommitments := by simp [hcs]
    refine hchecks'.fresh c hc (hgrows.commitments c ?_)
    exact (CommitmentSet.extend_contains happlied.commitments).mpr (.inr (hchecks.commitments ▸ hc))
  · obtain ⟨nd, nds, hnds⟩ := List.exists_cons_of_ne_nil hne
    have hnd : nd ∈ tx.message.newNullifiers := by simp [hnds]
    refine hchecks'.unseen nd hnd (hgrows.nullifiers ?_)
    rw [happlied.nullifiers, hchecks.nullifiers]
    exact Finset.mem_union_right _ (List.mem_toFinset.mpr (List.mem_map_of_mem hnd))

/-- **No replay.** In a chain of accepted transactions from any state, the same
signed public transaction, or the same privacy-preserving one, never stands
at two positions. -/
theorem no_replay (hsound : ProofsSound H) (h : Chain H u txs v) {tx : LeeTransaction} (hspends : tx.Spends)
    {i j : Nat} (hi : txs[i]? = .some tx) (hj : txs[j]? = .some tx) : i = j := by
  -- two positions cut the chain in three
  have hcut : ∀ {i j : Nat}, i < j → txs[i]? = .some tx → txs[j]? = .some tx → False := by
    intro i j hij hi hj
    obtain ⟨hil, hi⟩ := List.getElem?_eq_some_iff.mp hi
    have hsplit : txs = txs.take i ++ tx :: txs.drop (i + 1) := by
      rw [← hi, List.cons_getElem_drop_succ, List.take_append_drop]
    have hlater : tx ∈ txs.drop (i + 1) := by
      refine List.mem_iff_getElem?.mpr ⟨j - (i + 1), ?_⟩
      rw [List.getElem?_drop, show i + 1 + (j - (i + 1)) = j by omega, hj]
    obtain ⟨between, after, hafter⟩ := List.append_of_mem hlater
    rw [hsplit, hafter] at h
    obtain ⟨_, _, _, _, -, hfirst, hrest⟩ := h.split
    obtain ⟨_, _, _, _, hbetween, hsecond, -⟩ := hrest.split
    cases tx with
    | publicTx tx => exact publicTx_once hsound hspends hfirst hbetween hsecond
    | privacyPreserving tx => exact privacyPreserving_once hfirst hbetween hsecond
    | programDeployment => exact hspends
  rcases Nat.lt_trichotomy i j with hlt | heq | hgt
  · exact (hcut hlt hi hj).elim
  · exact heq
  · exact (hcut hgt hj hi).elim

end

section
open Reference

namespace Sample

def marketChain : List LeeTransaction := [.publicTx emptyTransfer, .publicTx purchase]

end Sample

open Sample

theorem purchase_once :
    ∃ s₀ s, newWithGenesisAccounts marketHost.toHost [(shop, 0), (payer, 9)] [] 0 = .some s₀ ∧
      Chain marketHost.toHost s₀ marketChain s ∧ marketChain[1]? = .some (.publicTx purchase) ∧
      ∀ j, marketChain[j]? = .some (.publicTx purchase) → 1 = j := by
  have hrun : (newWithGenesisAccounts marketHost.toHost [(shop, 0), (payer, 9)] [] 0).any (fun s₀ =>
      (s₀.transition marketHost.toHost (.publicTx emptyTransfer) 0 0).any fun s₁ =>
        (s₁.transition marketHost.toHost (.publicTx purchase) 0 0).isSome) = true := by
    rw [marketHost, host_packed, signaturesOf_packed]
    decide +kernel
  obtain ⟨s₀, hs₀, h⟩ := (Option.any_eq_true _ _).mp hrun
  obtain ⟨s₁, hs₁, h⟩ := (Option.any_eq_true _ _).mp h
  obtain ⟨s, hs⟩ := Option.isSome_iff_exists.mp h
  have hchain : Chain marketHost.toHost s₀ marketChain s := .cons hs₁ (.cons hs (.nil s))
  have hspends : LeeTransaction.Spends (.publicTx purchase) := List.cons_ne_nil _ _
  refine ⟨s₀, s, hs₀, hchain, rfl, ?_⟩
  intro j hj
  exact no_replay marketHost.proof_sound hchain hspends rfl hj

end

end Lez
