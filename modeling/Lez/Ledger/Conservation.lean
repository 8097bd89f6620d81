/-
Native balance is conserved: each call keeps the sum of the balances of the
accounts it names, so a sequence of calls keeps the sum over any set of
accounts that covers them, and applying the diff changes nothing else but
nonces.
-/
import Lez.Programs.MsigHost
import Lez.Trace.Public

namespace Lez

/-- The balance of an account as a number. -/
def Account.worth (a : Account) : Nat := a.balance.toNat

/-- The sum of all public balances, unbounded. -/
def V03State.totalBalance (s : V03State) : Nat := s.publicState.total Account.worth

/-! ## Sums -/

/-- A call keeps the sum over any accounts that include its own. -/
theorem CallEffect.sum_worth {isPublic : AccountId → Prop} {e : Executed} {σ σ' : View}
    (h : CallEffect isPublic e σ σ') (hpub : ∀ id ∈ e.accountIds, isPublic id) {S : Finset AccountId}
    (hS : ∀ id ∈ e.accountIds, id ∈ S) :
    ∑ id ∈ S, (σ' id).worth = ∑ id ∈ S, (σ id).worth := by
  have hnodup : e.accountIds.Nodup := h.valid.nodup
  refine sum_eq_of_batch hnodup hS ?_ ?_
  · intro id hid
    rw [h.frame id fun hm => hid hm.1]
  · have hfst : e.changes.map (·.1) = e.output.preStates := List.map_fst_zip h.valid.length.le
    have hsnd : e.changes.map (·.2) = e.output.postStates := List.map_snd_zip h.valid.length.ge
    have hafter : (e.accountIds.map fun id => (σ' id).worth) = e.output.postStates.map (·.account.worth) := by
      rw [Executed.accountIds, ← hfst, ← hsnd, List.map_map, List.map_map, List.map_map]
      refine List.map_congr_left ?_
      intro pp hpp
      have hid : pp.1.accountId ∈ e.accountIds := List.mem_map.mpr ⟨pp.1, (List.of_mem_zip hpp).1, rfl⟩
      simp only [Function.comp_apply, h.post pp hpp (hpub _ hid), AccountPostState.settled]
      split <;> rfl
    have hbefore : (e.accountIds.map fun id => (σ id).worth) = e.output.preStates.map (·.account.worth) := by
      rw [Executed.accountIds, List.map_map]
      refine List.map_congr_left ?_
      intro a ha
      simp only [Function.comp_apply, h.pre a ha (hpub _ (List.mem_map.mpr ⟨a, ha, rfl⟩))]
    have hbal := h.valid.balance
    simp only [balanceSum, List.map_map] at hbal
    rw [hafter, hbefore]
    exact hbal.symm

/-- So does a sequence of calls. -/
theorem Effects.sum_worth {isPublic : AccountId → Prop} {es : List Executed} {σ σ' : View}
    (h : Effects isPublic es σ σ') (hpub : ∀ e ∈ es, ∀ id ∈ e.accountIds, isPublic id) {S : Finset AccountId}
    (hS : ∀ e ∈ es, ∀ id ∈ e.accountIds, id ∈ S) :
    ∑ id ∈ S, (σ' id).worth = ∑ id ∈ S, (σ id).worth := by
  induction h with
  | nil => rfl
  | cons he _ ih =>
    rw [ih (fun e' he' => hpub e' (List.mem_cons_of_mem _ he')) fun e' he' => hS e' (List.mem_cons_of_mem _ he'),
      he.sum_worth (hpub _ List.mem_cons_self) (hS _ List.mem_cons_self)]

/-- The total as a sum over any accounts that cover the table. -/
theorem V03State.totalBalance_eq_sum (s : V03State) {S : Finset AccountId} (hS : ∀ id ∈ s.publicState, id ∈ S) :
    s.totalBalance = ∑ id ∈ S, (s.getAccountById id).worth :=
  s.publicState.total_eq_sum rfl hS

/-- **Public transactions conserve native balance.** Whatever the programs do,
however their calls nest and whatever accounts they share, an accepted
transaction leaves the sum of all public balances as it was. -/
theorem public_transaction_conserves_balance {H : Host} {s s' : V03State} {blockId : BlockId}
    {timestamp : Timestamp} {tx : PublicTransaction} {diff : StateDiff}
    (h : fromPublicTransaction H tx s blockId timestamp = .ok diff) (happly : s.applyStateDiff H diff = .some s') :
    s'.totalBalance = s.totalBalance := by
  have heff := (fromPublicTransaction_ok h).exec.effects
  let calls := publicCalls H s blockId timestamp tx
  let S : Finset AccountId :=
    s.publicState.keys.toFinset ∪ s'.publicState.keys.toFinset ∪ (calls.flatMap (·.accountIds)).toFinset
  have hs : ∀ id ∈ s.publicState, id ∈ S := by
    intro id hid
    simp [S, AList.mem_keys.mp hid]
  have hs' : ∀ id ∈ s'.publicState, id ∈ S := by
    intro id hid
    simp [S, AList.mem_keys.mp hid]
  have hcalls : ∀ e ∈ calls, ∀ id ∈ e.accountIds, id ∈ S := by
    intro e he id hid
    have hm : id ∈ calls.flatMap (·.accountIds) := List.mem_flatMap.mpr ⟨e, he, hid⟩
    simp [S, hm]
  calc s'.totalBalance
      = ∑ id ∈ S, (s'.getAccountById id).worth := s'.totalBalance_eq_sum hs'
    _ = ∑ id ∈ S, (viewOf s diff.publicDiff id).worth := by
        refine Finset.sum_congr rfl ?_
        intro id _
        obtain ⟨n, hn, -⟩ := applyStateDiff_account happly id
        rw [hn]
        rfl
    _ = ∑ id ∈ S, (viewOf s ∅ id).worth := heff.sum_worth (fun _ _ _ _ => trivial) hcalls
    _ = s.totalBalance := (s.totalBalance_eq_sum hs).symm

section
open Reference

namespace Sample

/-- A program that pays five out of its own derived account. -/
def payout : Script :=
  { programs := fun _ => delegating transferId (Serde.writeTransfer (.transfer 5)) [seed] }

def payoutLedger : V03State :=
  ledger [(forPublicPda Sha256.hash (programId 100) seed, funded 8), (ByteVec.fill 32 1, funded 1)]
    [programId 100, transferId]

def payoutTx : PublicTransaction :=
  unsigned (programId 100) [forPublicPda Sha256.hash (programId 100) seed, ByteVec.fill 32 1] []

end Sample

open Sample

theorem payout_conserves_balance :
    ∃ diff s', fromPublicTransaction (host payout).toHost payoutTx payoutLedger 0 0 = .ok diff ∧
      payoutLedger.applyStateDiff (host payout).toHost diff = .some s' ∧
      (s'.getAccountById (ByteVec.fill 32 1)).balance = 6 ∧ s'.totalBalance = payoutLedger.totalBalance := by
  have hrun : ∃ s', ((fromPublicTransaction (host payout).toHost payoutTx payoutLedger 0 0).toOption.bind
      (payoutLedger.applyStateDiff (host payout).toHost)) = .some s' ∧
        (s'.getAccountById (ByteVec.fill 32 1)).balance = 6 := by
    refine ⟨_, (Option.some_get (by decide +kernel)).symm, by decide +kernel⟩
  obtain ⟨s', hs', hpaid⟩ := hrun
  obtain ⟨diff, hdiff, happly⟩ := Option.bind_eq_some_iff.mp hs'
  have hok := toOption_eq_some.mp hdiff
  exact ⟨diff, s', hok, happly, hpaid, public_transaction_conserves_balance hok happly⟩

end

end Lez
