/-
Native balance is conserved across the privacy boundary. The circuit files
every account once, as the outputs first mention it (`Replay.first_seen`);
threading by id makes the per-call sums telescope over those accounts,
public and private alike, and the accounts it commits are the ones the last
call left.
-/
import Lez.Ledger.Conservation
import Lez.Trace.Emission

namespace Lez

open Circuit

/-- The accounts that the outputs mention. -/
def mentioned (outs : List ProgramOutput) : Finset AccountId :=
  (outs.flatMap (·.preStates)).map (·.accountId) |>.toFinset

/-- An account as the outputs first mention it. -/
def firstPreState (outs : List ProgramOutput) (id : AccountId) : Account :=
  ((outs.flatMap (·.preStates)).find? (·.accountId = id)).elim Account.default (·.account)

theorem mem_ids_iff {l : List AccountWithMetadata} {id : AccountId} :
    id ∈ l.map (·.accountId) ↔ (l.find? (·.accountId = id)).isSome := by
  simp

section
variable {H : Host} {identities : List InputAccountIdentity} {st st' : ExecutionState}

/-- An output files the accounts it mentions first, as it has them. -/
theorem OutputChecks.find {p : Awaited} {out : ProgramOutput} (h : OutputChecks H st p.call p.caller out st')
    (hf : Filed st) (id : AccountId) :
    st'.preStates.find? (·.accountId = id) = (st.preStates ++ out.preStates).find? (·.accountId = id) := by
  have hf' := hf.next h.accepted
  obtain ⟨new, hnew, -, hfrom⟩ := h.accepted.growth
  rw [hnew, List.find?_append, List.find?_append]
  cases hold : st.preStates.find? (·.accountId = id) with
  | some a => rfl
  | none =>
    rw [Option.none_or, Option.none_or]
    have hunfiled : id ∉ st.preStates.map (·.accountId) := by
      intro hmem
      obtain ⟨a, ha, rfl⟩ := List.mem_map.mp hmem
      simpa using List.find?_eq_none.mp hold a ha
    cases hout : out.preStates.find? (·.accountId = id) with
    | none =>
      refine List.find?_eq_none.mpr ?_
      intro a ha
      obtain ⟨⟨pp, hpp, rfl⟩, -⟩ := hfrom a ha
      exact List.find?_eq_none.mp hout _ (List.of_mem_zip hpp).1
    | some a =>
      have hid : a.accountId = id := by simpa using List.find?_some hout
      obtain ⟨pp, hpp, rfl⟩ := h.change (List.mem_of_find?_eq_some hout)
      have hmem : pp.1 ∈ new := by
        rcases h.accepted.accounts pp hpp with hseen | hfresh
        · exact absurd (hid ▸ (hf.seen _).mp (by simp [hseen.known])) hunfiled
        · have hfiled := hfresh.filed
          rw [hnew] at hfiled
          rcases List.mem_append.mp hfiled with hin | hin
          · exact absurd (hid ▸ List.mem_map.mpr ⟨pp.1, hin, rfl⟩) hunfiled
          · exact hin
      -- ids of the state are distinct, so what is found is what was filed
      cases hfound : new.find? (·.accountId = id) with
      | none => exact absurd hid (by simpa using List.find?_eq_none.mp hfound pp.1 hmem)
      | some b =>
        have hbid : b.accountId = id := by simpa using List.find?_some hfound
        have hnodup := hf'.nodup
        have hb : b ∈ st'.preStates := hnew ▸ List.mem_append_right _ (List.mem_of_find?_eq_some hfound)
        have hp : pp.1 ∈ st'.preStates := hnew ▸ List.mem_append_right _ hmem
        rw [List.inj_on_of_nodup_map hnodup hb hp (hbid.trans hid.symm)]

/-- **Every account is filed once, as first mentioned.** -/
theorem Replay.first_seen {q : List Awaited} {outs : List ProgramOutput} {es : List Executed}
    (h : Replay H identities q outs st es st') (hf : Filed st) (id : AccountId) :
    st'.preStates.find? (·.accountId = id) =
      (st.preStates ++ outs.flatMap (·.preStates)).find? (·.accountId = id) := by
  induction h with
  | nil => simp
  | cons haccept _ ih =>
    have hchecks := acceptOutput_ok haccept
    rw [ih (hf.next hchecks.accepted), List.find?_append, hchecks.find hf id, List.flatMap_cons, ← List.append_assoc,
      ← List.find?_append]

theorem Replay.output_mem {q : List Awaited} {outs : List ProgramOutput} {es : List Executed}
    (h : Replay H identities q outs st es st') : ∀ e ∈ es, e.output ∈ outs := by
  induction h with
  | nil => simp
  | cons _ _ ih =>
    intro e he
    rcases List.mem_cons.mp he with rfl | he
    · exact List.mem_cons_self
    · exact List.mem_cons_of_mem _ (ih e he)

/-! ## The accounts of a run -/

section
variable {i : PrivacyPreservingCircuitInput} {output : PrivacyPreservingCircuitOutput} {start : ExecutionState}
  (h : CircuitRun H i output start st)
include h

theorem CircuitRun.filed : Filed st := by
  obtain ⟨_, hreplay⟩ := h.replay
  obtain ⟨hpre, hpost, -, -⟩ := h.start
  exact hreplay.filed ⟨by simp [hpre, hpost], by simp [hpre]⟩

theorem CircuitRun.find (id : AccountId) :
    st.preStates.find? (·.accountId = id) = (i.programOutputs.flatMap (·.preStates)).find? (·.accountId = id) := by
  obtain ⟨_, hreplay⟩ := h.replay
  obtain ⟨hpre, hpost, -, -⟩ := h.start
  have hfiled : Filed start := ⟨by simp [hpre, hpost], by simp [hpre]⟩
  simpa [hpre] using hreplay.first_seen hfiled id

/-- The accounts filed are those the outputs mention. -/
theorem CircuitRun.mentioned : (st.preStates.map (·.accountId)).toFinset = mentioned i.programOutputs := by
  ext id
  rw [Lez.mentioned, List.mem_toFinset, List.mem_toFinset, mem_ids_iff, mem_ids_iff, h.find id]

theorem CircuitRun.first_seen {a : AccountWithMetadata} (ha : a ∈ st.preStates) :
    firstPreState i.programOutputs a.accountId = a.account := by
  have hfind := h.find a.accountId
  unfold firstPreState
  rw [← hfind]
  cases hf : st.preStates.find? (·.accountId = a.accountId) with
  | none => simpa using List.find?_eq_none.mp hf a ha
  | some b =>
    have hbid : b.accountId = a.accountId := by simpa using List.find?_some hf
    rw [List.inj_on_of_nodup_map h.filed.nodup (List.mem_of_find?_eq_some hf) ha hbid]
    rfl

/-- **The sums telescope**: over all accounts of the outputs, what the calls
left is worth what they first found. -/
theorem CircuitRun.sum_worth :
    ∑ id ∈ Lez.mentioned i.programOutputs, (firstPreState i.programOutputs id).worth =
      (st.preStates.map fun a => ((st.postStates.lookup a.accountId).getD Account.default).worth).sum := by
  obtain ⟨_, hreplay⟩ := h.replay
  let accounts := st.preStates.map (·.accountId)
  have hmem : ∀ e ∈ circuitCalls i, ∀ id ∈ e.accountIds, id ∈ accounts := by
    intro e he id hid
    obtain ⟨a, ha, rfl⟩ := List.mem_map.mp hid
    have hm : a.accountId ∈ Lez.mentioned i.programOutputs :=
      List.mem_toFinset.mpr (List.mem_map.mpr ⟨a, List.mem_flatMap.mpr ⟨e.output, hreplay.output_mem e he, ha⟩, rfl⟩)
    rw [← h.mentioned] at hm
    exact List.mem_toFinset.mp hm
  have heff : Effects (· ∈ accounts) _ (circuitView accounts (firstPreState i.programOutputs) start)
      (circuitView accounts (firstPreState i.programOutputs) _) :=
    hreplay.effects fun a ha _ => (h.first_seen ha).symm
  have hstart : circuitView accounts (firstPreState i.programOutputs) start = firstPreState i.programOutputs := by
    funext id
    simp [circuitView, h.start.2.1]
  rw [hstart] at heff
  have hsum := heff.sum_worth hmem (S := accounts.toFinset) fun e he id hid => List.mem_toFinset.mpr (hmem e he id hid)
  rw [← h.mentioned, ← hsum, List.sum_toFinset _ h.filed.nodup, List.map_map]
  congr 1
  refine List.map_congr_left ?_
  intro a ha
  have hid : a.accountId ∈ accounts := List.mem_map.mpr ⟨a, ha, rfl⟩
  obtain ⟨post, hpost⟩ := Option.isSome_iff_exists.mp ((h.filed.seen _).mpr hid)
  simp only [Function.comp_apply, circuitView, if_pos hid, hpost, Option.getD_some]

end

/-- **Value is conserved across the privacy boundary.** Whatever outputs and
identities the circuit accepts, the accounts it commits are those the outputs
mention, each once: the public ones with their post-states, the private ones
behind the new commitments. The balances of the first pre-states and of the
committed accounts have the same sum. -/
theorem circuit_conserves_balance {i : PrivacyPreservingCircuitInput} {output : PrivacyPreservingCircuitOutput}
    (h : circuit H i = .ok output) :
    ∃ posts : List (AccountId × Account),
      output.newCommitments = posts.map (fun p => commitmentNew H.sha256 p.1 p.2) ∧
      output.publicPostStates.length = output.publicPreStates.length ∧
      (output.publicPreStates.map (·.accountId) ++ posts.map (·.1)).Nodup ∧
      (output.publicPreStates.map (·.accountId) ++ posts.map (·.1)).toFinset = mentioned i.programOutputs ∧
      ∑ id ∈ mentioned i.programOutputs, (firstPreState i.programOutputs id).balance.toNat =
        balanceSum output.publicPostStates + balanceSum (posts.map (·.2)) := by
  obtain ⟨st, hparts⟩ := circuit_parts h
  obtain ⟨start, hrun⟩ := hparts.run
  obtain ⟨es, hes⟩ := hparts.emissions
  let items := i.accountIdentities.zip st.preStates
  let hidden := (items.filter fun it => !it.1.isPublic).map (·.2)
  have hpre : es.map (·.pre) = hidden := hes.pre
  have hperm : (publicStates items ++ hidden).Perm st.preStates := by
    have hsnd : items.map (·.2) = st.preStates := List.map_snd_zip hrun.length.ge
    rw [← hsnd, publicStates, ← List.map_append]
    exact (List.filter_append_perm (fun it => it.1.isPublic) items).map _
  have hids : (output.publicPreStates.map (·.accountId) ++ (es.map fun e => (e.id, e.account)).map (·.1)).Perm
      (st.preStates.map (·.accountId)) := by
    have hposts : (es.map fun e => (e.id, e.account)).map (·.1) = hidden.map (·.accountId) := by
      rw [← hpre, List.map_map, List.map_map]
      exact List.map_congr_left fun e he => hes.id_eq he
    rw [hposts, hrun.publicPre, ← List.map_append]
    exact hperm.map _
  let worthLeft (a : AccountWithMetadata) : Nat := ((st.postStates.lookup a.accountId).getD Account.default).worth
  have hshown : balanceSum output.publicPostStates = ((publicStates items).map worthLeft).sum := by
    have hworth := congrArg (List.map fun o : Option Account => (o.getD Account.default).worth) hrun.publicPost
    rw [List.map_map, List.map_map] at hworth
    exact congrArg List.sum hworth
  have hhidden : balanceSum ((es.map fun e => (e.id, e.account)).map (·.2)) = (hidden.map worthLeft).sum := by
    rw [balanceSum, ← hpre, List.map_map, List.map_map, List.map_map]
    congr 1
    refine List.map_congr_left ?_
    intro e he
    simp only [Function.comp_apply, worthLeft, (hes.valid e he).left, Option.getD_some]
    rfl
  refine ⟨es.map fun e => (e.id, e.account), ?_, ?_, ?_, ?_, ?_⟩
  · rw [hes.commitments, List.map_map]
    rfl
  · have hlen := congrArg List.length hrun.publicPost
    simpa [hrun.publicPre] using hlen
  · exact hids.nodup_iff.mpr hrun.filed.nodup
  · rw [List.toFinset_eq_of_perm _ _ hids, hrun.mentioned]
  · rw [hshown, hhidden, ← List.sum_append, ← List.map_append, (hperm.map worthLeft).sum_eq]
    exact hrun.sum_worth

end

section
open Reference

namespace Sample

/-- The account of a new private recipient. -/
def shieldedId (npk : NullifierPublicKey) : AccountId := forRegularPrivateAccount Sha256.hash npk 0

/-- Five out of nine from a public account to a new private one. -/
def shielding (npk : NullifierPublicKey) (ssk : Bytes32) (epk : Bytes) (viewTag : UInt8) (sender : AccountId) :
    PrivacyPreservingCircuitInput where
  programOutputs := (AuthenticatedTransfer.main Serde.transferCodec transferId .none
    [⟨funded 9, true, sender⟩, ⟨Account.default, false, shieldedId npk⟩]
    (Serde.writeTransfer (.transfer 5))).toOption.toList
  accountIdentities := [.public, .privateUnauthorized epk viewTag npk ssk 0]
  programId := transferId

def shieldFive : PrivacyPreservingCircuitInput :=
  shielding (ByteVec.fill 32 9) (ByteVec.fill 32 1) [] 0 (ByteVec.fill 32 2)

end Sample

open Sample

theorem shielding_conserves_balance :
    ∃ (output : PrivacyPreservingCircuitOutput) (posts : List (AccountId × Account)),
      circuit (host {}).toHost shieldFive = .ok output ∧
      output.newCommitments = posts.map (fun p => commitmentNew Sha256.hash p.1 p.2) ∧ posts.length = 1 ∧
      balanceSum output.publicPostStates = 4 ∧ balanceSum (posts.map (·.2)) = 5 := by
  have hrun : (circuit (host {}).toHost shieldFive).toOption.any (fun output =>
      decide (output.newCommitments.length = 1 ∧ balanceSum output.publicPostStates = 4 ∧
        ∑ id ∈ mentioned shieldFive.programOutputs,
          (firstPreState shieldFive.programOutputs id).balance.toNat = 9)) = true := by
    decide +kernel
  obtain ⟨output, hcircuit, h⟩ := (Option.any_eq_true _ _).mp hrun
  obtain ⟨hone, hpublic, hbefore⟩ := of_decide_eq_true h
  have hok := toOption_eq_some.mp hcircuit
  obtain ⟨posts, hposts, -, -, -, hsum⟩ := circuit_conserves_balance hok
  refine ⟨output, posts, hok, hposts, ?_, hpublic, ?_⟩
  · rw [hposts, List.length_map] at hone
    exact hone
  · rw [hbefore, hpublic] at hsum
    omega

end

end Lez
