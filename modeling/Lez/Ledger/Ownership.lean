/-
Who may write a public account. An account with an owner keeps it, and only a
call of the owner takes from it or changes its data; an account without one
is only ever left as it was or claimed, because the last check of a public
transaction (`checkClaimed`) refuses everything between. Over a run the
accounts without an owner therefore hold what they held at genesis.
-/
import Lez.Programs.MsigHost
import Lez.Trace.Public
import Lez.Trace.Run

namespace Lez

/-- Some public transaction was accepted. -/
def PublicStep (H : Host) (s s' : V03State) : Prop :=
  ∃ tx blockId timestamp, s.transitionFromPublicTransaction H tx blockId timestamp = .some s'

/-- Accepted public transactions lead from one state to the other. -/
abbrev PublicReachable (H : Host) : V03State → V03State → Prop := Relation.ReflTransGen (PublicStep H)

/-- Unless its owner was called with it, a sequence of calls leaves the data
of an owned account and takes nothing from it. -/
theorem Effects.foreign {isPublic : AccountId → Prop} {es : List Executed} {σ σ' : View} {id : AccountId}
    (h : Effects isPublic es σ σ') (howned : (σ id).programOwner ≠ defaultProgramId)
    (hnone : ∀ e ∈ es, e.program = (σ id).programOwner → id ∉ e.accountIds) :
    (σ' id).data = (σ id).data ∧ (σ id).balance ≤ (σ' id).balance := by
  induction h with
  | nil => exact ⟨rfl, BitVec.le_refl _⟩
  | @cons e es σ τ σ' heff _ ih =>
    have howner := heff.owner howned
    obtain ⟨hdata, hbal⟩ := ih (howner ▸ howned) (by
      rw [howner]
      exact fun e' he' => hnone e' (List.mem_cons_of_mem _ he'))
    have hstep : (τ id).data = (σ id).data ∧ (σ id).balance ≤ (τ id).balance := by
      by_cases hself : (σ id).programOwner = e.program
      · rw [heff.frame id fun hm => hnone e List.mem_cons_self hself.symm hm.1]
        exact ⟨rfl, BitVec.le_refl _⟩
      · exact heff.foreign howned hself
    exact ⟨hdata.trans hstep.1, BitVec.le_trans hstep.2 hbal⟩

section
variable {H : Host} {s s' : V03State} {tx : PublicTransaction} {blockId : BlockId} {timestamp : Timestamp}

/-- The check after the loop: an account the diff leaves without an owner
either had one before or is what it was. -/
theorem fromPublicTransaction_unclaimed {diff : StateDiff} (h : fromPublicTransaction H tx s blockId timestamp = .ok diff)
    {id : AccountId} (hbefore : (s.getAccountById id).programOwner = defaultProgramId)
    (hafter : (viewOf s diff.publicDiff id).programOwner = defaultProgramId) :
    viewOf s diff.publicDiff id = s.getAccountById id := by
  simp only [fromPublicTransaction, bind_ok_iff, ensure_ok_iff, pure_ok_iff] at h
  obtain ⟨-, -, -, -, -, -, -, -, d, -, _, hclaimed, rfl⟩ := h
  unfold viewOf Table.getD at hafter ⊢
  cases hl : d.lookup id with
  | none => rfl
  | some a =>
    have hcheck := forM_ok_iff.mp hclaimed (id, a) (Table.mem_toPairs.mpr hl)
    rw [checkClaimed, ensure_ok_iff] at hcheck
    simp only [hl, Option.getD_some] at hafter ⊢
    rcases hcheck with hne | heq | hne
    · exact absurd hbefore hne
    · exact heq.symm
    · exact absurd hafter hne

/-- An account with an owner keeps it, and only the owner's calls with it
take from it or change its data. -/
theorem transition_owned (h : s.transitionFromPublicTransaction H tx blockId timestamp = .some s') {id : AccountId}
    (howned : (s.getAccountById id).programOwner ≠ defaultProgramId) :
    (s'.getAccountById id).programOwner = (s.getAccountById id).programOwner ∧
      ((s'.getAccountById id).data ≠ (s.getAccountById id).data ∨
          (s'.getAccountById id).balance < (s.getAccountById id).balance →
        ∃ e ∈ publicCalls H s blockId timestamp tx,
          e.program = (s.getAccountById id).programOwner ∧ id ∈ e.accountIds) := by
  obtain ⟨diff, hok, happly⟩ := V03State.settle_eq_some.mp h
  have heff := (fromPublicTransaction_ok hok).exec.effects
  obtain ⟨n, hn, -⟩ := applyStateDiff_account happly id
  rw [hn]
  refine ⟨heff.owner howned, ?_⟩
  intro hchange
  by_contra hnone
  obtain ⟨hdata, hbal⟩ := heff.foreign howned fun e he hself hid => hnone ⟨e, he, hself, hid⟩
  rcases hchange with hd | hb
  · exact hd hdata
  · exact BitVec.not_lt.mpr hbal hb

/-- An account without an owner had none before, and what it holds. -/
theorem transition_unowned (h : s.transitionFromPublicTransaction H tx blockId timestamp = .some s') {id : AccountId}
    (hafter : (s'.getAccountById id).programOwner = defaultProgramId) :
    (s.getAccountById id).programOwner = defaultProgramId ∧
      (s'.getAccountById id).balance = (s.getAccountById id).balance ∧
      (s'.getAccountById id).data = (s.getAccountById id).data := by
  have hbefore : (s.getAccountById id).programOwner = defaultProgramId := by
    by_contra howned
    exact howned ((transition_owned h howned).1 ▸ hafter)
  obtain ⟨diff, hok, happly⟩ := V03State.settle_eq_some.mp h
  obtain ⟨n, hn, -⟩ := applyStateDiff_account happly id
  rw [hn] at hafter ⊢
  have hsame := fromPublicTransaction_unclaimed hok hbefore hafter
  exact ⟨hbefore, by rw [hsame], by rw [hsame]⟩

end

/-- What accounts without an owner hold they held in the state a run started from. -/
theorem PublicReachable.unowned {H : Host} {s₀ s : V03State} (h : PublicReachable H s₀ s) {id : AccountId}
    (hunowned : (s.getAccountById id).programOwner = defaultProgramId) :
    (s₀.getAccountById id).programOwner = defaultProgramId ∧
      (s.getAccountById id).balance = (s₀.getAccountById id).balance ∧
      (s.getAccountById id).data = (s₀.getAccountById id).data := by
  induction h with
  | refl => exact ⟨hunowned, rfl, rfl⟩
  | tail _ hstep ih =>
    obtain ⟨tx, blockId, timestamp, hstep⟩ := hstep
    obtain ⟨howner, hbal, hdata⟩ := transition_unowned hstep hunowned
    obtain ⟨howner₀, hbal₀, hdata₀⟩ := ih howner
    exact ⟨howner₀, hbal.trans hbal₀, hdata.trans hdata₀⟩

/-- **Ownership isolation.** An accepted public transaction leaves an owned
account to its owner, and takes from it or changes its data only by a call of
the owner with it. In every state that public transactions reach from
genesis, an account without an owner is empty, or genesis has it without an
owner and with that balance and data. -/
theorem ownership_isolated (H : Host) :
    (∀ (s s' : V03State) (tx : PublicTransaction) (blockId : BlockId) (timestamp : Timestamp) (id : AccountId),
      s.transitionFromPublicTransaction H tx blockId timestamp = .some s' →
      (s.getAccountById id).programOwner ≠ defaultProgramId →
      (s'.getAccountById id).programOwner = (s.getAccountById id).programOwner ∧
        ((s'.getAccountById id).data ≠ (s.getAccountById id).data ∨
            (s'.getAccountById id).balance < (s.getAccountById id).balance →
          ∃ e ∈ publicCalls H s blockId timestamp tx,
            e.program = (s.getAccountById id).programOwner ∧ id ∈ e.accountIds)) ∧
    ∀ (initialData : List (AccountId × U128)) (initialPrivate : List (Commitment × Nullifier)) (genesis : Timestamp)
      (s₀ s : V03State) (id : AccountId),
      newWithGenesisAccounts H initialData initialPrivate genesis = .some s₀ → PublicReachable H s₀ s →
      (s.getAccountById id).programOwner = defaultProgramId →
      ((s.getAccountById id).balance = 0 ∧ (s.getAccountById id).data = Data.empty) ∨
        ∃ a, s₀.publicState.lookup id = .some a ∧ a.programOwner = defaultProgramId ∧
          (s.getAccountById id).balance = a.balance ∧ (s.getAccountById id).data = a.data := by
  refine ⟨?_, ?_⟩
  · intro s s' tx blockId timestamp id h howned
    exact transition_owned h howned
  · intro initialData initialPrivate genesis s₀ s id _ hreach hunowned
    obtain ⟨howner, hbal, hdata⟩ := hreach.unowned hunowned
    unfold V03State.getAccountById Table.getD at howner hbal hdata ⊢
    cases hl : s₀.publicState.lookup id with
    | none =>
      rw [hl] at hbal hdata
      exact .inl ⟨hbal, hdata⟩
    | some a =>
      rw [hl] at howner hbal hdata
      exact .inr ⟨a, rfl, howner, hbal, hdata⟩

section
open Reference

namespace Sample

def onlookerKey : PublicKey := ByteVec.fill 32 4

/-- An account nobody has claimed. -/
def onlooker : AccountId := accountIdFromPublicKey Sha256.hash onlookerKey

def shop : AccountId := ByteVec.fill 32 9

/-- A transfer of nothing, signed with the key of an account that has nothing. -/
def emptyTransfer : PublicTransaction :=
  signed onlookerKey 0 transferId [onlooker, shop] (Serde.writeTransfer (.transfer 0))

def payerKey : PublicKey := ByteVec.fill 32 3

def payer : AccountId := accountIdFromPublicKey Sha256.hash payerKey

def purchase : PublicTransaction := signed payerKey 0 transferId [payer, shop] (Serde.writeTransfer (.transfer 4))

def marketHost : MsigHost := host { signatures := signaturesOf [emptyTransfer, purchase] }

end Sample

open Sample

theorem market_ownership_isolated :
    ∃ s₀ s₁ s₂, newWithGenesisAccounts marketHost.toHost [(shop, 0), (payer, 9)] [] 0 = .some s₀ ∧
      s₀.transitionFromPublicTransaction marketHost.toHost emptyTransfer 0 0 = .some s₁ ∧
      s₁.transitionFromPublicTransaction marketHost.toHost purchase 0 0 = .some s₂ ∧
      (∃ e ∈ publicCalls marketHost.toHost s₁ 0 0 purchase, e.program = transferId ∧ payer ∈ e.accountIds) ∧
      (s₂.getAccountById onlooker).balance = 0 ∧ (s₂.getAccountById onlooker).data = Data.empty := by
  have hrun : (newWithGenesisAccounts marketHost.toHost [(shop, 0), (payer, 9)] [] 0).any (fun s₀ =>
      (s₀.transitionFromPublicTransaction marketHost.toHost emptyTransfer 0 0).any fun s₁ =>
        (s₁.transitionFromPublicTransaction marketHost.toHost purchase 0 0).any fun s₂ =>
          decide ((s₁.getAccountById payer).programOwner = transferId ∧
            (s₂.getAccountById payer).balance < (s₁.getAccountById payer).balance ∧
            (s₂.getAccountById onlooker).programOwner = defaultProgramId ∧
            s₀.publicState.lookup onlooker = .none)) = true := by
    rw [marketHost, host_packed, signaturesOf_packed]
    decide +kernel
  obtain ⟨s₀, hs₀, h⟩ := (Option.any_eq_true _ _).mp hrun
  obtain ⟨s₁, hs₁, h⟩ := (Option.any_eq_true _ _).mp h
  obtain ⟨s₂, hs₂, h⟩ := (Option.any_eq_true _ _).mp h
  obtain ⟨howner, hless, hunowned, hnew⟩ := of_decide_eq_true h
  have hfirst := (ownership_isolated marketHost.toHost).1 s₁ s₂ purchase 0 0 payer hs₂ (by rw [howner]; decide)
  obtain ⟨e, he, hself, hid⟩ := hfirst.2 (.inr hless)
  have hreach : PublicReachable marketHost.toHost s₀ s₂ :=
    (Relation.ReflTransGen.single ⟨_, _, _, hs₁⟩).tail ⟨_, _, _, hs₂⟩
  have hempty := (ownership_isolated marketHost.toHost).2 _ _ _ s₀ s₂ onlooker hs₀ hreach hunowned
  rcases hempty with ⟨hbal, hdata⟩ | ⟨a, ha, -⟩
  · exact ⟨s₀, s₁, s₂, hs₀, hs₁, hs₂, ⟨e, he, hself.trans howner, hid⟩, hbal, hdata⟩
  · rw [hnew] at ha
    cases ha

end

end Lez
