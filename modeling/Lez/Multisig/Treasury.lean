/-
What can take from a treasury. A treasury belongs to the transfer program and
derives from `msig` and a seed; only a `Transfer` that has it authorized takes
from it, and that authority comes down a path from a call of `msig` that
passed the seed: an `Execute`, or an `InitTreasury`, which passes it to
whatever program it is told to.
-/
import Lez.Ledger.Taking

namespace Lez

open Msig

/-- `Execute` with the seed. -/
def Executed.ExecutesSeed (H : MsigHost) (e : Executed) (seed : PdaSeed) : Prop :=
  ∃ threshold, e.instruction H = .some (.execute threshold seed)

/-- `InitTreasury` of the seed told to call another program than the transfer program. -/
def MisdirectedInit (H : MsigHost) (g : Executed) (seed : PdaSeed) : Prop :=
  ∃ target, g.instruction H = .some (.initTreasury seed target) ∧ target ≠ H.authenticatedTransfer.id

section
variable {H : MsigHost} {s : V03State} {blockId : BlockId} {timestamp : Timestamp} {tx : PublicTransaction}
  {diff : StateDiff} {seed : PdaSeed}

/-- A seed passed by `msig` was an `Execute`'s or an `InitTreasury`'s. -/
theorem Ran.passes_seed {g : Executed} (h : Ran H g) (hp : g.program = H.msigId) {c : ChainedCall}
    (hc : c ∈ g.output.chainedCalls) (hseed : seed ∈ c.pdaSeeds) :
    g.ExecutesSeed H seed ∨ ∃ target, g.instruction H = .some (.initTreasury seed target) ∧ c.programId = target ∧
      H.codecs.transfer.decode c.instructionData = .some .initAccount := by
  obtain ⟨i, hi, hproc⟩ := h.process hp
  cases i with
  | createProposal root pid =>
    obtain ⟨-, -, -, -, -, hcalls⟩ := process_createProposal_ok hproc
    simp [hcalls] at hc
  | approve secret path pid =>
    obtain ⟨-, -, -, -, hcalls⟩ := process_approve_ok hproc
    simp [hcalls] at hc
  | enroll leaf =>
    obtain ⟨-, -, -, hcalls⟩ := process_enroll_ok hproc
    simp [hcalls] at hc
  | initTreasury sd target =>
    obtain ⟨t, -, -, hcalls⟩ := process_initTreasury_ok hproc
    rw [hcalls, List.mem_singleton] at hc
    subst hc
    rw [List.mem_singleton.mp hseed]
    exact .inr ⟨target, hi, rfl, H.codecs.transfer.decode_encode _⟩
  | execute threshold sd =>
    obtain ⟨_, _, _, -, -, -, -, hcalls⟩ := process_execute_ok hproc
    rw [hcalls, List.mem_singleton] at hc
    subst hc
    rw [List.mem_singleton.mp hseed]
    exact .inl ⟨threshold, hi⟩

/-- A call that takes from a treasury is below an `Execute` with its seed, or
below an `InitTreasury` of it that went to another program. -/
theorem taken_below_msig {e : Executed} (hacc : PublicAccepted H.toHost tx s blockId timestamp diff)
    (hfree : Set.InjOn H.sha256 (authorityPreimages tx (publicCalls H.toHost s blockId timestamp tx) H.msigId seed))
    (he : e ∈ publicCalls H.toHost s blockId timestamp tx)
    (ht : e.TransfersFrom H (forPublicPda H.sha256 H.msigId seed))
    (hauth : ∃ a ∈ e.output.preStates, a.accountId = forPublicPda H.sha256 H.msigId seed ∧ a.isAuthorized = true) :
    ∃ g ∈ publicCalls H.toHost s blockId timestamp tx, g.ExecutesSeed H seed ∨ (MisdirectedInit H g seed ∧ e.Below g) := by
  obtain ⟨g, hg, f, fs, hp, hcallee, hsuffix, hseed⟩ := hacc.seed_passed hfree he hauth
  obtain ⟨hmem, -⟩ := Executed.mem_callees.mp hcallee
  refine ⟨g, hg, ?_⟩
  rcases (hacc.exec.ran g hg).passes_seed hp hmem hseed with hexec | ⟨target, hinit, rfl, hdata⟩
  · exact .inl hexec
  · refine .inr ⟨⟨_, hinit, ?_⟩, _, hcallee, hsuffix⟩
    intro htransfer
    -- then the taking call is the initialization itself
    obtain ⟨-, -, amount, -, hi⟩ := ht
    rw [step_to_transfer_is_last hacc.parent hacc.exec.ran he hsuffix htransfer, hdata] at hi
    cases hi

/-- **When a treasury is isolated.** For a treasury that the transfer program
owns, in an accepted public transaction whose derived accounts do not collide:
it is lowered, by a call or on the whole, only where `Execute` with its seed
runs, exactly when that runs or no `Transfer` out of it is made below an
`InitTreasury` of its seed that was told to call another program than the
transfer program. -/
theorem treasury_isolated_iff {s' : V03State}
    (h : s.transitionFromPublicTransaction H.toHost tx blockId timestamp = .some s')
    (hfree : Set.InjOn H.sha256 (authorityPreimages tx (publicCalls H.toHost s blockId timestamp tx) H.msigId seed))
    (howner : (s.getAccountById (forPublicPda H.sha256 H.msigId seed)).programOwner = H.authenticatedTransfer.id) :
    ((∃ e ∈ publicCalls H.toHost s blockId timestamp tx, e.Lowers (forPublicPda H.sha256 H.msigId seed)) ∨
        (s'.getAccountById (forPublicPda H.sha256 H.msigId seed)).balance <
          (s.getAccountById (forPublicPda H.sha256 H.msigId seed)).balance →
      ∃ g ∈ publicCalls H.toHost s blockId timestamp tx, g.ExecutesSeed H seed) ↔
    (∃ g ∈ publicCalls H.toHost s blockId timestamp tx, g.ExecutesSeed H seed) ∨
      ∀ g ∈ publicCalls H.toHost s blockId timestamp tx, MisdirectedInit H g seed →
        ∀ e ∈ publicCalls H.toHost s blockId timestamp tx, e.Below g →
          ¬e.TransfersFrom H (forPublicPda H.sha256 H.msigId seed) := by
  obtain ⟨diff, hok, happly⟩ := V03State.settle_eq_some.mp h
  have hacc := fromPublicTransaction_ok hok
  constructor
  · intro hisolated
    by_cases hexec : ∃ g ∈ publicCalls H.toHost s blockId timestamp tx, g.ExecutesSeed H seed
    · exact .inl hexec
    · refine .inr ?_
      intro g _ _ e he _ ht
      exact hexec (hisolated (.inl ⟨e, he, (hacc.exec.ran e he).transfer_lowers ht⟩))
  · rintro (hexec | hquiet) hlow
    · exact hexec
    · obtain ⟨e, he, hl⟩ := hlow.elim (fun hl => hl) (transition_lowers h)
      obtain ⟨es₁, τ, τ', hbefore, heff⟩ := hacc.exec.effects.before he
      have howner' : (τ (forPublicPda H.sha256 H.msigId seed)).programOwner = H.authenticatedTransfer.id := by
        rw [hbefore.owner] <;> rw [viewOf_empty, howner]
        exact H.transfer_ne_default
      obtain ⟨ht, hauth⟩ := (hacc.exec.ran e he).lowers_transfers ((heff.lowered_by_owner trivial hl).trans howner') hl
      obtain ⟨g, hg, hexec | ⟨hinit, hbelow⟩⟩ := taken_below_msig hacc hfree he ht hauth
      · exact ⟨g, hg, hexec⟩
      · exact absurd ht (hquiet g hg hinit e he hbelow)

end

section
open Reference

namespace Sample

def thief : AccountId := ByteVec.fill 32 14

/-- A program that sends on what it is given. -/
def pilfer : Guest := caller fun
  | a :: _ => [⟨transferId, [{ a with isAuthorized := true }, ⟨funded 0, false, thief⟩],
      Serde.writeTransfer (.transfer 100), []⟩]
  | [] => []

def pilferHost : MsigHost := host { programs := fun id => if id = programId 100 then pilfer else idle }

def treasuryLedger : V03State :=
  ledger [(treasury, funded 100), (thief, funded 0)] [msigId, transferId, programId 100, programId 101]

/-- `InitTreasury` of a treasury that is there, for another program to initialize. -/
def misdirect (target : ProgramId) : PublicTransaction :=
  unsigned msigId [treasury] (Serde.writeMsig (.initTreasury seed target))

end Sample

open Lez.Sample

theorem misdirected_init_drains_vault :
    ∃ s', treasuryLedger.transitionFromPublicTransaction pilferHost.toHost (misdirect (programId 100)) 0 0 = .some s' ∧
      (treasuryLedger.getAccountById treasury).programOwner = pilferHost.authenticatedTransfer.id ∧
      (s'.getAccountById treasury).balance < (treasuryLedger.getAccountById treasury).balance ∧
      ∀ g ∈ publicCalls pilferHost.toHost treasuryLedger 0 0 (misdirect (programId 100)), ¬g.ExecutesSeed pilferHost seed := by
  have hrun : (treasuryLedger.transitionFromPublicTransaction pilferHost.toHost (misdirect (programId 100)) 0 0).any (fun s' =>
      decide ((treasuryLedger.getAccountById treasury).programOwner = transferId ∧
        (s'.getAccountById treasury).balance < (treasuryLedger.getAccountById treasury).balance ∧
        (publicCalls pilferHost.toHost treasuryLedger 0 0 (misdirect (programId 100))).map
          (fun g => g.instruction pilferHost) = [.some (.initTreasury seed (programId 100)), .none, .none])) = true := by
    decide +kernel
  obtain ⟨s', hs', hfacts⟩ := (Option.any_eq_true _ _).mp hrun
  obtain ⟨howner, hlt, hcalls⟩ := of_decide_eq_true hfacts
  refine ⟨s', hs', howner, hlt, ?_⟩
  rintro g hg ⟨threshold, hexec⟩
  have hmem := List.mem_map_of_mem (f := fun g : Executed => g.instruction pilferHost) hg
  rw [hcalls, hexec] at hmem
  simp at hmem

theorem idle_init_keeps_vault :
    ∃ s', treasuryLedger.transitionFromPublicTransaction pilferHost.toHost (misdirect (programId 101)) 0 0 = .some s' ∧
      ¬((∃ e ∈ publicCalls pilferHost.toHost treasuryLedger 0 0 (misdirect (programId 101)), e.Lowers treasury) ∨
        (s'.getAccountById treasury).balance < (treasuryLedger.getAccountById treasury).balance) := by
  have hrun : (treasuryLedger.transitionFromPublicTransaction pilferHost.toHost (misdirect (programId 101)) 0 0).any (fun _ =>
      decide ((treasuryLedger.getAccountById treasury).programOwner = transferId ∧
        ∀ e ∈ publicCalls pilferHost.toHost treasuryLedger 0 0 (misdirect (programId 101)),
          e.program ≠ transferId ∧
          (e.instruction pilferHost = .none ∨ e.instruction pilferHost = .some (.initTreasury seed (programId 101))) ∧
          ∀ f ∈ e.path, ∀ sd ∈ f.call.pdaSeeds, f.caller = msigId ∧ sd = seed)) = true := by
    decide +kernel
  obtain ⟨s', hs', hfacts⟩ := (Option.any_eq_true _ _).mp hrun
  obtain ⟨howner, hcalls⟩ := of_decide_eq_true hfacts
  -- every string hashed is the treasury's own
  have hfree : Set.InjOn pilferHost.sha256 (authorityPreimages (misdirect (programId 101))
      (publicCalls pilferHost.toHost treasuryLedger 0 0 (misdirect (programId 101))) pilferHost.msigId seed) := by
    have hone : ∀ q ∈ authorityPreimages (misdirect (programId 101))
        (publicCalls pilferHost.toHost treasuryLedger 0 0 (misdirect (programId 101))) pilferHost.msigId seed,
        q = publicPdaPreimage msigId seed := by
      rintro q (rfl | ⟨sk, hsk, -⟩ | ⟨e, he, f, hf, sd, hsd, rfl⟩)
      · rfl
      · cases hsk
      · obtain ⟨hcaller, hsd⟩ := (hcalls e he).2.2 f hf sd hsd
        rw [hcaller, hsd]
    intro q hq r hr _
    rw [hone q hq, hone r hr]
  refine ⟨s', hs', ?_⟩
  intro hlow
  obtain ⟨g, hg, threshold, hexec⟩ := (treasury_isolated_iff hs' hfree howner).mpr
    (.inr fun g _ _ e he _ ht => (hcalls e he).1 ht.1) hlow
  rcases (hcalls g hg).2.1 with hi | hi <;> rw [hi] at hexec <;> cases hexec

end

end Lez
