/-
What the two programs answered in the calls of an accepted transaction: the
AMM as modelled, and the token program to the calls that the AMM makes, on
the accounts that the AMM passed.
-/
import Lez.Programs.AmmFacts
import Lez.Programs.AmmHost
import Lez.Programs.TokenFacts
import Lez.Trace.Callees

namespace Lez.Amm

section
variable {H : AmmHost} {s : V03State} {blockId : BlockId} {timestamp : Timestamp} {tx : PublicTransaction}
  {diff : StateDiff} {e : Executed}

/-- The AMM answered a call of its own as modelled. -/
theorem amm_answered (hacc : PublicAccepted H.toHost tx s blockId timestamp diff)
    (he : e ∈ publicCalls H.toHost s blockId timestamp tx) (hp : e.program = H.amm.id) :
    ∃ i, H.readAmm e.call.instructionData = .some i ∧ e.output.preStates = e.call.preStates ∧
      process H.sha256 H.writeToken e.output.preStates i = .ok (e.output.postStates, e.output.chainedCalls) := by
  have hran := hacc.exec.answered_by e he
  rw [hp] at hran
  obtain ⟨i, hi, hprocess, hpre⟩ := main_ok (H.guest_amm _ _ _ _ hran)
  exact ⟨i, hi, hpre, hpre ▸ hprocess⟩

/-- The token program answered a call of the AMM's. -/
theorem token_answered_call (hacc : PublicAccepted H.toHost tx s blockId timestamp diff)
    (he : e ∈ publicCalls H.toHost s blockId timestamp tx) {pre : List AccountWithMetadata} {t : Token.Instruction}
    {seeds : List PdaSeed} (ht : t.OfAmm) (hcall : e.call = tokenCall H.writeToken H.token.id pre t seeds) :
    e.program = H.token.id ∧ e.output.preStates = pre ∧ Token.process pre t = .ok e.output.postStates := by
  have hran := hacc.exec.answered_by e he
  rw [Executed.program, hcall] at hran
  obtain ⟨t', post, hread, hprocess, hout⟩ := Token.main_ok (H.guest_token _ _ _ _ hran)
  have hsame : t' = t := Option.some.inj (hread.symm.trans (H.read_write t ht))
  rw [hout]
  exact ⟨by rw [Executed.program, hcall]; rfl, rfl, hsame ▸ hprocess⟩

/-- A call to the token program that the AMM makes is answered by it. -/
theorem token_called (hacc : PublicAccepted H.toHost tx s blockId timestamp diff)
    (he : e ∈ publicCalls H.toHost s blockId timestamp tx) {pre : List AccountWithMetadata} {t : Token.Instruction}
    {seeds : List PdaSeed} (ht : t.OfAmm) (hc : tokenCall H.writeToken H.token.id pre t seeds ∈ e.output.chainedCalls) :
    ∃ post, Token.process pre t = .ok post := by
  obtain ⟨f, hf, hcall⟩ := hacc.exec.callee_executed e he _ hc
  exact ⟨_, (token_answered_call hacc hf ht hcall).2.2⟩

end

end Lez.Amm
