/-
Every call an executed call makes is executed: the work list of an accepted
transaction runs empty. With it, what each executed call's program answered.
-/
import Lez.Trace.Public

namespace Lez

section
variable {H : Host} {s : V03State} {blockId : BlockId} {timestamp : Timestamp}

/-- A pending call is executed. -/
theorem Exec.executes {q : List Pending} {d d' : Diff} {es : List Executed}
    (h : Exec H s blockId timestamp q d es d') : ∀ p ∈ q, ∃ out, p.executed out ∈ es := by
  induction h with
  | nil => simp
  | @cons p rest out es d d' d'' _ _ ih =>
    intro p' hp'
    rcases List.mem_cons.mp hp' with rfl | hp'
    · exact ⟨out, List.mem_cons_self⟩
    · obtain ⟨out', hout'⟩ := ih p' (List.mem_append_right _ hp')
      exact ⟨out', List.mem_cons_of_mem _ hout'⟩

theorem Exec.callee_executed {q : List Pending} {d d' : Diff} {es : List Executed}
    (h : Exec H s blockId timestamp q d es d') :
    ∀ e ∈ es, ∀ c ∈ e.output.chainedCalls, ∃ f ∈ es, f.call = c := by
  induction h with
  | nil => simp
  | @cons p rest out es d d' d'' _ hrest ih =>
    intro e he c hc
    rcases List.mem_cons.mp he with rfl | he
    · have hmem : (⟨c, p.caller.forCallees p.call.programId out, ⟨p.call.programId, c⟩ :: p.path⟩ : Pending) ∈
          p.callees out ++ rest := List.mem_append_left _ (List.mem_map.mpr ⟨c, hc, rfl⟩)
      obtain ⟨out', hout'⟩ := hrest.executes _ hmem
      exact ⟨_, List.mem_cons_of_mem _ hout', rfl⟩
    · obtain ⟨f, hf, hfc⟩ := ih e he c hc
      exact ⟨f, List.mem_cons_of_mem _ hf, hfc⟩

/-- An executed call's output is what its program answered. -/
theorem Exec.answered_by {q : List Pending} {d d' : Diff} {es : List Executed}
    (h : Exec H s blockId timestamp q d es d') : ∀ e ∈ es,
      H.guest e.program e.program e.output.callerProgramId e.call.preStates e.call.instructionData = .ok e.output := by
  intro e he
  obtain ⟨p, d, out, d', -, hcall, rfl⟩ := h.pending (fun _ => True) (fun _ _ _ _ _ _ _ _ => trivial)
    (fun _ _ => trivial) e he
  have hchecks := executeCall_ok hcall
  rw [show (p.executed out).output.callerProgramId = p.caller.programId from hchecks.caller]
  exact hchecks.ran

/-- A call of a program that calls nothing is the only one. -/
theorem Exec.alone {p : Pending} {d d' : Diff} {es : List Executed} (h : Exec H s blockId timestamp [p] d es d')
    (hnone : ∀ caller out, H.guest p.call.programId p.call.programId caller p.call.preStates p.call.instructionData =
      .ok out → out.chainedCalls = []) :
    ∃ out, es = [p.executed out] ∧ executeCall H s blockId timestamp d p.call p.caller = .ok (out, d') := by
  cases h with
  | @cons _ _ out _ _ _ _ hcall hrest =>
    have hcallees : p.callees out ++ [] = [] := by
      simp [Pending.callees, hnone _ _ (executeCall_ok hcall).ran]
    rw [hcallees] at hrest
    cases hrest
    exact ⟨out, rfl, hcall⟩

/-- An account claimed by a seed derives from it and the program. -/
theorem Exec.claim_derived {q : List Pending} {d d' : Diff} {es : List Executed}
    (h : Exec H s blockId timestamp q d es d') : ∀ e ∈ es, ∀ pp ∈ e.changes, ∀ seed,
      pp.2.claim = .some (.pda seed) → pp.1.accountId = forPublicPda H.sha256 e.program seed := by
  intro e he pp hpp seed hclaim
  obtain ⟨p, d, out, d', -, hcall, rfl⟩ := h.pending (fun _ => True) (fun _ _ _ _ _ _ _ _ => trivial)
    (fun _ _ => trivial) e he
  exact ((executeCall_ok hcall).claims pp hpp).2.2 seed hclaim

end

end Lez
