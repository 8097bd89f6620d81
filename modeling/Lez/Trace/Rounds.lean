/-
Rounds. A program whose calls go to one other program, which makes none
itself, is executed in rounds: its call, then the calls it makes, with
nothing in between. `Exec.rounds` is the induction over the loop that takes a
round as one step; no other call has a call of that program above it.
-/
import Lez.Trace.Public

namespace Lez

section
variable {H : Host} {s : V03State} {blockId : BlockId} {timestamp : Timestamp}

/-- Calls that make no calls are executed one after the other. -/
theorem Exec.leaves {leaf : ProgramId} : ∀ {cs rest : List Pending} {d d' : Diff} {es : List Executed},
    Exec H s blockId timestamp (cs ++ rest) d es d' → (∀ c ∈ cs, c.call.programId = leaf) →
    (∀ e ∈ es, e.program = leaf → e.output.chainedCalls = []) →
    ∃ ts es' dm, es = ts ++ es' ∧ Effects (fun _ => True) ts (viewOf s d) (viewOf s dm) ∧
      Exec H s blockId timestamp rest dm es' d' ∧ ts.map (fun t => (t.call, t.path)) = cs.map fun c => (c.call, c.path)
  | [], rest, d, d', es, h, _, _ => ⟨[], es, d, rfl, .nil _, h, rfl⟩
  | c :: cs, rest, d, d', es, h, hleaf, hquiet => by
    rw [List.cons_append] at h
    cases h with
    | @cons _ _ out es _ d₁ _ hcall hrest =>
      have hnone : out.chainedCalls = [] := hquiet (c.executed out) List.mem_cons_self (hleaf c List.mem_cons_self)
      rw [Pending.callees, hnone, List.map_nil, List.nil_append] at hrest
      obtain ⟨ts, es', dm, rfl, heff, hafter, hcalls⟩ := hrest.leaves
        (fun c' hc' => hleaf c' (List.mem_cons_of_mem _ hc')) fun e he => hquiet e (List.mem_cons_of_mem _ he)
      refine ⟨c.executed out :: ts, es', dm, rfl, .cons (executeCall_ok hcall).effect heff, hafter, ?_⟩
      rw [List.map_cons, List.map_cons, hcalls]
      rfl

/-- A round of the program `hub`: its call, and the calls it made. -/
structure Round (hub : ProgramId) (log : List Executed) (g : Executed) (ts : List Executed) (σ σ' : View) : Prop where
  call : g ∈ log
  program : g.program = hub
  /-- No other call of the program is above it. -/
  outermost : ∀ f ∈ g.path, f.caller ≠ hub
  made : ∀ t ∈ ts, t ∈ log
  calls : ts.map (·.call) = g.output.chainedCalls
  paths : ∀ t ∈ ts, t.path = ⟨hub, t.call⟩ :: g.path
  effects : ∃ σ₁, CallEffect (fun _ => True) g σ σ₁ ∧ Effects (fun _ => True) ts σ₁ σ'

/-- **Induction by rounds.** -/
theorem Exec.rounds {hub leaf : ProgramId} {P : View → Prop} {log : List Executed}
    (hother : ∀ e σ σ', e ∈ log → e.program ≠ hub → (∀ f ∈ e.path, f.caller ≠ hub) →
      CallEffect (fun _ => True) e σ σ' → P σ → P σ')
    (hround : ∀ g ts σ σ', Round hub log g ts σ σ' → P σ → P σ')
    (hhub : ∀ e ∈ log, e.program = hub → ∀ c ∈ e.output.chainedCalls, c.programId = leaf)
    (hquiet : ∀ e ∈ log, e.program = leaf → e.output.chainedCalls = []) :
    ∀ (n : Nat) {q : List Pending} {d d' : Diff} {es : List Executed}, es.length = n →
      Exec H s blockId timestamp q d es d' → (∀ e ∈ es, e ∈ log) → (∀ p ∈ q, ∀ f ∈ p.path, f.caller ≠ hub) →
      P (viewOf s d) → P (viewOf s d') := by
  intro n
  induction n using Nat.strong_induction_on with
  | _ n ih =>
    intro q d d' es hn h hlog hq hP
    cases h with
    | nil => exact hP
    | @cons p rest out es _ d₁ _ hcall hrest =>
      have hpath := hq p List.mem_cons_self
      have hmem : p.executed out ∈ log := hlog _ List.mem_cons_self
      have hlater : ∀ e ∈ es, e ∈ log := fun e he => hlog e (List.mem_cons_of_mem _ he)
      have heff := (executeCall_ok hcall).effect
      by_cases hp : p.call.programId = hub
      · -- the calls it makes come next, and after them what was pending before
        have hleaf : ∀ c ∈ p.callees out, c.call.programId = leaf := by
          intro c hc
          obtain ⟨cc, hcc, rfl⟩ := List.mem_map.mp hc
          exact hhub _ hmem hp cc hcc
        obtain ⟨ts, es', dm, rfl, heffs, hafter, hcalls⟩ := hrest.leaves hleaf fun e he => hquiet e (hlater e he)
        have hmap : ts.map (·.call) = out.chainedCalls ∧ ∀ t ∈ ts, t.path = ⟨hub, t.call⟩ :: p.path := by
          constructor
          · have hfst := congrArg (List.map Prod.fst) hcalls
            simpa [Pending.callees, Function.comp_def] using hfst
          · intro t ht
            have hin : (t.call, t.path) ∈ (p.callees out).map fun c => (c.call, c.path) :=
              hcalls ▸ List.mem_map.mpr ⟨t, ht, rfl⟩
            simp only [Pending.callees, List.map_map, List.mem_map, Function.comp_apply, Prod.mk.injEq] at hin
            obtain ⟨c, -, rfl, hpath⟩ := hin
            rw [← hpath, hp]
        have hround' : Round hub log (p.executed out) ts (viewOf s d) (viewOf s dm) :=
          ⟨hmem, hp, hpath, fun t ht => hlater t (List.mem_append_left _ ht), hmap.1, hmap.2, _, heff, heffs⟩
        refine ih es'.length ?_ rfl hafter (fun e he => hlater e (List.mem_append_right _ he))
          (fun p' hp' => hq p' (List.mem_cons_of_mem _ hp')) (hround _ _ _ _ hround' hP)
        simp only [List.length_cons, List.length_append] at hn
        omega
      · refine ih es.length ?_ rfl hrest hlater ?_ (hother _ _ _ hmem hp hpath heff hP)
        · simp only [List.length_cons] at hn
          omega
        · intro p' hp' f hf
          rcases List.mem_append.mp hp' with hp' | hp'
          · obtain ⟨c, -, rfl⟩ := List.mem_map.mp hp'
            rcases List.mem_cons.mp hf with rfl | hf
            · exact hp
            · exact hpath f hf
          · exact hq p' (List.mem_cons_of_mem _ hp') f hf

/-- The same for a whole transaction. -/
theorem PublicAccepted.rounds {hub leaf : ProgramId} {P : View → Prop} {tx : PublicTransaction} {diff : StateDiff}
    (hacc : PublicAccepted H tx s blockId timestamp diff)
    (hother : ∀ e σ σ', e ∈ publicCalls H s blockId timestamp tx → e.program ≠ hub → (∀ f ∈ e.path, f.caller ≠ hub) →
      CallEffect (fun _ => True) e σ σ' → P σ → P σ')
    (hround : ∀ g ts σ σ', Round hub (publicCalls H s blockId timestamp tx) g ts σ σ' → P σ → P σ')
    (hhub : ∀ e ∈ publicCalls H s blockId timestamp tx, e.program = hub → ∀ c ∈ e.output.chainedCalls, c.programId = leaf)
    (hquiet : ∀ e ∈ publicCalls H s blockId timestamp tx, e.program = leaf → e.output.chainedCalls = [])
    (hP : P s.getAccountById) : P (viewOf s diff.publicDiff) := by
  refine Exec.rounds hother hround hhub hquiet _ rfl hacc.exec (fun _ he => he) ?_ hP
  intro p hp f hf
  rw [List.mem_singleton.mp hp] at hf
  cases hf

end

end Lez
