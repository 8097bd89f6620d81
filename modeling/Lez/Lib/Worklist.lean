/-
Work-list loops: while the stack is not empty, pop the top and push what the
step asks for. The loop runs on fuel; one rule gives its termination and what
holds at its end. Walks along a list that may be left early have their rule
too. `Rounds` is the loop as a relation, for loops that stop at a limit: such
a loop gives up exactly when that many rounds can be made and leave something.
-/
import Mathlib.Algebra.BigOperators.Group.List.Basic
import Mathlib.Algebra.GroupWithZero.Nat
import Mathlib.Data.List.Forall2
import Mathlib.Order.Basic

namespace Lez.Worklist

variable {α σ : Type}

/-- The head of the list is the top of the stack. The step returns what it pushes, the last push first; `none` is
a step that does not return, or no fuel. -/
def drain (step : σ → α → Option (σ × List α)) : Nat → List α → σ → Option σ
  | _, [], s => .some s
  | 0, _ :: _, _ => .none
  | fuel + 1, x :: rest, s => (step s x).bind fun (s', pushed) => drain step fuel (pushed ++ rest) s'

def work (weight : α → Nat) (stack : List α) : Nat := (stack.map weight).sum

/-- **Every step pays for what it pushes with less than it popped, so the loop ends**, and what the steps keep
holds of the empty stack. -/
theorem drain_total {step : σ → α → Option (σ × List α)} (weight : α → Nat) (Inv : List α → σ → Prop)
    (hstep : ∀ {x rest s}, Inv (x :: rest) s →
      ∃ s' pushed, step s x = .some (s', pushed) ∧ Inv (pushed ++ rest) s' ∧ work weight pushed < weight x) :
    ∀ {fuel : Nat} {stack : List α} {s : σ}, Inv stack s → work weight stack ≤ fuel →
      ∃ s', drain step fuel stack s = .some s' ∧ Inv [] s' := by
  intro fuel
  induction fuel with
  | zero =>
    intro stack s hinv hwork
    cases stack with
    | nil => exact ⟨s, rfl, hinv⟩
    | cons x rest =>
      obtain ⟨_, _, _, _, hless⟩ := hstep hinv
      simp only [work, List.map_cons, List.sum_cons] at hwork
      omega
  | succ fuel ih =>
    intro stack s hinv hwork
    cases stack with
    | nil => exact ⟨s, rfl, hinv⟩
    | cons x rest =>
      obtain ⟨s', pushed, hrun, hinv', hless⟩ := hstep hinv
      have hwork' : work weight (pushed ++ rest) ≤ fuel := by
        simp only [work, List.map_cons, List.sum_cons, List.map_append, List.sum_append] at hwork hless ⊢
        omega
      obtain ⟨t, hdrain, ht⟩ := ih hinv' hwork'
      refine ⟨t, ?_, ht⟩
      rw [drain, hrun]
      exact hdrain

/-! ## Walks -/

/-- What one visit of a walk does: go on, leave the loop, or fail. -/
inductive Visit (σ : Type) where
  | next (s : σ)
  | leave
  | fail

/-- The state at the end, and whether no visit failed. -/
def walk (visit : σ → α → Visit σ) : List α → σ → σ × Bool
  | [], s => (s, true)
  | x :: rest, s =>
    match visit s x with
    | .next s' => walk visit rest s'
    | .leave => (s, true)
    | .fail => (s, false)

/-- What every visit keeps holds where the walk ends, for what it has not visited. -/
theorem walk_invariant {visit : σ → α → Visit σ} (Inv : List α → σ → Prop)
    (hvisit : ∀ {x rest s s'}, Inv (x :: rest) s → visit s x = .next s' → Inv rest s') :
    ∀ {xs : List α} {s : σ}, Inv xs s → ∃ visited rest, xs = visited ++ rest ∧ Inv rest (walk visit xs s).1 := by
  intro xs
  induction xs with
  | nil => exact fun h => ⟨[], [], rfl, h⟩
  | cons x xs ih =>
    intro s h
    rw [walk]
    cases hstep : visit s x with
    | next s' =>
      obtain ⟨visited, rest, rfl, hrest⟩ := ih (hvisit h hstep)
      exact ⟨x :: visited, rest, rfl, hrest⟩
    | leave => exact ⟨[], x :: xs, rfl, h⟩
    | fail => exact ⟨[], x :: xs, rfl, h⟩

/-! ## Rounds -/

section Rounds
variable {ω β : Type}

/-- Rounds of a work list: each answers the entry in front, and what the answer asks for goes in front of the
rest. The log has the entries with their answers. -/
inductive Rounds (step : σ → α → ω → σ → Prop) (asks : α → ω → List α) :
    List α → σ → List (α × ω) → List α → σ → Prop
  | stop (q : List α) (s : σ) : Rounds step asks q s [] q s
  | next {x : α} {o : ω} {rest left : List α} {log : List (α × ω)} {s s' t : σ} : step s x o s' →
      Rounds step asks (asks x o ++ rest) s' log left t → Rounds step asks (x :: rest) s ((x, o) :: log) left t

/-- Depth first: an entry, then all that is below it, then the entries after it. -/
inductive Preorder (asks : α → ω → List α) : List α → List (α × ω) → Prop
  | nil : Preorder asks [] []
  | cons {x : α} {o : ω} {rest : List α} {below after : List (α × ω)} : Preorder asks (asks x o) below →
      Preorder asks rest after → Preorder asks (x :: rest) ((x, o) :: (below ++ after))

theorem Preorder.split {asks : α → ω → List α} : ∀ {xs ys : List α} {log : List (α × ω)},
    Preorder asks (xs ++ ys) log → ∃ before after, log = before ++ after ∧ Preorder asks xs before ∧
      Preorder asks ys after
  | [], _, log, h => ⟨[], log, rfl, .nil, h⟩
  | x :: xs, ys, _, h => by
    cases h with
    | @cons _ o _ below log hbelow hrest =>
      obtain ⟨before, after, rfl, hxs, hys⟩ := Preorder.split hrest
      exact ⟨(x, o) :: (below ++ before), after, by simp, .cons hbelow hxs, hys⟩

variable {step : σ → α → ω → σ → Prop} {asks : α → ω → List α} {q left : List α} {log : List (α × ω)} {s t : σ}

/-- **A work list that is used up was walked depth first.** -/
theorem Rounds.preorder (h : Rounds step asks q s log [] t) : Preorder asks q log := by
  generalize hleft : ([] : List α) = left at h
  induction h with
  | stop => exact hleft ▸ .nil
  | next _ _ ih =>
    obtain ⟨below, after, rfl, hbelow, hafter⟩ := (ih hleft).split
    exact .cons hbelow hafter

/-- Two walks with the same answers take the same entries, where an answer asks both for the same. -/
theorem Rounds.same {α' σ' : Type} {step' : σ' → α' → ω → σ' → Prop} {asks' : α' → ω → List α'}
    (R : α → α' → Prop) (hasks : ∀ {x y} o, R x y → List.Forall₂ R (asks x o) (asks' y o))
    {q' left' : List α'} {log' : List (α' × ω)} {s' t' : σ'} (h : Rounds step asks q s log left t)
    (h' : Rounds step' asks' q' s' log' left' t') (hq : List.Forall₂ R q q')
    (hlog : log.map Prod.snd = log'.map Prod.snd) :
    List.Forall₂ (fun e e' => R e.1 e'.1 ∧ e.2 = e'.2) log log' ∧ List.Forall₂ R left left' := by
  induction h generalizing q' s' log' with
  | stop =>
    cases h' with
    | stop => exact ⟨.nil, hq⟩
    | next => simp at hlog
  | @next x o rest left log s s₁ t hstep hrest ih =>
    cases h' with
    | stop => simp at hlog
    | next hstep' hrest' =>
      simp only [List.map_cons, List.cons.injEq] at hlog
      obtain ⟨rfl, hlog⟩ := hlog
      cases hq with
      | cons hxy hq =>
        obtain ⟨hsame, hleft⟩ := ih hrest' (List.rel_append (hasks _ hxy) hq) hlog
        exact ⟨.cons ⟨hxy, rfl⟩ hsame, hleft⟩

/-- Two lists in step are empty together. -/
theorem ne_nil_iff_of_forall₂ {α β : Type} {R : α → β → Prop} {l : List α} {l' : List β}
    (h : List.Forall₂ R l l') : l ≠ [] ↔ l' ≠ [] := by
  cases h <;> simp

/-- Where a round has one outcome, walks of one length are one walk. -/
theorem Rounds.unique {left' : List α} {log' : List (α × ω)} {t' : σ} (h : Rounds step asks q s log left t)
    (h' : Rounds step asks q s log' left' t') (hlength : log.length = log'.length)
    (hstep : ∀ {s x o s₁ o' s₂}, step s x o s₁ → step s x o' s₂ → o = o' ∧ s₁ = s₂) : log = log' ∧ left = left' := by
  induction h generalizing log' with
  | stop =>
    cases h' with
    | stop => exact ⟨rfl, rfl⟩
    | next => simp at hlength
  | next hround _ ih =>
    cases h' with
    | stop => simp at hlength
    | next hround' hrest' =>
      obtain ⟨rfl, rfl⟩ := hstep hround hround'
      obtain ⟨rfl, rfl⟩ := ih hrest' (by simpa using hlength)
      exact ⟨rfl, rfl⟩

variable (step asks) in
/-- `n` rounds can be made. -/
def Makes (n : Nat) (q : List α) (s : σ) : Prop := ∃ log left t, Rounds step asks q s log left t ∧ log.length = n

variable (step asks) in
/-- `n` rounds can be made and leave an entry. -/
def MoreThan (n : Nat) (q : List α) (s : σ) : Prop :=
  ∃ log left t, Rounds step asks q s log left t ∧ log.length = n ∧ left ≠ []

theorem moreThan_zero {x : α} {rest : List α} : MoreThan step asks 0 (x :: rest) s :=
  ⟨[], x :: rest, s, .stop _ _, rfl, List.cons_ne_nil _ _⟩

theorem not_moreThan_nil {n : Nat} : ¬MoreThan step asks n [] s := by
  rintro ⟨log, left, t, h, -, hleft⟩
  cases h
  exact hleft rfl

theorem moreThan_succ {n : Nat} {x : α} {rest : List α} :
    MoreThan step asks (n + 1) (x :: rest) s ↔ ∃ o s', step s x o s' ∧ MoreThan step asks n (asks x o ++ rest) s' := by
  constructor
  · rintro ⟨log, left, t, h, hlength, hleft⟩
    cases h with
    | stop => simp at hlength
    | next hround hrest => exact ⟨_, _, hround, _, left, t, hrest, by simpa using hlength, hleft⟩
  · rintro ⟨o, s', hround, log, left, t, hrest, hlength, hleft⟩
    exact ⟨(x, o) :: log, left, t, .next hround hrest, by simp [hlength], hleft⟩

/-- Before the last round its entry was left. -/
theorem Rounds.moreThan (h : Rounds step asks q s log left t) : ∀ {n : Nat}, n < log.length → MoreThan step asks n q s := by
  induction h with
  | stop => simp
  | next hround _ ih =>
    intro n hn
    cases n with
    | zero => exact moreThan_zero
    | succ n => exact moreThan_succ.mpr ⟨_, _, hround, ih (by simpa using hn)⟩

/-- What is left after `n` rounds tells whether more can be asked for. -/
theorem moreThan_iff_makes {n : Nat} {P : Prop}
    (h : ∀ {log left t}, Rounds step asks q s log left t → log.length = n → (left ≠ [] ↔ P)) :
    MoreThan step asks n q s ↔ Makes step asks n q s ∧ P := by
  constructor
  · rintro ⟨log, left, t, hrounds, hlength, hleft⟩
    exact ⟨⟨log, left, t, hrounds, hlength⟩, (h hrounds hlength).mp hleft⟩
  · rintro ⟨⟨log, left, t, hrounds, hlength⟩, hP⟩
    exact ⟨log, left, t, hrounds, hlength, (h hrounds hlength).mpr hP⟩

/-- A loop that makes these rounds and gives up at an entry for which there is none left; an entry that has no round
ends it in another way. -/
structure Bounded (step : σ → α → ω → σ → Prop) (asks : α → ω → List α) (loop : Nat → List α → σ → β) (limit : β) :
    Prop where
  nil : ∀ n s, loop n [] s ≠ limit
  spent : ∀ x rest s, loop 0 (x :: rest) s = limit
  next : ∀ {x o s s'}, step s x o s' → ∀ n rest, loop (n + 1) (x :: rest) s = loop n (asks x o ++ rest) s'
  stuck : ∀ {x s}, (¬∃ o s', step s x o s') → ∀ n rest, loop (n + 1) (x :: rest) s ≠ limit

/-- **A loop gives up exactly when all its rounds are made and leave an entry.** -/
theorem Bounded.limit_iff {loop : Nat → List α → σ → β} {limit : β} (hloop : Bounded step asks loop limit) {n : Nat}
    {q : List α} {s : σ} : loop n q s = limit ↔ MoreThan step asks n q s := by
  induction n generalizing q s with
  | zero =>
    cases q with
    | nil => exact iff_of_false (hloop.nil 0 s) not_moreThan_nil
    | cons x rest => exact iff_of_true (hloop.spent x rest s) moreThan_zero
  | succ n ih =>
    cases q with
    | nil => exact iff_of_false (hloop.nil _ s) not_moreThan_nil
    | cons x rest =>
      rw [moreThan_succ]
      constructor
      · intro hlimit
        by_contra hnone
        refine hloop.stuck ?_ n rest hlimit
        rintro ⟨o, s', hround⟩
        rw [hloop.next hround, ih] at hlimit
        exact hnone ⟨o, s', hround, hlimit⟩
      · rintro ⟨o, s', hround, hmore⟩
        rw [hloop.next hround]
        exact ih.mpr hmore

end Rounds

end Lez.Worklist
