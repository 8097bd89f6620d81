/-
Histories in which tokens replace one another. Each event gives its owner a
token, either a first one or one that replaces a token named. A history is
linear when the tokens of every owner form one line: the first is given, each
later one replaces the one just before it. So an owner has one token that
nothing has replaced, the last (`Linear.unreplaced_eq`).
-/
import Mathlib.Data.List.Chain

namespace Lez.Succession

/-- `owner` gets `token`, in place of `replaces` if there is one. -/
structure Event (ι κ : Type) where
  owner : ι
  token : κ
  replaces : Option κ

variable {ι κ : Type} [DecidableEq ι]

/-- The events of one owner, in order. -/
def line (events : List (Event ι κ)) (i : ι) : List (Event ι κ) := events.filter fun e => e.owner = i

/-- Along every line each event replaces the token before it. -/
def Linear (events : List (Event ι κ)) : Prop :=
  ∀ i, (line events i).IsChain fun a b => b.replaces = .some a.token

variable {events : List (Event ι κ)} {e a b : Event ι κ} {i : ι}

theorem mem_line : a ∈ line events i ↔ a ∈ events ∧ a.owner = i := by
  simp [line]

theorem line_snoc : line (events ++ [e]) i = line events i ++ if e.owner = i then [e] else [] := by
  by_cases h : e.owner = i <;> simp [line, h]

theorem linear_nil : Linear ([] : List (Event ι κ)) := fun _ => List.IsChain.nil

/-- What follows the last event of a line is the new one. -/
theorem linear_snoc (h : Linear events) (hlast : ∀ a ∈ (line events e.owner).getLast?, e.replaces = .some a.token) :
    Linear (events ++ [e]) := by
  intro i
  rw [line_snoc]
  by_cases hi : e.owner = i
  · subst hi
    rw [if_pos rfl]
    refine (h e.owner).append (List.IsChain.singleton e) ?_
    intro a ha b hb
    cases hb
    exact hlast a ha
  · rw [if_neg hi, List.append_nil]
    exact h i

/-- A first token for a new owner. -/
theorem Linear.first (h : Linear events) (hnew : ∀ a ∈ events, a.owner ≠ e.owner) : Linear (events ++ [e]) := by
  have hempty : line events e.owner = [] := by
    rw [line, List.filter_eq_nil_iff]
    simpa using hnew
  exact linear_snoc h (by simp [hempty])

/-- An event whose token nothing of its line replaces is the last of it. -/
theorem Linear.last_of_unreplaced (h : Linear events) (ha : a ∈ events)
    (hkept : ∀ b ∈ events, b.owner = a.owner → b.replaces ≠ .some a.token) :
    (line events a.owner).getLast? = .some a := by
  obtain ⟨before, after, hline⟩ := List.append_of_mem (mem_line.mpr ⟨ha, rfl⟩ : a ∈ line events a.owner)
  cases after with
  | nil => simp [hline]
  | cons b after =>
    have hchain := h a.owner
    rw [hline] at hchain
    have hb : b ∈ line events a.owner := by simp [hline]
    obtain ⟨hbmem, hbowner⟩ := mem_line.mp hb
    exact absurd (List.isChain_append_cons_cons.mp hchain).2.1 (hkept b hbmem hbowner)

/-- A token in place of one that stands. -/
theorem Linear.replace (h : Linear events) (ha : a ∈ events) (howner : a.owner = e.owner)
    (hreplaces : e.replaces = .some a.token)
    (hkept : ∀ b ∈ events, b.owner = e.owner → b.replaces ≠ .some a.token) : Linear (events ++ [e]) := by
  refine linear_snoc h ?_
  rw [← howner, h.last_of_unreplaced ha (by rwa [howner])]
  rintro b ⟨⟩
  exact hreplaces

/-- **One standing token.** Two tokens of one owner that nothing replaced are the same. -/
theorem Linear.unreplaced_eq (h : Linear events) (ha : a ∈ events) (hb : b ∈ events) (howner : a.owner = b.owner)
    (ha' : ∀ c ∈ events, c.owner = a.owner → c.replaces ≠ .some a.token)
    (hb' : ∀ c ∈ events, c.owner = b.owner → c.replaces ≠ .some b.token) : a.token = b.token := by
  have hlast := h.last_of_unreplaced ha ha'
  rw [howner, h.last_of_unreplaced hb hb'] at hlast
  rw [Option.some.inj hlast]

end Lez.Succession
