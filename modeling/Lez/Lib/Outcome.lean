/-
Computations that answer or fail (`Except`), as relations: a check that
passed, a chain that answered, a loop that ran to its end. Every proof about
a fallible function takes its success apart with these and nothing else. The
last section rules errors out: a chain does not fail with an error that none
of its parts fails with.
-/
import Mathlib.Data.List.Basic

namespace Lez

variable {ε α β γ : Type}

theorem bind_ok_iff {x : Except ε α} {f : α → Except ε β} {b : β} :
    (x >>= f) = .ok b ↔ ∃ a, x = .ok a ∧ f a = .ok b := by
  cases x with
  | error e => simp [bind, Except.bind]
  | ok a => simp [bind, Except.bind]

theorem bind_error_iff {x : Except ε α} {f : α → Except ε β} {e : ε} :
    (x >>= f) = .error e ↔ x = .error e ∨ ∃ a, x = .ok a ∧ f a = .error e := by
  cases x with
  | error e => simp [bind, Except.bind]
  | ok a => simp [bind, Except.bind]

theorem pure_ok_iff {a b : α} : (pure a : Except ε α) = .ok b ↔ a = b := by simp [pure, Except.pure]

theorem map_ok_iff {x : Except ε α} {f : α → β} {b : β} : (f <$> x) = .ok b ↔ ∃ a, x = .ok a ∧ f a = b := by
  cases x with
  | error e => simp [Functor.map, Except.map]
  | ok a => simp [Functor.map, Except.map]

theorem mapError_ok_iff {δ : Type} {x : Except ε α} {f : ε → δ} {a : α} :
    x.mapError f = .ok a ↔ x = .ok a := by
  cases x <;> simp [Except.mapError]

theorem map_error_iff {x : Except ε α} {f : α → β} {e : ε} : x.map f = .error e ↔ x = .error e := by
  cases x <;> simp [Except.map]

theorem isOk_iff {x : Except ε α} : x.isOk = true ↔ ∃ a, x = .ok a := by
  cases x <;> simp [Except.isOk, Except.toBool]

theorem error_of_isOk_eq_false {x : Except ε α} (h : x.isOk = false) : ∃ e, x = .error e := by
  cases x with
  | error e => exact ⟨e, rfl⟩
  | ok a => cases h

theorem toOption_eq_some {x : Except ε α} {a : α} : x.toOption = .some a ↔ x = .ok a := by
  cases x <;> simp [Except.toOption]

/-- `ensure!(c, e)`, and `assert!(c, e)` of a guest. -/
def ensure (c : Prop) [Decidable c] (e : ε) : Except ε Unit := if c then .ok () else .error e

theorem ensure_ok_iff {c : Prop} [Decidable c] {e : ε} {u : Unit} : ensure c e = .ok u ↔ c := by
  unfold ensure; split <;> simp_all

theorem ensure_error_iff {c : Prop} [Decidable c] {e e' : ε} : ensure c e = .error e' ↔ ¬c ∧ e = e' := by
  unfold ensure; split <;> simp_all

/-- `.ok_or(e)`, and `.expect(e)` of a guest. -/
def expect (e : ε) : Option α → Except ε α
  | .some a => .ok a
  | .none => .error e

theorem expect_ok_iff {e : ε} {o : Option α} {a : α} : expect e o = .ok a ↔ o = .some a := by
  cases o <;> simp [expect]

/-- A loop of checks passes when every check does. -/
theorem forM_ok_iff {f : α → Except ε Unit} : ∀ {l : List α} {u : Unit},
    l.forM f = .ok u ↔ ∀ a ∈ l, f a = .ok ()
  | [], _ => by simp [List.forM_eq_forM, pure, Except.pure]
  | a :: l, u => by
    have ih : l.forM f = .ok u ↔ ∀ a ∈ l, f a = .ok () := forM_ok_iff
    simp only [List.forM_eq_forM] at ih
    rw [List.forM_eq_forM, List.forM_cons, bind_ok_iff]
    simp only [List.mem_cons, forall_eq_or_imp, ← ih]
    exact ⟨fun ⟨_, h₁, h₂⟩ => ⟨h₁, h₂⟩, fun ⟨h₁, h₂⟩ => ⟨(), h₁, h₂⟩⟩

theorem forM_error {f : α → Except ε Unit} {e : ε} : ∀ {l : List α}, l.forM f = .error e → ∃ a ∈ l, f a = .error e
  | [], h => by simp [List.forM_eq_forM, pure, Except.pure] at h
  | a :: l, h => by
    rw [List.forM_eq_forM, List.forM_cons, bind_error_iff] at h
    rcases h with h | ⟨_, -, h⟩
    · exact ⟨a, List.mem_cons_self, h⟩
    · obtain ⟨b, hb, h⟩ := forM_error h
      exact ⟨b, List.mem_cons_of_mem _ hb, h⟩

/-- A loop whose every step answers. -/
theorem mapM_ok_of_forall {f : α → Except ε β} {g : α → β} : ∀ {l : List α}, (∀ a ∈ l, f a = .ok (g a)) →
    l.mapM f = .ok (l.map g)
  | [], _ => by rw [List.mapM_nil]; rfl
  | a :: l, h => by
    have ih : l.mapM f = .ok (l.map g) := mapM_ok_of_forall fun a' ha' => h a' (by simp [ha'])
    rw [List.mapM_cons, h a (by simp), ih]
    rfl

theorem foldlM_ok_of_forall {f : β → α → Except ε β} {g : β → α → β} : ∀ {l : List α} {b : β},
    (∀ b, ∀ a ∈ l, f b a = .ok (g b a)) → l.foldlM f b = .ok (l.foldl g b)
  | [], _, _ => rfl
  | a :: l, b, h => by
    have ih : l.foldlM f (g b a) = .ok (l.foldl g (g b a)) := foldlM_ok_of_forall fun b' a' ha' => h b' a' (by simp [ha'])
    rw [List.foldlM_cons, h b a (by simp), List.foldl_cons]
    exact ih

/-- Every step of a loop that answered answered. -/
theorem foldlM_ok_forall {f : β → α → Except ε β} : ∀ {l : List α} {b b' : β}, l.foldlM f b = .ok b' →
    ∀ a ∈ l, ∃ c c', f c a = .ok c'
  | [], _, _, _, a, ha => by simp at ha
  | a₀ :: l, b, b', h, a, ha => by
    rw [List.foldlM_cons, bind_ok_iff] at h
    obtain ⟨c, hc, h⟩ := h
    rcases List.mem_cons.mp ha with rfl | ha
    · exact ⟨b, c, hc⟩
    · exact foldlM_ok_forall h a ha

/-- What every round of a loop leaves alone, the loop leaves alone. -/
theorem foldlM_keeps {γ : Type} {f : β → α → Except ε β} {g : β → γ} (hstep : ∀ b a b', f b a = .ok b' → g b' = g b) :
    ∀ {l : List α} {b b' : β}, l.foldlM f b = .ok b' → g b' = g b
  | [], b, b', h => by
    cases h
    rfl
  | a :: l, b, b', h => by
    rw [List.foldlM_cons, bind_ok_iff] at h
    obtain ⟨b₁, hb₁, h⟩ := h
    exact (foldlM_keeps hstep h).trans (hstep _ _ _ hb₁)

/-- A loop of conversions that can only answer `g` is a map, of elements that convert. -/
theorem mapM_ok_eq_map {f : α → Except ε β} {g : α → β} (hfg : ∀ a b, f a = .ok b → b = g a) :
    ∀ {l : List α} {bs : List β}, l.mapM f = .ok bs → bs = l.map g ∧ ∀ a ∈ l, f a = .ok (g a)
  | [], bs, h => by
    rw [List.mapM_nil, pure_ok_iff] at h
    simp [← h]
  | a :: l, bs, h => by
    rw [List.mapM_cons, bind_ok_iff] at h
    obtain ⟨b, hb, h⟩ := h
    obtain ⟨cs, hcs, h⟩ := bind_ok_iff.mp h
    rw [pure_ok_iff] at h
    subst h
    obtain ⟨rfl, hall⟩ := mapM_ok_eq_map hfg hcs
    have hba := hfg a b hb
    subst hba
    refine ⟨rfl, ?_⟩
    intro a' ha'
    rcases List.mem_cons.mp ha' with rfl | ha'
    · exact hb
    · exact hall a' ha'

/-! ## Errors that do not come up -/

section
variable {e : ε}

theorem bind_ne_error {x : Except ε α} {f : α → Except ε β} (hx : x ≠ .error e) (hf : ∀ a, f a ≠ .error e) :
    (x >>= f) ≠ .error e := by
  rw [ne_eq, bind_error_iff]
  rintro (h | ⟨a, -, h⟩)
  · exact hx h
  · exact hf a h

theorem pure_ne_error {a : α} : (pure a : Except ε α) ≠ .error e := by simp [pure, Except.pure]

theorem ensure_ne_error {c : Prop} [Decidable c] {e' : ε} (h : e' ≠ e) : ensure c e' ≠ .error e := by
  rw [ne_eq, ensure_error_iff]
  exact fun hfails => h hfails.2

theorem expect_ne_error {o : Option α} {e' : ε} (h : e' ≠ e) : expect e' o ≠ .error e := by
  cases o with
  | none => exact fun hfails => h (Except.error.inj hfails)
  | some a => simp [expect]

theorem mapError_ne_error {δ : Type} {x : Except δ α} {f : δ → ε} (h : ∀ d, f d ≠ e) : x.mapError f ≠ .error e := by
  cases x with
  | error d => exact fun hfails => h d (Except.error.inj hfails)
  | ok a => simp [Except.mapError]

theorem forM_ne_error {f : α → Except ε Unit} (h : ∀ a, f a ≠ .error e) {l : List α} : l.forM f ≠ .error e := by
  intro hfails
  obtain ⟨a, -, ha⟩ := forM_error hfails
  exact h a ha

theorem foldlM_ne_error {f : β → α → Except ε β} (h : ∀ b a, f b a ≠ .error e) :
    ∀ {l : List α} {b : β}, l.foldlM f b ≠ .error e
  | [], _ => pure_ne_error
  | a :: l, b => by
    rw [List.foldlM_cons]
    exact bind_ne_error (h b a) fun _ => foldlM_ne_error h

theorem mapM_ne_error {f : α → Except ε β} (h : ∀ a, f a ≠ .error e) : ∀ {l : List α}, l.mapM f ≠ .error e
  | [] => by
    rw [List.mapM_nil]
    exact pure_ne_error
  | a :: l => by
    rw [List.mapM_cons]
    exact bind_ne_error (h a) fun _ => bind_ne_error (mapM_ne_error h) fun _ => pure_ne_error

end

end Lez
