import Mathlib.Data.List.Forall2

/-!
# Results one after the other

What two steps in a row give, of which each can fail, and a step whose error is put in other words;
and the same for the members of lists.
-/

namespace ArrayLang

variable {ε α β : Type} {x : Except ε α} {f : α → Except ε β} {b : β} {e : ε}

theorem exists_of_bind_eq_ok (h : x >>= f = .ok b) : ∃ a, x = .ok a ∧ f a = .ok b := by
  cases x with
  | ok a => exact ⟨a, rfl, h⟩
  | error e => cases h

theorem error_of_bind_eq_error (h : x >>= f = .error e) :
    x = .error e ∨ ∃ a, x = .ok a ∧ f a = .error e := by
  cases x with
  | ok a => exact .inr ⟨a, rfl, h⟩
  | error e' =>
      cases h
      exact .inl rfl

theorem exists_of_mapError_eq_error {ε' : Type} {g : ε → ε'} {e' : ε'}
    (h : x.mapError g = .error e') : ∃ e, x = .error e ∧ g e = e' := by
  cases x with
  | ok a => cases h
  | error e =>
      cases h
      exact ⟨e, rfl, rfl⟩

/-- The steps for the members of a list, when all of them give something. -/
theorem forall₂_of_mapM_eq_ok {as : List α} {bs : List β} (h : as.mapM f = .ok bs) :
    List.Forall₂ (fun a b => f a = .ok b) as bs := by
  induction as generalizing bs with
  | nil =>
      cases h
      exact .nil
  | cons a as ih =>
      rw [List.mapM_cons] at h
      obtain ⟨b, hb, h⟩ := exists_of_bind_eq_ok h
      obtain ⟨bs', hbs, h⟩ := exists_of_bind_eq_ok h
      cases h
      exact .cons hb (ih hbs)

/-- Two relations from the members of a list, joined. -/
theorem forall₂_of_forall₂_of_mem {γ : Type} {P : α → β → Prop} {Q : α → γ → Prop}
    {R : β → γ → Prop} {as : List α} {bs : List β} {cs : List γ} (hbs : List.Forall₂ P as bs)
    (hcs : List.Forall₂ Q as cs) (h : ∀ a ∈ as, ∀ b c, P a b → Q a c → R b c) :
    List.Forall₂ R bs cs := by
  induction hbs generalizing cs with
  | nil =>
      cases hcs
      exact .nil
  | cons hb _ ih =>
      cases hcs with
      | cons hc hcs =>
          exact .cons (h _ (by simp) _ _ hb hc) (ih hcs fun a ha => h a (by simp [ha]))

end ArrayLang
