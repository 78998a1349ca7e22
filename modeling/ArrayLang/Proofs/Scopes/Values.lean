import ArrayLang.Proofs.Scopes.Chain

/-!
# The values in scopes

A property of all values that are bound to names is kept when names are bound to values that have
it, and when scopes are added. `Scopes.All.lookup?` gives it back for whatever is looked up.
-/

namespace ArrayLang.Scopes

/-- Every value that is bound to a name has the property. -/
def All (P : Value → Prop) (s : Scopes) : Prop := ∀ d x v, s.find? d x = some (.bound v) → P v

variable {P : Value → Prop} {s t : Scopes} {e : ScopeId} {x : Name} {v : Value}

theorem all_empty : All P .empty := by
  intro d x v hv
  rw [find?_eq_none_of_le (Nat.zero_le _)] at hv
  cases hv

namespace All

theorem lookup? (h : All P s) (hv : s.lookup? e x = some v) : P v := by
  obtain ⟨d, -, hd⟩ := lookup?_eq_some_iff.mp hv
  exact h d x v hd

theorem bind (h : All P s) {b : Binding} (hb : ∀ v, b = .bound v → P v) : All P (s.bind e x b) := by
  intro d y v hv
  rw [find?_bind] at hv
  split at hv
  · cases hv
    exact hb v rfl
  · exact h d y v hv

theorem define (h : All P s) (hv : P v) : All P (s.define e x v) := by
  refine h.bind ?_
  rintro _ ⟨⟩
  exact hv

theorem assign? (h : All P s) (hv : P v) (ht : s.assign? e x v = some t) : All P t := by
  obtain ⟨holder, -, rfl⟩ := assign?_eq_some_iff.mp ht
  exact h.define hv

theorem child (h : All P s) (e : ScopeId) : All P (s.child e).2 := by
  intro d x v hv
  rw [find?_child] at hv
  exact h d x v hv

/-- A call's scope holds its arguments. -/
theorem withArguments (h : All P s) {left : Option Value} {right : Value}
    (hleft : ∀ v ∈ left, P v) (hright : P right) (e : ScopeId) :
    All P (s.withArguments left right e) := by
  refine ((h.child e).bind ?_).define hright
  cases left with
  | none => exact nofun
  | some left =>
      rintro _ ⟨⟩
      exact hleft left rfl

end All

end ArrayLang.Scopes
