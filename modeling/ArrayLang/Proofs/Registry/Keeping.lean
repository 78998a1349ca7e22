import ArrayLang.Proofs.Registry.Dispatch

/-!
# What conversions keep

A pair domain converts its sides one by one, with domains of one value, and an operator converts its
operands by a pair domain. So a property that one conversion keeps holds of all that comes out of
them (`Domain.Keeps.pair`, `Domain.Keeps.operands`).
-/

namespace ArrayLang

/-- A value that a domain lets through has the property if the value had it that was given. -/
def Domain.Keeps (tower : Tower) (P : Value → Prop) : Prop :=
  ∀ (d : Domain) v w, P v → d.convert? tower v = some w → P w

namespace Domain.Keeps

variable {tower : Tower} {P : Value → Prop} {left left' : Option Value} {v w right right' : Value}

theorem some_of (h : P v) : ∀ w ∈ some v, P w := by
  rintro _ ⟨⟩
  exact h

/-- A conversion by one domain or by none keeps the property. -/
theorem converted (hP : Keeps tower P) {ds : List Domain} (h : P v)
    (hw : Converted tower ds v w) : P w := by
  rcases hw with rfl | ⟨d, -, hw⟩
  · exact h
  · exact hP d v w h hw

/-- **Both sides of a pair that a pair domain lets through.** -/
theorem pair (hP : Keeps tower P) {d : PairDomain} (hleft : ∀ v ∈ left, P v) (hright : P right)
    (hd : d.convert? tower left right = some (left', right')) : (∀ v ∈ left', P v) ∧ P right' := by
  obtain ⟨hl, hr⟩ := PairDomain.sides_of_convert? hd
  refine ⟨?_, hP.converted hright hr⟩
  cases hl with
  | none => exact nofun
  | some hl => exact some_of (hP.converted (hleft _ rfl) hl)

/-- **The operands of a function that a definition makes.** A single operand is the right side of
its pair, and two operands are both sides. -/
theorem operands (hP : Keeps tower P) {d : OperatorDefinition} {symbol : Name} {left : Value}
    {right : Option Value} {f : Derived} (hleft : P left) (hright : ∀ v ∈ right, P v)
    (h : d.derive? tower symbol left right = some f) : P f.left ∧ ∀ v ∈ f.right, P v := by
  obtain ⟨hpair, -, -⟩ := OperatorDefinition.derive?_eq_some_iff.mp h
  have hsides : (∀ v ∈ (operandPair f.left f.right).1, P v) ∧ P (operandPair f.left f.right).2 := by
    have hnone : ∀ v ∈ (none : Option Value), P v := nofun
    -- as many operands as the definition takes
    cases harity : d.arity <;> cases right <;> rw [harity] at hpair
    · exact hP.pair hnone hleft hpair
    · cases hpair
    · cases hpair
    · next right => exact hP.pair (some_of hleft) (hright right rfl) hpair
  cases hright' : f.right with
  | none =>
      rw [hright'] at hsides
      exact ⟨hsides.2, nofun⟩
  | some right =>
      rw [hright'] at hsides
      exact ⟨hsides.1 f.left rfl, some_of hsides.2⟩

end Domain.Keeps

end ArrayLang
