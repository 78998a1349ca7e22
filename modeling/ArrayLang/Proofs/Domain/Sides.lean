import ArrayLang.Domain.Pair

/-!
# The sides of a pair

A pair domain converts each side on its own: what comes out on a side is what was given, or what one
of the domains for that side makes of it, and there is a left side exactly if there was one
(`PairDomain.sides_of_convert?`). Below any number of `dyadic`s, a domain `any` converts one side
and leaves the other (`PairDomain.TestsOne.oneConverted`).
-/

namespace ArrayLang

/-- The value itself, or what one of the domains makes of it. -/
def Converted (tower : Tower) (ds : List Domain) (v w : Value) : Prop :=
  w = v ∨ ∃ d ∈ ds, d.convert? tower v = some w

namespace PairDomain

/-- The domains that a left side may have to pass. -/
def leftDomains : PairDomain → List Domain
  | .both child => child.toList
  | .any child => [child]
  | .split left _ => left.toList
  | .monadic _ => []
  | .dyadic none => []
  | .dyadic (some d) => d.leftDomains

/-- The domains that a right side may have to pass. -/
def rightDomains : PairDomain → List Domain
  | .both child => child.toList
  | .any child => [child]
  | .split _ right => right.toList
  | .monadic child => child.toList
  | .dyadic none => []
  | .dyadic (some d) => d.rightDomains

variable {tower : Tower} {d : PairDomain} {child : Domain} {left left' : Option Value}
  {right right' w : Value}

/-! ## One side -/

/-- What no domain converts stays. -/
theorem rel_self (ds : List Domain) (left : Option Value) :
    Option.Rel (Converted tower ds) left left := by
  cases left with
  | none => exact .none
  | some v => exact .some (.inl rfl)

theorem rel_of_convertOptional? (h : child.convertOptional? tower left = some w) :
    Option.Rel (Converted tower [child]) left (some w) := by
  obtain ⟨v, rfl, hw⟩ := Option.bind_eq_some_iff.mp h
  exact .some (.inr ⟨child, List.mem_singleton_self child, hw⟩)

/-- One domain converts once. -/
theorem converted_of_convert? {v : Value} (h : child.convert? tower v = some w) :
    Converted tower [child] v w := .inr ⟨child, List.mem_singleton_self child, h⟩

/-- A side with a domain is converted by it, and one without is left alone. -/
theorem rel_of_convertSide? {child : Option Domain}
    (h : convertSide? tower child left = some left') :
    Option.Rel (Converted tower child.toList) left left' := by
  cases child with
  | none =>
      cases h
      exact rel_self _ left
  | some child =>
      obtain ⟨w, hw, rfl⟩ := Option.map_eq_some_iff.mp h
      exact rel_of_convertOptional? hw

/-- The right argument is always there. -/
theorem converted_of_convertRight? {child : Option Domain}
    (h : convertRight? tower child right = some right') :
    Converted tower child.toList right right' := by
  cases child with
  | none =>
      cases h
      exact .inl rfl
  | some child => exact converted_of_convert? h

/-! ## Both sides -/

/-- **Each side comes out as it was, or as one of the domains for that side makes it**, and a left
side is neither invented nor dropped. -/
theorem sides_of_convert? (h : d.convert? tower left right = some (left', right')) :
    Option.Rel (Converted tower d.leftDomains) left left' ∧
      Converted tower d.rightDomains right right' := by
  fun_induction convert? tower d left right with
  | case1 | case9 =>
      cases h
      exact ⟨rel_self _ _, .inl rfl⟩
  | case2 child left right =>
      obtain ⟨l, hl, h⟩ := Option.bind_eq_some_iff.mp h
      obtain ⟨r, hr, h⟩ := Option.bind_eq_some_iff.mp h
      cases h
      exact ⟨rel_of_convertOptional? hl, converted_of_convert? hr⟩
  | case3 child left right l hl =>
      cases h
      exact ⟨rel_of_convertOptional? hl, .inl rfl⟩
  | case4 child left right =>
      obtain ⟨r, hr, h⟩ := Option.map_eq_some_iff.mp h
      cases h
      exact ⟨rel_self _ _, converted_of_convert? hr⟩
  -- each side by its own domain
  | case5 leftDomain rightDomain left right =>
      obtain ⟨l, hl, h⟩ := Option.bind_eq_some_iff.mp h
      obtain ⟨r, hr, h⟩ := Option.bind_eq_some_iff.mp h
      cases h
      exact ⟨rel_of_convertSide? hl, converted_of_convertRight? hr⟩
  | case6 | case8 => cases h
  | case7 child right =>
      obtain ⟨r, hr, h⟩ := Option.map_eq_some_iff.mp h
      cases h
      exact ⟨.none, converted_of_convertRight? hr⟩
  | case10 child left right ih => exact ih h

/-- A domain never invents or drops a left side. -/
theorem isSome_of_convert? (h : d.convert? tower left right = some (left', right')) :
    left'.isSome = left.isSome := by
  cases (sides_of_convert? h).1 <;> rfl

/-! ## One side or the other -/

/-- The domain is `any child`, perhaps for calls with a left argument only. -/
inductive TestsOne (child : Domain) : PairDomain → Prop
  | any : TestsOne child (.any child)
  | dyadic {d : PairDomain} (h : TestsOne child d) : TestsOne child (.dyadic (some d))

/-- One side is what the domain makes of it and the other one is unchanged. It is the left side that
is converted if there is one and the domain accepts it. -/
inductive OneConverted (tower : Tower) (child : Domain) :
    Option Value → Value → Option Value → Value → Prop
  | left {l l' right : Value} (h : child.convert? tower l = some l') :
      OneConverted tower child (some l) right (some l') right
  | right {left : Option Value} {right right' : Value}
      (hleft : ∀ l ∈ left, child.convert? tower l = none)
      (h : child.convert? tower right = some right') :
      OneConverted tower child left right left right'

/-- A pair domain that tests one side converts that side alone. -/
theorem TestsOne.oneConverted (htests : d.TestsOne child)
    (h : d.convert? tower left right = some (left', right')) :
    OneConverted tower child left right left' right' := by
  induction htests generalizing left with
  | any =>
      rw [convert?] at h
      cases hl : child.convertOptional? tower left with
      | some l' =>
          simp only [hl] at h
          cases h
          obtain ⟨l, rfl, hl⟩ := Option.bind_eq_some_iff.mp hl
          exact .left hl
      | none =>
          simp only [hl] at h
          obtain ⟨r, hr, h⟩ := Option.map_eq_some_iff.mp h
          cases h
          exact .right (Option.bind_eq_none_iff.mp hl) hr
  | dyadic _ ih =>
      cases left with
      | none => cases h
      | some l => exact ih h

end PairDomain

end ArrayLang
