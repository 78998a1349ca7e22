import ArrayLang.EvalError

/-!
# Errors and their places

On its way out an error changes once at most: if it has no place, the first expression with a place
that it leaves becomes its place (`EvalError.Reaches`). What happened stays the same, and errors
that differ in nothing but the place are *alike* (`EvalError.Alike`). No error is ever placed at the
dummy span, and alike errors of which that is known are *twins* (`EvalError.Twins`).
-/

namespace ArrayLang.EvalError

variable {e e' e'' : EvalError} {s : Span}

/-! ## Locating -/

/-- The first place stays. -/
theorem locate_of_some (h : e.span = some s) (s' : Span) : e.locate s' = e := by
  simp [locate, h]

/-- The dummy span is no place. -/
theorem locate_dummy (e : EvalError) : e.locate .dummy = e := by
  simp [locate, Span.dummy, Span.isDummy]

theorem locate_of_none (h : e.span = none) (hs : s ≠ .dummy) :
    e.locate s = { e with span := some s } := by
  have hplace : s.isDummy = false := by
    rw [← Bool.not_eq_true, Span.isDummy_iff]
    exact hs
  simp [locate, h, hplace]

/-! ## Ways out -/

/-- What an error without a place, or with one, may come to as it travels outward. -/
inductive Reaches : EvalError → EvalError → Prop
  | refl {e : EvalError} : Reaches e e
  | located {e : EvalError} {s : Span} (h : e.span = none) (hs : s ≠ .dummy) :
      Reaches e { e with span := some s }

/-- Giving a place is one step on the way out. -/
theorem reaches_locate (e : EvalError) (s : Span) : e.Reaches (e.locate s) := by
  cases hspan : e.span with
  | some s' =>
      rw [locate_of_some hspan]
      exact .refl
  | none =>
      by_cases hs : s = .dummy
      · rw [hs, locate_dummy]
        exact .refl
      · rw [locate_of_none hspan hs]
        exact .located hspan hs

/-- The place that an error has stays. -/
theorem Reaches.eq_of_some (h : e.Reaches e') (hs : e.span = some s) : e' = e := by
  cases h with
  | refl => rfl
  | located hnone _ =>
      rw [hnone] at hs
      cases hs

theorem Reaches.trans (h : e.Reaches e') (h' : e'.Reaches e'') : e.Reaches e'' := by
  cases h with
  | refl => exact h'
  | located hnone hs =>
      rw [h'.eq_of_some rfl]
      exact .located hnone hs

/-- An error on its way out keeps its cause. -/
theorem Reaches.cause_eq (h : e.Reaches e') : e'.cause = e.cause := by
  cases h <;> rfl

/-! ## Errors that differ in their place -/

/-- The errors have the same cause and the same notes. -/
structure Alike (e e' : EvalError) : Prop where
  cause : e'.cause = e.cause
  notes : e'.notes = e.notes

theorem Alike.refl (e : EvalError) : e.Alike e := ⟨rfl, rfl⟩

theorem Alike.symm (h : e.Alike e') : e'.Alike e := ⟨h.cause.symm, h.notes.symm⟩

theorem Alike.trans (h : e.Alike e') (h' : e'.Alike e'') : e.Alike e'' :=
  ⟨h'.cause.trans h.cause, h'.notes.trans h.notes⟩

/-- All that changes on the way out is the place. -/
theorem Reaches.alike (h : e.Reaches e') : e.Alike e' := by
  cases h <;> exact ⟨rfl, rfl⟩

/-- Locating one error leaves it like the other. -/
theorem Alike.locate (h : e.Alike e') (s : Span) : e.Alike (e'.locate s) :=
  h.trans (reaches_locate e' s).alike

/-! ## Errors with true places -/

/-- The errors are alike, and neither of them is at the dummy span. -/
structure Twins (e e' : EvalError) : Prop extends Alike e e' where
  span : e.span ≠ some .dummy
  span' : e'.span ≠ some .dummy

/-- A fresh error has no place, so it is its own twin. -/
theorem twins_of (cause : Cause) : (of cause).Twins (of cause) := ⟨.refl _, nofun, nofun⟩

/-- No error gets the dummy span by being located. -/
theorem span_locate_ne (h : e.span ≠ some .dummy) (s : Span) :
    (e.locate s).span ≠ some .dummy := by
  have hreaches := reaches_locate e s
  generalize e.locate s = e' at hreaches
  cases hreaches with
  | refl => exact h
  | located _ hs => exact fun hdummy => hs (Option.some.inj hdummy)

/-- Twins remain twins at any places. -/
theorem Twins.locate (h : e.Twins e') (s s' : Span) : (e.locate s).Twins (e'.locate s') where
  toAlike := ((h.toAlike.symm.locate s).symm).locate s'
  span := span_locate_ne h.span s
  span' := span_locate_ne h.span' s'

theorem Twins.addNote (h : e.Twins e') (n : Note) : (e.addNote n).Twins (e'.addNote n) where
  cause := h.cause
  notes := congrArg (· ++ [n]) h.notes
  span := h.span
  span' := h.span'

end ArrayLang.EvalError
