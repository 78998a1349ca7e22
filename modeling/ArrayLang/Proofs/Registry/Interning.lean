import ArrayLang.Source.Name
import Mathlib.Data.List.Nodup

/-!
# Names keep their meaning

A table of names is read in both directions, and the two agree
(`InternTable.Inverse.get?_eq_some_iff`). Interning adds one text at most and changes nothing about
the others.
-/

namespace ArrayLang

namespace InternTable

variable {t : InternTable} {s s' : String} {n : Name}

theorem intern_eq_of_get? (h : t.get? s = some n) : t.intern s = (n, t) := by
  rw [intern, h]

/-- A new text gets the next number. -/
theorem intern_eq_of_get?_eq_none (h : t.get? s = none) : t.intern s = (⟨t.size⟩, t.push s) := by
  rw [intern, h]

/-- **The second look changes nothing**: what a caller does who was overtaken between the two looks
at the table is what is done by one who was not. -/
theorem tryIntern_eq_add (t : InternTable) (s : String) : t.tryIntern s = t.add s := by
  unfold tryIntern
  cases h : t.get? s with
  | some n =>
      show _ = t.add s
      rw [add, h]
  | none => rfl

namespace Inverse

/-- **The name of a text is its only position in the table.** -/
theorem get?_eq_some_iff (h : t.Inverse) : t.get? s = some n ↔ t.texts[n.index]? = some s := by
  obtain ⟨i⟩ := n
  rw [← h.find?_eq_some_iff, get?, Option.map_eq_some_iff]
  simp

/-- The number that a text was found under leads back to it. -/
theorem lookup_of_get? (h : t.Inverse) (hs : t.get? s = some n) : t.lookup n = s := by
  rw [lookup, h.get?_eq_some_iff.mp hs]
  rfl

/-- No other text has the name of a text. -/
theorem get?_eq_iff_of_some (h : t.Inverse) (hs : t.get? s = some n) :
    t.get? s' = some n ↔ s' = s := by
  constructor
  · intro hs'
    rw [h.get?_eq_some_iff] at hs hs'
    exact Option.some.inj (hs'.symm.trans hs)
  · rintro rfl
    exact hs

theorem get?_intern_self (h : t.Inverse) (s : String) :
    (t.intern s).2.get? s = some (t.intern s).1 := by
  cases hs : t.get? s with
  | some n =>
      rw [intern_eq_of_get? hs]
      exact hs
  | none =>
      rw [(h.intern s).get?_eq_some_iff, intern_eq_of_get?_eq_none hs]
      exact Array.getElem?_push_size

/-- A text keeps its name. -/
theorem get?_intern_of_some (h : t.Inverse) (hs' : t.get? s' = some n) :
    (t.intern s).2.get? s' = some n := by
  cases hs : t.get? s with
  | some k =>
      rw [intern_eq_of_get? hs]
      exact hs'
  | none =>
      have hi := h.get?_eq_some_iff.mp hs'
      have hlt : n.index < t.texts.size := (Array.getElem?_eq_some_iff.mp hi).1
      rw [(h.intern s).get?_eq_some_iff, intern_eq_of_get?_eq_none hs, InternTable.push,
        Array.getElem?_push, if_neg (Nat.ne_of_lt hlt)]
      exact hi

end Inverse

end InternTable

namespace Interner

variable {t : Interner} {s s' : String} {n : Name}

theorem get?_eq_some_iff : t.get? s = some n ↔ t.texts[n.index]? = some s :=
  t.inverse.get?_eq_some_iff

/-- The text of a name is the one it was found for. -/
theorem lookup_of_get? (h : t.get? s = some n) : t.lookup n = s := t.inverse.lookup_of_get? h

theorem get?_eq_iff_of_some (h : t.get? s = some n) : t.get? s' = some n ↔ s' = s :=
  t.inverse.get?_eq_iff_of_some h

theorem get?_intern_self (t : Interner) (s : String) :
    (t.intern s).2.get? s = some (t.intern s).1 := t.inverse.get?_intern_self s

theorem get?_intern_of_some (h : t.get? s' = some n) : (t.intern s).2.get? s' = some n :=
  t.inverse.get?_intern_of_some h

/-- A name keeps its text, unless it was not a name at all and now is that of the new text. -/
theorem lookup_intern (h : (t.intern s).2.get? s ≠ some n) :
    (t.intern s).2.lookup n = t.lookup n := by
  show (t.table.intern s).2.lookup n = t.table.lookup n
  cases hs : t.table.get? s with
  | some k => rw [InternTable.intern_eq_of_get? hs]
  | none =>
      have hne : n.index ≠ t.table.texts.size := by
        intro heq
        refine h (get?_eq_some_iff.mpr ?_)
        show (t.table.intern s).2.texts[n.index]? = some s
        rw [InternTable.intern_eq_of_get?_eq_none hs, heq]
        exact Array.getElem?_push_size
      rw [InternTable.intern_eq_of_get?_eq_none hs, InternTable.lookup, InternTable.push,
        Array.getElem?_push, if_neg hne]
      rfl

end Interner

end ArrayLang
