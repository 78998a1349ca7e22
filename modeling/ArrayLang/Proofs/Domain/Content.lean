import ArrayLang.Domain.Basic
import Mathlib.Data.List.Forall2

/-!
# Conversion keeps the content

A domain hands on the value that it was given, or an array of texts or of indexes with exactly the
content of that value (`Domain.conversion_whole`). What a converted array has to do with the value
is said cell by cell, by `Value.Lists`, and without reference to how it is computed.

* `Leaf.stringArray?_eq_some_iff`, `Leaf.indexArray?_eq_some_iff` — the two conversions, exactly.
* `Leaf.accept?_eq_or_restates` — one leaf; `Domain.convert?_eq_or_restates` — a whole domain.
-/

namespace ArrayLang

/-! ## Content -/

namespace Value

/-- The value is this text. -/
def IsText (v : Value) (s : String) : Prop := v = .text s

/-- The scalar stands for this index: a truth value for zero or one, a number for what the tower
makes of it. -/
inductive StandsFor (tower : Tower) : Value → Int64 → Prop
  | false : StandsFor tower (.bool false) 0
  | true : StandsFor tower (.bool true) 1
  | number {n : Number} {i : Int64} (h : tower.toIndex? n = some i) :
      StandsFor tower (.number n) i

/-- The grid lists the content of the value, where `P` says which cell goes with which entry: a
scalar is listed as a vector of one entry, an array in its own shape and order. -/
inductive Lists {α : Type} (P : Value → α → Prop) : Value → Grid α → Prop
  | scalar {v : Value} {a : α} (h : P v a) : Lists P v (.vector [a])
  | empty : Lists P .emptyArray (.vector [])
  | array {s : Shape} {cells : List Value} {as : List α} (h : List.Forall₂ P cells as) :
      Lists P (.array s cells) ⟨s, as⟩

/-- `w` is an array of texts or of indexes that lists the content of `v`. -/
inductive Restates (tower : Tower) (v : Value) : Value → Prop
  | strings {g : Grid String} (h : v.Lists IsText g) : Restates tower v (.strings g)
  | indexes {g : Grid Int64} (h : v.Lists (StandsFor tower) g) : Restates tower v (.indexes g)

variable {tower : Tower} {v w : Value}

/-- An array of strings says again what lists the same texts. -/
theorem restates_strings_iff {g : Grid String} :
    v.Restates tower (.strings g) ↔ v.Lists IsText g := by
  constructor
  · intro h
    cases h with
    | strings h => exact h
  · exact .strings

/-- An index array says again what lists numbers that stand for its indexes. -/
theorem restates_indexes_iff {g : Grid Int64} :
    v.Restates tower (.indexes g) ↔ v.Lists (StandsFor tower) g := by
  constructor
  · intro h
    cases h with
    | indexes h => exact h
  · exact .indexes

/-- An array that is well-shaped is listed by a grid that is, too. -/
theorem Lists.fits {α : Type} {P : Value → α → Prop} {g : Grid α} (h : v.Lists P g)
    (hv : v.WellShaped) : g.Fits := by
  cases h with
  | scalar h => exact rfl
  | empty => exact rfl
  | array h =>
      rw [WellShaped] at hv
      show Shape.size _ = _
      rw [hv.1, h.length_eq]

/-- Every cell of an array that is listed has an entry. -/
theorem Lists.exists_of_mem {α : Type} {P : Value → α → Prop} {g : Grid α} {s : Shape}
    {cells : List Value} (h : (Value.array s cells).Lists P g) (hP : ∀ a, ¬ P (.array s cells) a)
    (hv : v ∈ cells) : ∃ a, P v a := by
  cases h with
  | scalar h => exact absurd h (hP _)
  | array h =>
      obtain ⟨i, hi, rfl⟩ := List.getElem_of_mem hv
      exact ⟨_, h.get hi (h.length_eq ▸ hi)⟩

/-- An array of texts is nothing that could be listed again. -/
theorem not_restates_strings {g : Grid String} : ¬ (Value.strings g).Restates tower w := by
  rintro (⟨⟨⟨⟩⟩⟩ | ⟨⟨⟨⟩⟩⟩)

theorem not_restates_indexes {g : Grid Int64} : ¬ (Value.indexes g).Restates tower w := by
  rintro (⟨⟨⟨⟩⟩⟩ | ⟨⟨⟨⟩⟩⟩)

/-- What lists the content of another value lists no content of its own. -/
theorem Restates.not_restates {u : Value} (h : v.Restates tower w) : ¬ w.Restates tower u := by
  cases h with
  | strings h => exact not_restates_strings
  | indexes h => exact not_restates_indexes

end Value

/-! ## Leaves -/

namespace Leaf

open Value

/-- A function is defined on all elements of a list, or the whole list is refused. -/
theorem mapM_eq_some_iff {α β : Type} {f : α → Option β} {as : List α} {bs : List β} :
    as.mapM f = some bs ↔ List.Forall₂ (fun a b => f a = some b) as bs := by
  induction as generalizing bs with
  | nil => simp [eq_comm]
  | cons a as ih =>
      simp only [List.mapM_cons, Option.bind_eq_bind, Option.bind_eq_some_iff,
        List.forall₂_cons_left_iff, ih]
      constructor
      · rintro ⟨b, hb, bs', hbs, heq⟩
        cases heq
        exact ⟨b, bs', hb, hbs, rfl⟩
      · rintro ⟨b, bs', hb, hbs, rfl⟩
        exact ⟨b, hb, bs', hbs, rfl⟩

/-- Cells are put into a shape only if they fit. -/
theorem fitted?_eq_some_iff {α : Type} {s : Shape} {cells : List α} {g : Grid α} :
    fitted? s cells = some g ↔ g = ⟨s, cells⟩ ∧ g.Fits := by
  unfold fitted? Grid.ofShape checkShape
  by_cases h : s.size = cells.length
  · rw [if_pos h]
    constructor
    · rintro ⟨⟩
      exact ⟨rfl, h⟩
    · rintro ⟨rfl, -⟩
      rfl
  · rw [if_neg h]
    constructor
    · rintro ⟨⟩
    · rintro ⟨rfl, hfits⟩
      exact absurd hfits h

theorem text?_eq_some_iff {v : Value} {s : String} : v.text? = some s ↔ v.IsText s := by
  unfold IsText
  cases v <;> simp [text?]

theorem index?_eq_some_iff {tower : Tower} {v : Value} {i : Int64} :
    index? tower v = some i ↔ v.StandsFor tower i := by
  constructor
  · intro h
    cases v with
    | bool b =>
        cases b <;> cases h
        · exact .false
        · exact .true
    | number n => exact .number h
    | text | array | strings | indexes | emptyArray | primitive | closure | derived => cases h
  · rintro (_ | _ | h)
    · rfl
    · rfl
    · exact h

/-- Cells that are converted one by one and put back into their shape. -/
theorem fitted?_mapM_eq_some_iff {α : Type} {f : Value → Option α} {P : Value → α → Prop}
    (hf : ∀ v a, f v = some a ↔ P v a) {s : Shape} {cells : List Value} {g : Grid α}
    (hscalar : ∀ a, ¬ P (.array s cells) a) :
    (cells.mapM f).bind (fitted? s) = some g ↔ (Value.array s cells).Lists P g ∧ g.Fits := by
  simp only [Option.bind_eq_some_iff, mapM_eq_some_iff, fitted?_eq_some_iff, hf]
  constructor
  · rintro ⟨as, has, rfl, hfits⟩
    exact ⟨.array has, hfits⟩
  · rintro ⟨has | _ | has, hfits⟩
    · exact absurd has (hscalar _)
    · exact ⟨_, has, rfl, hfits⟩

/-- **The string array of a value** lists its texts. -/
theorem stringArray?_eq_some_iff {v : Value} {g : Grid String} :
    stringArray? v = some g ↔ v.Lists IsText g ∧ g.Fits := by
  cases v with
  | array s cells =>
      exact fitted?_mapM_eq_some_iff (fun _ _ => text?_eq_some_iff) (by rintro _ ⟨⟩)
  | emptyArray =>
      constructor
      · rintro ⟨⟩
        exact ⟨.empty, Grid.fits_vector _⟩
      · rintro ⟨⟨⟨⟩⟩ | _, -⟩
        rfl
  | text s =>
      constructor
      · rintro ⟨⟩
        exact ⟨.scalar rfl, Grid.fits_vector _⟩
      · rintro ⟨⟨⟨⟩⟩, -⟩
        rfl
  | bool | number | strings | indexes | primitive | closure | derived =>
      constructor
      · rintro ⟨⟩
      · rintro ⟨⟨⟨⟩⟩, -⟩

/-- **The index array of a value** lists its indexes. -/
theorem indexArray?_eq_some_iff {tower : Tower} {v : Value} {g : Grid Int64} :
    indexArray? tower v = some g ↔ v.Lists (StandsFor tower) g ∧ g.Fits := by
  cases v with
  | array s cells =>
      exact fitted?_mapM_eq_some_iff (fun _ _ => index?_eq_some_iff) (by rintro _ ⟨⟩)
  | emptyArray =>
      constructor
      · rintro ⟨⟩
        exact ⟨.empty, Grid.fits_vector _⟩
      · rintro ⟨⟨⟨⟩⟩ | _, -⟩
        rfl
  | bool | number | text | strings | indexes | primitive | closure | derived =>
      simp only [indexArray?, Option.map_eq_some_iff, index?_eq_some_iff]
      constructor
      · rintro ⟨i, hi, rfl⟩
        exact ⟨.scalar hi, Grid.fits_vector _⟩
      · rintro ⟨⟨hi⟩, -⟩
        exact ⟨_, hi, rfl⟩

variable {tower : Tower} {v w : Value}

/-- **A leaf hands on the value itself or lists its content.** -/
theorem accept?_eq_or_restates {l : Leaf} (h : l.accept? tower v = some w) :
    w = v ∨ v.Restates tower w := by
  cases l with
  | isText | isNumber | isArray | isFunction =>
      simp only [accept?, Option.ite_none_right_eq_some, Option.some.injEq] at h
      exact .inl h.2.symm
  | isBool | isStringArray | isIndexArray =>
      cases v <;> cases h
      exact .inl rfl
  | toStringArray =>
      cases v with
      | strings g =>
          cases h
          exact .inl rfl
      | _ =>
          simp only [accept?, Option.map_eq_some_iff] at h
          obtain ⟨g, hg, rfl⟩ := h
          exact .inr (.strings (stringArray?_eq_some_iff.mp hg).1)
  | toIndexArray =>
      cases v with
      | indexes g =>
          cases h
          exact .inl rfl
      | _ =>
          simp only [accept?, Option.map_eq_some_iff] at h
          obtain ⟨g, hg, rfl⟩ := h
          exact .inr (.indexes (indexArray?_eq_some_iff.mp hg).1)

end Leaf

/-! ## Domains -/

namespace Domain

open Value

variable {tower : Tower} {v w u : Value}

/-- **A domain hands on the value itself or lists its content.** -/
theorem convert?_eq_or_restates {d : Domain} (h : d.convert? tower v = some w) :
    w = v ∨ v.Restates tower w := by
  fun_induction convert? tower d v generalizing w with
  | case1 v l => exact Leaf.accept?_eq_or_restates h
  | case2 v l child ih =>
      -- the child finds the value as the leaf left it, and what is listed already stays so
      obtain ⟨u, hu, hw⟩ := Option.bind_eq_some_iff.mp h
      rcases Leaf.accept?_eq_or_restates hu with rfl | hrest
      · exact ih u hw
      · rcases ih u hw with rfl | hagain
        · exact .inr hrest
        · exact absurd hagain hrest.not_restates
  | case3 => cases h
  | case4 => cases h
  | case5 v child hnone ih =>
      cases h
      exact .inl rfl
  | case6 v first second u hu ih =>
      cases h
      exact ih hu
  | case7 v first second hnone ih₁ ih₂ => exact ih₂ h
  | case8 => cases h

/-- An array of texts is accepted as it is. -/
theorem convert?_strings {d : Domain} {g : Grid String}
    (h : d.convert? tower (.strings g) = some w) : w = .strings g :=
  (convert?_eq_or_restates h).resolve_right not_restates_strings

/-- Index arrays pass through every domain unchanged. -/
theorem convert?_indexes {d : Domain} {g : Grid Int64}
    (h : d.convert? tower (.indexes g) = some w) : w = .indexes g :=
  (convert?_eq_or_restates h).resolve_right not_restates_indexes

/-- Of a well-shaped value nothing is turned down that could be listed as texts. -/
theorem convert?_toStringArray_iff {g : Grid String} (hv : v.WellShaped) :
    (leaf .toStringArray none).convert? tower v = some (.strings g) ↔
      v = .strings g ∨ v.Lists IsText g := by
  constructor
  · intro h
    exact (convert?_eq_or_restates h).imp Eq.symm restates_strings_iff.mp
  · rintro (rfl | hlists)
    · rfl
    · have hg := Leaf.stringArray?_eq_some_iff.mpr ⟨hlists, hlists.fits hv⟩
      cases v with
      | strings g' => cases hg
      | _ => simp only [convert?, Leaf.accept?, hg, Option.map_some]

/-- An index array is made from an array whose cells all stand for indexes, or is there already. -/
theorem convert?_toIndexArray_iff {g : Grid Int64} (hv : v.WellShaped) :
    (leaf .toIndexArray none).convert? tower v = some (.indexes g) ↔
      v = .indexes g ∨ v.Lists (StandsFor tower) g := by
  constructor
  · intro h
    exact (convert?_eq_or_restates h).imp Eq.symm restates_indexes_iff.mp
  · rintro (rfl | hlists)
    · rfl
    · have hg := Leaf.indexArray?_eq_some_iff.mpr ⟨hlists, hlists.fits hv⟩
      cases v with
      | indexes g' => cases hg
      | _ => simp only [convert?, Leaf.accept?, hg, Option.map_some]

/-- **Conversion is whole or not at all.** What a domain hands on is the value itself or an array
that lists its content: an array is not converted to texts if one cell is no text, nor to indexes
if one cell is no index, the second branch of a choice starts from the value again, and what was
converted is never converted again. Of well-shaped values, everything that can be listed is. -/
theorem conversion_whole (tower : Tower) :
    (∀ (d : Domain) v w, d.convert? tower v = some w → w = v ∨ v.Restates tower w) ∧
    (∀ (d : Domain) s cells w, d.convert? tower (.array s cells) = some w →
      ((∃ v ∈ cells, ∀ t, ¬ v.IsText t) → ∀ g, w ≠ .strings g) ∧
      ((∃ v ∈ cells, ∀ i, ¬ v.StandsFor tower i) → ∀ g, w ≠ .indexes g)) ∧
    (∀ (first second : Domain) v, first.convert? tower v = none →
      (Domain.or (some first) (some second)).convert? tower v = second.convert? tower v) ∧
    (∀ (d : Domain) w, (∀ g, d.convert? tower (.strings g) = some w → w = .strings g) ∧
      ∀ g, d.convert? tower (.indexes g) = some w → w = .indexes g) ∧
    (∀ (d e : Domain) v w u, d.convert? tower v = some w → e.convert? tower w = some u →
      w = v ∨ u = w) ∧
    ∀ v, v.WellShaped →
      (∀ g, (Domain.leaf .toStringArray none).convert? tower v = some (.strings g) ↔
        v = .strings g ∨ v.Lists IsText g) ∧
      ∀ g, (Domain.leaf .toIndexArray none).convert? tower v = some (.indexes g) ↔
        v = .indexes g ∨ v.Lists (StandsFor tower) g := by
  refine ⟨fun d v w h => convert?_eq_or_restates h, fun d s cells w h => ⟨?_, ?_⟩, ?_, ?_, ?_, ?_⟩
  · rintro ⟨v, hv, hno⟩ g rfl
    rcases convert?_eq_or_restates h with heq | hrest
    · cases heq
    · obtain ⟨t, ht⟩ := (restates_strings_iff.mp hrest).exists_of_mem (by rintro _ ⟨⟩) hv
      exact hno t ht
  · rintro ⟨v, hv, hno⟩ g rfl
    rcases convert?_eq_or_restates h with heq | hrest
    · cases heq
    · obtain ⟨i, hi⟩ := (restates_indexes_iff.mp hrest).exists_of_mem (by rintro _ ⟨⟩) hv
      exact hno i hi
  · intro first second v hnone
    simp only [convert?, hnone]
  · exact fun d w => ⟨fun g => convert?_strings, fun g => convert?_indexes⟩
  · -- what was converted once is an array of one type, which no domain converts
    intro d e v w u hw hu
    rcases convert?_eq_or_restates hw with heq | hrest
    · exact .inl heq
    · exact .inr ((convert?_eq_or_restates hu).resolve_right hrest.not_restates)
  · exact fun v hv =>
      ⟨fun g => convert?_toStringArray_iff hv, fun g => convert?_toIndexArray_iff hv⟩

/-- Two texts do not become indexes, so the second branch lists them; a text and a number become
neither. -/
theorem conversion_whole_of_choice :
    (Domain.or (some (.leaf .toIndexArray none)) (some (.leaf .toStringArray none))).convert?
        .standard (.vector [.text "ab", .text "c"]) = some (.strings (.vector ["ab", "c"])) ∧
      (Value.vector [.text "ab", .text "c"]).Restates .standard (.strings (.vector ["ab", "c"])) ∧
    (Domain.not (some (.leaf .toStringArray none))).convert? .standard
        (.vector [.text "ab", .int 1]) = some (.vector [.text "ab", .int 1]) ∧
      (∀ g, Value.vector [.text "ab", .int 1] ≠ .strings g) := by
  obtain ⟨hcontent, hmixed, -⟩ := conversion_whole .standard
  have hchoice : (Domain.or (some (.leaf .toIndexArray none))
      (some (.leaf .toStringArray none))).convert? .standard (.vector [.text "ab", .text "c"]) =
      some (.strings (.vector ["ab", "c"])) := rfl
  have hnot : (Domain.not (some (.leaf .toStringArray none))).convert? .standard
      (.vector [.text "ab", .int 1]) = some (.vector [.text "ab", .int 1]) := rfl
  refine ⟨hchoice, (hcontent _ _ _ hchoice).resolve_left (by rintro ⟨⟩), hnot, ?_⟩
  refine (hmixed _ _ _ _ hnot).1 ⟨.int 1, by simp, ?_⟩
  rintro t ⟨⟩

end Domain

end ArrayLang
