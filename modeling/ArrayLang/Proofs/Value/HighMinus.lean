import ArrayLang.Proofs.Value.Layout
import ArrayLang.Proofs.Value.Shapes
import ArrayLang.Source.Tree

/-!
# Signs in rendered values and printed literals

The high minus keeps numbers apart from the function minus: what is written for numbers, truth
values, arrays and strands of them has no minus sign in it, but for one number. The negative zero is
not below zero, so it is written as a double is written anywhere else, with a minus sign
(`minus_mem_iff_negativeZero`).
-/

namespace ArrayLang

/-! ## Values -/

namespace Value

variable {v : Value} {cells : List Value} {glossary : Glossary}

/-- A number, a truth value or an array of such values. -/
inductive IsNumeric : Value → Prop
  | bool (b : Bool) : IsNumeric (.bool b)
  | number (n : Number) : IsNumeric (.number n)
  | indexes (g : Grid Int64) : IsNumeric (.indexes g)
  | emptyArray : IsNumeric .emptyArray
  | array {s : Shape} {cells : List Value} (h : ∀ v ∈ cells, IsNumeric v) :
      IsNumeric (.array s cells)

theorem minus_mem_asCell_iff {text : String} :
    '-' ∈ (asCell v text).toList ↔ '-' ∈ text.toList := by
  unfold asCell
  split
  · simp
  · rfl

theorem minus_mem_renderCells_iff :
    (∃ t ∈ renderCells glossary cells, '-' ∈ t.toList) ↔
      ∃ v ∈ cells, '-' ∈ (v.render glossary).toList := by
  rw [renderCells_eq_map]
  simp only [List.mem_map, exists_exists_and_eq_and, minus_mem_asCell_iff]

/-- A minus sign in the text of a numeric value belongs to a negative zero somewhere in it. -/
theorem IsNumeric.contains_of_minus_mem (hv : v.IsNumeric)
    (h : '-' ∈ (v.render glossary).toList) : v.Contains (.float .negativeZero) := by
  induction hv with
  | bool b => cases b <;> simp [render] at h
  | number n =>
      rw [contains_number_iff, Number.minus_mem_text_iff.mp h]
      rfl
  | indexes g =>
      rw [render] at h
      rcases Layout.mem_layout_iff_or (c := '-') (by decide) (by decide) with hcells | ⟨hempty, -⟩
      · obtain ⟨t, ht, h⟩ := hcells.mp h
        obtain ⟨i, -, rfl⟩ := List.mem_map.mp ht
        cases Number.minus_mem_text_iff.mp h
      · simp [hempty] at h
  | emptyArray => simp [render] at h
  | array _ ih =>
      rw [render] at h
      rcases Layout.mem_layout_iff_or (c := '-') (by decide) (by decide) with hcells | ⟨hempty, -⟩
      · obtain ⟨v, hv, h⟩ := minus_mem_renderCells_iff.mp (hcells.mp h)
        exact array_contains_number_iff.mpr ⟨v, hv, ih v hv h⟩
      · simp [hempty] at h

/-- Every negative zero shows, since well-shaped arrays are written with all of their cells. -/
theorem IsNumeric.minus_mem_of_contains (hv : v.IsNumeric) (hshaped : v.WellShaped)
    (h : v.Contains (.float .negativeZero)) : '-' ∈ (v.render glossary).toList := by
  induction hv with
  | bool b | emptyArray =>
      rw [contains_iff] at h
      simp [cells?, float] at h
  | number n =>
      obtain rfl : n = .float .negativeZero := by
        simpa [float, eq_comm] using contains_number_iff.mp h
      exact Number.minus_mem_text_iff.mpr rfl
  | indexes g =>
      rw [contains_iff] at h
      simp [cells?, float, int, contains_number_iff] at h
  | @array s cells _ ih =>
      obtain ⟨hsize, hcells⟩ := wellShaped_array_iff.mp hshaped
      obtain ⟨v, hv, h⟩ := array_contains_number_iff.mp h
      have hshown := minus_mem_renderCells_iff.mpr ⟨v, hv, ih v hv (hcells v hv) h⟩
      rw [render]
      rcases Layout.mem_layout_iff_or (c := '-') (by decide) (by decide) with hiff | ⟨-, hzero⟩
      · exact hiff.mpr hshown
      · -- an array without text would have no cell to hold the zero
        have hnil : cells = [] := List.length_eq_zero_iff.mp (hsize ▸ hzero)
        simp [hnil] at hv

end Value

/-! ## Expressions -/

namespace Tree

variable {t : Tree} {n : Number}

/-- A literal of a number or of a truth value, or a strand of such expressions. -/
inductive IsNumeric : Tree → Prop
  | number (n : Number) : IsNumeric (.number n)
  | bool (b : Bool) : IsNumeric (.bool b)
  | strand {items : List Tree} (h : ∀ t ∈ items, IsNumeric t) : IsNumeric (.strand items)

/-- The number is a literal of the expression, at any depth of strands. -/
inductive Holds (n : Number) : Tree → Prop
  | number : Holds n (.number n)
  | item {items : List Tree} {t : Tree} (ht : t ∈ items) (h : Holds n t) : Holds n (.strand items)

theorem holds_number_iff {m : Number} : (Tree.number m).Holds n ↔ m = n := by
  constructor
  · intro h
    cases h
    rfl
  · rintro rfl
    exact .number

theorem holds_strand_iff {items : List Tree} :
    (Tree.strand items).Holds n ↔ ∃ t ∈ items, t.Holds n := by
  constructor
  · intro h
    cases h with
    | item ht h => exact ⟨_, ht, h⟩
  · rintro ⟨t, ht, h⟩
    exact .item ht h

theorem minus_mem_asOperand_iff {text : String} :
    '-' ∈ (asOperand t text).toList ↔ '-' ∈ text.toList := by
  unfold asOperand
  split
  · simp
  · rfl

/-- **A numeric constant is printed with a minus if and only if it holds the negative zero.** -/
theorem IsNumeric.minus_mem_print_iff (ht : t.IsNumeric) :
    '-' ∈ t.print.toList ↔ t.Holds (.float .negativeZero) := by
  induction ht with
  | number n => rw [print_number, Number.minus_mem_text_iff, holds_number_iff]
  | bool b =>
      have hholds : ¬ (Tree.bool b).Holds (.float .negativeZero) := nofun
      cases b <;> simp [print, hholds]
  | @strand items _ ih =>
      rw [print, Layout.mem_intercalate_iff (by decide), printItems_eq_map, holds_strand_iff]
      simp only [List.mem_map, exists_exists_and_eq_and, minus_mem_asOperand_iff]
      exact exists_congr fun t => and_congr_right fun ht => ih t ht

end Tree

/-! ## The sign of numbers -/

namespace Number

/-- The number has the negative sign. A NaN has no sign of its own. -/
def IsSigned : Number → Prop
  | .int n => n < 0
  | .float x => x.signBit = true ∧ x.isNaN = false

/-- The text of a number with its sign taken away. The least integer has a magnitude that is no
integer word. -/
def unsignedText : Number → String
  | .int n => toString n.toInt.natAbs
  | .float x => x.abs.text

/-- Any other signed number gets the high minus, in front of its magnitude. -/
theorem text_of_isSigned {n : Number} (h : n.IsSigned) (hzero : n ≠ .float .negativeZero) :
    n.text = "¯" ++ n.unsignedText := by
  cases n with
  | int n =>
      have hlt : n < 0 := h
      rw [text_int, if_pos hlt]
      rfl
  | float x =>
      obtain ⟨hsign, hnan⟩ := h
      have hmagnitude : x.isZero = false := by
        simpa [Binary64.eq_negativeZero_iff, hsign] using hzero
      have hneg : x.isNegative = true := by simp [Binary64.isNegative, hsign, hnan, hmagnitude]
      rw [text_float, if_pos hneg]
      rfl

end Number

/-- **A minus sign is only ever written for the negative zero.** The text of a numeric value or
expression has one if the value holds a negative zero in some cell, or the expression has one for a
literal, and not otherwise; every other number with the negative sign is the high minus followed by
the text of its magnitude. -/
theorem minus_mem_iff_negativeZero (glossary : Glossary) (v : Value) (a : Arena) (names : Interner)
    (e : ExprId) (t : Tree) (n : Number) :
    (v.IsNumeric →
      ('-' ∈ (v.render glossary).toList → v.Contains (.float .negativeZero)) ∧
      (v.WellShaped → v.Contains (.float .negativeZero) → '-' ∈ (v.render glossary).toList)) ∧
    (a.tree names e = .ok t → t.IsNumeric →
      ∃ text, a.print names e = .ok text ∧
        ('-' ∈ text.toList ↔ t.Holds (.float .negativeZero))) ∧
    (n.IsSigned → n ≠ .float .negativeZero →
      n.text = "¯" ++ n.unsignedText ∧ (Tree.number n).print = "¯" ++ n.unsignedText) := by
  refine ⟨?_, ?_, fun hsigned hzero => ?_⟩
  · intro hv
    exact ⟨hv.contains_of_minus_mem, hv.minus_mem_of_contains⟩
  · intro ht hnumeric
    refine ⟨t.print, ?_, hnumeric.minus_mem_print_iff⟩
    rw [Arena.print, ht]
    rfl
  · rw [Tree.print_number]
    exact ⟨n.text_of_isSigned hsigned hzero, n.text_of_isSigned hsigned hzero⟩

/-- A half below zero beside a vector of the negative infinity and the negative zero. -/
def Value.signed : Value :=
  .vector [.float ⟨0xBFE0000000000000⟩, .vector [.float ⟨0xFFF0000000000000⟩, .float .negativeZero]]

/-- The strand of the least integer word and a half below zero. -/
def Arena.signed : Arena where
  exprs := #[⟨.int (-9223372036854775808), .dummy⟩, ⟨.float ⟨0xBFE0000000000000⟩, .dummy⟩,
    ⟨.strand ⟨0, 2⟩, .dummy⟩]
  items := #[⟨0⟩, ⟨1⟩]
  guards := #[]

/-- The negative zero shows among the cells; the strand has no minus sign, nor has the least integer
word. -/
theorem minus_mem_iff_negativeZero_signed :
    let glossary : Glossary := ⟨fun _ => "", fun _ => ""⟩
    (Value.signed.IsNumeric ∧ Value.signed.WellShaped ∧
      '-' ∈ (Value.signed.render glossary).toList) ∧
    (∃ text, Arena.signed.print .initial ⟨2⟩ = .ok text ∧ '-' ∉ text.toList) ∧
    (Number.int (-9223372036854775808)).text = "¯9223372036854775808" := by
  intro glossary
  let literals : Tree :=
    .strand [.number (.int (-9223372036854775808)), .number (.float ⟨0xBFE0000000000000⟩)]
  obtain ⟨hrender, hprint, hsign⟩ :=
    minus_mem_iff_negativeZero glossary .signed .signed .initial ⟨2⟩
    literals (.int (-9223372036854775808))
  have hnumeric : Value.signed.IsNumeric := by
    refine .array fun v hv => ?_
    rcases List.mem_pair.mp hv with rfl | rfl
    · exact .number _
    · refine .array fun w hw => ?_
      rcases List.mem_pair.mp hw with rfl | rfl <;> exact .number _
  have hshaped : Value.signed.WellShaped := by
    simp [Value.signed, Value.vector, Value.WellShaped, Value.WellShapedCells, Shape.size,
      Value.float]
  -- the negative zero is the last cell of the last row
  have hzero : Value.signed.Contains (.float .negativeZero) :=
    .cell (List.mem_pair.mpr (.inr rfl)) (.cell (List.mem_pair.mpr (.inr rfl)) .self)
  refine ⟨⟨hnumeric, hshaped, (hrender hnumeric).2 hshaped hzero⟩, ?_, ?_⟩
  · have hliteral : literals.IsNumeric := by
      refine .strand fun t ht => ?_
      rcases List.mem_pair.mp ht with rfl | rfl <;> exact .number _
    obtain ⟨text, htext, hminus⟩ := hprint rfl hliteral
    refine ⟨text, htext, fun h => ?_⟩
    obtain ⟨t, ht, hholds⟩ := Tree.holds_strand_iff.mp (hminus.mp h)
    rcases List.mem_pair.mp ht with rfl | rfl <;> cases Tree.holds_number_iff.mp hholds
  · have hlt : (-9223372036854775808 : Int64) < 0 := by decide
    refine (hsign hlt ?_).1
    intro h
    cases h

/-- **The negative zero is written with a minus sign**, as a value and as a literal. -/
theorem negativeZero_shows_minus :
    (Value.float .negativeZero).IsNumeric ∧ (Tree.number (.float .negativeZero)).IsNumeric ∧
      '-' ∈ ((Value.float .negativeZero).render ⟨fun _ => "", fun _ => ""⟩).toList ∧
      '-' ∈ (Tree.number (.float .negativeZero)).print.toList := by
  refine ⟨.number _, .number _, ?_, ?_⟩
  · decide
  · decide

end ArrayLang
