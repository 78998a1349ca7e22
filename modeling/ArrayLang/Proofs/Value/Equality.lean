import ArrayLang.Proofs.Results
import ArrayLang.Proofs.Value.Shapes

/-!
# Equality of values

Equality is symmetric and transitive, and a value equals itself exactly if no NaN occurs in it
(`Value.equal_laws`). It tells the kinds of values apart, and arrays of one kind are compared by
their shapes and cells. How two equal values are made up is said once
(`Value.matches_of_equal`); the laws are then inductions on one of the values.
-/

namespace ArrayLang

variable {x y z : Binary64}

/-! ## Numbers -/

namespace Binary64

/-- Floats are equal if they are the same and no NaN, or both are a zero. -/
theorem equal_iff :
    x.equal y = true ↔ x.isNaN = false ∧ y.isNaN = false ∧ (x = y ∨ x.isZero ∧ y.isZero) := by
  have hbits : x.bits = y.bits ↔ x = y := by
    cases x; cases y; simp
  simp [equal, hbits, and_assoc]

theorem equal_comm : x.equal y = y.equal x := by
  rw [Bool.eq_iff_iff, equal_iff, equal_iff]
  grind

/-- Floats that are equal to a third one are equal. -/
theorem equal_trans (h : x.equal y = true) (h' : y.equal z = true) : x.equal z = true := by
  rw [equal_iff] at *
  grind

end Binary64

namespace Number

theorem equal_comm (m n : Number) : m.equal n = n.equal m := by
  cases m with
  | int =>
      cases n with
      | int => exact BEq.comm
      | float => rfl
  | float =>
      cases n with
      | int => rfl
      | float => exact Binary64.equal_comm

/-- Every number equals itself, but for a NaN. -/
theorem equal_self_iff {n : Number} :
    n.equal n = true ↔ ¬ ∃ x : Binary64, n = .float x ∧ x.isNaN = true := by
  cases n with
  | int n => exact iff_of_true (beq_self_eq_true n) nofun
  | float x =>
      show x.equal x = true ↔ _
      simp [Binary64.equal_iff]

/-- Equality of numbers is transitive, since an integer is never equal to a float. -/
theorem equal_trans {l m n : Number} (h : l.equal m = true) (h' : m.equal n = true) :
    l.equal n = true := by
  cases m with
  | int b =>
      cases l with
      | int a =>
          obtain rfl : a = b := eq_of_beq h
          exact h'
      | float => cases h
  | float y =>
      cases l with
      | int => cases h
      | float x =>
          cases n with
          | int => cases h'
          | float z => exact Binary64.equal_trans h h'

end Number

namespace Value
variable {u v w : Value} {as bs : List Value} {s t : Shape}

/-! ## What equals a value -/

/-- Cells are compared one by one. -/
theorem equalCells_iff :
    equalCells as bs = true ↔ List.Forall₂ (fun a b => equal a b = true) as bs := by
  induction as generalizing bs with
  | nil => cases bs <;> simp [equalCells]
  | cons a as ih => cases bs <;> simp [equalCells, ih]

/-- Neither a number nor a value with parts. -/
def IsAtom : Value → Prop
  | .number _ | .array .. | .derived .. => False
  | _ => True

/-- How equal values are made up. -/
inductive Matches : Value → Value → Prop
  | atom {v : Value} (hv : v.IsAtom) : Matches v v
  | number {m n : Number} (h : m.equal n = true) : Matches (.number m) (.number n)
  | array {s : Shape} {as bs : List Value} (h : List.Forall₂ (fun a b => equal a b = true) as bs) :
      Matches (.array s as) (.array s bs)
  | derived {operator : Name} {body : BodyId} {l m : Value} {r q : Option Value}
      (hl : equal l m = true) (hr : Option.Rel (fun a b => equal a b = true) r q) :
      Matches (.derived operator body l r) (.derived operator body m q)

/-- Values that compare as equal match. -/
theorem matches_of_equal (h : equal v w = true) : v.Matches w := by
  cases v with
  | number m =>
      cases w with
      | number n => exact .number h
      | _ => cases h
  | array s as =>
      cases w with
      | array t bs =>
          obtain ⟨hs, hcells⟩ := Bool.and_eq_true_iff.mp h
          obtain rfl := eq_of_beq hs
          exact .array (equalCells_iff.mp hcells)
      | _ => cases h
  -- the comparison goes by the right operands first, each there or missing
  | derived operator body l r =>
      cases w with
      | derived operator' body' m q =>
          cases r with
          | none =>
              cases q with
              | none =>
                  obtain ⟨hhead, hl⟩ := Bool.and_eq_true_iff.mp h
                  obtain ⟨rfl, rfl⟩ : operator = operator' ∧ body = body' := by simpa using hhead
                  exact .derived hl .none
              | some q => cases h
          | some r =>
              cases q with
              | none => cases h
              | some q =>
                  obtain ⟨hhead, hr⟩ := Bool.and_eq_true_iff.mp h
                  obtain ⟨hhead, hl⟩ := Bool.and_eq_true_iff.mp hhead
                  obtain ⟨rfl, rfl⟩ : operator = operator' ∧ body = body' := by simpa using hhead
                  exact .derived hl (.some hr)
      | _ => cases r <;> cases h
  | emptyArray =>
      cases w with
      | emptyArray => exact .atom trivial
      | _ => cases h
  | bool | text | strings | indexes | primitive | closure =>
      cases w <;> first
        | cases h
        | (obtain rfl := eq_of_beq (show (_ == _) = true from h); exact .atom trivial)

/-- Values that match compare as equal. -/
theorem Matches.equal (h : v.Matches w) : equal v w = true := by
  cases h with
  | @atom v hv =>
      cases v with
      | number | array | derived => exact hv.elim
      | emptyArray => rfl
      | bool a => exact beq_self_eq_true a
      | text a => exact beq_self_eq_true a
      | strings a => exact beq_self_eq_true a
      | indexes a => exact beq_self_eq_true a
      | primitive a => exact beq_self_eq_true a
      | closure a => exact beq_self_eq_true a
  | number h => exact h
  | array h => exact Bool.and_eq_true_iff.mpr ⟨beq_self_eq_true _, equalCells_iff.mpr h⟩
  | derived hl hr =>
      cases hr with
      | none => simp [Value.equal, hl]
      | some hr => simp [Value.equal, hl, hr]

/-- An atom is equal to itself alone. -/
theorem atom_equal_iff (hv : v.IsAtom) : equal v w = true ↔ v = w := by
  constructor
  · intro h
    cases matches_of_equal h with
    | atom => rfl
    | number | array | derived => exact hv.elim
  · rintro rfl
    exact (Matches.atom hv).equal

/-- A number is equal to numbers only. -/
theorem number_equal_iff {m : Number} :
    equal (.number m) w = true ↔ ∃ n, .number n = w ∧ m.equal n = true := by
  constructor
  · intro h
    cases matches_of_equal h with
    | atom hv => exact hv.elim
    | number hmn => exact ⟨_, rfl, hmn⟩
  · rintro ⟨n, rfl, h⟩
    exact h

/-- A generic array is equal to arrays of the same shape with equal cells. -/
theorem array_equal_iff :
    equal (.array s as) w = true ↔
      ∃ bs, .array s bs = w ∧ List.Forall₂ (fun a b => equal a b = true) as bs := by
  constructor
  · intro h
    cases matches_of_equal h with
    | atom hv => exact hv.elim
    | array hcells => exact ⟨_, rfl, hcells⟩
  · rintro ⟨bs, rfl, h⟩
    exact (Matches.array h).equal

/-- Derived functions are equal if they have the same operator, the same body and equal operands. -/
theorem derived_equal_iff {operator : Name} {body : BodyId} {l : Value} {r : Option Value} :
    equal (.derived operator body l r) w = true ↔
      ∃ m q, .derived operator body m q = w ∧ equal l m = true ∧
        Option.Rel (fun a b => equal a b = true) r q := by
  constructor
  · intro h
    cases matches_of_equal h with
    | atom hv => exact hv.elim
    | derived hl hr => exact ⟨_, _, rfl, hl, hr⟩
  · rintro ⟨m, q, rfl, hl, hr⟩
    exact (Matches.derived hl hr).equal

/-- Values of different kinds are never equal. -/
theorem kind_eq_of_equal (h : equal v w = true) : v.kind = w.kind := by
  cases matches_of_equal h with
  | atom | array | derived => rfl
  | @number m n h =>
      cases m with
      | int => cases n with
        | int => rfl
        | float => cases h
      | float => cases n with
        | int => cases h
        | float => rfl

/-! ## The laws -/

/-- Equality is symmetric, although the comparison goes by its left side. -/
theorem equal_symm (h : equal v w = true) : equal w v = true := by
  induction v using ind generalizing w with
  | number n =>
      obtain ⟨m, rfl, hm⟩ := number_equal_iff.mp h
      exact number_equal_iff.mpr ⟨n, rfl, (Number.equal_comm m n).trans hm⟩
  | array s cells ih =>
      obtain ⟨cells', rfl, hcells⟩ := array_equal_iff.mp h
      refine array_equal_iff.mpr ⟨cells, rfl, ?_⟩
      refine forall₂_of_forall₂_of_mem hcells (List.forall₂_same.mpr fun _ _ => rfl) ?_
      rintro v hv w _ hvw rfl
      exact ih v hv hvw
  | derived operator body left right ihl ihr =>
      obtain ⟨left', right', rfl, hleft, hright⟩ := derived_equal_iff.mp h
      refine derived_equal_iff.mpr ⟨left, right, rfl, ihl hleft, ?_⟩
      cases hright with
      | none => exact .none
      | some hr => exact .some (ihr _ rfl hr)
  | _ =>
      obtain rfl := (atom_equal_iff (by trivial)).mp h
      exact h

/-- Two values that equal a third equal each other. -/
theorem equal_of_equal (h : equal v u = true) (h' : equal v w = true) : equal u w = true := by
  -- on the value in the middle, which both hypotheses take apart
  induction v using ind generalizing u w with
  | number l =>
      obtain ⟨m, rfl, hm⟩ := number_equal_iff.mp h
      obtain ⟨n, rfl, hn⟩ := number_equal_iff.mp h'
      exact Number.equal_trans ((Number.equal_comm m l).trans hm) hn
  | array s cells ih =>
      obtain ⟨as, rfl, has⟩ := array_equal_iff.mp h
      obtain ⟨bs, rfl, hbs⟩ := array_equal_iff.mp h'
      refine array_equal_iff.mpr ⟨bs, rfl, ?_⟩
      exact forall₂_of_forall₂_of_mem has hbs fun v hv _ _ ha hb => ih v hv ha hb
  | derived operator body left right ihl ihr =>
      obtain ⟨l, r, rfl, hl, hr⟩ := derived_equal_iff.mp h
      obtain ⟨m, q, rfl, hm, hq⟩ := derived_equal_iff.mp h'
      refine derived_equal_iff.mpr ⟨m, q, rfl, ihl hl hm, ?_⟩
      cases hr with
      | none =>
          cases hq
          exact .none
      | some hr =>
          cases hq with
          | some hq => exact .some (ihr _ rfl hr hq)
  | _ =>
      obtain rfl := (atom_equal_iff (by trivial)).mp h
      exact h'

/-! ## Values that hold a NaN -/

/-- A NaN occurs in the value: by itself, in a cell or in an operand, at any depth. -/
def HoldsNaN (v : Value) : Prop := ∃ x : Binary64, x.isNaN = true ∧ v.Contains (.float x)

theorem holdsNaN_number_iff {n : Number} :
    (Value.number n).HoldsNaN ↔ ∃ x : Binary64, n = .float x ∧ x.isNaN = true := by
  constructor
  · rintro ⟨x, hx, h⟩
    exact ⟨x, (Value.number.inj (contains_number_iff.mp h)).symm, hx⟩
  · rintro ⟨x, rfl, hx⟩
    exact ⟨x, hx, .self⟩

theorem holdsNaN_array_iff : (Value.array s as).HoldsNaN ↔ ∃ v ∈ as, v.HoldsNaN := by
  constructor
  · rintro ⟨x, hx, h⟩
    obtain ⟨v, hv, h⟩ := array_contains_number_iff.mp h
    exact ⟨v, hv, x, hx, h⟩
  · rintro ⟨v, hv, x, hx, h⟩
    exact ⟨x, hx, .cell hv h⟩

theorem holdsNaN_derived_iff {operator : Name} {body : BodyId} {l : Value} {r : Option Value} :
    (Value.derived operator body l r).HoldsNaN ↔ l.HoldsNaN ∨ ∃ v ∈ r, v.HoldsNaN := by
  constructor
  · rintro ⟨x, hx, h⟩
    rcases derived_contains_number_iff.mp h with h | ⟨v, hv, h⟩
    · exact .inl ⟨x, hx, h⟩
    · exact .inr ⟨v, hv, x, hx, h⟩
  · rintro (⟨x, hx, h⟩ | ⟨v, rfl, x, hx, h⟩)
    · exact ⟨x, hx, .left h⟩
    · exact ⟨x, hx, .right h⟩

/-- Atoms hold no floats. -/
theorem IsAtom.not_holdsNaN (hv : v.IsAtom) : ¬ v.HoldsNaN := by
  rintro ⟨x, -, h⟩
  rcases contains_iff.mp h with rfl | ⟨u, hu, h⟩ | ⟨_, _, _, _, rfl, -⟩
  · exact hv
  · -- texts and integer words are atoms of their own, with no cells to look into
    cases v with
    | strings g =>
        obtain ⟨s, -, rfl⟩ := List.mem_map.mp hu
        cases h with
        | cell hw => cases hw
    | indexes g =>
        obtain ⟨i, -, rfl⟩ := List.mem_map.mp hu
        cases h with
        | cell hw => cases hw
    | array => exact hv
    | _ => cases hu
  · exact hv

/-- **A value equals itself unless a NaN occurs in it.** -/
theorem equal_self_iff (v : Value) : equal v v = true ↔ ¬ v.HoldsNaN := by
  induction v using ind with
  | number n =>
      show n.equal n = true ↔ _
      rw [Number.equal_self_iff, holdsNaN_number_iff]
  | array s cells ih =>
      rw [holdsNaN_array_iff, array_equal_iff]
      simp only [array.injEq, true_and, exists_eq_left, List.forall₂_same]
      push Not
      exact forall₂_congr ih
  | derived operator body left right ihl ihr =>
      have hself : equal (.derived operator body left right) (.derived operator body left right) =
          true ↔ equal left left = true ∧ Option.Rel (fun a b => equal a b = true) right right := by
        simp [derived_equal_iff]
      have hright : Option.Rel (fun a b => equal a b = true) right right ↔
          ∀ v ∈ right, ¬ v.HoldsNaN := by
        cases right with
        | none => simp
        | some r => simpa using ihr r rfl
      rw [hself, ihl, hright, holdsNaN_derived_iff]
      push Not
      rfl
  | _ =>
      exact iff_of_true ((atom_equal_iff (by trivial)).mpr rfl) (IsAtom.not_holdsNaN (by trivial))

/-! ## Arrays -/

/-- Lists of atoms are equal cell by cell if they are the same. -/
theorem forall₂_equal_map_iff {α : Type} {f : α → Value}
    (hf : ∀ a b, equal (f a) (f b) = true ↔ a = b) {as bs : List α} :
    List.Forall₂ (fun a b => equal a b = true) (as.map f) (bs.map f) ↔ as = bs := by
  simp only [List.forall₂_map_left_iff, List.forall₂_map_right_iff, hf, List.forall₂_eq_eq_eq]

/-- Arrays of one kind are equal if their shapes are and if their cells are in turn. -/
theorem equal_iff_cells (hv : v.isArray = true) (hk : v.kind = w.kind) :
    equal v w = true ↔ v.shape? = w.shape? ∧
      List.Forall₂ (fun a b => equal a b = true) (v.cells?.getD []) (w.cells?.getD []) := by
  cases v with
  | array s as =>
      cases w with
      | array t bs =>
          simp only [array_equal_iff, shape?, cells?]
          grind
      | number n => cases n <;> cases hk
      | _ => cases hk
  -- arrays of texts and of indexes are compared as a whole, which is cell by cell
  | strings g =>
      cases w with
      | strings h =>
          have htext : ∀ a b, equal (.text a) (.text b) = true ↔ a = b := fun a b => beq_iff_eq
          rw [atom_equal_iff (by trivial)]
          obtain ⟨s, as⟩ := g
          obtain ⟨t, bs⟩ := h
          simp [shape?, cells?, forall₂_equal_map_iff htext]
      | number n => cases n <;> cases hk
      | _ => cases hk
  | indexes g =>
      cases w with
      | indexes h =>
          have hint : ∀ a b, equal (.int a) (.int b) = true ↔ a = b := fun a b => beq_iff_eq
          rw [atom_equal_iff (by trivial)]
          obtain ⟨s, as⟩ := g
          obtain ⟨t, bs⟩ := h
          simp [shape?, cells?, forall₂_equal_map_iff hint]
      | number n => cases n <;> cases hk
      | _ => cases hk
  | emptyArray =>
      cases w with
      | emptyArray => exact iff_of_true rfl ⟨rfl, .nil⟩
      | number n => cases n <;> cases hk
      | _ => cases hk
  | _ => cases hv

/-- **Equality of values.** It is symmetric and transitive, and a value equals itself exactly if no
NaN occurs in it: as a number, in a cell or in an operand, at any depth. Values of different kinds
differ, also arrays without cells, and arrays of one kind are equal exactly if they have the same
shape and their cells are equal one by one. -/
theorem equal_laws :
    (∀ v w : Value, equal v w = equal w v) ∧
      (∀ u v w : Value, equal u v = true → equal v w = true → equal u w = true) ∧
      (∀ v : Value, equal v v = true ↔ ¬ v.HoldsNaN) ∧
      (∀ v w : Value, v.kind ≠ w.kind → equal v w = false) ∧
      (∀ s t : Shape, equal .emptyArray (.array s []) = false ∧
        equal .emptyArray (.indexes ⟨t, []⟩) = false ∧
        equal (.array s []) (.indexes ⟨t, []⟩) = false) ∧
      ∀ v w : Value, v.isArray = true → v.kind = w.kind →
        (equal v w = true ↔ v.shape? = w.shape? ∧
          List.Forall₂ (fun a b => equal a b = true) (v.cells?.getD []) (w.cells?.getD [])) := by
  have hkind : ∀ v w : Value, v.kind ≠ w.kind → equal v w = false := by
    intro v w hne
    exact Bool.eq_false_iff.mpr fun h => hne (kind_eq_of_equal h)
  refine ⟨?_, ?_, equal_self_iff, hkind, ?_, fun v w => equal_iff_cells⟩
  · intro v w
    exact Bool.eq_iff_iff.mpr ⟨equal_symm, equal_symm⟩
  · intro u v w h h'
    exact equal_of_equal (equal_symm h) h'
  · intro s t
    exact ⟨hkind _ _ nofun, hkind _ _ nofun, hkind _ _ nofun⟩

/-- A zero and the negative zero are equal wherever they stand, in a cell or in an operand. -/
theorem equal_laws_zeros :
    let zeros (x y : Binary64) : Value := .vector [.float x, .derived ⟨5⟩ ⟨0⟩ (.float y) none]
    let u := zeros ⟨0⟩ ⟨0⟩
    let v := zeros ⟨0x8000000000000000⟩ ⟨0⟩
    let w := zeros ⟨0⟩ ⟨0x8000000000000000⟩
    (equal u v = true ∧ equal v w = true ∧ equal u w = true) ∧
      ((int 0).kind ≠ (bool false).kind ∧ equal (.int 0) (.bool false) = false) ∧
      u.isArray = true ∧ u.kind = w.kind ∧
        (equal u w = true ↔ u.shape? = w.shape? ∧
          List.Forall₂ (fun a b => equal a b = true) (u.cells?.getD []) (w.cells?.getD [])) := by
  intro zeros u v w
  obtain ⟨-, htrans, -, hkind, -, harrays⟩ := equal_laws
  have huv : equal u v = true := rfl
  have hvw : equal v w = true := rfl
  exact ⟨⟨huv, hvw, htrans u v w huv hvw⟩, ⟨nofun, hkind _ _ nofun⟩, rfl, rfl, harrays u w rfl rfl⟩

end Value

end ArrayLang
