import ArrayLang.Domain.Basic
import Mathlib.Logic.Relation

/-!
# Missing children

A `not` or an `or` that lacks a child rejects everything, so that an unfinished domain does not
accept by accident. Whether the whole domain is then safe depends on where the node stands, since
every `not` around it turns rejecting into accepting. `Domain.PutsIn` puts in one missing child, and
says whether the number of `not`s around its node is odd.

* `Domain.missing_children_reject` — below an even number of `not`s nothing that the domain accepts
  is lost when children are put in, and below an odd number nothing is gained.
* `Domain.missing_child_permits` — so a missing child can make a domain more permissive.
-/

namespace ArrayLang

namespace Domain

variable {tower : Tower} {v : Value} {d d' e : Domain} {odd : Bool}

/-! ## What domains accept -/

/-- The domain lets the value through, as it is or converted. -/
def Accepts (tower : Tower) (d : Domain) (v : Value) : Prop := (d.convert? tower v).isSome = true

theorem accepts_iff : d.Accepts tower v ↔ (d.convert? tower v).isSome = true := Iff.rfl

/-- A leaf hands on what it has accepted to its child. -/
theorem accepts_leaf_iff {l : Leaf} :
    (leaf l (some d)).Accepts tower v ↔ ∃ w, l.accept? tower v = some w ∧ d.Accepts tower w := by
  show ((l.accept? tower v).bind (d.convert? tower)).isSome = true ↔
    ∃ w, l.accept? tower v = some w ∧ (d.convert? tower w).isSome = true
  cases l.accept? tower v <;> simp

/-- A negation accepts whatever its child rejects. -/
theorem accepts_not_iff : (not (some d)).Accepts tower v ↔ ¬ d.Accepts tower v := by
  simp only [accepts_iff, convert?]
  cases d.convert? tower v <;> simp

/-- Of two domains one is enough. -/
theorem accepts_or_iff :
    (or (some d) (some e)).Accepts tower v ↔ d.Accepts tower v ∨ e.Accepts tower v := by
  simp only [accepts_iff, convert?]
  cases d.convert? tower v <;> simp

/-- Without a child a negation accepts nothing. -/
theorem not_accepts_not_none : ¬ (not none).Accepts tower v := Bool.false_ne_true

theorem not_accepts_none_or (second : Option Domain) : ¬ (or none second).Accepts tower v :=
  Bool.false_ne_true

theorem not_accepts_or_none (first : Option Domain) : ¬ (or first none).Accepts tower v := by
  cases first <;> exact Bool.false_ne_true

/-- The second domain accepts whatever the first one accepts. -/
def Narrower (tower : Tower) (d d' : Domain) : Prop := ∀ v, d.Accepts tower v → d'.Accepts tower v

namespace Narrower

/-- A domain that accepts nothing is narrower than any other. -/
theorem of_rejects (h : ∀ v, ¬ d.Accepts tower v) : d.Narrower tower d' :=
  fun v hv => absurd hv (h v)

/-- A narrower child makes a narrower leaf. -/
theorem leaf (h : d.Narrower tower d') (l : Leaf) :
    (leaf l (some d)).Narrower tower (leaf l (some d')) := by
  intro v hv
  obtain ⟨w, hw, hd⟩ := accepts_leaf_iff.mp hv
  exact accepts_leaf_iff.mpr ⟨w, hw, h w hd⟩

/-- A `not` turns the order round. -/
theorem not (h : d.Narrower tower d') : (not (some d')).Narrower tower (not (some d)) := by
  intro v hv
  rw [accepts_not_iff] at hv ⊢
  exact mt (h v) hv

/-- A narrower alternative makes a narrower choice. -/
theorem first (h : d.Narrower tower d') (second : Option Domain) :
    (or (some d) second).Narrower tower (or (some d') second) := by
  cases second with
  | none => exact of_rejects fun v => not_accepts_or_none _
  | some e =>
      intro v hv
      rw [accepts_or_iff] at hv ⊢
      exact hv.imp_left (h v)

theorem second (h : d.Narrower tower d') (first : Option Domain) :
    (or first (some d)).Narrower tower (or first (some d')) := by
  cases first with
  | none => exact of_rejects fun v => not_accepts_none_or _
  | some e =>
      intro v hv
      rw [accepts_or_iff] at hv ⊢
      exact hv.imp_right (h v)

end Narrower

/-! ## Putting children in -/

/-- `d'` is `d` with one child put in that a `not` or an `or` lacked; `odd` says whether this node
stands below an odd number of `not`s. -/
inductive PutsIn : (odd : Bool) → Domain → Domain → Prop
  | not (d : Domain) : PutsIn false (.not none) (.not (some d))
  | first (d : Domain) (second : Option Domain) :
      PutsIn false (.or none second) (.or (some d) second)
  | second (first : Option Domain) (d : Domain) :
      PutsIn false (.or first none) (.or first (some d))
  | belowLeaf {odd : Bool} {d d' : Domain} (l : Leaf) (h : PutsIn odd d d') :
      PutsIn odd (.leaf l (some d)) (.leaf l (some d'))
  | belowNot {odd : Bool} {d d' : Domain} (h : PutsIn odd d d') :
      PutsIn (!odd) (.not (some d)) (.not (some d'))
  | belowFirst {odd : Bool} {d d' : Domain} (second : Option Domain) (h : PutsIn odd d d') :
      PutsIn odd (.or (some d) second) (.or (some d') second)
  | belowSecond {odd : Bool} {d d' : Domain} (first : Option Domain) (h : PutsIn odd d d') :
      PutsIn odd (.or first (some d)) (.or first (some d'))

/-- The order of a domain and one that was made from it, with the former first unless `odd`. -/
def Ordered (tower : Tower) (odd : Bool) (d d' : Domain) : Prop :=
  bif odd then d'.Narrower tower d else d.Narrower tower d'

/-- **One child more.** -/
theorem PutsIn.ordered (h : PutsIn odd d d') : Ordered tower odd d d' := by
  induction h with
  | not d => exact Narrower.of_rejects fun v => not_accepts_not_none
  | first d second => exact Narrower.of_rejects fun v => not_accepts_none_or second
  | second first d => exact Narrower.of_rejects fun v => not_accepts_or_none first
  | @belowLeaf odd _ _ l _ ih => cases odd <;> exact Narrower.leaf ih l
  | @belowNot odd _ _ _ ih => cases odd <;> exact Narrower.not ih
  | @belowFirst odd _ _ second _ ih => cases odd <;> exact Narrower.first ih second
  | @belowSecond odd _ _ first _ ih => cases odd <;> exact Narrower.second ih first

open Relation

/-- Any number of children more. -/
theorem ordered_of_putsIn (h : ReflTransGen (PutsIn odd) d d') : Ordered tower odd d d' := by
  induction h with
  | refl => cases odd <;> exact fun v hv => hv
  | tail _ hput ih =>
      have hone : Ordered tower odd _ _ := hput.ordered
      cases odd with
      | false => exact fun v hv => hone v (ih v hv)
      | true => exact fun v hv => ih v (hone v hv)

/-- **What is missing rejects.** A node that lacks a child rejects everything. So however many of
the missing children are put in, and whatever they are, the domain accepts at least what it accepted
before if their nodes stand below an even number of `not`s, and at most that if they stand below an
odd number. -/
theorem missing_children_reject (tower : Tower) :
    (∀ v, ¬ (Domain.not none).Accepts tower v ∧
      ∀ child, ¬ (Domain.or none child).Accepts tower v ∧
        ¬ (Domain.or child none).Accepts tower v) ∧
    (∀ d d', ReflTransGen (PutsIn false) d d' → ∀ v, d.Accepts tower v → d'.Accepts tower v) ∧
    ∀ d d', ReflTransGen (PutsIn true) d d' → ∀ v, d'.Accepts tower v → d.Accepts tower v :=
  ⟨fun _ => ⟨not_accepts_not_none, fun child =>
      ⟨not_accepts_none_or child, not_accepts_or_none child⟩⟩,
    fun _ _ h => ordered_of_putsIn h, fun _ _ h => ordered_of_putsIn h⟩

/-- An `or` below two `not`s and a `not` below one get their missing children. The first domain goes
on to accept the indexes, and the text that the second one accepts now was accepted before. -/
theorem missing_children_reject_nested :
    (Domain.leaf .isArray (some (.or
      (some (.not (some (.not (some (.or (some (.leaf .isText none))
        (some (.leaf .isStringArray none))))))))
      (some (.leaf .isIndexArray none))))).Accepts .standard (.indexes (.vector [1, 2])) ∧
    (Domain.not (some (.not none))).Accepts .standard (.text "a") := by
  obtain ⟨-, heven, hodd⟩ := missing_children_reject .standard
  have hbelow := PutsIn.belowNot (.belowNot
    (.second (some (.leaf .isText none)) (.leaf .isStringArray none)))
  have hput := PutsIn.belowLeaf .isArray (.belowFirst (some (.leaf .isIndexArray none)) hbelow)
  have hput' := PutsIn.belowNot (.not (.leaf .isText none))
  exact ⟨heven _ _ (.single hput) _ rfl, hodd _ _ (.single hput') _ rfl⟩

/-- A `not` of a `not` accepts a number for lack of a child, and rejects it with one that asks for
a text. -/
theorem missing_child_permits :
    PutsIn true (.not (some (.not none))) (.not (some (.not (some (.leaf .isText none))))) ∧
    (Domain.not (some (.not none))).Accepts .standard (.int 1) ∧
    ¬ (Domain.not (some (.not (some (.leaf .isText none))))).Accepts .standard (.int 1) :=
  ⟨.belowNot (.not _), rfl, nofun⟩

end Domain

end ArrayLang
