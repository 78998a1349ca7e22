import ArrayLang.Source.Tree
import Mathlib.Data.List.Basic
import Mathlib.Data.List.Induction

/-!
# Grouping in printed expressions

The printed text of an expression shows how its parts are grouped: the parentheses around operands
suffice (`Tree.eq_of_print_eq`).

What the text cannot show is which words are functions. `a b` is a strand or the call of `a`, and
`a f b` calls `f` with two arguments, or `a` with what `f` gives. Texts are therefore compared
under a division of the operands into functions and others, as a reader of the language has it.
`Tree.ambiguous_groupings` has the texts that stay open without it.

Texts are taken apart from the end, since operators stand behind their left operands and calls
before their right arguments: what a text ends in, and what is left of it, is then found again
(`Tree.Spelled.isFound`).
-/

namespace ArrayLang

/-! ## The notation -/

/-- What a character is for. Letters make words; a symbol is a single character. -/
inductive Glyph where
  | letter
  | primitive
  | operator
deriving DecidableEq, Repr

/-- The use of each character, if it has one. -/
structure Lexicon where
  glyph? : Char → Option Glyph

namespace Lexicon

/-- Blanks and parentheses are kept for the grouping. -/
def Clear (lex : Lexicon) : Prop := ∀ c ∈ [' ', '(', ')'], lex.glyph? c = none

def IsWord (lex : Lexicon) (s : String) : Prop :=
  s ≠ "" ∧ ∀ c ∈ s.toList, lex.glyph? c = some .letter

def IsSymbol (lex : Lexicon) (g : Glyph) (s : String) : Prop :=
  ∃ c, s = String.singleton c ∧ lex.glyph? c = some g

end Lexicon

namespace Tree

/-- An expression of words, symbols, strands of two elements or more, calls and operator
applications. -/
inductive Spelled (lex : Lexicon) : Tree → Prop
  | word {name : String} (h : lex.IsWord name) : Spelled lex (.variable name)
  | symbol {symbol : String} (h : lex.IsSymbol .primitive symbol) :
      Spelled lex (.primitive symbol)
  | strand {items : List Tree} (hlength : 2 ≤ items.length) (h : ∀ t ∈ items, Spelled lex t) :
      Spelled lex (.strand items)
  | call {function right : Tree} {left : Option Tree} (hfunction : Spelled lex function)
      (hleft : ∀ t ∈ left, Spelled lex t) (hright : Spelled lex right) :
      Spelled lex (.call function left right)
  | derived {operator : String} {left : Tree} {right : Option Tree}
      (hoperator : lex.IsSymbol .operator operator) (hleft : Spelled lex left)
      (hright : ∀ t ∈ right, Spelled lex t) : Spelled lex (.derived operator left right)

/-- Whether the tree applies an operator. -/
def isDerived : Tree → Bool
  | .derived .. => true
  | _ => false

/-- The expression agrees with a division of operands into functions and others: what is called is
a function, and what stands on the left of a call or of an element of a strand is none. Functions
that are called need no parentheses, and right operands apply no operator of their own. -/
inductive GroupedBy (isFunction : Tree → Prop) : Tree → Prop
  | word {name : String} : GroupedBy isFunction (.variable name)
  | symbol {symbol : String} : GroupedBy isFunction (.primitive symbol)
  | strand {items : List Tree} (h : ∀ t ∈ items, GroupedBy isFunction t)
      (hothers : ∀ t ∈ items.dropLast, ¬ isFunction t) : GroupedBy isFunction (.strand items)
  | call {function right : Tree} {left : Option Tree} (hfunction : GroupedBy isFunction function)
      (hleft : ∀ t ∈ left, GroupedBy isFunction t) (hright : GroupedBy isFunction right)
      (hcalled : isFunction function) (hothers : ∀ t ∈ left, ¬ isFunction t)
      (hbare : function.isLoose = false) : GroupedBy isFunction (.call function left right)
  | derived {operator : String} {left : Tree} {right : Option Tree}
      (hleft : GroupedBy isFunction left) (hright : ∀ t ∈ right, GroupedBy isFunction t)
      (hbare : ∀ t ∈ right, t.isDerived = false) :
      GroupedBy isFunction (.derived operator left right)

/-! ## Words -/

/-- The operands that the text of an expression sets side by side. -/
def words : Tree → List Tree
  | .strand items => items
  | .call function left right => left.toList ++ function :: words right
  | t => [t]

/-- The text of a tree as an operand. -/
def operand (t : Tree) : List Char := (asOperand t t.print).toList

variable {lex : Lexicon} {isFunction : Tree → Prop} {t u function left right : Tree}

/-- Where several words stand side by side, an operand is put into parentheses. -/
theorem operand_of_isLoose (h : t.isLoose = true) :
    t.operand = '(' :: (t.print.toList ++ [')']) := by
  simp [operand, asOperand, h]

/-- A single word needs no parentheses. -/
theorem operand_of_not_isLoose (h : t.isLoose = false) : t.operand = t.print.toList := by
  simp [operand, asOperand, h]

theorem operand_primitive {symbol : String} : (primitive symbol).operand = symbol.toList := rfl

theorem operand_derived {operator : String} {right : Option Tree} :
    (derived operator left right).operand =
      left.operand ++ operator.toList ++ (right.map operand).getD [] := by
  rw [operand_of_not_isLoose rfl]
  cases right with
  | none => simp [print, operand]
  | some right => simp [print, operand]

/-- The words of a call are its left argument, its function and the words of its right argument. -/
theorem mem_words_call {left : Option Tree} :
    u ∈ (Tree.call function left right).words ↔ u ∈ left ∨ u = function ∨ u ∈ right.words := by
  simp [words]

/-- Whatever is not loose is one word. -/
theorem words_of_not_isLoose (h : t.isLoose = false) : t.words = [t] := by
  cases t with
  | strand | call | assign | selectiveAssign => cases h
  | number | bool | text | «variable» | primitive | closure | derived => rfl

/-- Every tree that is spelled has a word to begin with. -/
theorem Spelled.words_ne_nil (ht : t.Spelled lex) : t.words ≠ [] := by
  cases ht with
  | word | symbol | derived => exact List.cons_ne_nil _ _
  | strand hlength => exact List.ne_nil_of_length_pos (Nat.lt_of_lt_of_le Nat.two_pos hlength)
  | call => simp [words]

/-- A tree is loose when it is printed as two words or more. The shortest strand has two items, and
a call has a function and an argument. -/
theorem Spelled.isLoose_iff (ht : t.Spelled lex) : t.isLoose = true ↔ 2 ≤ t.words.length := by
  cases ht with
  | word | symbol | derived => exact iff_of_false nofun (Nat.not_succ_le_self 1)
  | strand hlength => exact iff_of_true rfl hlength
  | call hfunction hleft hright =>
      have hpos := List.length_pos_iff.mpr hright.words_ne_nil
      refine iff_of_true rfl ?_
      simp [words]
      omega

/-- Trees with the same words are both loose or both not. -/
theorem isLoose_eq_of_words_eq (ht : t.Spelled lex) (hu : u.Spelled lex) (h : t.words = u.words) :
    t.isLoose = u.isLoose := by
  rw [Bool.eq_iff_iff, ht.isLoose_iff, hu.isLoose_iff, h]

/-- With a blank at the end, each text is followed by one. This makes texts cancel from the left. -/
theorem intercalate_append_blank {texts : List (List Char)} (hne : texts ≠ []) :
    [' '].intercalate texts ++ [' '] = texts.flatMap (· ++ [' ']) := by
  induction texts with
  | nil => exact absurd rfl hne
  | cons v texts ih =>
      cases texts with
      | nil => simp
      | cons w texts =>
          rw [List.intercalate_cons_cons, List.append_assoc, ih (List.cons_ne_nil _ _)]
          rfl

/-- Every word of an expression is followed by a blank, if one is set behind the last. -/
theorem print_append_blank (ht : t.Spelled lex) (hgroup : t.GroupedBy isFunction) :
    t.print.toList ++ [' '] = t.words.flatMap (·.operand ++ [' ']) := by
  induction ht with
  | word | symbol | derived =>
      rw [words_of_not_isLoose rfl, List.flatMap_singleton, operand_of_not_isLoose rfl]
  | @strand items hlength =>
      have hne : items.map operand ≠ [] := by
        simpa using List.ne_nil_of_length_pos (Nat.lt_of_lt_of_le Nat.two_pos hlength)
      rw [print, printItems_eq_map, String.toList_intercalate, List.map_map]
      exact (intercalate_append_blank hne).trans (List.flatMap_map _ _ _)
  | @call function right left _ _ _ _ _ ih =>
      cases hgroup with
      | call _ _ hgroup _ _ hbare =>
          cases left with
          | none => simp [print, words, ih hgroup, operand_of_not_isLoose hbare]
          | some left =>
              simp [print, words, ih hgroup, operand_of_not_isLoose hbare]
              rfl

/-- A function followed by something is no element of a strand. -/
theorem GroupedBy.items_ne {items ws : List Tree} {left : Option Tree}
    (hgroup : (Tree.strand items).GroupedBy isFunction) (hcalled : isFunction function)
    (hne : ws ≠ []) : items ≠ left.toList ++ function :: ws := by
  rintro rfl
  cases hgroup with
  | strand _ hothers =>
      refine hothers function ?_ hcalled
      rw [List.dropLast_append_of_ne_nil (by simp), List.dropLast_cons_of_ne_nil hne]
      simp

/-- The function that is called stands in front, or behind a left argument, which is none. -/
theorem called_eq {left left' : Option Tree} {function' : Tree} {ws ws' : List Tree}
    (hcalled : isFunction function) (hcalled' : isFunction function')
    (hothers : ∀ t ∈ left, ¬ isFunction t) (hothers' : ∀ t ∈ left', ¬ isFunction t)
    (h : left.toList ++ function :: ws = left'.toList ++ function' :: ws') :
    left = left' ∧ function = function' ∧ ws = ws' := by
  cases left with
  | none =>
      cases left' with
      | none => simpa using h
      | some l' =>
          obtain ⟨rfl, -⟩ : function = l' ∧ _ := by simpa using h
          exact absurd hcalled (hothers' _ rfl)
  | some l =>
      cases left' with
      | none =>
          obtain ⟨rfl, -⟩ : l = function' ∧ _ := by simpa using h
          exact absurd hcalled' (hothers _ rfl)
      | some l' => simpa using h

/-- **Words determine the expression**, once it is known which of them are functions: a function in
front is called with the rest, a function in the second place with what stands on both sides, and
words without functions are a strand. -/
theorem eq_of_words_eq (ht : t.Spelled lex) (hu : u.Spelled lex) (hgroup : t.GroupedBy isFunction)
    (hgroup' : u.GroupedBy isFunction) (h : t.words = u.words) : t = u := by
  have hloose : t.isLoose = u.isLoose := isLoose_eq_of_words_eq ht hu h
  induction ht generalizing u with
  | word | symbol | derived =>
      rw [words_of_not_isLoose hloose.symm, words_of_not_isLoose rfl] at h
      exact List.singleton_inj.mp h
  | strand =>
      cases hu with
      | word | symbol | derived => cases hloose
      | strand => exact congrArg strand h
      | call _ _ hright =>
          cases hgroup' with
          | call _ _ _ hcalled => exact absurd h (hgroup.items_ne hcalled hright.words_ne_nil)
  | call hfunction hleft hright _ _ ih =>
      cases hgroup with
      | call _ _ hgroup hcalled hothers =>
          cases hu with
          | word | symbol | derived => cases hloose
          | strand => exact absurd h.symm (hgroup'.items_ne hcalled hright.words_ne_nil)
          | call _ _ hright' =>
              cases hgroup' with
              | call _ _ hgroup' hcalled' hothers' =>
                  obtain ⟨rfl, rfl, hwords⟩ := called_eq hcalled hcalled' hothers hothers' h
                  have hloose := isLoose_eq_of_words_eq hright hright' hwords
                  rw [ih hright' hgroup hgroup' hwords hloose]

/-! ## Texts -/

/-- The text before an operand is empty or ends in such a character. -/
def EndsIn (p : Char → Prop) (text : List Char) : Prop := ∀ c ∈ text.getLast?, p c

variable {p q : Char → Prop} {r s v w : List Char} {c : Char}

theorem endsIn_nil : EndsIn p [] := nofun

/-- The last character decides. -/
theorem endsIn_concat_iff : EndsIn p (r ++ [c]) ↔ p c := by
  simp [EndsIn]

/-- A weaker condition holds of the same last character. -/
theorem EndsIn.mono (h : EndsIn p r) (hpq : ∀ c, p c → q c) : EndsIn q r :=
  fun c hc => hpq c (h c hc)

/-- The longest ending with a property leaves no choice. -/
theorem eq_of_append_eq_append (hv : ∀ c ∈ v, p c) (hw : ∀ c ∈ w, p c) (hr : EndsIn (¬ p ·) r)
    (hs : EndsIn (¬ p ·) s) (h : r ++ v = s ++ w) : v = w ∧ r = s := by
  -- what one of the endings has more than the other would end the text before it
  have hmore : ∀ {r more : List Char}, (∀ c ∈ more, p c) → EndsIn (¬ p ·) (r ++ more) →
      more = [] := by
    intro r more hmore hends
    rcases more.eq_nil_or_concat with rfl | ⟨more, c, rfl⟩
    · rfl
    · rw [List.concat_eq_append, ← List.append_assoc] at hends
      exact absurd (hmore c (by simp)) (endsIn_concat_iff.mp hends)
  rcases List.append_eq_append_iff.mp h with ⟨more, rfl, rfl⟩ | ⟨more, rfl, rfl⟩
  · obtain rfl := hmore (fun c hc => hv c (List.mem_append_left _ hc)) hs
    simp
  · obtain rfl := hmore (fun c hc => hw c (List.mem_append_left _ hc)) hr
    simp

/-! ## The ends of texts -/

/-- What the last character of the text as an operand is for. -/
def lastGlyph? : Tree → Option Glyph
  | .variable _ => some .letter
  | .primitive _ => some .primitive
  | .derived _ _ none => some .operator
  | .derived _ _ (some right) => lastGlyph? right
  | _ => none

/-- The last character of an operand tells what kind of tree it ends with. -/
theorem Spelled.exists_last (hlex : lex.Clear) (ht : t.Spelled lex) :
    ∃ v c, t.operand = v ++ [c] ∧ lex.glyph? c = t.lastGlyph? := by
  have hloose : ∀ u : Tree, u.isLoose = true →
      ∃ v c, u.operand = v ++ [c] ∧ lex.glyph? c = none := by
    intro u hu
    exact ⟨'(' :: u.print.toList, ')', operand_of_isLoose hu, hlex _ (by simp)⟩
  induction ht with
  | @word name h =>
      obtain ⟨v, c, hname⟩ := (List.eq_nil_or_concat name.toList).resolve_left (by simpa using h.1)
      rw [List.concat_eq_append] at hname
      exact ⟨v, c, hname, h.2 c (by simp [hname])⟩
  | symbol h =>
      obtain ⟨c, rfl, hc⟩ := h
      exact ⟨[], c, by simp [operand_primitive], hc⟩
  | strand => exact hloose _ rfl
  | call => exact hloose _ rfl
  | @derived operator left right hoperator _ _ _ ih =>
      obtain ⟨c, rfl, hc⟩ := hoperator
      cases right with
      | none => exact ⟨left.operand, c, by simp [operand_derived], hc⟩
      | some right =>
          obtain ⟨v, d, hright, hd⟩ := ih right rfl
          exact ⟨left.operand ++ [c] ++ v, d, by simp [operand_derived, hright], hd⟩

/-- A parenthesis at the end is no glyph. -/
theorem lastGlyph?_of_isLoose (h : t.isLoose = true) : t.lastGlyph? = none := by
  cases t with
  | strand | call | assign | selectiveAssign => rfl
  | number | bool | text | «variable» | primitive | closure | derived => cases h

/-- Only an operator application ends with an operator. -/
theorem Spelled.lastGlyph?_ne_operator (ht : t.Spelled lex) (hbare : t.isDerived = false) :
    t.lastGlyph? ≠ some .operator := by
  cases ht with
  | word | symbol | strand | call => exact nofun
  | derived => cases hbare

/-- Texts with the same end have last operands that end alike. -/
theorem lastGlyph?_eq (hlex : lex.Clear) (ht : t.Spelled lex) (hu : u.Spelled lex)
    (h : r ++ t.operand = s ++ u.operand) : t.lastGlyph? = u.lastGlyph? := by
  obtain ⟨v, c, ht, hc⟩ := ht.exists_last hlex
  obtain ⟨w, d, hu, hd⟩ := hu.exists_last hlex
  have hlast : c = d := by
    rw [ht, hu, ← List.append_assoc, ← List.append_assoc] at h
    exact (List.append_singleton_inj.mp h).2
  rw [← hc, ← hd, hlast]

/-! ## Cancelling at the end -/

/-- The expressions that are told apart. -/
def Fits (lex : Lexicon) (isFunction : Tree → Prop) (t : Tree) : Prop :=
  t.Spelled lex ∧ t.GroupedBy isFunction

/-- The operator of a tree that fits is one, and its operands fit; a right operand is no application
itself. -/
theorem Fits.operands {operator : String} {right : Option Tree}
    (h : (derived operator left right).Fits lex isFunction) :
    lex.IsSymbol .operator operator ∧ left.Fits lex isFunction ∧
      ∀ t ∈ right, t.Fits lex isFunction ∧ t.isDerived = false := by
  obtain ⟨ht, hgroup⟩ := h
  cases ht with
  | derived hoperator hleft hright =>
      cases hgroup with
      | derived hleft' hright' hbare =>
          exact ⟨hoperator, ⟨hleft, hleft'⟩, fun t ht => ⟨⟨hright t ht, hright' t ht⟩, hbare t ht⟩⟩

/-- All words of a tree that fits do so. -/
theorem Fits.words (h : t.Fits lex isFunction) : ∀ w ∈ t.words, w.Fits lex isFunction := by
  obtain ⟨ht, hgroup⟩ := h
  induction ht with
  | word | symbol | derived =>
      intro w hw
      obtain rfl := List.mem_singleton.mp hw
      exact ⟨by constructor <;> assumption, hgroup⟩
  | strand _ h =>
      cases hgroup with
      | strand hgroup => exact fun w hw => ⟨h w hw, hgroup w hw⟩
  | call hfunction hleft hright _ _ ih =>
      cases hgroup with
      | call hfunction' hleft' hright' =>
          intro w hw
          rcases mem_words_call.mp hw with hw | rfl | hw
          · exact ⟨hleft w hw, hleft' w hw⟩
          · exact ⟨hfunction, hfunction'⟩
          · exact ih hright' w hw

/-- The tree is found again at the end of any text that it ends, given what the text before it may
end in. -/
def Cancels (others : Tree → Prop) (before : Char → Prop) (t : Tree) : Prop :=
  ∀ u r s, others u → EndsIn before r → EndsIn before s → r ++ t.operand = s ++ u.operand →
    t = u ∧ r = s

/-- An operand is found again after a blank or a parenthesis. -/
def CancelsOperand (lex : Lexicon) (isFunction : Tree → Prop) (t : Tree) : Prop :=
  t.Cancels (Fits lex isFunction) (lex.glyph? · = none)

/-- An operand that applies no operator is also found again after one. -/
def CancelsBare (lex : Lexicon) (isFunction : Tree → Prop) (t : Tree) : Prop :=
  t.Cancels (fun u => u.Fits lex isFunction ∧ u.isDerived = false) (¬ lex.glyph? · = some .letter)

section

variable (hlex : lex.Clear)
include hlex

/-- Words are found again from the last to the first, behind the start or a parenthesis. -/
theorem eq_of_flatMap_eq {ws vs : List Tree} (hws : ∀ w ∈ ws, w.CancelsOperand lex isFunction)
    (hvs : ∀ v ∈ vs, v.Fits lex isFunction) (hr : EndsIn (· = '(') r) (hs : EndsIn (· = '(') s)
    (h : r ++ ws.flatMap (·.operand ++ [' ']) = s ++ vs.flatMap (·.operand ++ [' '])) :
    ws = vs ∧ r = s := by
  have hends : ∀ {r} {ws : List Tree}, EndsIn (· = '(') r →
      EndsIn (lex.glyph? · = none) (r ++ ws.flatMap (·.operand ++ [' '])) := by
    intro r ws hr
    rcases ws.eq_nil_or_concat with rfl | ⟨ws, w, rfl⟩
    · simpa using hr.mono fun c hc => hlex c (by simp [hc])
    · simpa [EndsIn] using hlex ' ' (by simp)
  -- on the words from the last one, since only the end of both texts is known to be the same
  induction ws using List.reverseRecOn generalizing vs with
  | nil =>
      rcases vs.eq_nil_or_concat with rfl | ⟨vs, v, rfl⟩
      · simpa using h
      · obtain rfl : r = _ := by simpa using h
        simp [EndsIn] at hr
  | append_singleton ws w ih =>
      rcases vs.eq_nil_or_concat with rfl | ⟨vs, v, rfl⟩
      · obtain rfl : _ = s := by simpa using h
        simp [EndsIn] at hs
      · have hlast : r ++ ws.flatMap (·.operand ++ [' ']) ++ w.operand =
            s ++ vs.flatMap (·.operand ++ [' ']) ++ v.operand := by
          simpa [← List.append_assoc] using h
        obtain ⟨rfl, hrest⟩ := hws w (by simp) v _ _ (hvs v (by simp)) (hends hr) (hends hs) hlast
        obtain ⟨rfl, rfl⟩ := ih (fun w hw => hws w (by simp [hw]))
          (fun v hv => hvs v (by simp [hv])) hrest
        simp

theorem cancelsBare_word {name : String} (h : lex.IsWord name) :
    (Tree.variable name).CancelsBare lex isFunction := by
  intro u r s hu hr hs htext
  obtain ⟨⟨hu, -⟩, hbare⟩ := hu
  have hlast := lastGlyph?_eq hlex (.word h) hu htext
  cases hu with
  | word h' =>
      obtain ⟨hname, rfl⟩ := eq_of_append_eq_append h.2 h'.2 hr hs htext
      exact ⟨congrArg Tree.variable (String.toList_inj.mp hname), rfl⟩
  | symbol | strand | call => cases hlast
  | derived => cases hbare

/-- A symbol is read at once: it is a single character. -/
theorem cancelsBare_symbol {symbol : String} (h : lex.IsSymbol .primitive symbol) :
    (Tree.primitive symbol).CancelsBare lex isFunction := by
  intro u r s hu hr hs htext
  obtain ⟨⟨hu, -⟩, hbare⟩ := hu
  have hlast := lastGlyph?_eq hlex (.symbol h) hu htext
  cases hu with
  | symbol h' =>
      obtain ⟨c, rfl, -⟩ := h
      obtain ⟨d, rfl, -⟩ := h'
      obtain ⟨rfl, rfl⟩ : r = s ∧ c = d := by simpa [operand_primitive] using htext
      exact ⟨rfl, rfl⟩
  | word | strand | call => cases hlast
  | derived => cases hbare

/-- What stands in parentheses is told apart by its words. -/
theorem cancelsBare_loose (hloose : t.isLoose = true) (ht : t.Fits lex isFunction)
    (hwords : ∀ w ∈ t.words, w.CancelsOperand lex isFunction) : t.CancelsBare lex isFunction := by
  intro u r s hu hr hs htext
  obtain ⟨hu, hbare⟩ := hu
  have hloose' : u.isLoose = true := by
    have hlast := lastGlyph?_eq hlex ht.1 hu.1 htext
    rw [lastGlyph?_of_isLoose hloose] at hlast
    cases hu.1 with
    | strand | call => rfl
    | word | symbol => cases hlast
    | derived => cases hbare
  have hprint : r ++ ['('] ++ t.print.toList = s ++ ['('] ++ u.print.toList := by
    rw [operand_of_isLoose hloose, operand_of_isLoose hloose'] at htext
    have hclosed : r ++ ['('] ++ t.print.toList ++ [')'] =
        s ++ ['('] ++ u.print.toList ++ [')'] := by
      simpa using htext
    exact List.append_cancel_right hclosed
  have hblank : r ++ ['('] ++ t.words.flatMap (·.operand ++ [' ']) =
      s ++ ['('] ++ u.words.flatMap (·.operand ++ [' ']) := by
    rw [← print_append_blank ht.1 ht.2, ← print_append_blank hu.1 hu.2, ← List.append_assoc, hprint,
      List.append_assoc]
  obtain ⟨hsame, hrest⟩ := eq_of_flatMap_eq hlex hwords hu.words (endsIn_concat_iff.mpr rfl)
    (endsIn_concat_iff.mpr rfl) hblank
  exact ⟨eq_of_words_eq ht.1 hu.1 ht.2 hu.2 hsame, List.append_cancel_right hrest⟩

omit hlex in
/-- A blank or a parenthesis is no letter. -/
theorem endsIn_ne_letter (hr : EndsIn (lex.glyph? · = none) r) :
    EndsIn (¬ lex.glyph? · = some .letter) r :=
  hr.mono (by simp +contextual)

omit hlex in
/-- Behind an operator stands nothing but its right operand. -/
theorem not_endsIn_of_operator (hc : lex.glyph? c = some .operator) :
    ¬ EndsIn (lex.glyph? · = none) (r ++ [c]) := by
  simp [endsIn_concat_iff, hc]

/-- An operand that applies no operator is also found again where an operator may stand before other
operands, since none stands before it. -/
theorem CancelsBare.cancelsOperand (h : t.CancelsBare lex isFunction) (ht : t.Spelled lex)
    (hbare : t.isDerived = false) : t.CancelsOperand lex isFunction := by
  intro u r s hu hr hs htext
  have hlast := lastGlyph?_eq hlex ht hu.1 htext
  cases u with
  | derived operator left right =>
      obtain ⟨⟨c, rfl, hc⟩, hleft, hright⟩ := hu.operands
      cases right with
      | none => exact absurd hlast (ht.lastGlyph?_ne_operator hbare)
      | some right =>
          have hsplit : r ++ t.operand = s ++ left.operand ++ [c] ++ right.operand := by
            simpa [operand_derived] using htext
          obtain ⟨-, rfl⟩ := h right r _ (hright _ rfl) (endsIn_ne_letter hr)
            (endsIn_concat_iff.mpr (by simp [hc])) hsplit
          exact absurd hr (not_endsIn_of_operator hc)
  | _ => exact h _ r s ⟨hu, rfl⟩ (endsIn_ne_letter hr) (endsIn_ne_letter hs) htext

omit hlex in
/-- An operator application ends in its operator exactly if there is no right operand. -/
theorem Fits.right_eq_none_iff {operator : String} {right : Option Tree}
    (h : (derived operator left right).Fits lex isFunction) :
    right = none ↔ (derived operator left right).lastGlyph? = some .operator := by
  obtain ⟨-, -, hright⟩ := h.operands
  cases right with
  | none => simp [lastGlyph?]
  | some right =>
      obtain ⟨hfits, hbare⟩ := hright right rfl
      exact iff_of_false nofun (hfits.1.lastGlyph?_ne_operator hbare)

/-- An operator application is found again from its end: first its right operand, if it has one,
then the operator and the left operand. -/
theorem cancelsOperand_derived {operator : String} {right : Option Tree}
    (ht : (derived operator left right).Fits lex isFunction)
    (hleft : left.CancelsOperand lex isFunction)
    (hright : ∀ t ∈ right, t.CancelsBare lex isFunction) :
    (derived operator left right).CancelsOperand lex isFunction := by
  intro u r s hu hr hs htext
  have hlast := lastGlyph?_eq hlex ht.1 hu.1 htext
  obtain ⟨⟨c, rfl, hc⟩, -⟩ := ht.operands
  have hends : EndsIn (¬ lex.glyph? · = some .letter) (r ++ left.operand ++ [c]) :=
    endsIn_concat_iff.mpr (by simp [hc])
  cases hbare : u.isDerived with
  | false =>
      -- the right operand alone would be the other tree, with its operator before it
      cases right with
      | none => exact absurd hlast.symm (hu.1.lastGlyph?_ne_operator hbare)
      | some right =>
          have hsplit : r ++ left.operand ++ [c] ++ right.operand = s ++ u.operand := by
            simpa [operand_derived] using htext
          obtain ⟨-, rfl⟩ := hright _ rfl u _ s ⟨hu, hbare⟩ hends (endsIn_ne_letter hs) hsplit
          exact absurd hs (not_endsIn_of_operator hc)
  | true =>
      cases u with
      | derived operator' left' right' =>
          have hnone : right = none ↔ right' = none := by
            rw [ht.right_eq_none_iff, hu.right_eq_none_iff, hlast]
          obtain ⟨⟨d, rfl, hd⟩, hleft', hright'⟩ := hu.operands
          -- what is left of both texts once equal right operands are cancelled
          have hheads : r ++ left.operand ++ [c] = s ++ left'.operand ++ [d] →
              left = left' ∧ c = d ∧ r = s := by
            intro hheads
            obtain ⟨hlefts, rfl⟩ := List.append_singleton_inj.mp hheads
            obtain ⟨rfl, rfl⟩ := hleft left' r s hleft' hr hs hlefts
            exact ⟨rfl, rfl, rfl⟩
          cases right with
          | none =>
              obtain rfl := hnone.mp rfl
              obtain ⟨rfl, rfl, rfl⟩ := hheads (by simpa [operand_derived] using htext)
              exact ⟨rfl, rfl⟩
          | some right =>
              obtain ⟨right', rfl⟩ := Option.ne_none_iff_exists'.mp (hnone.not.mp nofun)
              have hsplit : r ++ left.operand ++ [c] ++ right.operand =
                  s ++ left'.operand ++ [d] ++ right'.operand := by
                simpa [operand_derived] using htext
              obtain ⟨rfl, hrest⟩ := hright _ rfl right' _ _ (hright' _ rfl) hends
                (endsIn_concat_iff.mpr (by simp [hd])) hsplit
              obtain ⟨rfl, rfl, rfl⟩ := hheads hrest
              exact ⟨rfl, rfl⟩
      | _ => cases hbare

omit hlex in
/-- What is found again of an expression: itself, where an operator may stand before it, and its
words. -/
structure IsFound (lex : Lexicon) (isFunction : Tree → Prop) (t : Tree) : Prop where
  bare : t.isDerived = false → t.CancelsBare lex isFunction
  words : ∀ w ∈ t.words, w.CancelsOperand lex isFunction

/-- A tree that is found without parentheses is found within them. -/
theorem IsFound.operand (h : t.IsFound lex isFunction) (ht : t.Spelled lex) :
    t.CancelsOperand lex isFunction := by
  cases ht with
  | derived => exact h.words _ List.mem_cons_self
  | word | symbol | strand | call =>
      exact (h.bare rfl).cancelsOperand hlex (by constructor <;> assumption) rfl

/-- **Every expression is found again**, by induction on how it is made up. -/
theorem Spelled.isFound (ht : t.Spelled lex) (hgroup : t.GroupedBy isFunction) :
    t.IsFound lex isFunction := by
  induction ht with
  | @word name h =>
      have hbare : (Tree.variable name).CancelsBare lex isFunction := cancelsBare_word hlex h
      exact ⟨fun _ => hbare, by simpa [words] using hbare.cancelsOperand hlex (.word h) rfl⟩
  | @symbol symbol h =>
      have hbare : (Tree.primitive symbol).CancelsBare lex isFunction := cancelsBare_symbol hlex h
      exact ⟨fun _ => hbare, by simpa [words] using hbare.cancelsOperand hlex (.symbol h) rfl⟩
  -- loose trees stand in parentheses, and so do not end before the closing one
  | @strand items hlength h ih =>
      have hwords : ∀ w ∈ items, w.CancelsOperand lex isFunction := by
        cases hgroup with
        | strand hgroup => exact fun w hw => (ih w hw (hgroup w hw)).operand hlex (h w hw)
      exact ⟨fun _ => cancelsBare_loose hlex rfl ⟨.strand hlength h, hgroup⟩ hwords, hwords⟩
  | @call function right left hfunction hleft hright ihf ihl ihr =>
      have hwords : ∀ w ∈ (Tree.call function left right).words,
          w.CancelsOperand lex isFunction := by
        cases hgroup with
        | call hfunction' hleft' hright' =>
            intro w hw
            rcases mem_words_call.mp hw with hw | rfl | hw
            · exact (ihl w hw (hleft' w hw)).operand hlex (hleft w hw)
            · exact (ihf hfunction').operand hlex hfunction
            · exact (ihr hright').words w hw
      have hfits : (Tree.call function left right).Fits lex isFunction :=
        ⟨.call hfunction hleft hright, hgroup⟩
      exact ⟨fun _ => cancelsBare_loose hlex rfl hfits hwords, hwords⟩
  | @derived operator left right hoperator hleft hright ihl ihr =>
      have hfits : (Tree.derived operator left right).Fits lex isFunction :=
        ⟨.derived hoperator hleft hright, hgroup⟩
      cases hgroup with
      -- an operator application stands without parentheses, but its right operand is none itself
      | derived hleft' hright' hbare =>
          have hoperand := cancelsOperand_derived hlex hfits ((ihl hleft').operand hlex hleft)
            fun t ht => (ihr t ht (hright' t ht)).bare (hbare t ht)
          exact ⟨nofun, by simpa [words] using hoperand⟩

end

/-- **The parentheses suffice**: trees that a division of the operands into functions and others
fits, and that print alike, are the same. -/
theorem eq_of_print_eq {a b : Arena} {names names' : Interner} {e e' : ExprId} (hlex : lex.Clear)
    (ha : a.tree names e = .ok t) (hb : b.tree names' e' = .ok u) (ht : t.Spelled lex)
    (hu : u.Spelled lex) (hgroup : t.GroupedBy isFunction) (hgroup' : u.GroupedBy isFunction)
    (h : a.print names e = b.print names' e') : t = u := by
  have hprint : t.print = u.print := by
    rw [Arena.print, Arena.print, ha, hb] at h
    exact Except.ok.inj h
  have hblank : [] ++ t.words.flatMap (·.operand ++ [' ']) =
      [] ++ u.words.flatMap (·.operand ++ [' ']) := by
    rw [← print_append_blank ht hgroup, ← print_append_blank hu hgroup', hprint]
  have hwords := (ht.isFound hlex hgroup).words
  obtain ⟨hsame, -⟩ := eq_of_flatMap_eq hlex hwords (Fits.words ⟨hu, hgroup'⟩) endsIn_nil endsIn_nil
    hblank
  exact eq_of_words_eq ht hu hgroup hgroup' hsame

end Tree

/-- Letters for words, two primitives and two operators. -/
def Lexicon.plain : Lexicon where
  glyph? c :=
    if c.isAlpha then some .letter
    else if c = '+' ∨ c = '-' then some .primitive
    else if c = '/' ∨ c = '∘' then some .operator
    else none

/-- The expression `(a b) f g/ x`. -/
def Tree.grouped : Tree :=
  .call (.variable "f") (some (.strand [.variable "a", .variable "b"]))
    (.call (.derived "/" (.variable "g") none) none (.variable "x"))

/-- Its parts from left to right. -/
def Arena.grouped : Arena where
  exprs := #[⟨.variable ⟨5⟩, .dummy⟩, ⟨.variable ⟨6⟩, .dummy⟩, ⟨.strand ⟨0, 2⟩, .dummy⟩,
    ⟨.variable ⟨7⟩, .dummy⟩, ⟨.variable ⟨8⟩, .dummy⟩, ⟨.derived ⟨9⟩ ⟨4⟩ none, .dummy⟩,
    ⟨.variable ⟨10⟩, .dummy⟩, ⟨.call ⟨5⟩ none ⟨6⟩, .dummy⟩, ⟨.call ⟨3⟩ (some ⟨2⟩) ⟨7⟩, .dummy⟩]
  items := #[⟨0⟩, ⟨1⟩]
  guards := #[]

/-- Its parts from right to left. -/
def Arena.regrouped : Arena where
  exprs := #[⟨.variable ⟨10⟩, .dummy⟩, ⟨.variable ⟨8⟩, .dummy⟩, ⟨.derived ⟨9⟩ ⟨1⟩ none, .dummy⟩,
    ⟨.call ⟨2⟩ none ⟨0⟩, .dummy⟩, ⟨.variable ⟨7⟩, .dummy⟩, ⟨.variable ⟨6⟩, .dummy⟩,
    ⟨.variable ⟨5⟩, .dummy⟩, ⟨.strand ⟨0, 2⟩, .dummy⟩, ⟨.call ⟨4⟩ (some ⟨7⟩) ⟨3⟩, .dummy⟩]
  items := #[⟨6⟩, ⟨5⟩]
  guards := #[]

namespace Tree

theorem spelled_plain (c : Char) (hc : c.isAlpha = true) :
    (Tree.variable (.singleton c)).Spelled .plain := by
  refine .word ⟨by simp, ?_⟩
  simp [Lexicon.plain, hc]

/-- Two arenas that print alike, with `f` and `g/` for functions, have the same expression. -/
theorem eq_of_print_eq_regrouped :
    let names := Interner.initial.internAll ["a", "b", "f", "g", "/", "x"]
    Arena.grouped.print names ⟨8⟩ = .ok "(a b) f g/ x" ∧
      Arena.regrouped.print names ⟨8⟩ = .ok "(a b) f g/ x" ∧
      Arena.grouped.tree names ⟨8⟩ = Arena.regrouped.tree names ⟨8⟩ := by
  intro names
  let isFunction : Tree → Prop := fun t => t = .variable "f" ∨ t.isDerived = true
  have hclear : Lexicon.plain.Clear := by
    intro c hc
    rcases List.mem_cons.mp hc with rfl | hc
    · rfl
    · rcases List.mem_pair.mp hc with rfl | rfl <;> rfl
  have ht : Tree.grouped.Spelled .plain := by
    refine .call (spelled_plain 'f' rfl) ?_ (.call ?_ nofun (spelled_plain 'x' rfl))
    · simp only [Option.mem_some_iff, forall_eq']
      refine .strand (Nat.le_refl 2) ?_
      intro t ht
      rcases List.mem_pair.mp ht with rfl | rfl
      · exact spelled_plain 'a' rfl
      · exact spelled_plain 'b' rfl
    · exact .derived ⟨'/', rfl, rfl⟩ (spelled_plain 'g' rfl) nofun
  -- of the words side by side the functions are `f` and `g/`, so the text groups in one way
  have hgroup : Tree.grouped.GroupedBy isFunction := by
    refine .call .word ?_ (.call ?_ nofun .word (.inr rfl) nofun rfl) (.inl rfl) ?_ rfl
    · simp only [Option.mem_some_iff, forall_eq']
      refine .strand ?_ ?_
      · simp [GroupedBy.word]
      · simp [isFunction, isDerived]
    · exact .derived .word nofun nofun
    · simp [isFunction, isDerived]
  have ha : Arena.grouped.tree names ⟨8⟩ = .ok .grouped := rfl
  have hb : Arena.regrouped.tree names ⟨8⟩ = .ok .grouped := rfl
  have hprint : Arena.grouped.print names ⟨8⟩ = .ok "(a b) f g/ x" := rfl
  have hprint' : Arena.regrouped.print names ⟨8⟩ = .ok "(a b) f g/ x" := rfl
  have hsame := eq_of_print_eq hclear ha hb ht ht hgroup hgroup (hprint.trans hprint'.symm)
  exact ⟨hprint, hprint', ha.trans ((congrArg Except.ok hsame).trans hb.symm)⟩

end Tree

/-- As before, but every other character is an operator. -/
def Lexicon.crowded : Lexicon where
  glyph? c := if c.isAlpha then some .letter else some .operator

namespace Tree

theorem spelled_crowded (c : Char) (hc : c.isAlpha = true) :
    (Tree.variable (.singleton c)).Spelled .crowded := by
  refine .word ⟨by simp, ?_⟩
  simp [Lexicon.crowded, hc]

/-- Two expressions that print alike. -/
structure Ambiguous (lex : Lexicon) (t u : Tree) : Prop where
  first : t.Spelled lex
  second : u.Spelled lex
  alike : t.print = u.print
  different : t ≠ u

/-- **One text for two groupings.** A strand is written like a call of its first element, and a call
with two arguments like a call of a call. Without parentheses around functions and right operands,
calls and operators on the left are written like those on the right. Blanks and parentheses in place
of operators look like those that group. -/
theorem ambiguous_groupings :
    let a : Tree := .variable "a"
    let b : Tree := .variable "b"
    let f : Tree := .variable "f"
    let g : Tree := .variable "g"
    (Ambiguous .plain (.strand [a, b]) (.call a none b) ∧
      Ambiguous .plain (.call f (some a) b) (.call a none (.call f none b))) ∧
    (Ambiguous .plain (.call (.call f none g) none a) (.call f none (.call g none a)) ∧
      Ambiguous .plain (.call (.strand [f, g]) none a) (.strand [f, g, a]) ∧
      Ambiguous .plain (.derived "∘" f (some (.derived "/" g none)))
        (.derived "/" (.derived "∘" f (some g)) none)) ∧
    Ambiguous .crowded (.derived " " a (some b)) (.strand [a, b]) ∧
    Ambiguous .crowded
      (.strand [.derived "(" (.derived "∘" f none) (some a),
        .derived "/" (.derived ")" b none) none])
      (.derived "/" (.derived "∘" f (some (.strand [a, b]))) none) := by
  intro a b f g
  have ha : a.Spelled .plain := spelled_plain 'a' rfl
  have hb : b.Spelled .plain := spelled_plain 'b' rfl
  have hf : f.Spelled .plain := spelled_plain 'f' rfl
  have hg : g.Spelled .plain := spelled_plain 'g' rfl
  have ha' : a.Spelled .crowded := spelled_crowded 'a' rfl
  have hb' : b.Spelled .crowded := spelled_crowded 'b' rfl
  have hf' : f.Spelled .crowded := spelled_crowded 'f' rfl
  -- with glyphs that are blanks or parentheses even operator applications run together
  have hpair : (Tree.strand [a, b]).Spelled .crowded := .strand (Nat.le_refl 2) (by simp [ha', hb'])
  have hcompose : (Tree.derived "∘" f (some g)).Spelled .plain :=
    .derived ⟨'∘', rfl, rfl⟩ hf (by simp [hg])
  have hopen : (Tree.derived "(" (.derived "∘" f none) (some a)).Spelled .crowded :=
    .derived ⟨'(', rfl, rfl⟩ (.derived ⟨'∘', rfl, rfl⟩ hf' nofun) (by simp [ha'])
  have hclose : (Tree.derived "/" (.derived ")" b none) none).Spelled .crowded :=
    .derived ⟨'/', rfl, rfl⟩ (.derived ⟨')', rfl, rfl⟩ hb' nofun) nofun
  refine ⟨⟨?_, ?_⟩, ⟨?_, ?_, ?_⟩, ?_, ?_⟩
  · exact ⟨.strand (Nat.le_refl 2) (by simp [ha, hb]), .call ha nofun hb, rfl, nofun⟩
  · exact ⟨.call hf (by simp [ha]) hb, .call ha nofun (.call hf nofun hb), rfl, by simp⟩
  · exact ⟨.call (.call hf nofun hg) nofun ha, .call hf nofun (.call hg nofun ha), rfl, nofun⟩
  · exact ⟨.call (.strand (Nat.le_refl 2) (by simp [hf, hg])) nofun ha,
      .strand (by simp) (by simp [hf, hg, ha]), rfl, nofun⟩
  · exact ⟨.derived ⟨'∘', rfl, rfl⟩ hf (by simpa using .derived ⟨'/', rfl, rfl⟩ hg nofun),
      .derived ⟨'/', rfl, rfl⟩ hcompose nofun, rfl, by simp⟩
  · exact ⟨.derived ⟨' ', rfl, rfl⟩ ha' (by simp [hb']), hpair, rfl, nofun⟩
  · exact ⟨.strand (Nat.le_refl 2) (by simp [hopen, hclose]),
      .derived ⟨'/', rfl, rfl⟩ (.derived ⟨'∘', rfl, rfl⟩ hf' (by simp [hpair])) nofun, rfl, nofun⟩

end Tree

end ArrayLang
