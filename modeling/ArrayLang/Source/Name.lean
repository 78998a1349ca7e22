import ArrayLang.Collections

/-!
# Interned names

Identifiers, symbols and literal texts are stored once; a `Name` is the position of a text among
all of them. The empty text and the names that the evaluator itself binds are always the first
ones, so their positions are constants.

* `InternTable` keeps a dictionary from texts to positions beside the texts by position.
* `InternTable.tryIntern` looks a text up first, and then once more before it adds it
  (`InternTable.add`), since somebody else may have added it in between.
* `InternTable.Inverse` says that the two directions agree. Every table that is begun and grows in
  this way has it, and an `Interner` is a table together with that fact.
-/

namespace ArrayLang

/-- Position of an interned text. -/
structure Name where
  index : Nat
deriving DecidableEq, Repr

namespace Name

/-- The empty text. -/
def empty : Name := ⟨0⟩

/-- The left argument of a closure, `⍺`. -/
def leftArgument : Name := ⟨1⟩

/-- The right argument of a closure, `⍵`. -/
def rightArgument : Name := ⟨2⟩

/-- The line separator, `⎕NL`. -/
def newline : Name := ⟨3⟩

/-- The first index of an array, `⎕IO`. -/
def indexOrigin : Name := ⟨4⟩

end Name

/-- More texts than there are positions. -/
structure InternOverflow where
  count : Nat
deriving DecidableEq, Repr

namespace InternOverflow

/-- The largest position of a name. -/
def maxIndex : Nat := 4294967295

/-- The wording of the failure. -/
def message (e : InternOverflow) : String :=
  "interner exceeded capacity: " ++ toString e.count ++ " strings, max is " ++ toString maxIndex

end InternOverflow

/-- The positions by text, and the texts by position. -/
structure InternTable where
  positions : Dictionary String Nat
  texts : Array String

namespace InternTable

/-- Number of texts in the table. -/
def size (t : InternTable) : Nat := t.texts.size

/-- The name of a text, if it is in the table. -/
def get? (t : InternTable) (s : String) : Option Name := (t.positions.find? s).map Name.mk

/-- The text of a name. A name of another table may lie outside of this one; it stands for the
empty text. -/
def lookup (t : InternTable) (n : Name) : String := t.texts[n.index]?.getD ""

/-- Gives a text the next position. -/
def push (t : InternTable) (s : String) : InternTable :=
  ⟨t.positions.insert s t.size, t.texts.push s⟩

/-- Adds a text, unless it is there by now or the positions are used up. -/
def add (t : InternTable) (s : String) : Except InternOverflow (Name × InternTable) :=
  match t.get? s with
  | some n => .ok (n, t)
  | none =>
    if InternOverflow.maxIndex < t.size then .error ⟨t.size⟩ else .ok (⟨t.size⟩, t.push s)

/-- The name of a text, which is added if it is not found. -/
def tryIntern (t : InternTable) (s : String) : Except InternOverflow (Name × InternTable) :=
  match t.get? s with
  | some n => .ok (n, t)
  | none => t.add s

/-- As `tryIntern`, with positions for all texts. -/
def intern (t : InternTable) (s : String) : Name × InternTable :=
  match t.get? s with
  | some n => (n, t)
  | none => (⟨t.size⟩, t.push s)

/-- Interns texts one after the other. -/
def internAll (t : InternTable) (l : List String) : InternTable :=
  l.foldl (fun t s => (t.intern s).2) t

/-- The table of the empty text alone. -/
def blank : InternTable := ⟨Dictionary.empty.insert "" 0, #[""]⟩

/-- The argument names and the system variables. -/
def bound : List String := ["⍺", "⍵", "⎕NL", "⎕IO"]

/-- The table before anything else was added. -/
def initial : InternTable := blank.internAll bound

/-! ### The two directions -/

/-- A text has a position exactly if it stands there. -/
structure Inverse (t : InternTable) : Prop where
  find?_eq_some_iff : ∀ {s i}, t.positions.find? s = some i ↔ t.texts[i]? = some s

namespace Inverse

variable {t t' : InternTable} {s : String} {n : Name}

theorem blank : blank.Inverse where
  find?_eq_some_iff {s i} := by
    show (Dictionary.empty.insert "" 0).find? s = some i ↔ #[""][i]? = some s
    rw [Dictionary.find?_insert, Dictionary.find?_empty]
    cases i <;> simp [eq_comm]

/-- A text that is not in the table stands nowhere in it. -/
theorem ne_of_find?_eq_none (h : t.Inverse) (hs : t.positions.find? s = none) {i : Nat} :
    t.texts[i]? ≠ some s := by
  rw [ne_eq, ← h.find?_eq_some_iff, hs]
  exact nofun

/-- A new text gets a new position. -/
theorem push (h : t.Inverse) (hs : t.get? s = none) : (t.push s).Inverse where
  find?_eq_some_iff {s' i} := by
    have hfind : t.positions.find? s = none := Option.map_eq_none_iff.mp hs
    show (t.positions.insert s t.texts.size).find? s' = some i ↔ (t.texts.push s)[i]? = some s'
    rw [Dictionary.find?_insert, Array.getElem?_push]
    by_cases hi : i = t.texts.size
    · subst hi
      have hout : t.texts[t.texts.size]? ≠ some s' := by simp
      rw [if_pos rfl]
      by_cases hs' : s' = s
      · simp [hs']
      · simp [hs', h.find?_eq_some_iff, Ne.symm hs']
    · rw [if_neg hi]
      by_cases hs' : s' = s
      · subst hs'
        simp [Ne.symm hi, h.ne_of_find?_eq_none hfind]
      · rw [if_neg hs', h.find?_eq_some_iff]

/-- Interning keeps map and list inverse. -/
theorem intern (h : t.Inverse) (s : String) : (t.intern s).2.Inverse := by
  unfold InternTable.intern
  split
  · exact h
  · next hs => exact h.push hs

/-- A new text is written to the map and to the list at once. -/
theorem add (h : t.Inverse) (hadd : t.add s = .ok (n, t')) : t'.Inverse := by
  unfold InternTable.add at hadd
  split at hadd
  · cases hadd
    exact h
  · next hs =>
      split at hadd
      · cases hadd
      · cases hadd
        exact h.push hs

/-- The second look comes before the writing, so no text is written twice. -/
theorem tryIntern (h : t.Inverse) (htry : t.tryIntern s = .ok (n, t')) : t'.Inverse := by
  unfold InternTable.tryIntern at htry
  split at htry
  · cases htry
    exact h
  · exact h.add htry

theorem internAll (h : t.Inverse) (l : List String) : (t.internAll l).Inverse :=
  List.foldlRecOn l _ h fun _ h s _ => h.intern s

theorem initial : initial.Inverse := blank.internAll bound

end Inverse

end InternTable

/-- A table of names whose two directions agree. -/
structure Interner where
  table : InternTable
  inverse : table.Inverse

namespace Interner

def initial : Interner := ⟨.initial, .initial⟩

/-- All texts in the order in which they were added. -/
def texts (t : Interner) : Array String := t.table.texts

def size (t : Interner) : Nat := t.table.size

/-- A table counts as empty while it holds the empty text alone. -/
def isEmpty (t : Interner) : Bool := t.size ≤ 1

def get? (t : Interner) (s : String) : Option Name := t.table.get? s

def lookup (t : Interner) (n : Name) : String := t.table.lookup n

/-- The name of a text, which is added at the end if it is new. -/
def intern (t : Interner) (s : String) : Name × Interner :=
  ((t.table.intern s).1, ⟨(t.table.intern s).2, t.inverse.intern s⟩)

def internAll (t : Interner) (l : List String) : Interner :=
  ⟨t.table.internAll l, t.inverse.internAll l⟩

/-- As `intern`, but a new text is refused once the table has used up its positions. -/
def tryIntern (t : Interner) (s : String) : Except InternOverflow (Name × Interner) :=
  match h : t.table.tryIntern s with
  | .ok (n, table) => .ok (n, ⟨table, t.inverse.tryIntern h⟩)
  | .error e => .error e

end Interner

end ArrayLang
