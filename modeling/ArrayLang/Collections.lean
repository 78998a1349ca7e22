/-!
# Dictionaries and sorted lists

A dictionary has one value for each of its keys. Its entries stand in some order, as the slots of a
hash table do, and nothing that is read from a dictionary by a key depends on it; whoever goes
through all keys has to make up for the order, and does so by sorting.

* `Dictionary.find?` is the value of a key, `Dictionary.insert` sets it.
* `Dictionary.append` adds to the list that a key has.
* `sortTexts` sorts texts, and `dropRepeats` drops those that stand right behind an equal one.
-/

namespace ArrayLang

/-- Values by keys. -/
structure Dictionary (κ ν : Type) where
  entries : List (κ × ν)
  distinct : (entries.map Prod.fst).Nodup

namespace Dictionary

variable {κ ν : Type} {d : Dictionary κ ν} {k k' : κ} {v v' : ν}

def empty : Dictionary κ ν := ⟨[], List.nodup_nil⟩

def keys (d : Dictionary κ ν) : List κ := d.entries.map Prod.fst

def values (d : Dictionary κ ν) : List ν := d.entries.map Prod.snd

def size (d : Dictionary κ ν) : Nat := d.entries.length

/-- No key is listed twice: the entries are a map. -/
theorem nodup_keys (d : Dictionary κ ν) : d.keys.Nodup := d.distinct

theorem length_keys (d : Dictionary κ ν) : d.keys.length = d.size := List.length_map _

section

variable [DecidableEq κ]

/-- The value of a key, if it has one. -/
def find? (d : Dictionary κ ν) (k : κ) : Option ν := d.entries.lookup k

def contains (d : Dictionary κ ν) (k : κ) : Bool := (d.find? k).isSome

/-- Gives a key its value, in place of the one that it had. -/
def insert (d : Dictionary κ ν) (k : κ) (v : ν) : Dictionary κ ν where
  entries := (k, v) :: d.entries.filter fun e => e.1 ≠ k
  distinct := by
    rw [List.map_cons, List.nodup_cons]
    constructor
    · intro hmem
      obtain ⟨e, he, hk⟩ := List.mem_map.mp hmem
      exact of_decide_eq_true (List.mem_filter.mp he).2 hk
    · exact d.distinct.sublist (List.filter_sublist.map Prod.fst)

/-- Adds to the list of a key, which is empty at first. -/
def append {α : Type} (d : Dictionary κ (List α)) (k : κ) (a : α) : Dictionary κ (List α) :=
  d.insert k ((d.find? k).getD [] ++ [a])

/-! ### Reading -/

@[simp]
theorem find?_empty (k : κ) : (empty : Dictionary κ ν).find? k = none := rfl

/-- The entries are what lookup finds, in an order of their own. -/
theorem mem_entries_iff : (k, v) ∈ d.entries ↔ d.find? k = some v := by
  obtain ⟨entries, hdistinct⟩ := d
  show (k, v) ∈ entries ↔ entries.lookup k = some v
  induction entries with
  | nil => simp
  | cons e entries ih =>
      obtain ⟨k', v'⟩ := e
      rw [List.map_cons, List.nodup_cons] at hdistinct
      rw [List.lookup_cons]
      by_cases hk : k = k'
      · subst hk
        -- no other entry has the key
        have hother : ∀ v, (k, v) ∉ entries :=
          fun v hv => hdistinct.1 (List.mem_map.mpr ⟨_, hv, rfl⟩)
        simp [hother, eq_comm]
      · rw [beq_false_of_ne hk, ← ih hdistinct.2]
        simp [hk]

theorem mem_keys_iff : k ∈ d.keys ↔ d.contains k = true := by
  rw [keys, List.mem_map, contains, Option.isSome_iff_exists]
  simp only [← mem_entries_iff, Prod.exists, exists_and_right, exists_eq_right]

theorem mem_values_iff : v ∈ d.values ↔ ∃ k, d.find? k = some v := by
  rw [values, List.mem_map]
  simp only [← mem_entries_iff, Prod.exists, exists_eq_right]

/-! ### Writing -/

/-- Writing changes the entry of one key and nothing else. -/
theorem find?_insert (d : Dictionary κ ν) (k k' : κ) (v : ν) :
    (d.insert k v).find? k' = if k' = k then some v else d.find? k' := by
  apply Option.ext
  intro v'
  rw [← mem_entries_iff, insert]
  by_cases hk : k' = k
  · simp [hk, eq_comm]
  · simp [hk, mem_entries_iff]

@[simp]
theorem find?_insert_self (d : Dictionary κ ν) (k : κ) (v : ν) :
    (d.insert k v).find? k = some v := by
  rw [find?_insert, if_pos rfl]

theorem find?_insert_of_ne (h : k' ≠ k) : (d.insert k v).find? k' = d.find? k' := by
  rw [find?_insert, if_neg h]

theorem mem_keys_insert : k' ∈ (d.insert k v).keys ↔ k' = k ∨ k' ∈ d.keys := by
  rw [mem_keys_iff, mem_keys_iff, contains, contains, find?_insert]
  by_cases hk : k' = k <;> simp [hk]

/-! ### Lists as values -/

section Lists

variable {α : Type} {l : Dictionary κ (List α)} {a : α}

theorem find?_append_of_ne (h : k' ≠ k) : (l.append k a).find? k' = l.find? k' :=
  find?_insert_of_ne h

/-- Appending to the list of a key, which is begun if there is none, adds one element at its end. -/
theorem getD_find?_append (l : Dictionary κ (List α)) (k k' : κ) (a : α) :
    ((l.append k a).find? k').getD [] =
      (l.find? k').getD [] ++ if k' = k then [a] else [] := by
  rw [append, find?_insert]
  by_cases hk : k' = k <;> simp [hk]

/-- No key has the empty list. -/
def Filled (l : Dictionary κ (List α)) : Prop := ∀ k, l.find? k ≠ some []

/-- A map without entries has no empty list. -/
theorem filled_empty : (empty : Dictionary κ (List α)).Filled := fun _ => nofun

/-- Lists that are begun get an element at once. -/
theorem Filled.append (h : l.Filled) (k : κ) (a : α) : (l.append k a).Filled := by
  intro k'
  rw [Dictionary.append, find?_insert]
  split
  · simp
  · exact h k'

/-- That a key is missing and that its list is empty is the same in such a map. -/
theorem Filled.find?_eq_none_iff (h : l.Filled) : l.find? k = none ↔ (l.find? k).getD [] = [] := by
  have hk := h k
  cases hl : l.find? k with
  | none => simp
  | some l' => simpa [hl] using hk

theorem Filled.contains_iff (h : l.Filled) :
    l.contains k = true ↔ (l.find? k).getD [] ≠ [] := by
  rw [contains, Option.isSome_iff_ne_none, ne_eq, h.find?_eq_none_iff]

/-- Every element stands in the list of some key. -/
theorem mem_flatten_values_iff : a ∈ l.values.flatten ↔ ∃ k, a ∈ (l.find? k).getD [] := by
  simp only [List.mem_flatten, mem_values_iff]
  constructor
  · rintro ⟨l', ⟨k, hk⟩, ha⟩
    exact ⟨k, by simpa [hk] using ha⟩
  · rintro ⟨k, ha⟩
    cases hk : l.find? k with
    | none => simp [hk] at ha
    | some l' => exact ⟨l', ⟨k, hk⟩, by simpa [hk] using ha⟩

end Lists

end

end Dictionary

/-! ### Sorted lists of texts -/

/-- The texts in alphabetical order. -/
def sortTexts (l : List String) : List String := l.mergeSort fun a b => a ≤ b

/-- Keeps the first of equal texts that stand side by side. -/
def dropRepeats : List String → List String
  | a :: b :: l => if a = b then dropRepeats (b :: l) else a :: dropRepeats (b :: l)
  | l => l

/-- Only repetitions are dropped. -/
theorem mem_dropRepeats_iff {l : List String} {s : String} : s ∈ dropRepeats l ↔ s ∈ l := by
  fun_induction dropRepeats l with
  | case1 a l ih => simp [ih]
  | case2 a b l hab ih => simp [ih]
  | case3 l hne => rfl

theorem mem_sortTexts_iff {l : List String} {s : String} : s ∈ sortTexts l ↔ s ∈ l :=
  List.mem_mergeSort

end ArrayLang
