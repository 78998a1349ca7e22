import ArrayLang.Eval.Selection
import ArrayLang.Proofs.Results

/-!
# Replacing selected cells

`Selection.replace` in terms of single positions: a position that is not named keeps its cell
(`Selection.replace_unselected`), and with a well-shaped array only the number of values and the
positions themselves can be at fault (`Selection.replace_error`).
-/

namespace ArrayLang

namespace Value

/-- The cell at a position, if the value is an array that long. -/
def cellAt? (v : Value) (i : Nat) : Option Value := (v.cells?.getD [])[i]?

theorem mem_cellsOrSelf {v w : Value} (h : w ∈ v.cellsOrSelf) : w = v ∨ w ∈ v.cells?.getD [] := by
  unfold cellsOrSelf at h
  cases hcells : v.cells? with
  | none =>
      rw [hcells] at h
      exact .inl (List.mem_singleton.mp h)
  | some cells =>
      rw [hcells] at h
      exact .inr h

/-- An array that fits has as many cells as its shape says. -/
theorem WellShaped.size_eq {v : Value} {s : Shape} (h : v.WellShaped) (hs : v.shape? = some s) :
    s.size = (v.cells?.getD []).length := by
  cases v with
  | array t cells =>
      cases hs
      rw [WellShaped] at h
      exact h.1
  | strings g =>
      cases hs
      show g.shape.size = (g.cells.map Value.text).length
      rw [List.length_map]
      rw [WellShaped] at h
      exact h
  | indexes g =>
      cases hs
      show g.shape.size = (g.cells.map Value.int).length
      rw [List.length_map]
      rw [WellShaped] at h
      exact h
  | emptyArray =>
      cases hs
      rfl
  | bool | number | text | primitive | closure | derived => cases hs

end Value

namespace Selection

/-- The position is one of those that are named. Negative numbers name none. -/
def Names (positions : Grid Int64) (i : Nat) : Prop := ∃ k ∈ positions.cells, k.toInt = i

/-! ## Placing values -/

theorem toInt_eq_of_not_neg {k : Int64} (h : ¬ k < 0) : k.toInt = k.toNatClampNeg := by
  have hle : 0 ≤ k.toInt := by
    have hlt := mt Int64.lt_iff_toInt_lt.mpr h
    simpa using hlt
  rw [← Int64.toNat_toInt]
  exact (Int.toNat_of_nonneg hle).symm

/-- Placing values changes no length. -/
theorem place_size {cells cells' : Array Value} {l : List (Int64 × Value)}
    (h : place cells l = .ok cells') : cells'.size = cells.size := by
  induction l generalizing cells with
  | nil =>
      cases h
      rfl
  | cons p rest ih =>
      obtain ⟨k, v⟩ := p
      rw [place] at h
      split at h
      · exact ih h
      · split at h
        · rw [ih h, Array.size_set]
        · cases h

/-- A cell without a position stays. -/
theorem place_unselected {cells cells' : Array Value} {l : List (Int64 × Value)} {i : Nat}
    (h : place cells l = .ok cells') (hi : ∀ p ∈ l, p.1.toInt ≠ i) : cells'[i]? = cells[i]? := by
  induction l generalizing cells with
  | nil =>
      cases h
      rfl
  | cons p rest ih =>
      obtain ⟨k, v⟩ := p
      have hrest : ∀ p ∈ rest, p.1.toInt ≠ i := fun p hp => hi p (List.mem_cons_of_mem _ hp)
      rw [place] at h
      split at h
      · exact ih h hrest
      · next hneg =>
          split at h
          · next hlt =>
              rw [ih h hrest, Array.getElem?_set_ne hlt]
              intro hk
              -- the value was set where `i` is, so `k` names `i`
              refine hi (k, v) List.mem_cons_self ?_
              show k.toInt = (i : Int)
              rw [toInt_eq_of_not_neg hneg, hk]
          · cases h

theorem place_append (cells : Array Value) (l₁ l₂ : List (Int64 × Value)) :
    place cells (l₁ ++ l₂) = place cells l₁ >>= fun cells => place cells l₂ := by
  induction l₁ generalizing cells with
  | nil => rfl
  | cons p rest ih =>
      obtain ⟨k, v⟩ := p
      rw [List.cons_append, place, place]
      split
      · exact ih cells
      · split
        · exact ih _
        · rfl

/-- The cell at a position has the value that came with the last name of the position. -/
theorem place_latest {cells cells' : Array Value} {before behind : List (Int64 × Value)} {k : Int64}
    {v : Value} {i : Nat} (h : place cells (before ++ (k, v) :: behind) = .ok cells')
    (hk : k.toInt = i) (hbehind : ∀ p ∈ behind, p.1.toInt ≠ i) : cells'[i]? = some v := by
  rw [place_append] at h
  obtain ⟨mid, -, h⟩ := exists_of_bind_eq_ok h
  have hneg : ¬ k < 0 := by
    rw [Int64.lt_iff_toInt_lt, hk, Int64.toInt_zero]
    omega
  have hki : k.toNatClampNeg = i := by
    rw [toInt_eq_of_not_neg hneg] at hk
    exact Int.ofNat_inj.mp hk
  rw [place, if_neg hneg] at h
  split at h
  · rw [place_unselected h hbehind, ← hki]
    simp
  · cases h

/-- A position that is named once has the value that came with its name. -/
theorem place_selected {cells cells' : Array Value} {l : List (Int64 × Value)} {k : Int64}
    {v : Value} {i : Nat} (h : place cells l = .ok cells')
    (hl : l.Pairwise fun p q => 0 ≤ p.1.toInt → p.1.toInt ≠ q.1.toInt) (hmem : (k, v) ∈ l)
    (hk : k.toInt = i) : cells'[i]? = some v := by
  obtain ⟨before, behind, rfl⟩ := List.append_of_mem hmem
  refine place_latest h hk fun q hq hqi => ?_
  have hpair := (List.pairwise_cons.mp (List.pairwise_append.mp hl).2.1).1 q hq
  exact hpair (by rw [hk]; exact Int.natCast_nonneg i) (by rw [hk, hqi])

/-- The first of the positions that lies behind the last of `n` cells. -/
def firstBeyond? (n : Nat) (ks : List Int64) : Option Int64 :=
  ks.find? fun (k : Int64) => (n : Int) ≤ k.toInt

theorem firstBeyond?_cons (n : Nat) (k : Int64) (ks : List Int64) :
    firstBeyond? n (k :: ks) = if (n : Int) ≤ k.toInt then some k else firstBeyond? n ks := by
  unfold firstBeyond?
  by_cases h : (n : Int) ≤ k.toInt
  · rw [List.find?_cons_of_pos (by simpa using h), if_pos h]
  · rw [List.find?_cons_of_neg (by simpa using h), if_neg h]

/-- All positions are within the array, or negative. -/
theorem firstBeyond?_eq_none_iff {n : Nat} {ks : List Int64} :
    firstBeyond? n ks = none ↔ ∀ k ∈ ks, k.toInt < n := by
  simp [firstBeyond?]

/-- What is at fault is the first position behind the last cell. -/
theorem place_eq_error_iff {cells : Array Value} {l : List (Int64 × Value)} {e : EvalError} :
    place cells l = .error e ↔
      ∃ k, firstBeyond? cells.size (l.map Prod.fst) = some k ∧
        e = .of (.indexOutOfBounds k cells.size) := by
  induction l generalizing cells with
  | nil => simp [place, firstBeyond?]
  | cons p rest ih =>
      obtain ⟨k, v⟩ := p
      simp only [List.map_cons, firstBeyond?_cons]
      rw [place]
      split
      · next hneg =>
          have hlt := Int64.lt_iff_toInt_lt.mp hneg
          rw [Int64.toInt_zero] at hlt
          rw [ih, if_neg (by omega)]
      · next hneg =>
          have hk := toInt_eq_of_not_neg hneg
          split
          · next hlt => rw [ih, Array.size_set, if_neg (by omega)]
          · next hle =>
              rw [if_pos (by omega)]
              simp [eq_comm]

/-- It is enough that no position lies behind the last cell. -/
theorem exists_place {cells : Array Value} {l : List (Int64 × Value)}
    (h : ∀ p ∈ l, p.1.toInt < cells.size) : ∃ cells', place cells l = .ok cells' := by
  cases hplace : place cells l with
  | ok cells' => exact ⟨cells', rfl⟩
  | error e =>
      obtain ⟨k, hfirst, -⟩ := place_eq_error_iff.mp hplace
      have hnone : firstBeyond? cells.size (l.map Prod.fst) = none :=
        firstBeyond?_eq_none_iff.mpr (by simpa using fun k v hp => h (k, v) hp)
      rw [hnone] at hfirst
      cases hfirst

/-- Nothing else comes into the cells than the values that are placed. -/
theorem mem_of_place {cells cells' : Array Value} {l : List (Int64 × Value)} {w : Value}
    (h : place cells l = .ok cells') (hw : w ∈ cells') : w ∈ cells ∨ ∃ p ∈ l, p.2 = w := by
  induction l generalizing cells with
  | nil =>
      cases h
      exact .inl hw
  | cons p rest ih =>
      obtain ⟨k, v⟩ := p
      rw [place] at h
      split at h
      · exact (ih h).imp_right fun ⟨p, hp, hpw⟩ => ⟨p, List.mem_cons_of_mem _ hp, hpw⟩
      · split at h
        · rcases ih h with hcells | ⟨p, hp, hpw⟩
          · rcases Array.mem_or_eq_of_mem_set hcells with hcells | rfl
            · exact .inl hcells
            · exact .inr ⟨(k, w), List.mem_cons_self, rfl⟩
          · exact .inr ⟨p, List.mem_cons_of_mem _ hp, hpw⟩
        · cases h

/-- The only error is a position beyond the end. -/
theorem place_error {cells : Array Value} {l : List (Int64 × Value)} {e : EvalError}
    (h : place cells l = .error e) : ∃ k, e = .of (.indexOutOfBounds k cells.size) := by
  obtain ⟨k, -, rfl⟩ := place_eq_error_iff.mp h
  exact ⟨k, rfl⟩

/-! ## The array around the cells -/

/-- A list of cells is made of what is read from them, if each cell is. -/
theorem map_of_mapM_eq_some {α : Type} {f : Value → Option α} {g : α → Value}
    (hf : ∀ v a, f v = some a → g a = v) {cells : List Value} {l : List α}
    (h : cells.mapM f = some l) : l.map g = cells := by
  induction cells generalizing l with
  | nil =>
      cases h
      rfl
  | cons v cells ih =>
      simp only [List.mapM_cons, Option.bind_eq_bind, Option.bind_eq_some_iff] at h
      obtain ⟨a, ha, rest, hrest, heq⟩ := h
      cases heq
      rw [List.map_cons, ih hrest, hf v a ha]

theorem text_of_text? {v : Value} {s : String} (h : v.text? = some s) : Value.text s = v := by
  cases v <;> cases h
  rfl

theorem int_of_cellInt? {v : Value} {k : Int64} (h : cellInt? v = some k) : Value.int k = v := by
  unfold cellInt? at h
  split at h
  · cases h
    rfl
  · cases h

/-- What comes of putting cells into a shape: an array with these cells, or an error if they do not
fill the shape. -/
def Fills (s : Shape) (cells : List Value) : Except EvalError Value → Prop
  | .ok v => v.cells? = some cells
  | .error _ => s.size ≠ cells.length

/-- A generic array takes any cells. -/
theorem fills_arrayOfShape (s : Shape) (cells : List Value) :
    Fills s cells (Value.arrayOfShape s cells) := by
  unfold Value.arrayOfShape checkShape
  split
  · exact rfl
  · assumption

/-- A grid of another kind of cells does as well. -/
theorem fills_ofShape {α : Type} {f : Grid α → Value} {g : α → Value}
    (hf : ∀ t, (f t).cells? = some (t.cells.map g)) (s : Shape) {l : List α} {cells : List Value}
    (hl : l.map g = cells) : Fills s cells (f <$> Grid.ofShape s l) := by
  have hlen : cells.length = l.length := by rw [← hl, List.length_map]
  unfold Grid.ofShape checkShape
  split
  · show (f ⟨s, l⟩).cells? = some cells
    rw [hf, hl]
  · next hne =>
      show s.size ≠ cells.length
      rw [hlen]
      exact hne

/-- Whatever kind of array is attempted. -/
theorem fills_rebuild (like : Value) (s : Shape) (cells : List Value) :
    Fills s cells (rebuild like s cells) := by
  unfold rebuild
  split
  · split
    · next hempty =>
        rw [List.isEmpty_iff.mp hempty]
        exact rfl
    · exact fills_arrayOfShape s cells
  · split
    · next htexts =>
        exact fills_ofShape (fun _ => rfl) s (map_of_mapM_eq_some (fun _ _ => text_of_text?) htexts)
    · exact fills_arrayOfShape s cells
  · split
    · next hints =>
        exact fills_ofShape (fun _ => rfl) s
          (map_of_mapM_eq_some (fun _ _ => int_of_cellInt?) hints)
    · exact fills_arrayOfShape s cells
  · exact fills_arrayOfShape s cells

/-! ## Replacement -/

variable {target values updated : Value} {positions : Grid Int64} {e : EvalError}

/-- The phases of a replacement, each with the result of the one before. -/
theorem replace_eq {s : Shape} (hs : target.shape? = some s) :
    replace target positions values =
      replacements positions.size values >>= fun vs =>
        place (target.cells?.getD []).toArray (positions.cells.zip vs) >>= fun cells =>
          rebuild target s cells.toList := by
  unfold replace
  rw [hs]

theorem replace_eq_notAnArray (hs : target.shape? = none) :
    replace target positions values = .error (.of (.notAnArray target.kind)) := by
  unfold replace
  rw [hs]

/-- **A position that is not named keeps its cell.** -/
theorem replace_unselected (h : replace target positions values = .ok updated) {i : Nat}
    (hi : ¬ Names positions i) : updated.cellAt? i = target.cellAt? i := by
  cases hs : target.shape? with
  | none =>
      rw [replace_eq_notAnArray hs] at h
      cases h
  | some s =>
      rw [replace_eq hs] at h
      obtain ⟨vs, -, h⟩ := exists_of_bind_eq_ok h
      obtain ⟨cells, hplace, hrebuild⟩ := exists_of_bind_eq_ok h
      have hno : ∀ p ∈ positions.cells.zip vs, p.1.toInt ≠ i :=
        fun p hp hk => hi ⟨p.1, (List.of_mem_zip hp).1, hk⟩
      have hcell := place_unselected hplace hno
      have hcells : Fills s cells.toList (.ok updated) := hrebuild ▸ fills_rebuild target s _
      have hupdated : updated.cells? = some cells.toList := hcells
      unfold Value.cellAt?
      rw [hupdated]
      simpa using hcell

/-- Values come from what was assigned. -/
theorem mem_of_replacements {count : Nat} {vs : List Value} {w : Value}
    (h : replacements count values = .ok vs) (hw : w ∈ vs) : w ∈ values.cellsOrSelf := by
  unfold replacements at h
  unfold Value.cellsOrSelf
  split at h
  · next cells hcells =>
      rw [hcells]
      split at h
      · cases h
        exact hw
      · cases h
  · next hcells =>
      cases h
      rw [hcells, (List.mem_replicate.mp hw).2]
      exact List.mem_singleton_self values

/-- The cells afterwards are cells from before and new values. -/
theorem replace_cells (h : replace target positions values = .ok updated) :
    ∃ cells, updated.cells? = some cells ∧
      ∀ w ∈ cells, w ∈ target.cells?.getD [] ∨ w ∈ values.cellsOrSelf := by
  cases hs : target.shape? with
  | none =>
      rw [replace_eq_notAnArray hs] at h
      cases h
  | some s =>
      rw [replace_eq hs] at h
      obtain ⟨vs, hvs, h⟩ := exists_of_bind_eq_ok h
      obtain ⟨cells, hplace, hrebuild⟩ := exists_of_bind_eq_ok h
      have hcells : Fills s cells.toList (.ok updated) := hrebuild ▸ fills_rebuild target s _
      refine ⟨cells.toList, hcells, fun w hw => ?_⟩
      rcases mem_of_place hplace ⟨hw⟩ with hold | ⟨p, hp, rfl⟩
      · exact .inl (by simpa using hold)
      · exact .inr (mem_of_replacements hvs (List.of_mem_zip hp).2)

end Selection

/-- The causes with which a selection is turned down once the selecting function has returned. -/
def Cause.rejectsSelection : Cause → Bool
  | .notAnArray _ | .conversion .. | .lengthMismatch .. | .indexOutOfBounds .. => true
  | _ => false

namespace Selection

variable {target values : Value} {positions : Grid Int64} {e : EvalError}

/-- The only error is the number of values. -/
theorem replacements_error {count : Nat} (h : replacements count values = .error e) :
    ∃ got, e = .of (.lengthMismatch count got) := by
  unfold replacements at h
  split at h
  · split at h
    · cases h
    · cases h
      exact ⟨_, rfl⟩
  · cases h

/-- **A replacement in a well-shaped array fails for no other reason** than that there is nothing to
select from, a wrong number of values, or a position outside of the array. -/
theorem replace_error (h : replace target positions values = .error e) (hw : target.WellShaped) :
    e.cause.rejectsSelection = true := by
  cases hs : target.shape? with
  | none =>
      rw [replace_eq_notAnArray hs] at h
      cases h
      rfl
  | some s =>
      rw [replace_eq hs] at h
      rcases error_of_bind_eq_error h with h | ⟨vs, -, h⟩
      · obtain ⟨got, rfl⟩ := replacements_error h
        rfl
      rcases error_of_bind_eq_error h with h | ⟨cells, hplace, hrebuild⟩
      · obtain ⟨k, rfl⟩ := place_error h
        rfl
      -- there are as many cells as before, so they still fill the shape
      have hcells : Fills s cells.toList (.error e) := hrebuild ▸ fills_rebuild target s _
      have hsize := place_size hplace
      refine absurd ?_ hcells
      rw [hw.size_eq hs]
      simpa using hsize.symm

/-! ### Causes of errors -/

theorem checkShape_error {s : Shape} {n : Nat} (h : checkShape s n = .error e) :
    e = .of (.shapeMismatch s n) := by
  unfold checkShape at h
  split at h
  · cases h
  · cases h
    rfl

/-- Cells that do not fit a shape are the only error of making an array. -/
theorem arrayOfShape_error {s : Shape} {cells : List Value}
    (h : Value.arrayOfShape s cells = .error e) : e = .of (.shapeMismatch s cells.length) := by
  rcases error_of_bind_eq_error h with h | ⟨_, -, h⟩
  · exact checkShape_error h
  · cases h

theorem ofShape_error {α : Type} {f : Grid α → Value} {s : Shape} {l : List α}
    (h : f <$> Grid.ofShape s l = .error e) : e = .of (.shapeMismatch s l.length) := by
  cases hs : checkShape s l.length with
  | ok u =>
      rw [Grid.ofShape, hs] at h
      cases h
  | error e' =>
      rw [Grid.ofShape, hs] at h
      cases h
      exact checkShape_error hs

theorem rebuild_error {like : Value} {s : Shape} {cells : List Value}
    (h : rebuild like s cells = .error e) : ∃ n, e = .of (.shapeMismatch s n) := by
  unfold rebuild at h
  split at h
  · split at h
    · cases h
    · exact ⟨_, arrayOfShape_error h⟩
  · split at h
    · exact ⟨_, ofShape_error h⟩
    · exact ⟨_, arrayOfShape_error h⟩
  · split at h
    · exact ⟨_, ofShape_error h⟩
    · exact ⟨_, arrayOfShape_error h⟩
  · exact ⟨_, arrayOfShape_error h⟩

/-- In any array, a replacement that fails does so because of the positions and values, or because
the cells do not fill the shape. Its error has neither a place nor notes. -/
theorem exists_of_replace_error (h : replace target positions values = .error e) :
    ∃ cause, e = .of cause ∧
      (cause.rejectsSelection = true ∨ ∃ s n, cause = .shapeMismatch s n) := by
  cases hs : target.shape? with
  | none =>
      rw [replace_eq_notAnArray hs] at h
      cases h
      exact ⟨_, rfl, .inl rfl⟩
  | some s =>
      rw [replace_eq hs] at h
      rcases error_of_bind_eq_error h with h | ⟨vs, -, h⟩
      · obtain ⟨got, rfl⟩ := replacements_error h
        exact ⟨_, rfl, .inl rfl⟩
      rcases error_of_bind_eq_error h with h | ⟨cells, -, h⟩
      · obtain ⟨k, rfl⟩ := place_error h
        exact ⟨_, rfl, .inl rfl⟩
      · obtain ⟨n, rfl⟩ := rebuild_error h
        exact ⟨_, rfl, .inr ⟨s, n, rfl⟩⟩

/-- A replacement fails for the causes of a selection, or for a shape. -/
theorem replace_error_cause (h : replace target positions values = .error e) :
    e.cause.rejectsSelection = true ∨ ∃ s n, e.cause = .shapeMismatch s n := by
  obtain ⟨cause, rfl, hcause⟩ := exists_of_replace_error h
  exact hcause

end Selection

end ArrayLang
