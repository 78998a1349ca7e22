import ArrayLang.Proofs.Value.Shapes

/-!
# Arranging cells

A function that only arranges the cells of an array is known by the positions that it takes them
from: `Selection.arrange` lists the cells at these positions, and a zero for a position at which
there is no cell. Reversing an array and taking its first elements are of this kind
(`Selection.arrange_reversed`, `Selection.arrange_firsts`).

From the numbers from one up such a function picks those of the cells that it takes, and so a
selection through it replaces these cells. If none of them is taken twice, the function reads
afterwards what was put in (`Selected.exists_updated_arrange`).
-/

namespace ArrayLang

namespace Selection

/-- The cells at these positions. Where there is none, a zero fills the place. -/
def arrange (ps : List Nat) (cells : List Value) : List Value :=
  ps.map fun i => cells[i]?.getD (.int 0)

/-- What an arrangement reads when each of these values was put where it takes one from, in an array
with `n` cells. -/
def received (n : Nat) (ps : List Nat) (vs : List Value) : List Value :=
  (ps.zip vs).map fun p => if p.1 < n then p.2 else .int 0

/-- How a selection names a position of an array with `n` cells: by its number, or by minus one if
it lies behind the last cell. -/
def mark (n i : Nat) : Int64 := clampInt64 (if i < n then (i : Int) else -1)

/-- The most cells that an array can have if each is to have a number: numbers count from one and
are integer words. No array that fits into an address space of such words has more. -/
def maxLength : Nat := 9223372036854775807

variable {n k : Nat} {cells vs : List Value}

/-! ## Arrangements -/

/-- Nothing is rearranged by the positions in their order. -/
theorem arrange_range (cells : List Value) : arrange (List.range cells.length) cells = cells := by
  apply List.ext_getElem
  · simp [arrange]
  · intro i hi hi'
    simp [arrange, hi']

/-- From the last cell to the first. -/
theorem arrange_reversed (cells : List Value) :
    arrange (List.range cells.length).reverse cells = cells.reverse := by
  rw [arrange, List.map_reverse]
  exact congrArg List.reverse (arrange_range cells)

/-- The first cells, and zeros behind if there are fewer. -/
theorem arrange_firsts (k : Nat) (cells : List Value) :
    arrange (List.range k) cells =
      cells.take k ++ List.replicate (k - cells.length) (.int 0) := by
  apply List.ext_getElem
  · simp [arrange]
    omega
  · intro i hi hi'
    have hik : i < k := by simpa [arrange] using hi
    by_cases h : i < cells.length
    · rw [List.getElem_append_left (by simp; omega)]
      simp [arrange, h]
    · rw [List.getElem_append_right (by simp; omega)]
      simp [arrange, h]

/-- Where all values have a cell, all of them are read. -/
theorem received_of_lt {ps : List Nat} (hps : ∀ i ∈ ps, i < n) (hlen : vs.length = ps.length) :
    received n ps vs = vs := by
  have hsnd : received n ps vs = (ps.zip vs).map Prod.snd := by
    apply List.map_congr_left
    intro p hp
    rw [if_pos (hps p.1 (List.of_mem_zip hp).1)]
  rw [hsnd]
  exact List.map_snd_zip (by omega)

/-- The cells in order receive the first values, and zeros where there are more positions. -/
theorem received_range (h : vs.length = k) :
    received n (List.range k) vs = vs.take (min k n) ++ List.replicate (k - n) (.int 0) := by
  apply List.ext_getElem
  · simp [received]
    omega
  · intro i hi hi'
    have hik : i < k := by
      simp [received] at hi
      omega
    by_cases hn : i < n
    · rw [List.getElem_append_left (by simp; omega)]
      simp [received, hn]
    · rw [List.getElem_append_right (by simp; omega)]
      simp [received, hn]

/-! ## Picking from the numbers -/

/-- A mark is its cell's position; what is no cell of the target is marked with a negative
number. -/
theorem toInt_mark {i : Nat} (h : i < n → i < maxLength) :
    (mark n i).toInt = if i < n then (i : Int) else -1 := by
  unfold mark
  split
  · next hi =>
      have hlt := h hi
      unfold maxLength at hlt
      apply toInt_clampInt64
      · omega
      · omega
  · exact toInt_clampInt64 (by omega) (by omega)

/-- The number of a position counts from one and a fill element is zero. Less one, they are the
mark of the position. -/
theorem shifted_eq_mark {i : Nat} (h : i < n → i < maxLength) :
    clampInt64 ((if i < n then clampInt64 (i + 1 : Nat) else 0).toInt + (-1)) = mark n i := by
  unfold mark
  congr 1
  split
  · next hi =>
      have hlt := h hi
      unfold maxLength at hlt
      rw [toInt_clampInt64 (by omega) (by omega)]
      omega
  · rfl

/-- A vector of integers is read as indexes that count from one. -/
theorem positionsOf_vector {tower : Tower} {current : Value}
    (hindex : ∀ k, tower.toIndex? (.int k) = some k) (ks : List Int64) :
    positionsOf tower current (some (.vector (ks.map .int))) =
      .ok ((Grid.vector ks).offset (-1)) := by
  have hlists : (Value.vector (ks.map .int)).Lists (Value.StandsFor tower) (.vector ks) := by
    rw [Value.vector, List.length_map]
    apply Value.Lists.array
    rw [List.forall₂_map_left_iff, List.forall₂_same]
    intro k hk
    exact .number (hindex k)
  have hwell : (Value.vector (ks.map .int)).WellShaped := by
    refine Value.wellShaped_array_iff.mpr ⟨List.prod_singleton, ?_⟩
    intro v hv
    obtain ⟨k, -, rfl⟩ := List.mem_map.mp hv
    trivial
  have hconvert := (Domain.convert?_toIndexArray_iff hwell).mpr (.inr hlists)
  simp only [positionsOf, hconvert]

/-- **What an arrangement picks of the numbers from one up marks the positions of its cells.** -/
theorem positionsOf_arrange {tower : Tower} {current : Value} {s : Shape} {ps : List Nat}
    (hindex : ∀ k, tower.toIndex? (.int k) = some k)
    (hps : ∀ i ∈ ps, i < s.size → i < maxLength) :
    positionsOf tower current
        (some (.vector (arrange ps ((Value.indexes (.iota s)).cells?.getD [])))) =
      .ok (.vector (ps.map (mark s.size))) := by
  have harrange : arrange ps ((Value.indexes (.iota s)).cells?.getD []) =
      (ps.map fun i => if i < s.size then clampInt64 (i + 1 : Nat) else 0).map .int := by
    rw [arrange, List.map_map]
    apply List.map_congr_left
    intro i hi
    by_cases h : i < s.size
    · simp [Value.cells?, Grid.iota, h]
    · simp [Value.cells?, Grid.iota, h]
  have hmarks : (ps.map fun i =>
      clampInt64 ((if i < s.size then clampInt64 (i + 1 : Nat) else 0).toInt + (-1))) =
      ps.map (mark s.size) := by
    apply List.map_congr_left
    intro i hi
    exact shifted_eq_mark (hps i hi)
  rw [harrange, positionsOf_vector hindex, ← hmarks]
  simp [Grid.offset, Grid.vector]

/-! ## Replacing what is picked -/

variable {ps : List Nat}

/-- Different positions have different marks, unless they lie behind the last cell. -/
theorem pairwise_marks (hnodup : ps.Nodup) (hlen : vs.length = ps.length)
    (hps : ∀ i ∈ ps, i < n → i < maxLength) :
    ((ps.map (mark n)).zip vs).Pairwise fun p q => 0 ≤ p.1.toInt → p.1.toInt ≠ q.1.toInt := by
  have hfst : (ps.zip vs).Pairwise fun p q => p.1 ≠ q.1 := by
    rw [← List.pairwise_map (f := Prod.fst) (R := (· ≠ ·)), List.map_fst_zip (by omega)]
    exact hnodup
  rw [List.zip_map_left, List.pairwise_map]
  refine hfst.imp_of_mem ?_
  intro p q hp hq hne
  simp only [Prod.map_fst, toInt_mark (hps p.1 (List.of_mem_zip hp).1),
    toInt_mark (hps q.1 (List.of_mem_zip hq).1)]
  intro hnonneg heq
  split at hnonneg <;> split at heq <;> omega

/-- What a selection names is one of the positions, or none if that lies behind the last cell. -/
theorem exists_of_mem_marks (hps : ∀ i ∈ ps, i < n → i < maxLength) {p : Int64 × Value}
    (hp : p ∈ (ps.map (mark n)).zip vs) :
    ∃ i ∈ ps, p.1.toInt = if i < n then (i : Int) else -1 := by
  obtain ⟨i, hi, hmark⟩ := List.mem_map.mp (List.of_mem_zip hp).1
  refine ⟨i, hi, ?_⟩
  rw [← hmark]
  exact toInt_mark (hps i hi)

section Place

variable {cells' : Array Value} (hps : ∀ i ∈ ps, i < cells.length → i < maxLength)
include hps

/-- Marks never lie beyond the end. -/
theorem exists_place_marks :
    ∃ cells', place cells.toArray ((ps.map (mark cells.length)).zip vs) = .ok cells' := by
  apply exists_place
  intro p hp
  obtain ⟨i, -, hmark⟩ := exists_of_mem_marks hps hp
  rw [hmark, List.size_toArray]
  split <;> omega

variable (hplace : place cells.toArray ((ps.map (mark cells.length)).zip vs) = .ok cells')
include hplace

/-- A cell that was not selected stays. -/
theorem place_marks_kept {i : Nat} (hi : i ∉ ps) : cells'[i]? = cells[i]? := by
  have hno : ∀ p ∈ (ps.map (mark cells.length)).zip vs, p.1.toInt ≠ i := by
    intro p hp
    obtain ⟨j, hj, hmark⟩ := exists_of_mem_marks hps hp
    have hne : j ≠ i := fun h => hi (h ▸ hj)
    rw [hmark]
    split <;> omega
  simpa using place_unselected hplace hno

theorem arrange_place (hnodup : ps.Nodup) (hlen : vs.length = ps.length) :
    arrange ps cells'.toList = received cells.length ps vs := by
  have hsize : cells'.size = cells.length := by simpa using place_size hplace
  have hfst : (ps.zip vs).map Prod.fst = ps := List.map_fst_zip (by omega)
  -- each position stands beside the value that was meant for it
  have hzip : arrange ps cells'.toList =
      (ps.zip vs).map fun p => cells'.toList[p.1]?.getD (.int 0) := by
    calc arrange ps cells'.toList
        = arrange ((ps.zip vs).map Prod.fst) cells'.toList := by rw [hfst]
      _ = (ps.zip vs).map fun p => cells'.toList[p.1]?.getD (.int 0) := List.map_map
  rw [hzip]
  apply List.map_congr_left
  intro p hp
  by_cases h : p.1 < cells.length
  · have hmem : (mark cells.length p.1, p.2) ∈ (ps.map (mark cells.length)).zip vs := by
      rw [List.zip_map_left]
      exact List.mem_map_of_mem hp
    have hmark : (mark cells.length p.1).toInt = p.1 := by
      rw [toInt_mark (hps p.1 (List.of_mem_zip hp).1), if_pos h]
    have hcell := place_selected hplace (pairwise_marks hnodup hlen hps) hmem hmark
    simp [hcell, h]
  · simp [h, hsize]

end Place

end Selection

open Selection in
/-- **Through an arrangement that takes no cell twice, an array gets what is then read from it.** It
keeps its shape and the cells that are not taken. -/
theorem Selected.exists_updated_arrange {tower : Tower} {values current : Value} {s : Shape}
    {cells vs : List Value} {ps : List Nat} (hindex : ∀ k, tower.toIndex? (.int k) = some k)
    (hw : current.WellShaped) (hs : current.shape? = some s) (hcells : current.cells? = some cells)
    (hvs : values.cells? = some vs) (hnodup : ps.Nodup) (hlen : vs.length = ps.length)
    (hps : ∀ i ∈ ps, i < cells.length → i < maxLength) :
    ∃ updated cells',
      (Selected.mk values current
        (some (.vector (arrange ps ((Value.indexes (.iota s)).cells?.getD []))))).updated tower =
          .ok updated ∧
      updated.shape? = some s ∧ updated.cells? = some cells' ∧ cells'.length = cells.length ∧
      (∀ i, i ∉ ps → updated.cellAt? i = current.cellAt? i) ∧
      arrange ps cells' = received cells.length ps vs := by
  have hsize : s.size = cells.length := by simpa [hcells] using hw.size_eq hs
  -- marks are positions of cells or negative, so all of them can be placed
  obtain ⟨cells', hplace⟩ := exists_place_marks hps
  have hlength : cells'.size = cells.length := by simpa using place_size hplace
  have hcount : cells'.toList.length = (current.cells?.getD []).length := by
    simpa [hcells] using hlength
  obtain ⟨updated, hrebuild, hupdated⟩ := exists_rebuild hw hs hcount
  refine ⟨updated, cells'.toList, ?_, shape?_of_rebuild hs hrebuild, hupdated, ?_, ?_,
    arrange_place hps hplace hnodup hlen⟩
  · have hreplacements :
        replacements (Grid.vector (ps.map (mark s.size))).size values = .ok vs := by
      simp [replacements, hvs, Grid.size, Grid.vector, hlen]
    rw [Selected.updated, positionsOf_arrange hindex (hsize ▸ hps)]
    show replace current _ values = _
    rw [replace_eq hs, hreplacements, hcells, hsize]
    show (place cells.toArray ((ps.map (mark cells.length)).zip vs) >>= _) = _
    rw [hplace]
    exact hrebuild
  · simpa using hlength
  · intro i hi
    simpa [Value.cellAt?, hupdated, hcells] using place_marks_kept hps hplace hi

end ArrayLang
