import ArrayLang.Proofs.Selection.Cells
import ArrayLang.Proofs.Selection.Arranging

/-!
# Which cells a selection addresses

The function that selects is handed numbers that count from one, with zero for a fill element, and a
replacement counts from zero and passes over what is negative. In between, what the function picked
is converted to indexes, and one is taken from each. `Selection.addressed_cells` goes the whole way:
a number that the function picks addresses the cell that it was the number of, and no other number
addresses any.
-/

namespace ArrayLang

namespace Value

/-- The numbers in a picked value: the entries of an array of indexes, and of anything else what its
content stands for. -/
def Picks (tower : Tower) (picked : Value) (g : Grid Int64) : Prop :=
  picked = .indexes g ∨ picked.Lists (StandsFor tower) g

end Value

/-- The answers are the same to both parts of a program. -/
theorem Body.answer_bind {α β : Type} (b : Body α) (next : α → Body β)
    (calls : Callable → Option Value → Value → Option (Except EvalError Value)) :
    (b >>= next).answer calls =
      (b.answer calls).bind fun r => (ofExcept r >>= next).answer calls := by
  induction b with
  | done r => rfl
  | call f left right resume ih =>
      show ((call f left right resume).bind next).answer calls = _
      rw [bind, answer, answer]
      cases calls f left right with
      | none => rfl
      | some r => exact ih r
  | panics => rfl

/-! ## From one up and from zero -/

/-- One less, except of the least integer word. -/
theorem toInt_clampInt64_pred (k : Int64) :
    (clampInt64 (k.toInt + (-1))).toInt = max (k.toInt - 1) (-9223372036854775808) := by
  have hlo := k.le_toInt
  have hhi := k.toInt_lt
  by_cases h : k.toInt = -9223372036854775808
  · rw [h]
    rfl
  · rw [toInt_clampInt64 (by omega) (by omega)]
    omega

namespace Grid

/-- Shifting by one saturates at the smallest integer. -/
theorem toInt_offset_neg_one (g : Grid Int64) :
    (g.offset (-1)).cells.map Int64.toInt =
      g.cells.map fun k => max (k.toInt - 1) (-9223372036854775808) := by
  rw [offset, List.map_map]
  exact List.map_congr_left fun k _ => toInt_clampInt64_pred k

/-- The cells have the numbers from one up, as far as there are integer words. -/
theorem toInt_iota {s : Shape} {i : Nat} {k : Int64} (h : (iota s).cells[i]? = some k) :
    k.toInt = (min (i + 1) Selection.maxLength : Nat) := by
  rw [iota, List.getElem?_map, Option.map_eq_some_iff] at h
  obtain ⟨j, hj, rfl⟩ := h
  obtain ⟨hlt, rfl⟩ := List.getElem?_eq_some_iff.mp hj
  rw [List.getElem_range]
  unfold Selection.maxLength
  by_cases hi : i + 1 ≤ 9223372036854775807
  · rw [toInt_clampInt64 (by omega) (by omega)]
    omega
  · have hmid : max (-9223372036854775808) (min ((i + 1 : Nat) : Int) 9223372036854775807) =
        9223372036854775807 := by omega
    rw [clampInt64, hmid, Nat.min_eq_right (by omega)]
    rfl

end Grid

namespace Selection

variable {target values picked v : Value} {cells : List Value} {g : Grid Int64} {i : Nat}
  {s : Shape} {tower : Tower}

/-- The first of the numbers that no cell has. Numbers count from one. -/
def firstUnused? (n : Nat) (ks : List Int64) : Option Int64 :=
  ks.find? fun (k : Int64) => (n : Int) < k.toInt

theorem firstUnused?_eq_some (n : Nat) {ks : List Int64} {k : Int64}
    (h : firstUnused? n ks = some k) : (n : Int) < k.toInt := by
  simpa using List.find?_some h

/-- The first position beyond the end is the first index without a cell, shifted. -/
theorem firstBeyond?_offset (n : Nat) (g : Grid Int64) :
    firstBeyond? n (g.offset (-1)).cells =
      (firstUnused? n g.cells).map fun (k : Int64) => clampInt64 (k.toInt + (-1)) := by
  have hpred : ∀ k : Int64, ((n : Int) ≤ (clampInt64 (k.toInt + (-1))).toInt) = (n < k.toInt) := by
    intro k
    rw [toInt_clampInt64_pred, eq_iff_iff]
    omega
  unfold firstBeyond? firstUnused? Grid.offset
  rw [List.find?_map]
  congr 2
  funext k
  exact decide_eq_decide.mpr (iff_of_eq (hpred k))

/-- The cell that a shifted position addresses is the one that its index means. -/
theorem becomes_offset (h : Becomes target ((g.offset (-1)).cells.map Int64.toInt) values i v) :
    Becomes target (g.cells.map fun (k : Int64) => k.toInt - 1) values i v := by
  rw [Grid.toInt_offset_neg_one] at h
  refine h.congr fun j => ?_
  simp only [List.getElem?_map, Option.map_eq_some_iff]
  constructor
  · rintro ⟨k, hk, hki⟩
    exact ⟨k, hk, by omega⟩
  · rintro ⟨k, hk, hki⟩
    exact ⟨k, hk, by omega⟩

/-! ## The two ends of a selection -/

/-- What comes of a picked value. -/
theorem positionsOf_of_picks (current : Value) (hpicked : picked.WellShaped)
    (h : picked.Picks tower g) : positionsOf tower current (some picked) = .ok (g.offset (-1)) := by
  simp only [positionsOf, (Domain.convert?_toIndexArray_iff hpicked).mpr h]

/-- What is no index array cannot be made positions of. -/
theorem positionsOf_of_not_picks (current : Value) (hpicked : picked.WellShaped)
    (h : ∀ g, ¬ picked.Picks tower g) :
    positionsOf tower current (some picked) =
      .error (.of (.conversion picked.kind "index array")) := by
  unfold positionsOf
  simp only
  split
  · next g hg => exact absurd ((Domain.convert?_toIndexArray_iff hpicked).mp hg) (h g)
  · rfl

/-- An index without a cell is an error, reported with its shifted value. -/
theorem replace_offset_of_firstUnused? {k : Int64} (htarget : target.cells? = some cells)
    (hvalues : values.Serves g.size) (hk : firstUnused? cells.length g.cells = some k) :
    ∃ p : Int64, p.toInt = k.toInt - 1 ∧
      replace target (g.offset (-1)) values = .error (.of (.indexOutOfBounds p cells.length)) := by
  refine ⟨clampInt64 (k.toInt + (-1)), ?_, ?_⟩
  · have hlt := firstUnused?_eq_some _ hk
    rw [toInt_clampInt64_pred]
    omega
  · refine replace_of_firstBeyond? htarget ?_ ?_
    · simpa [Grid.size, Grid.offset] using hvalues
    · rw [firstBeyond?_offset, hk]
      rfl

/-- If every index has a cell, the replacement succeeds. -/
theorem exists_replace_offset (hw : target.WellShaped) (htarget : target.cells? = some cells)
    (hvalues : values.Serves g.size) (hk : firstUnused? cells.length g.cells = none) :
    ∃ updated cells', replace target (g.offset (-1)) values = .ok updated ∧
      updated.shape? = target.shape? ∧ updated.cells? = some cells' ∧
      cells'.length = cells.length ∧
      ∀ i v, cells'[i]? = some v →
        Becomes target (g.cells.map fun (k : Int64) => k.toInt - 1) values i v := by
  have hin : firstBeyond? cells.length (g.offset (-1)).cells = none := by
    rw [firstBeyond?_offset, hk]
    rfl
  obtain ⟨updated, cells', hreplace, hshape, hcells', hlength, hbecomes, -⟩ :=
    exists_replace hw htarget (by simpa [Grid.size, Grid.offset] using hvalues)
      (firstBeyond?_eq_none_iff.mp hin)
  exact ⟨updated, cells', hreplace, hshape, hcells', hlength, fun i v hv =>
    becomes_offset (hbecomes i v hv)⟩

/-- **A selection addresses the cells whose numbers are picked.** The function that selects is
called once, with the left argument as it is and the numbers of the cells in the shape of the array.
An error that it ends with stays as it is, and something without numbers in it is turned down. From
each picked number one is taken, which wraps around for none. Values for all of these numbers then
go to the cells whose numbers they are. Zero and what is below addresses nothing, and a number
beyond the last cell is an error that names the first of them. -/
theorem addressed_cells (tower : Tower) (select : Option Value → Value → Body Value)
    (left : Option Value) (hw : target.WellShaped) (hs : target.shape? = some s)
    (htarget : target.cells? = some cells)
    (calls : Callable → Option Value → Value → Option (Except EvalError Value)) :
    ∃ numbers : Grid Int64, numbers.shape = s ∧ numbers.size = cells.length ∧
      (∀ (i : Nat) k, numbers.cells[i]? = some k → k.toInt = (min (i + 1) maxLength : Nat)) ∧
      (positions tower select left target =
        select left (.indexes numbers) >>= fun picked =>
          .ofExcept (positionsOf tower target (some picked))) ∧
      (∀ e, (select left (.indexes numbers)).answer calls = some (.error e) →
        (positions tower select left target).answer calls = some (.error e)) ∧
      ∀ picked, (select left (.indexes numbers)).answer calls = some (.ok picked) →
        picked.WellShaped →
        ((∀ g, ¬ picked.Picks tower g) →
          (positions tower select left target).answer calls =
            some (.error (.of (.conversion picked.kind "index array")))) ∧
        ∀ g, picked.Picks tower g → ∃ ps,
          (positions tower select left target).answer calls = some (.ok ps) ∧
          ps.shape = g.shape ∧
          (ps.cells.map Int64.toInt =
            g.cells.map fun k => max (k.toInt - 1) (-9223372036854775808)) ∧
          ∀ values : Value, values.Serves g.size →
            (∀ k, firstUnused? cells.length g.cells = some k → ∃ p : Int64,
              p.toInt = k.toInt - 1 ∧
              replace target ps values = .error (.of (.indexOutOfBounds p cells.length))) ∧
            (firstUnused? cells.length g.cells = none → ∃ updated cells',
              replace target ps values = .ok updated ∧ updated.shape? = some s ∧
              updated.cells? = some cells' ∧ cells'.length = cells.length ∧
              ∀ i v, cells'[i]? = some v →
                Becomes target (g.cells.map fun (k : Int64) => k.toInt - 1) values i v) := by
  have hsize : s.size = cells.length := by simpa [htarget] using hw.size_eq hs
  -- the target is an array, so what is called is the function, on the numbers of its cells
  have hpositions := positions_eq tower select left target
  rw [hs] at hpositions
  refine ⟨.iota s, rfl, ?_, fun i k => Grid.toInt_iota, hpositions, fun e he => ?_,
    fun picked hpicked hpw => ⟨fun hno => ?_, fun g hg => ?_⟩⟩
  · simpa [Grid.size, Grid.iota] using hsize
  · rw [hpositions, Body.answer_bind, he]
    rfl
  · rw [hpositions, Body.answer_bind, hpicked, ← positionsOf_of_not_picks target hpw hno]
    rfl
  · refine ⟨g.offset (-1), ?_, rfl, Grid.toInt_offset_neg_one g, fun values hvalues =>
      ⟨fun k => replace_offset_of_firstUnused? htarget hvalues, fun hnone => ?_⟩⟩
    · rw [hpositions, Body.answer_bind, hpicked, ← positionsOf_of_picks target hpw hg]
      rfl
    · rw [← hs]
      exact exists_replace_offset hw htarget hvalues hnone

/-- The numbers of three texts, picked by a function that makes a general array of the least integer
word, true and three: the first value goes nowhere. -/
theorem addressed_cells_of_texts :
    (Value.strings (.vector ["a", "b", "c"])).WellShaped ∧
    (Value.strings (.vector ["a", "b", "c"])).shape? = some [3] ∧
    ∃ ps updated cells',
      (positions .standard
          (fun _ _ => pure (.vector [.int Int64.minValue, .bool true, .int 3])) none
          (.strings (.vector ["a", "b", "c"]))).answer (fun _ _ _ => none) = some (.ok ps) ∧
      replace (.strings (.vector ["a", "b", "c"])) ps (.strings (.vector ["x", "y", "z"])) =
        .ok updated ∧
      updated.cells? = some cells' ∧ cells'[0]? = some (.text "y") ∧
      cells'[1]? = some (.text "b") ∧ cells'[2]? = some (.text "z") := by
  have hw : (Value.strings (.vector ["a", "b", "c"])).WellShaped := by
    rw [Value.WellShaped]
    rfl
  have hpw : (Value.vector [.int Int64.minValue, .bool true, .int 3]).WellShaped := by
    refine Value.wellShaped_array_iff.mpr ⟨rfl, fun v hv => ?_⟩
    simp only [List.mem_cons, List.not_mem_nil, or_false] at hv
    rcases hv with rfl | rfl | rfl <;> trivial
  have hpicks : (Value.vector [.int Int64.minValue, .bool true, .int 3]).Picks .standard
      (.vector [Int64.minValue, 1, 3]) :=
    .inr (.array (.cons (.number rfl) (.cons .true (.cons (.number rfl) .nil))))
  have hserves : (Value.strings (.vector ["x", "y", "z"])).Serves 3 := by
    rintro _ ⟨⟩
    rfl
  -- the smallest integer stays where it is when it is shifted; from the end it addresses no cell
  obtain ⟨numbers, -, -, -, -, -, hanswer⟩ := addressed_cells .standard
    (fun _ _ => pure (.vector [.int Int64.minValue, .bool true, .int 3])) none hw rfl rfl
    fun _ _ _ => none
  obtain ⟨ps, hps, -, -, hvalues⟩ := (hanswer _ rfl hpw).2 _ hpicks
  obtain ⟨updated, cells', hreplace, -, hcells, hlength, hbecomes⟩ :=
    (hvalues _ hserves).2 (by decide)
  have hlt : ∀ i, i < 3 → i < cells'.length := fun i hi => hlength ▸ hi
  refine ⟨hw, rfl, ps, updated, cells', hps, hreplace, hcells, ?_, ?_, ?_⟩
  · exact Becomes.getElem? (.placed (j := 1) rfl (notNamed_of_drop (by decide)) rfl) hbecomes
      (hlt 0 (by decide))
  · exact Becomes.getElem? (.kept (by decide) rfl) hbecomes (hlt 1 (by decide))
  · exact Becomes.getElem? (.placed (j := 2) rfl (notNamed_of_drop (by decide)) rfl) hbecomes
      (hlt 2 (by decide))

end Selection

end ArrayLang
