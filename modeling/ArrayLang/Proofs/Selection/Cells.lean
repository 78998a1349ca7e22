import ArrayLang.Proofs.Value.Shapes

/-!
# A replacement cell by cell

What a replacement comes to, from the target, the positions and the values alone: the error if there
is one, and else the shape, the kind and every single cell of the new array
(`Selection.replaced_cell_by_cell`). Which value a cell has afterwards is said by
`Selection.Becomes`, without reference to the order in which values are placed: of all positions
that name the cell, the last one counts.
-/

namespace ArrayLang

namespace Value

/-- The value that goes with the position of this number: the cell of this number of an array, and
anything else itself. -/
def share? (v : Value) (j : Nat) : Option Value :=
  match v.cells? with
  | some cells => cells[j]?
  | none => some v

/-- An array has one cell for each of `count` positions. Anything else will do for any number. -/
def Serves (v : Value) (count : Nat) : Prop := ∀ cells, v.cells? = some cells → cells.length = count

end Value

namespace Selection

variable {target values updated v w : Value} {cells vs : List Value} {positions : Grid Int64}
  {numbers numbers' : List Int} {i count : Nat} {s : Shape}

/-! ## The values for the positions -/

/-- Values that serve are distributed, one for each position. -/
theorem replacements_of_serves (h : values.Serves count) :
    ∃ vs, replacements count values = .ok vs ∧ vs.length = count ∧
      ∀ j, j < count → vs[j]? = values.share? j := by
  unfold replacements Value.share?
  cases hcells : values.cells? with
  | some cells =>
      have hlen := h cells hcells
      exact ⟨cells, if_pos hlen, hlen, fun _ _ => rfl⟩
  | none =>
      refine ⟨_, rfl, List.length_replicate, fun j hj => ?_⟩
      rw [List.getElem?_replicate, if_pos hj]

/-- An array of another length is refused. -/
theorem replacements_of_length_ne (hvs : values.cells? = some vs) (hlen : vs.length ≠ count) :
    replacements count values = .error (.of (.lengthMismatch count vs.length)) := by
  unfold replacements
  rw [hvs]
  exact if_neg hlen

/-! ## The cells afterwards -/

/-- The value `v` is what the cell at `i` becomes. The positions are given by their numbers, and
numbers below zero are those of no cell. -/
inductive Becomes (target : Value) (numbers : List Int) (values : Value) (i : Nat) : Value → Prop
  /-- The last position that names the cell decides. -/
  | placed {j : Nat} {v : Value} (hj : numbers[j]? = some (i : Int))
      (hlast : ∀ j', j < j' → numbers[j']? ≠ some (i : Int)) (hv : values.share? j = some v) :
      Becomes target numbers values i v
  /-- A cell that no position names stays. -/
  | kept {v : Value} (hno : (i : Int) ∉ numbers) (hv : target.cellAt? i = some v) :
      Becomes target numbers values i v

/-- No later position names the cell if it is not among those behind. -/
theorem notNamed_of_drop {j : Nat} (h : (i : Int) ∉ numbers.drop (j + 1)) (j' : Nat) (hj : j < j') :
    numbers[j']? ≠ some (i : Int) := by
  intro hi
  refine h (List.mem_of_getElem? (i := j' - (j + 1)) ?_)
  rw [List.getElem?_drop, Nat.add_sub_cancel' hj]
  exact hi

/-- A cell becomes one value only. -/
theorem Becomes.unique (hv : Becomes target numbers values i v)
    (hw : Becomes target numbers values i w) : v = w := by
  cases hv with
  | @placed j _ hj hlast hv =>
      cases hw with
      | @placed j' _ hj' hlast' hw =>
          rcases Nat.lt_trichotomy j j' with hlt | rfl | hlt
          · exact absurd hj' (hlast j' hlt)
          · exact Option.some.inj (hv.symm.trans hw)
          · exact absurd hj (hlast' j hlt)
      | kept hno _ => exact absurd (List.mem_of_getElem? hj) hno
  | kept hno hv =>
      cases hw with
      | placed hj' _ _ => exact absurd (List.mem_of_getElem? hj') hno
      | kept _ hw => exact Option.some.inj (hv.symm.trans hw)

/-- What a cell becomes is what it is, where all cells are what they become. -/
theorem Becomes.getElem? {cells' : List Value} (hv : Becomes target numbers values i v)
    (hcells : ∀ i v, cells'[i]? = some v → Becomes target numbers values i v)
    (hi : i < cells'.length) : cells'[i]? = some v := by
  have hget := List.getElem?_eq_getElem hi
  rw [hget, (hcells i _ hget).unique hv]

/-- Which of the numbers below zero it is does not matter. -/
theorem Becomes.congr (h : Becomes target numbers values i v)
    (hsame : ∀ j : Nat, numbers[j]? = some (i : Int) ↔ numbers'[j]? = some (i : Int)) :
    Becomes target numbers' values i v := by
  cases h with
  | placed hj hlast hv =>
      exact .placed ((hsame _).mp hj) (fun j hlt => mt (hsame j).mpr (hlast j hlt)) hv
  | kept hno hv =>
      refine .kept (fun hmem => hno ?_) hv
      obtain ⟨j, hj⟩ := List.mem_iff_getElem?.mp hmem
      exact List.mem_of_getElem? ((hsame j).mpr hj)

/-- The last of the pairs that name the cell, if there is one. -/
theorem exists_latest {l : List (Int64 × Value)} (h : (i : Int) ∈ l.map fun p => p.1.toInt) :
    ∃ before, ∃ k : Int64, ∃ v behind, l = before ++ (k, v) :: behind ∧ k.toInt = i ∧
      ∀ p : Int64 × Value, p ∈ behind → p.1.toInt ≠ i := by
  obtain ⟨p, hp, hpi⟩ := List.mem_map.mp h
  have hsome : (l.reverse.find? fun p : Int64 × Value => p.1.toInt = i).isSome := by
    rw [List.find?_isSome]
    exact ⟨p, List.mem_reverse.mpr hp, by simpa using hpi⟩
  obtain ⟨⟨k, v⟩, hfind⟩ := Option.isSome_iff_exists.mp hsome
  obtain ⟨hk, behind, before, hsplit, hbehind⟩ := List.find?_eq_some_iff_append.mp hfind
  refine ⟨before.reverse, k, v, behind.reverse, ?_, by simpa using hk, fun q hq => ?_⟩
  · rw [← List.reverse_reverse l, hsplit]
    simp
  · simpa using hbehind q (List.mem_reverse.mp hq)

/-- Placing values one after the other has this effect. -/
theorem becomes_of_place {ks : List Int64} {cells' : Array Value}
    (htarget : target.cells? = some cells) (hlen : vs.length = ks.length)
    (hvs : ∀ j, j < ks.length → vs[j]? = values.share? j)
    (h : place cells.toArray (ks.zip vs) = .ok cells') (hi : cells'[i]? = some v) :
    Becomes target (ks.map Int64.toInt) values i v := by
  have hks : (ks.zip vs).map Prod.fst = ks := List.map_fst_zip (by omega)
  have hsnd : (ks.zip vs).map Prod.snd = vs := List.map_snd_zip (by omega)
  have hnumbers : ks.map Int64.toInt = (ks.zip vs).map fun p => p.1.toInt := by
    calc ks.map Int64.toInt
        = ((ks.zip vs).map Prod.fst).map Int64.toInt := by rw [hks]
      _ = (ks.zip vs).map fun p => p.1.toInt := List.map_map
  -- the cell has the value of its last position, or the one it had if it is at none
  by_cases hmem : (i : Int) ∈ ks.map Int64.toInt
  · rw [hnumbers] at hmem ⊢
    obtain ⟨before, k, v', behind, hsplit, hk, hbehind⟩ := exists_latest hmem
    rw [hsplit] at h hsnd ⊢
    have hv : some v = some v' := hi.symm.trans (place_latest h hk hbehind)
    cases hv
    have hvalue : vs[before.length]? = some v := by
      rw [← hsnd]
      simp
    refine .placed (j := before.length) (by simp [hk]) (notNamed_of_drop fun hmem => ?_) ?_
    · have hdrop : ((before ++ (k, v) :: behind).map fun p => p.1.toInt).drop (before.length + 1) =
          behind.map fun p => p.1.toInt := by
        rw [← List.map_drop, List.drop_length_add_append]
        rfl
      rw [hdrop] at hmem
      obtain ⟨q, hq, hqi⟩ := List.mem_map.mp hmem
      exact hbehind q hq hqi
    · rw [← hvs before.length, hvalue]
      rw [← hlen]
      exact (List.getElem?_eq_some_iff.mp hvalue).1
  · refine .kept hmem ?_
    have hkept : cells'[i]? = cells.toArray[i]? := by
      refine place_unselected h fun p hp hpi => hmem ?_
      exact List.mem_map.mpr ⟨p.1, (List.of_mem_zip hp).1, hpi⟩
    rw [Value.cellAt?, htarget]
    simpa using hkept.symm.trans hi

/-! ## The kind of array -/

/-- The kind of array that comes out: that of the target if it is for all of these cells, and else
the general one. -/
structure KeepsKind (target : Value) (cells : List Value) (updated : Value) : Prop where
  strings : updated.kind = .stringArray ↔ target.kind = .stringArray ∧ ∀ v ∈ cells, v.kind = .text
  indexes : updated.kind = .indexArray ↔ target.kind = .indexArray ∧ ∀ v ∈ cells, v.kind = .int
  emptyArray : updated.kind = .emptyArray ↔ target.kind = .emptyArray
  array : updated.kind = .stringArray ∨ updated.kind = .indexArray ∨ updated.kind = .emptyArray ∨
    updated.kind = .array

theorem kind_of_arrayOfShape (h : Value.arrayOfShape s cells = .ok updated) :
    updated.kind = .array := by
  obtain ⟨-, -, h⟩ := exists_of_bind_eq_ok h
  cases h
  rfl

theorem isSome_text?_iff : v.text?.isSome ↔ v.kind = .text := by
  cases v with
  | number n => cases n <;> simp [Value.text?, Value.kind]
  | _ => simp [Value.text?, Value.kind]

theorem isSome_cellInt?_iff : (cellInt? v).isSome ↔ v.kind = .int := by
  cases v with
  | number n => cases n <;> simp [cellInt?, Value.kind]
  | _ => simp [cellInt?, Value.kind]

/-- A list can be read as a whole if each of its elements can. -/
theorem isSome_mapM_iff {α : Type} {f : Value → Option α} :
    (cells.mapM f).isSome ↔ ∀ v ∈ cells, (f v).isSome := by
  induction cells with
  | nil => simp
  | cons v cells ih =>
      rw [List.forall_mem_cons, ← ih, List.mapM_cons]
      cases f v <;> cases cells.mapM f <;> simp

/-- The kind of the target stays. -/
theorem keepsKind_of_kind_eq (h : updated.kind = target.kind) (harray : target.isArray = true)
    (hstrings : target.kind = .stringArray → ∀ v ∈ cells, v.kind = .text)
    (hindexes : target.kind = .indexArray → ∀ v ∈ cells, v.kind = .int) :
    KeepsKind target cells updated where
  strings := by
    rw [h]
    exact ⟨fun hk => ⟨hk, hstrings hk⟩, And.left⟩
  indexes := by
    rw [h]
    exact ⟨fun hk => ⟨hk, hindexes hk⟩, And.left⟩
  emptyArray := by rw [h]
  array := by
    rw [h]
    cases target <;> simp_all [Value.kind, Value.isArray]

/-- The general kind comes out. -/
theorem keepsKind_of_kind_array (h : updated.kind = .array) (hempty : target.kind ≠ .emptyArray)
    (hstrings : target.kind = .stringArray → ¬ ∀ v ∈ cells, v.kind = .text)
    (hindexes : target.kind = .indexArray → ¬ ∀ v ∈ cells, v.kind = .int) :
    KeepsKind target cells updated where
  strings := by
    rw [h]
    exact ⟨nofun, fun hk => absurd hk.2 (hstrings hk.1)⟩
  indexes := by
    rw [h]
    exact ⟨nofun, fun hk => absurd hk.2 (hindexes hk.1)⟩
  emptyArray := by
    rw [h]
    exact ⟨nofun, fun hk => absurd hk hempty⟩
  array := .inr (.inr (.inr h))

/-- The array is of the same kind as long as its cells allow it. -/
theorem keepsKind_rebuild (harray : target.isArray = true)
    (hempty : target.kind = .emptyArray → cells = []) (h : rebuild target s cells = .ok updated) :
    KeepsKind target cells updated := by
  unfold rebuild at h
  cases target with
  | emptyArray =>
      rw [hempty rfl] at h
      cases h
      exact keepsKind_of_kind_eq rfl rfl nofun nofun
  | strings g =>
      simp only at h
      split at h
      · -- all cells are texts, and the array stays one of texts
        next texts htexts =>
          obtain ⟨-, -, -, rfl⟩ := fits_of_ofShape h
          have hall := isSome_mapM_iff.mp (Option.isSome_of_eq_some htexts)
          exact keepsKind_of_kind_eq rfl rfl (fun _ v hv => isSome_text?_iff.mp (hall v hv)) nofun
      · next hnone =>
          refine keepsKind_of_kind_array (kind_of_arrayOfShape h) nofun (fun _ hall => ?_) nofun
          have hsome := isSome_mapM_iff.mpr fun v hv => isSome_text?_iff.mpr (hall v hv)
          rw [hnone] at hsome
          cases hsome
  | indexes g =>
      simp only at h
      split at h
      · -- the same with integers
        next ints hints =>
          obtain ⟨-, -, -, rfl⟩ := fits_of_ofShape h
          have hall := isSome_mapM_iff.mp (Option.isSome_of_eq_some hints)
          exact keepsKind_of_kind_eq rfl rfl nofun fun _ v hv => isSome_cellInt?_iff.mp (hall v hv)
      · next hnone =>
          refine keepsKind_of_kind_array (kind_of_arrayOfShape h) nofun nofun fun _ hall => ?_
          have hsome := isSome_mapM_iff.mpr fun v hv => isSome_cellInt?_iff.mpr (hall v hv)
          rw [hnone] at hsome
          cases hsome
  | array => exact keepsKind_of_kind_array (kind_of_arrayOfShape h) nofun nofun nofun
  | bool | number | text | primitive | closure | derived => cases harray

/-! ## All of it -/

/-- A wrong number of values is reported before any position. -/
theorem replace_of_length_ne (htarget : target.isArray = true) (hvs : values.cells? = some vs)
    (hlen : vs.length ≠ positions.size) :
    replace target positions values = .error (.of (.lengthMismatch positions.size vs.length)) := by
  obtain ⟨s, hs⟩ := Option.isSome_iff_exists.mp ((Value.isArray_eq target).1 ▸ htarget)
  rw [replace_eq hs, replacements_of_length_ne hvs hlen]
  rfl

/-- With the right number of values, the first position beyond the end is reported. -/
theorem replace_of_firstBeyond? {k : Int64} (htarget : target.cells? = some cells)
    (hvalues : values.Serves positions.size)
    (hk : firstBeyond? cells.length positions.cells = some k) :
    replace target positions values = .error (.of (.indexOutOfBounds k cells.length)) := by
  obtain ⟨s, hs⟩ := Option.isSome_iff_exists.mp
    ((Value.isArray_eq target).1 ▸ Value.isArray_of_cells? htarget)
  obtain ⟨vs, hvs, hlen, -⟩ := replacements_of_serves hvalues
  have hplace : place cells.toArray (positions.cells.zip vs) =
      .error (.of (.indexOutOfBounds k cells.length)) := by
    refine place_eq_error_iff.mpr ⟨k, ?_, by rw [List.size_toArray]⟩
    rw [List.map_fst_zip (Nat.le_of_eq hlen.symm), List.size_toArray]
    exact hk
  rw [replace_eq hs, hvs, htarget]
  show (place cells.toArray (positions.cells.zip vs) >>= _) = _
  rw [hplace]
  rfl

/-- A replacement without such errors succeeds. -/
theorem exists_replace (hw : target.WellShaped) (htarget : target.cells? = some cells)
    (hvalues : values.Serves positions.size)
    (hin : ∀ k ∈ positions.cells, k.toInt < cells.length) :
    ∃ updated cells', replace target positions values = .ok updated ∧
      updated.shape? = target.shape? ∧ updated.cells? = some cells' ∧
      cells'.length = cells.length ∧
      (∀ i v, cells'[i]? = some v →
        Becomes target (positions.cells.map Int64.toInt) values i v) ∧
      KeepsKind target cells' updated := by
  have harray := Value.isArray_of_cells? htarget
  obtain ⟨s, hs⟩ := Option.isSome_iff_exists.mp ((Value.isArray_eq target).1 ▸ harray)
  obtain ⟨vs, hvs, hlen, hshare⟩ := replacements_of_serves hvalues
  obtain ⟨cells', hplace⟩ : ∃ cells', place cells.toArray (positions.cells.zip vs) = .ok cells' :=
    exists_place fun p hp => by simpa using hin p.1 (List.of_mem_zip hp).1
  have hlength : cells'.size = cells.length := by simpa using place_size hplace
  have hcount : cells'.toList.length = (target.cells?.getD []).length := by
    simpa [htarget] using hlength
  obtain ⟨updated, hrebuild, hcells'⟩ := exists_rebuild hw hs hcount
  refine ⟨updated, cells'.toList, ?_, ?_, hcells', by simpa using hlength, fun i v hi => ?_, ?_⟩
  · rw [replace_eq hs, hvs, htarget]
    show (place cells.toArray (positions.cells.zip vs) >>= _) = _
    rw [hplace]
    exact hrebuild
  · rw [shape?_of_rebuild hs hrebuild, hs]
  · exact becomes_of_place htarget hlen hshare hplace (by simpa using hi)
  · -- the empty array has no cell that could have been replaced
    refine keepsKind_rebuild harray (fun hk => ?_) hrebuild
    have hnil : cells = [] := by
      cases target with
      | emptyArray =>
          cases htarget
          rfl
      | number n => cases n <;> cases hk
      | _ => cases hk
    rw [hnil] at hlength
    exact List.length_eq_zero_iff.mp (by simpa using hlength)

/-- **A replacement, cell by cell.** Only in an array can anything be replaced; an array of values
has to have one for each position, and what no longer has room is the first position behind the last
cell. With all that in order the replacement succeeds. The new array has the shape of the target; a
cell is what came with the last position that names it, and the old one if there is none, and
positions below zero use up their value for nothing. The kind is that of the target if the kind is
for all of these cells, and else the general one. Cells never fail to fill the shape. -/
theorem replaced_cell_by_cell (hw : target.WellShaped) (positions : Grid Int64) (values : Value) :
    (target.isArray = false →
      replace target positions values = .error (.of (.notAnArray target.kind))) ∧
    (∀ vs, target.isArray = true → values.cells? = some vs → vs.length ≠ positions.size →
      replace target positions values =
        .error (.of (.lengthMismatch positions.size vs.length))) ∧
    (∀ cells, target.cells? = some cells → values.Serves positions.size →
      (∀ k, firstBeyond? cells.length positions.cells = some k →
        replace target positions values = .error (.of (.indexOutOfBounds k cells.length))) ∧
      (firstBeyond? cells.length positions.cells = none →
        ∃ updated cells', replace target positions values = .ok updated ∧
          updated.shape? = target.shape? ∧ updated.cells? = some cells' ∧
          cells'.length = cells.length ∧
          (∀ i v, cells'[i]? = some v →
            Becomes target (positions.cells.map Int64.toInt) values i v) ∧
          KeepsKind target cells' updated)) ∧
    ∀ e, replace target positions values = .error e → ∀ s n, e.cause ≠ .shapeMismatch s n := by
  refine ⟨fun hno => replace_eq_notAnArray ?_, fun vs => replace_of_length_ne,
    fun cells hcells hvalues => ⟨fun k => replace_of_firstBeyond? hcells hvalues, fun hnone => ?_⟩,
    fun e he s n hcause => ?_⟩
  · rw [(Value.isArray_eq target).1] at hno
    exact Option.not_isSome_iff_eq_none.mp (by simp [hno])
  · exact exists_replace hw hcells hvalues (firstBeyond?_eq_none_iff.mp hnone)
  · have hrejects := replace_error he hw
    rw [hcause] at hrejects
    cases hrejects

/-- Four values for the positions 3, -1, 0 and 3 in a square of integers: one of them is used up for
nothing, the last one goes over the first, and with a text among its cells the array is a general
one. -/
theorem replaced_cell_by_cell_mixed :
    (Value.indexes ⟨[2, 2], [1, 2, 3, 4]⟩).WellShaped ∧
    ∃ updated cells',
      replace (.indexes ⟨[2, 2], [1, 2, 3, 4]⟩) (.vector [3, -1, 0, 3])
        (.vector [.int 7, .int 8, .text "x", .int 9]) = .ok updated ∧
      updated.cells? = some cells' ∧ cells'[0]? = some (.text "x") ∧ cells'[1]? = some (.int 2) ∧
      cells'[3]? = some (.int 9) ∧ updated.kind = .array := by
  have hw : (Value.indexes ⟨[2, 2], [1, 2, 3, 4]⟩).WellShaped := by
    rw [Value.WellShaped]
    rfl
  have hserves : (Value.vector [.int 7, .int 8, .text "x", .int 9]).Serves 4 := by
    rintro _ ⟨⟩
    rfl
  obtain ⟨updated, cells', hreplace, -, hcells, hlength, hbecomes, hkind⟩ :=
    ((replaced_cell_by_cell hw (.vector [3, -1, 0, 3]) _).2.2.1 _ rfl hserves).2 (by decide)
  have hlt : ∀ i, i < 4 → i < cells'.length := fun i hi => hlength ▸ hi
  have hfirst : cells'[0]? = some (.text "x") := by
    exact Becomes.getElem? (.placed (j := 2) rfl (notNamed_of_drop (by decide)) rfl) hbecomes
      (hlt 0 (by decide))
  refine ⟨hw, updated, cells', hreplace, hcells, hfirst, ?_, ?_, ?_⟩
  · exact Becomes.getElem? (.kept (by decide) rfl) hbecomes (hlt 1 (by decide))
  · exact Becomes.getElem? (.placed (j := 3) rfl (notNamed_of_drop (by decide)) rfl) hbecomes
      (hlt 3 (by decide))
  · rcases hkind.array with hk | hk | hk | hk
    · cases (hkind.strings.mp hk).1
    · cases (hkind.indexes.mp hk).2 _ (List.mem_of_getElem? hfirst)
    · cases hkind.emptyArray.mp hk
    · exact hk

end Selection

end ArrayLang
