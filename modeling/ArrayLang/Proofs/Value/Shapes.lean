import ArrayLang.Proofs.Domain.Content
import ArrayLang.Proofs.Registry.Keeping
import ArrayLang.Proofs.Selection.Phases

/-!
# Shapes that fit

A value is well-shaped if every array in it, at any depth, has as many cells as its shape asks for
(`Value.wellShaped_iff`). Conversions and replacements make well-shaped values of well-shaped ones,
and then no cells ever fail to fill a shape: a conversion is refused for a cell alone
(`Leaf.stringArray?_of_wellShaped`, `Leaf.indexArray?_of_wellShaped`), and an array can always be
built anew (`Selection.exists_rebuild`).
-/

namespace ArrayLang

namespace Value

variable {v w : Value} {s : Shape} {cells : List Value} {tower : Tower}

/-! ## Arrays in values -/

theorem wellShapedCells_iff : WellShapedCells cells ↔ ∀ v ∈ cells, v.WellShaped := by
  induction cells with
  | nil => simp [WellShapedCells]
  | cons v cells ih => simp [WellShapedCells, ih]

/-- An array fits if its cells are as many as its shape says, and fit themselves. -/
theorem wellShaped_array_iff :
    (Value.array s cells).WellShaped ↔ s.size = cells.length ∧ ∀ v ∈ cells, v.WellShaped := by
  rw [WellShaped, wellShapedCells_iff]

theorem wellShaped_derived_iff {f : Derived} :
    (Callable.derived f).toValue.WellShaped ↔
      f.left.WellShaped ∧ ∀ v ∈ f.right, v.WellShaped := by
  obtain ⟨operator, body, left, right⟩ := f
  show (Value.derived operator body left right).WellShaped ↔ _
  cases right with
  | none => simp [WellShaped]
  | some right => simp [WellShaped]

/-- Cells of arrays that fit do so. -/
theorem WellShaped.of_mem_cells (h : v.WellShaped) (hw : w ∈ v.cells?.getD []) : w.WellShaped := by
  cases v with
  | array s cells => exact (wellShaped_array_iff.mp h).2 w hw
  | strings g =>
      obtain ⟨t, -, rfl⟩ := List.mem_map.mp hw
      trivial
  | indexes g =>
      obtain ⟨i, -, rfl⟩ := List.mem_map.mp hw
      trivial
  | bool | number | text | emptyArray | primitive | closure | derived => cases hw

/-- `w` is `v`, or a cell or an operand of something in `v`. -/
inductive Contains : Value → Value → Prop
  | self {v : Value} : Contains v v
  | cell {v u w : Value} (hu : u ∈ v.cells?.getD []) (h : Contains u w) : Contains v w
  | left {operator : Name} {body : BodyId} {left w : Value} {right : Option Value}
      (h : Contains left w) : Contains (.derived operator body left right) w
  | right {operator : Name} {body : BodyId} {left right w : Value} (h : Contains right w) :
      Contains (.derived operator body left (some right)) w

/-- What a value contains is the value itself, or is contained in a cell or an operand. -/
theorem contains_iff :
    v.Contains w ↔ v = w ∨ (∃ u ∈ v.cells?.getD [], u.Contains w) ∨
      ∃ operator body left right, v = .derived operator body left right ∧
        (left.Contains w ∨ ∃ u ∈ right, u.Contains w) := by
  constructor
  · intro h
    cases h with
    | self => exact .inl rfl
    | cell hu h => exact .inr (.inl ⟨_, hu, h⟩)
    | left h => exact .inr (.inr ⟨_, _, _, _, rfl, .inl h⟩)
    | right h => exact .inr (.inr ⟨_, _, _, _, rfl, .inr ⟨_, rfl, h⟩⟩)
  · rintro (rfl | ⟨u, hu, h⟩ | ⟨operator, body, left, _, rfl, h | ⟨u, rfl, h⟩⟩)
    · exact .self
    · exact .cell hu h
    · exact .left h
    · exact .right h

theorem contains_number_iff {n : Number} : (Value.number n).Contains v ↔ v = .number n := by
  rw [contains_iff]
  simp [cells?, eq_comm]

/-- A number in an array is in one of its cells. -/
theorem array_contains_number_iff {n : Number} :
    (Value.array s cells).Contains (.number n) ↔ ∃ v ∈ cells, v.Contains (.number n) := by
  rw [contains_iff]
  simp [cells?]

theorem derived_contains_number_iff {operator : Name} {body : BodyId} {left : Value}
    {right : Option Value} {n : Number} :
    (Value.derived operator body left right).Contains (.number n) ↔
      left.Contains (.number n) ∨ ∃ v ∈ right, v.Contains (.number n) := by
  rw [contains_iff]
  simp [cells?]

/-- All parts of a value that fits do so. -/
theorem WellShaped.of_contains (h : v.WellShaped) (hw : v.Contains w) : w.WellShaped := by
  induction hw with
  | self => exact h
  | cell hu _ ih => exact ih (h.of_mem_cells hu)
  | @left operator body left w right _ ih =>
      exact ih (wellShaped_derived_iff (f := ⟨operator, body, left, right⟩) |>.mp h).1
  | @right operator body left right w _ ih =>
      have hright := (wellShaped_derived_iff (f := ⟨operator, body, left, some right⟩)).mp h
      exact ih (hright.2 right rfl)

/-- **In a well-shaped value every array, at any depth, has the cells its shape asks for**, and
there is nothing more to it. -/
theorem wellShaped_iff :
    v.WellShaped ↔
      ∀ w s, v.Contains w → w.shape? = some s → s.size = (w.cells?.getD []).length := by
  constructor
  · intro h w s hw hs
    exact (h.of_contains hw).size_eq hs
  · intro h
    induction v using ind with
    | array s cells ih =>
        refine wellShaped_array_iff.mpr ⟨h _ s .self rfl, ?_⟩
        intro u hu
        exact ih u hu fun w s hw => h w s (.cell hu hw)
    | derived operator body left right ihl ihr =>
        refine wellShaped_derived_iff (f := ⟨operator, body, left, right⟩) |>.mpr ⟨?_, ?_⟩
        · exact ihl fun w s hw => h w s (.left hw)
        · rintro right rfl
          exact ihr right rfl fun w s hw => h w s (.right hw)
    | strings g | indexes g =>
        have hg := h _ g.shape .self rfl
        simpa [WellShaped, Grid.Fits, cells?] using hg
    | bool | number | text | emptyArray | primitive | closure => trivial

/-- A value has a shape exactly if it is an array, and cells exactly then, too. -/
theorem isArray_eq (v : Value) : v.isArray = v.shape?.isSome ∧ v.isArray = v.cells?.isSome := by
  cases v <;> exact ⟨rfl, rfl⟩

theorem isArray_of_cells? (h : v.cells? = some cells) : v.isArray = true := by
  rw [(isArray_eq v).2, h]
  rfl

/-! ## Conversions -/

/-- Conversions keep the shape of what they convert. -/
theorem WellShaped.convert? {d : Domain} (h : v.WellShaped) (hd : d.convert? tower v = some w) :
    w.WellShaped := by
  rcases Domain.convert?_eq_or_restates hd with rfl | hrestates
  · exact h
  · cases hrestates with
    | strings hlists => exact hlists.fits h
    | indexes hlists => exact hlists.fits h

theorem keeps_wellShaped (tower : Tower) : Domain.Keeps tower Value.WellShaped :=
  fun _ _ _ hv hd => hv.convert? hd

end Value

namespace Leaf

variable {s : Shape} {cells : List Value}

/-- As many cells are converted as there were. -/
theorem fitted?_of_mapM {α : Type} {f : Value → Option α} {as : List α}
    (h : (Value.array s cells).WellShaped) (has : cells.mapM f = some as) :
    fitted? s as = some ⟨s, as⟩ := by
  refine fitted?_eq_some_iff.mpr ⟨rfl, ?_⟩
  show s.size = as.length
  rw [(Value.wellShaped_array_iff.mp h).1, (mapM_eq_some_iff.mp has).length_eq]

/-- An array is refused as an array of texts for a cell that is no text, and for nothing else. -/
theorem stringArray?_of_wellShaped (h : (Value.array s cells).WellShaped) :
    stringArray? (.array s cells) = (cells.mapM Value.text?).map fun texts => ⟨s, texts⟩ := by
  show (cells.mapM Value.text?).bind (fitted? s) = _
  cases htexts : cells.mapM Value.text? with
  | none => rfl
  | some texts => exact fitted?_of_mapM h htexts

/-- And as an array of indexes for a cell that stands for no index. -/
theorem indexArray?_of_wellShaped (tower : Tower) (h : (Value.array s cells).WellShaped) :
    indexArray? tower (.array s cells) =
      (cells.mapM (index? tower)).map fun is => ⟨s, is⟩ := by
  show (cells.mapM (index? tower)).bind (fitted? s) = _
  cases his : cells.mapM (index? tower) with
  | none => rfl
  | some is => exact fitted?_of_mapM h his

end Leaf

/-! ## Selections -/

namespace Selection

variable {current v updated : Value} {s : Shape} {cells : List Value} {positions : Grid Int64}

/-- What is made of cells and a shape fits, since that is checked. -/
theorem wellShaped_arrayOfShape (hcells : ∀ v ∈ cells, v.WellShaped)
    (h : Value.arrayOfShape s cells = .ok updated) : updated.WellShaped := by
  unfold Value.arrayOfShape checkShape at h
  split at h
  · next hsize =>
      cases h
      exact Value.wellShaped_array_iff.mpr ⟨hsize, hcells⟩
  · cases h

theorem fits_of_ofShape {α : Type} {as : List α} {f : Grid α → Value}
    (h : f <$> Grid.ofShape s as = .ok updated) :
    ∃ g : Grid α, g.Fits ∧ g.shape = s ∧ updated = f g := by
  unfold Grid.ofShape checkShape at h
  split at h
  · next hsize =>
      cases h
      exact ⟨⟨s, as⟩, hsize, rfl, rfl⟩
  · cases h

/-- What is rebuilt from well-shaped cells is well-shaped. -/
theorem wellShaped_rebuild (hcells : ∀ v ∈ cells, v.WellShaped)
    (h : rebuild current s cells = .ok updated) : updated.WellShaped := by
  unfold rebuild at h
  split at h
  · split at h
    · cases h
      trivial
    · exact wellShaped_arrayOfShape hcells h
  · split at h
    · obtain ⟨g, hg, -, rfl⟩ := fits_of_ofShape h
      exact hg
    · exact wellShaped_arrayOfShape hcells h
  · split at h
    · obtain ⟨g, hg, -, rfl⟩ := fits_of_ofShape h
      exact hg
    · exact wellShaped_arrayOfShape hcells h
  · exact wellShaped_arrayOfShape hcells h

/-- The shape is the one that was asked for, whatever kind of array comes out. -/
theorem shape?_of_rebuild (hs : current.shape? = some s)
    (h : rebuild current s cells = .ok updated) : updated.shape? = some s := by
  have harray : Value.arrayOfShape s cells = .ok updated → updated.shape? = some s := by
    intro h
    obtain ⟨-, -, h⟩ := exists_of_bind_eq_ok h
    cases h
    rfl
  unfold rebuild at h
  split at h
  · split at h
    · cases h
      exact hs
    · exact harray h
  · split at h
    · obtain ⟨g, -, rfl, rfl⟩ := fits_of_ofShape h
      rfl
    · exact harray h
  · split at h
    · obtain ⟨g, -, rfl, rfl⟩ := fits_of_ofShape h
      rfl
    · exact harray h
  · exact harray h

/-- With as many cells as before, an array can always be built anew. -/
theorem exists_rebuild (h : current.WellShaped) (hs : current.shape? = some s)
    (hlen : cells.length = (current.cells?.getD []).length) :
    ∃ updated, rebuild current s cells = .ok updated ∧ updated.cells? = some cells := by
  have hfills := fills_rebuild current s cells
  cases hr : rebuild current s cells with
  | ok updated =>
      rw [hr] at hfills
      exact ⟨updated, rfl, hfills⟩
  | error e =>
      rw [hr] at hfills
      exact absurd ((h.size_eq hs).trans hlen.symm) hfills

/-- A replacement is rebuilt from the cells in the shape of the target. -/
theorem exists_rebuild_of_replace (h : replace current positions v = .ok updated) :
    ∃ s cells, rebuild current s cells = .ok updated := by
  cases hs : current.shape? with
  | none =>
      rw [replace_eq_notAnArray hs] at h
      cases h
  | some s =>
      rw [replace_eq hs] at h
      obtain ⟨vs, -, h⟩ := exists_of_bind_eq_ok h
      obtain ⟨cells, -, h⟩ := exists_of_bind_eq_ok h
      exact ⟨s, cells.toList, h⟩

/-- The cells afterwards come from two well-shaped values. -/
theorem wellShaped_replace (hcurrent : current.WellShaped) (hv : v.WellShaped)
    (h : replace current positions v = .ok updated) : updated.WellShaped := by
  obtain ⟨cells, hcells, hfrom⟩ := replace_cells h
  obtain ⟨s, cells', hrebuild⟩ := exists_rebuild_of_replace h
  have hfills : Fills s cells' (.ok updated) := hrebuild ▸ fills_rebuild current s cells'
  have hsame : cells' = cells := Option.some.inj (Eq.trans (Eq.symm hfills) hcells)
  refine wellShaped_rebuild (fun w hw => ?_) hrebuild
  rcases hfrom w (hsame ▸ hw) with hold | hnew
  · exact hcurrent.of_mem_cells hold
  · rcases Value.mem_cellsOrSelf hnew with rfl | hnew
    · exact hv
    · exact hv.of_mem_cells hnew

/-- The positions that a function picks fit the shape of what it picked. -/
theorem fits_positionsOf {tower : Tower} {picked : Option Value}
    (hpicked : ∀ v ∈ picked, v.WellShaped) (h : positionsOf tower current picked = .ok positions) :
    positions.Fits := by
  unfold positionsOf at h
  split at h
  · cases h
  · next picked =>
      split at h
      · next g hg =>
          cases h
          have hfits : (Value.indexes g).WellShaped := (hpicked picked rfl).convert? hg
          exact Grid.Fits.offset hfits (-1)
      · cases h

end Selection

end ArrayLang
