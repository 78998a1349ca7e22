import ArrayLang.Proofs.Text.Numbers
import ArrayLang.Value.Text

/-!
# Arrays read back from their text

A text that was laid out by shape loses no cell: its blank lines separate the planes, the lines of a
plane are its rows, and the cells of a row stand between spaces (`Layout.read_layout`). For index
arrays the cells are read back as integers, so the text and the shape determine the array
(`Value.indexes_read_back`).
-/

namespace ArrayLang

namespace Shape

/-- Number of cells in a line. -/
def columns (s : Shape) : Nat := s.getLast?.getD 1

/-- Number of lines in a plane. A vector is one line. -/
def rows (s : Shape) : Nat := s.dropLast.getLast?.getD 1

/-- Number of planes, by all axes but the last two. -/
def planes (s : Shape) : Nat := Shape.size s.dropLast.dropLast

theorem size_append (s t : Shape) : Shape.size (s ++ t) = s.size * t.size := List.prod_append

/-- Cells are counted by planes, rows and columns. -/
theorem size_eq (s : Shape) : s.size = s.planes * (s.rows * s.columns) := by
  rcases s.eq_nil_or_concat with rfl | ⟨t, n, rfl⟩
  · rfl
  · rcases t.eq_nil_or_concat with rfl | ⟨u, m, rfl⟩
    · simp [planes, rows, columns, size]
    · simp [planes, rows, columns, size_append]
      simp [size]

theorem size_pos {s : Shape} (h : ∀ d ∈ s, 0 < d) : 0 < s.size := by
  induction s with
  | nil => exact Nat.one_pos
  | cons d s ih =>
      exact Nat.mul_pos (h d (by simp)) (ih fun e he => h e (List.mem_cons_of_mem _ he))

/-- Without an empty dimension there is a plane, a row and a column. -/
theorem pos_of_forall_pos {s : Shape} (h : ∀ d ∈ s, 0 < d) :
    0 < s.planes ∧ 0 < s.rows ∧ 0 < s.columns := by
  have hlast : ∀ t : Shape, (∀ d ∈ t, 0 < d) → 0 < t.getLast?.getD 1 := by
    intro t ht
    cases hd : t.getLast? with
    | none => exact Nat.one_pos
    | some d => exact ht d (List.mem_of_getLast? hd)
  have hdrop : ∀ d ∈ s.dropLast, 0 < d := fun d hd =>
    h d ((List.dropLast_sublist s).subset hd)
  refine ⟨size_pos ?_, hlast _ hdrop, hlast _ h⟩
  intro d hd
  exact hdrop d ((List.dropLast_sublist s.dropLast).subset hd)

end Shape

namespace Layout

variable {α : Type} {n k : Nat} {l : List α}

/-! ## Chunks -/

/-- More fuel than the list is long changes nothing. -/
theorem go_congr (hn : 0 < n) {fuel fuel' : Nat} (h : l.length ≤ fuel) (h' : l.length ≤ fuel') :
    chunks.go n fuel l = chunks.go n fuel' l := by
  induction fuel generalizing l fuel' with
  | zero =>
      obtain rfl : l = [] := List.length_eq_zero_iff.mp (Nat.le_zero.mp h)
      cases fuel' <;> rfl
  | succ fuel ih =>
      cases l with
      | nil => cases fuel' <;> rfl
      | cons a as =>
          obtain ⟨fuel', rfl⟩ := Nat.exists_eq_succ_of_ne_zero (Nat.ne_of_gt (Nat.lt_of_lt_of_le
            (Nat.succ_pos as.length) h'))
          have hdrop : ((a :: as).drop n).length ≤ as.length := by
            rw [List.length_drop, List.length_cons]
            omega
          refine congrArg _ (ih ?_ ?_)
          · exact Nat.le_trans hdrop (Nat.le_of_succ_le_succ h)
          · exact Nat.le_trans hdrop (Nat.le_of_succ_le_succ h')

/-- The first chunk is taken off, and the rest is cut further. -/
theorem chunks_of_ne_nil (hn : 0 < n) (hl : l ≠ []) :
    chunks n l = l.take n :: chunks n (l.drop n) := by
  obtain ⟨a, as, rfl⟩ := List.exists_cons_of_ne_nil hl
  refine congrArg _ (go_congr hn ?_ (Nat.le_refl _))
  rw [List.length_drop, List.length_cons]
  omega

/-- Put together, the chunks are the list. -/
theorem flatten_chunks (hn : 0 < n) (l : List α) : (chunks n l).flatten = l := by
  induction hk : l.length using Nat.strongRecOn generalizing l with
  | ind k ih =>
      by_cases hl : l = []
      · subst hl
        rfl
      · have hpos : 0 < l.length := List.length_pos_iff.mpr hl
        have hdrop : (l.drop n).length < k := by
          rw [List.length_drop]
          omega
        rw [chunks_of_ne_nil hn hl, List.flatten_cons, ih _ hdrop _ rfl, List.take_append_drop]

/-- If the length divides, all chunks are full. -/
theorem length_of_mem_chunks (hn : 0 < n) (hl : l.length = k * n) {c : List α}
    (hc : c ∈ chunks n l) : c.length = n := by
  induction k generalizing l with
  | zero =>
      obtain rfl : l = [] := List.length_eq_zero_iff.mp (by simpa using hl)
      cases hc
  | succ k ih =>
      rw [Nat.succ_mul] at hl
      have hne : l ≠ [] := List.length_pos_iff.mp (by omega)
      rw [chunks_of_ne_nil hn hne] at hc
      rcases List.mem_cons.mp hc with rfl | hc
      · rw [List.length_take]
        omega
      · refine ih ?_ hc
        rw [List.length_drop]
        omega

/-- A list of so many full pieces is cut into so many. -/
theorem length_chunks (hn : 0 < n) (hl : l.length = k * n) : (chunks n l).length = k := by
  induction k generalizing l with
  | zero =>
      obtain rfl : l = [] := List.length_eq_zero_iff.mp (by simpa using hl)
      rfl
  | succ k ih =>
      rw [Nat.succ_mul] at hl
      have hne : l ≠ [] := List.length_pos_iff.mp (by omega)
      have hdrop : (l.drop n).length = k * n := by
        rw [List.length_drop]
        omega
      rw [chunks_of_ne_nil hn hne, List.length_cons, ih hdrop]

theorem chunks_ne_nil (hn : 0 < n) (hl : l ≠ []) : chunks n l ≠ [] := by
  rw [chunks_of_ne_nil hn hl]
  exact List.cons_ne_nil _ _

/-- A list that fits into one piece is cut into one. -/
theorem chunks_of_length_eq (hn : 0 < n) (hl : l.length = n) : chunks n l = [l] := by
  have hne : l ≠ [] := List.length_pos_iff.mp (by omega)
  rw [chunks_of_ne_nil hn hne, List.take_of_length_le (by omega), List.drop_of_length_le (by omega)]
  rfl

theorem mem_of_mem_chunks (hn : 0 < n) {c : List α} (hc : c ∈ chunks n l) {a : α} (ha : a ∈ c) :
    a ∈ l := by
  rw [← flatten_chunks hn l]
  exact List.mem_flatten.mpr ⟨c, hc, ha⟩

/-! ## Splitting at separators -/

theorem mem_intercalate_of_mem {separator part : List α} {parts : List (List α)} {a : α}
    (hpart : part ∈ parts) (ha : a ∈ part) : a ∈ separator.intercalate parts := by
  induction parts with
  | nil => cases hpart
  | cons p ps ih =>
      cases ps with
      | nil => simpa using List.mem_singleton.mp hpart ▸ ha
      | cons q qs =>
          rw [List.intercalate_cons_cons, List.mem_append, List.mem_append]
          rcases List.mem_cons.mp hpart with rfl | hpart
          · exact .inl (.inl ha)
          · exact .inr (ih hpart)

/-- What is in a joined list comes from a part or from the separator. -/
theorem of_mem_intercalate {separator : List α} {parts : List (List α)} {a : α}
    (h : a ∈ separator.intercalate parts) : a ∈ separator ∨ ∃ part ∈ parts, a ∈ part := by
  induction parts with
  | nil => cases h
  | cons p ps ih =>
      cases ps with
      | nil => exact .inr ⟨p, by simp, by simpa using h⟩
      | cons q qs =>
          rw [List.intercalate_cons_cons, List.mem_append, List.mem_append] at h
          rcases h with (h | h) | h
          · exact .inr ⟨p, by simp, h⟩
          · exact .inl h
          · rcases ih h with h | ⟨part, hpart, h⟩
            · exact .inl h
            · exact .inr ⟨part, List.mem_cons_of_mem _ hpart, h⟩

/-- A character that is not in the separator stands in one of the parts. -/
theorem mem_intercalate_iff {c : Char} {separator : String} (hc : c ∉ separator.toList)
    {parts : List String} :
    c ∈ (separator.intercalate parts).toList ↔ ∃ p ∈ parts, c ∈ p.toList := by
  rw [String.toList_intercalate]
  constructor
  · intro h
    rcases of_mem_intercalate h with h | ⟨p, hp, h⟩
    · exact absurd h hc
    · obtain ⟨q, hq, rfl⟩ := List.mem_map.mp hp
      exact ⟨q, hq, h⟩
  · rintro ⟨p, hp, h⟩
    exact mem_intercalate_of_mem (List.mem_map_of_mem hp) h

theorem intercalate_ne_nil {separator : List α} {parts : List (List α)} (hne : parts ≠ [])
    (h : ∀ p ∈ parts, p ≠ []) : separator.intercalate parts ≠ [] := by
  obtain ⟨p, ps, rfl⟩ := List.exists_cons_of_ne_nil hne
  obtain ⟨a, as, hp⟩ := List.exists_cons_of_ne_nil (h p (by simp))
  have ha : a ∈ separator.intercalate (p :: ps) :=
    mem_intercalate_of_mem (List.mem_cons_self) (by simp [hp])
  exact List.ne_nil_of_mem ha

/-- The parts of a text between separators. -/
def fields (separator : Char) (text : String) : List String :=
  (text.split separator).toList.map fun part => part.copy

/-- Parts without the separator can be read back. -/
theorem fields_intercalate {c : Char} {parts : List String} (hne : parts ≠ [])
    (h : ∀ p ∈ parts, c ∉ p.toList) :
    fields c ((String.singleton c).intercalate parts) = parts := by
  rw [fields, String.toList_split_intercalate h, if_neg hne]

/-- The cells of a text by planes and lines: planes are apart by a blank line, and cells by a
space. -/
def read (text : String) : List (List (List String)) :=
  ((fields '\n' text).splitOn "").map (List.map (fields ' '))

/-- The text of planes of lines of cells. -/
def write (planes : List (List (List String))) : String :=
  "\n\n".intercalate (planes.map fun lines => "\n".intercalate (lines.map line))

/-- The lines of planes that stand one blank line apart. -/
theorem intercalate_planes {planes : List (List String)} (h : ∀ p ∈ planes, p ≠ []) :
    "\n\n".intercalate (planes.map ("\n".intercalate ·)) =
      "\n".intercalate ([""].intercalate planes) := by
  induction planes with
  | nil => rfl
  | cons p ps ih =>
      cases ps with
      | nil => rw [List.map_singleton, String.intercalate_singleton, List.intercalate_singleton]
      | cons q qs =>
          have hrest : [""].intercalate (q :: qs) ≠ [] :=
            intercalate_ne_nil (by simp) fun r hr => h r (List.mem_cons_of_mem _ hr)
          have hblank : "\n".intercalate ([""] ++ [""].intercalate (q :: qs)) =
              "\n" ++ "\n".intercalate ([""].intercalate (q :: qs)) := by
            rw [String.intercalate_append_of_ne_nil (by simp) hrest, String.intercalate_singleton,
              String.empty_append]
          have hbreaks : "\n\n" = "\n" ++ "\n" := rfl
          rw [List.map_cons, List.map_cons, String.intercalate_cons_cons, ← List.map_cons,
            ih fun r hr => h r (List.mem_cons_of_mem _ hr), List.intercalate_cons_cons,
            List.append_assoc, String.intercalate_append_of_ne_nil (h p (by simp)) (by simp),
            hblank, hbreaks]
          simp only [String.append_assoc]

/-! ## Laid out and read back -/

/-- A text that can be told from the spaces and line breaks around it. -/
def IsCell (text : String) : Prop := text ≠ "" ∧ ' ' ∉ text.toList ∧ '\n' ∉ text.toList

section Lines

variable {row : List String} (hne : row ≠ []) (hrow : ∀ c ∈ row, IsCell c)
include hne hrow

/-- A row of cells without blanks is read back from its line. -/
theorem fields_line : fields ' ' (line row) = row :=
  fields_intercalate hne fun c hc => (hrow c hc).2.1

theorem line_ne_empty : line row ≠ "" := by
  obtain ⟨c, cs, rfl⟩ := List.exists_cons_of_ne_nil hne
  have hc : c ≠ "" := (hrow c (by simp)).1
  cases cs <;> simp [line, hc]

omit hne in
/-- A line stays on one line. -/
theorem newline_not_mem_line : '\n' ∉ (line row).toList := by
  rw [line, mem_intercalate_iff (by decide)]
  rintro ⟨c, hc, h⟩
  exact (hrow c hc).2.2 h

end Lines

/-- **What is written is read back**, if every plane has lines and every line has cells. -/
theorem read_write {planes : List (List (List String))} (hplanes : planes ≠ [])
    (hlines : ∀ p ∈ planes, p ≠ []) (hrows : ∀ p ∈ planes, ∀ row ∈ p, row ≠ [])
    (hcells : ∀ p ∈ planes, ∀ row ∈ p, ∀ c ∈ row, IsCell c) : read (write planes) = planes := by
  -- the lines of the text, plane by plane
  let texts := planes.map (List.map line)
  have htexts : texts ≠ [] := by simpa [texts] using hplanes
  have hne : ∀ p ∈ texts, p ≠ [] := by
    intro p hp
    obtain ⟨q, hq, rfl⟩ := List.mem_map.mp hp
    simpa using hlines q hq
  have hclean : ∀ p ∈ texts, ∀ t ∈ p, t ≠ "" ∧ '\n' ∉ t.toList := by
    intro p hp t ht
    obtain ⟨q, hq, rfl⟩ := List.mem_map.mp hp
    obtain ⟨row, hrow, rfl⟩ := List.mem_map.mp ht
    have hcell := hcells q hq row hrow
    exact ⟨line_ne_empty (hrows q hq row hrow) hcell, newline_not_mem_line hcell⟩
  have htext : write planes = (String.singleton '\n').intercalate ([""].intercalate texts) := by
    refine Eq.trans ?_ (intercalate_planes hne)
    simp only [write, texts, List.map_map]
    rfl
  have hnewline : ∀ t ∈ [""].intercalate texts, '\n' ∉ t.toList := by
    intro t ht
    rcases of_mem_intercalate ht with ht | ⟨p, hp, ht⟩
    · simp [List.mem_singleton.mp ht]
    · exact (hclean p hp t ht).2
  have hblank : ∀ p ∈ texts, "" ∉ p := fun p hp h => (hclean p hp "" h).1 rfl
  have hfields : ∀ p ∈ planes, (p.map line).map (fields ' ') = p := by
    intro p hp
    rw [List.map_map]
    refine (List.map_congr_left ?_).trans (List.map_id p)
    intro row hrow
    exact fields_line (hrows p hp row hrow) (hcells p hp row hrow)
  rw [read, htext, fields_intercalate (intercalate_ne_nil htexts hne) hnewline,
    List.splitOn_intercalate _ hblank htexts, List.map_map]
  exact (List.map_congr_left hfields).trans (List.map_id planes)

variable {s : Shape} {cells : List String}

/-- With nothing missing, a vector is laid out as one plane with one line. -/
theorem layout_eq (hs : s ≠ []) (hpos : ∀ d ∈ s, 0 < d) (hsize : s.size = cells.length) :
    layout s cells = write ((chunks (s.rows * s.columns) cells).map (chunks s.columns)) := by
  rcases s.eq_nil_or_concat with rfl | ⟨t, n, rfl⟩
  · exact absurd rfl hs
  · have hn : 0 < n := hpos n (by simp)
    rcases t.eq_nil_or_concat with rfl | ⟨u, m, rfl⟩
    · have hlength : cells.length = n := by
        rw [← hsize]
        simp [Shape.size]
      have hone : chunks n cells = [cells] := chunks_of_length_eq hn hlength
      simp [layout, write, Shape.rows, Shape.columns, hone]
    · have hm : 0 < m := hpos m (by simp)
      have hvisible : ¬ (n = 0 ∨ m = 0) := by omega
      simp [layout, write, Shape.rows, Shape.columns, hvisible]
      rfl

/-- **Nothing is lost in the layout.** Cells without spaces and line breaks are read back from the
text as the planes and lines that the shape makes of them. -/
theorem read_layout (hs : s ≠ []) (hpos : ∀ d ∈ s, 0 < d) (hsize : s.size = cells.length)
    (hcells : ∀ c ∈ cells, IsCell c) :
    read (layout s cells) = (chunks (s.rows * s.columns) cells).map (chunks s.columns) := by
  obtain ⟨hplanes, hrows, hcolumns⟩ := s.pos_of_forall_pos hpos
  have hplane : 0 < s.rows * s.columns := Nat.mul_pos hrows hcolumns
  have hlength : cells.length = s.planes * (s.rows * s.columns) := hsize ▸ s.size_eq
  have hne : cells ≠ [] := List.length_pos_iff.mp (hlength ▸ Nat.mul_pos hplanes hplane)
  rw [layout_eq hs hpos hsize, read_write]
  · simpa using chunks_ne_nil hplane hne
  · intro p hp
    obtain ⟨c, hc, rfl⟩ := List.mem_map.mp hp
    have hc' := length_of_mem_chunks hplane hlength hc
    exact chunks_ne_nil hcolumns (List.length_pos_iff.mp (hc' ▸ hplane))
  · intro p hp row hrow
    obtain ⟨c, hc, rfl⟩ := List.mem_map.mp hp
    have hrow' := length_of_mem_chunks hcolumns (length_of_mem_chunks hplane hlength hc) hrow
    exact List.length_pos_iff.mp (hrow' ▸ hcolumns)
  · intro p hp row hrow cell hcell
    obtain ⟨c, hc, rfl⟩ := List.mem_map.mp hp
    exact hcells cell (mem_of_mem_chunks hplane hc (mem_of_mem_chunks hcolumns hrow hcell))

/-! ## Characters of a layout -/

variable {c : Char}

/-- Writing pieces of the cells one after the other shows the characters of all cells, if what is
written for a piece shows those of its cells. -/
theorem mem_intercalate_chunks_iff {separator : String} {write : List String → String}
    (hn : 0 < n) (hc : c ∉ separator.toList)
    (hwrite : ∀ piece, c ∈ (write piece).toList ↔ ∃ t ∈ piece, c ∈ t.toList) :
    c ∈ (separator.intercalate ((chunks n cells).map write)).toList ↔
      ∃ t ∈ cells, c ∈ t.toList := by
  rw [mem_intercalate_iff hc]
  constructor
  · rintro ⟨_, hp, h⟩
    obtain ⟨piece, hpiece, rfl⟩ := List.mem_map.mp hp
    obtain ⟨t, ht, h⟩ := (hwrite piece).mp h
    exact ⟨t, mem_of_mem_chunks hn hpiece ht, h⟩
  · rintro ⟨t, ht, h⟩
    rw [← flatten_chunks hn cells] at ht
    obtain ⟨piece, hpiece, ht⟩ := List.mem_flatten.mp ht
    exact ⟨write piece, List.mem_map_of_mem hpiece, (hwrite piece).mpr ⟨t, ht, h⟩⟩

/-- Apart from the separators, a text that was laid out has the characters of its cells, or there is
an axis of length zero and no text at all. -/
theorem mem_layout_iff_or (hspace : c ≠ ' ') (hnewline : c ≠ '\n') :
    (c ∈ (layout s cells).toList ↔ ∃ t ∈ cells, c ∈ t.toList) ∨
      layout s cells = "" ∧ s.size = 0 := by
  have hline : ∀ row, c ∈ (line row).toList ↔ ∃ t ∈ row, c ∈ t.toList := by
    intro row
    exact mem_intercalate_iff (by simpa using hspace)
  unfold layout
  split
  · next columns rows rest hs =>
      obtain rfl : s = rest.reverse ++ [rows, columns] := by simpa using congrArg List.reverse hs
      split
      · next hzero =>
          refine .inr ⟨rfl, ?_⟩
          rw [Shape.size_append]
          have hzero' : columns = 0 ∨ rows = 0 := by simpa using hzero
          rcases hzero' with rfl | rfl <;> simp [Shape.size]
      · next hvisible =>
          have hne : ¬ (columns = 0 ∨ rows = 0) := by simpa using hvisible
          have hcolumns : 0 < columns := by omega
          have hplane : 0 < rows * columns := Nat.mul_pos (by omega) hcolumns
          refine .inl (mem_intercalate_chunks_iff hplane (by simpa using hnewline) ?_)
          intro piece
          exact mem_intercalate_chunks_iff hcolumns (by simpa using hnewline) hline
  · exact .inl (hline cells)

end Layout

/-! ## Index arrays -/

/-- The text of an integer is a cell: neither empty nor with a blank in it. -/
theorem isCell_text_int (n : Int64) : Layout.IsCell (Number.int n).text := by
  refine ⟨?_, ?_, ?_⟩
  · have hdigits : toString n.toInt.natAbs ≠ "" := Nat.repr_ne_empty
    rw [Number.text_int]
    split
    · simp
    · exact hdigits
  · intro h
    rcases Number.of_mem_text_int h with h | h
    · cases h
    · cases h
  · intro h
    rcases Number.of_mem_text_int h with h | h
    · cases h
    · cases h

namespace Value

variable {glossary : Glossary} {g : Grid Int64}

/-- An index array is read back from its text, plane by plane. -/
theorem read_indexes (hfits : g.Fits) (hrank : g.shape ≠ []) (hpos : ∀ d ∈ g.shape, 0 < d) :
    Layout.read ((indexes g).render glossary) =
      (Layout.chunks (g.shape.rows * g.shape.columns)
        (g.cells.map fun i => (Number.int i).text)).map (Layout.chunks g.shape.columns) := by
  rw [render]
  refine Layout.read_layout hrank hpos ?_ ?_
  · rw [List.length_map]
    exact hfits
  · intro c hc
    obtain ⟨i, -, rfl⟩ := List.mem_map.mp hc
    exact isCell_text_int i

/-- **The layout of an index array loses no cell.** An array with at least one axis and no axis of
length zero is written as so many planes, between blank lines, as all axes but the last two make,
each with the lines of the last but one (a vector is one line) and each line with the cells of the
last. Read in order, the cells are the integers of the array; so of all arrays of one such shape
only one has the text. -/
theorem indexes_read_back (hfits : g.Fits) (hrank : g.shape ≠ []) (hpos : ∀ d ∈ g.shape, 0 < d) :
    (Layout.read ((indexes g).render glossary)).length = g.shape.planes ∧
      (∀ plane ∈ Layout.read ((indexes g).render glossary), plane.length = g.shape.rows ∧
        ∀ row ∈ plane, row.length = g.shape.columns) ∧
      (Layout.read ((indexes g).render glossary)).flatten.flatten.map Number.readInt =
        g.cells.map Int64.toInt ∧
      ∀ h : Grid Int64, h.Fits → h.shape = g.shape →
        (indexes h).render glossary = (indexes g).render glossary → h = g := by
  obtain ⟨-, hrows, hcolumns⟩ := Shape.pos_of_forall_pos hpos
  have hplane : 0 < g.shape.rows * g.shape.columns := Nat.mul_pos hrows hcolumns
  -- the chunks of the chunks, put together again, are the cells
  have hints : ∀ h : Grid Int64, h.Fits → h.shape = g.shape →
      (Layout.read ((indexes h).render glossary)).flatten.flatten.map Number.readInt =
        h.cells.map Int64.toInt := by
    intro h hh hshape
    rw [read_indexes hh (hshape ▸ hrank) (hshape ▸ hpos), hshape, List.flatten_flatten,
      List.map_map]
    have hrow : ∀ c ∈ Layout.chunks (g.shape.rows * g.shape.columns)
        (h.cells.map fun i => (Number.int i).text),
        (List.flatten ∘ Layout.chunks g.shape.columns) c = c := fun c _ =>
      Layout.flatten_chunks hcolumns c
    rw [List.map_congr_left hrow, List.map_id', Layout.flatten_chunks hplane, List.map_map]
    exact List.map_congr_left fun i _ => Number.readInt_text i
  have hlength : (g.cells.map fun i => (Number.int i).text).length =
      g.shape.planes * (g.shape.rows * g.shape.columns) := by
    rw [List.length_map, ← g.shape.size_eq]
    exact hfits.symm
  refine ⟨?_, ?_, hints g hfits rfl, ?_⟩
  · rw [read_indexes hfits hrank hpos, List.length_map]
    exact Layout.length_chunks hplane hlength
  · intro plane hp
    rw [read_indexes hfits hrank hpos] at hp
    obtain ⟨c, hc, rfl⟩ := List.mem_map.mp hp
    have hc' := Layout.length_of_mem_chunks hplane hlength hc
    exact ⟨Layout.length_chunks hcolumns hc', fun row hrow =>
      Layout.length_of_mem_chunks hcolumns hc' hrow⟩
  · -- the same text has the same cells, and the shape was the same before
    intro h hh hshape htext
    have hcells := hints h hh hshape
    rw [htext, hints g hfits rfl] at hcells
    have heq : g.cells = h.cells :=
      (List.map_inj_right fun _ _ => Int64.toInt_inj.mp).mp hcells
    obtain ⟨s, cells⟩ := g
    obtain ⟨t, cells'⟩ := h
    cases hshape
    cases heq
    rfl

/-- Two planes of two lines with three cells each, with the least and the largest integer word. -/
theorem indexes_read_back_planes :
    let g : Grid Int64 := ⟨[2, 2, 3],
      [1, -9223372036854775808, 3, 40, 50, 60, -7, 0, 9223372036854775807, 10, -11, 12]⟩
    (g.Fits ∧ g.shape ≠ [] ∧ ∀ d ∈ g.shape, 0 < d) ∧
      (indexes g).render ⟨fun _ => "", fun _ => ""⟩ =
        "1 ¯9223372036854775808 3\n40 50 60\n\n¯7 0 9223372036854775807\n10 ¯11 12" ∧
      (Layout.read ((indexes g).render ⟨fun _ => "", fun _ => ""⟩)).flatten.flatten.map
        Number.readInt = g.cells.map Int64.toInt := by
  intro g
  have hfits : g.Fits := rfl
  have hpos : ∀ d ∈ g.shape, 0 < d := by decide
  obtain ⟨-, -, hints, -⟩ := @indexes_read_back ⟨fun _ => "", fun _ => ""⟩ g hfits (by decide) hpos
  exact ⟨⟨hfits, by decide, hpos⟩, by decide, hints⟩

end Value

end ArrayLang
