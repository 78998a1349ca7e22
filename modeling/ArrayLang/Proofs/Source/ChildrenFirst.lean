import ArrayLang.Proofs.Source.Parts
import ArrayLang.Source.Tree

/-!
# Arenas built children first

`Arena.ChildrenFirst` says how an arena was built: a node, a strand or a closure body was added only
when all that it refers to was there. Nothing that is added later changes what a handle leads to,
and so each node of such an arena stands behind its parts and behind the statements of its closure
literals (`Arena.Layered`). In particular no handle of it dangles and no expression contains itself,
and everything in it can be printed (`Arena.Layered.reads_print`).
-/

namespace ArrayLang.Arena

/-! ## Ranges -/

section Ranges

variable {α : Type} {table : Array α} {start length : Nat} {l : List α}

/-- A slice is there if its end does not pass the end of the table. -/
theorem slice?_eq_some_iff :
    slice? table start length = some l ↔
      start + length ≤ table.size ∧ l = (table.toList.drop start).take length := by
  unfold slice?
  split
  · next h => simp [h, eq_comm]
  · next h => simp [h]

/-- A range has to end within the table, an empty one as well. -/
theorem slice?_eq_none_iff : slice? table start length = none ↔ table.size < start + length := by
  unfold slice?
  split
  · next hle => simp [hle]
  · next hgt => simpa using hgt

theorem mem_of_slice? (h : slice? table start length = some l) {x : α} (hx : x ∈ l) :
    x ∈ table := by
  obtain ⟨-, rfl⟩ := slice?_eq_some_iff.mp h
  exact Array.mem_def.mpr (List.mem_of_mem_drop (List.mem_of_mem_take hx))

theorem size_appendList (table : Array α) (new : List α) :
    (table ++ new).size = table.size + new.length := by
  rw [← Array.length_toList, Array.toList_appendList, List.length_append, Array.length_toList]

/-- What is added to a table is the range behind its former end. -/
theorem slice?_append_self (table : Array α) (new : List α) :
    slice? (table ++ new) table.size new.length = some new := by
  refine slice?_eq_some_iff.mpr ⟨Nat.le_of_eq (size_appendList table new).symm, ?_⟩
  rw [Array.toList_appendList, ← Array.length_toList, List.drop_left, List.take_length]

/-- A range means the same when the table grows. -/
theorem slice?_append (h : slice? table start length = some l) (new : List α) :
    slice? (table ++ new) start length = some l := by
  obtain ⟨hle, rfl⟩ := slice?_eq_some_iff.mp h
  have hsize := size_appendList table new
  have hlen : start + length ≤ table.toList.length := hle
  refine slice?_eq_some_iff.mpr ⟨by omega, ?_⟩
  rw [Array.toList_appendList, List.drop_append_of_le_length (by omega),
    List.take_append_of_le_length (by rw [List.length_drop]; omega)]

end Ranges

/-! ## Building -/

/-- The range in a node, if it has one, lies in its table. -/
def rangeFound (a : Arena) : Node → Bool
  | .strand items => (a.strand? items).isSome
  | .closure body => (a.body? body).isSome
  | _ => true

/-- All that the node refers to is there. -/
structure Knows (a : Arena) (n : Node) : Prop where
  parts : ∀ e ∈ a.parts n, e.index < a.size
  range : a.rangeFound n = true

/-- The arena was built children first: whatever was added refers to what was there before. -/
inductive ChildrenFirst : Arena → Prop
  | empty : ChildrenFirst .empty
  | expr {a : Arena} (h : ChildrenFirst a) {x : Expr} (hx : a.Knows x.node) :
      ChildrenFirst (a.addExpr x).2
  | strand {a : Arena} (h : ChildrenFirst a) {es : List ExprId} (hes : ∀ e ∈ es, e.index < a.size) :
      ChildrenFirst (a.addStrand es).2
  | body {a : Arena} (h : ChildrenFirst a) {gs : List Guard}
      (hgs : ∀ g ∈ gs, ∀ e ∈ g.exprs, e.index < a.size) : ChildrenFirst (a.addBody gs).2

variable {a : Arena} {n : Node} {e : ExprId} {x : Expr}

/-- Handles of expressions are the numbers below the size. -/
theorem isSome_expr?_iff : (a.expr? e).isSome ↔ e.index < a.size := by
  simp [expr?, size]

/-! ### What is there stays -/

/-- Bodies that were there stay. -/
theorem body?_addBody {r : BodyRange} {gs : List Guard} (h : a.body? r = some gs)
    (new : List Guard) : (a.addBody new).2.body? r = some gs := slice?_append h new

/-- Strands that are added later leave the parts of older nodes. -/
theorem parts_addStrand (h : a.rangeFound n = true) (es : List ExprId) :
    (a.addStrand es).2.parts n = a.parts n := by
  cases n with
  | strand items =>
      obtain ⟨l, hl⟩ := Option.isSome_iff_exists.mp h
      have hl' : (a.addStrand es).2.strand? items = some l := slice?_append hl es
      simp only [parts, hl, hl']
  | _ => rfl

/-- Ranges that were found stay found. -/
theorem rangeFound_addStrand (h : a.rangeFound n = true) (es : List ExprId) :
    (a.addStrand es).2.rangeFound n = true := by
  cases n with
  | strand items =>
      obtain ⟨l, hl⟩ := Option.isSome_iff_exists.mp h
      exact Option.isSome_iff_exists.mpr ⟨l, slice?_append hl es⟩
  | closure body => exact h
  | _ => rfl

theorem rangeFound_addBody (h : a.rangeFound n = true) (gs : List Guard) :
    (a.addBody gs).2.rangeFound n = true := by
  cases n with
  | closure body =>
      obtain ⟨l, hl⟩ := Option.isSome_iff_exists.mp h
      exact Option.isSome_iff_exists.mpr ⟨l, body?_addBody hl gs⟩
  | strand items => exact h
  | _ => rfl

/-! ## Layers -/

/-- Every expression stands behind its parts and behind the statements of a closure literal, and all
ranges and statements lead to what is there. -/
structure Layered (a : Arena) : Prop where
  range : ∀ e x, a.expr? e = some x → a.rangeFound x.node = true
  parts : ∀ e x, a.expr? e = some x → ∀ e' ∈ a.parts x.node, e'.index < e.index
  closure : ∀ e x body guards, a.expr? e = some x → x.node = .closure body →
    a.body? body = some guards → ∀ g ∈ guards, ∀ e' ∈ g.exprs, e'.index < e.index
  guards : ∀ g ∈ a.guards, ∀ e ∈ g.exprs, e.index < a.size

theorem expr?_addExpr :
    (a.addExpr x).2.expr? e = if e.index = a.size then some x else a.expr? e := Array.getElem?_push

/-- A node may be added above nodes that are there. -/
theorem Layered.addExpr (h : a.Layered) (hx : a.Knows x.node) : (a.addExpr x).2.Layered where
  range e y hy := by
    rw [expr?_addExpr] at hy
    split at hy
    · cases hy
      exact hx.range
    · exact h.range e y hy
  parts e y hy := by
    rw [expr?_addExpr] at hy
    split at hy
    · next he =>
        cases hy
        rw [he]
        exact hx.parts
    · exact h.parts e y hy
  closure e y body guards hy hbody hguards g hg e' he' := by
    rw [expr?_addExpr] at hy
    split at hy
    · next he =>
        rw [he]
        exact h.guards g (mem_of_slice? hguards hg) e' he'
    · exact h.closure e y body guards hy hbody hguards g hg e' he'
  guards g hg e he := by
    have hlt := h.guards g hg e he
    show e.index < (a.exprs.push x).size
    rw [Array.size_push]
    exact Nat.lt_succ_of_lt hlt

/-- Items have no place in the order until a node uses them. -/
theorem Layered.addStrand (h : a.Layered) (es : List ExprId) : (a.addStrand es).2.Layered where
  range e x hx := rangeFound_addStrand (h.range e x hx) es
  parts e x hx := by
    rw [parts_addStrand (h.range e x hx)]
    exact h.parts e x hx
  closure := h.closure
  guards := h.guards

theorem Layered.addBody (h : a.Layered) {gs : List Guard}
    (hgs : ∀ g ∈ gs, ∀ e ∈ g.exprs, e.index < a.size) : (a.addBody gs).2.Layered where
  range e x hx := rangeFound_addBody (h.range e x hx) gs
  parts := h.parts
  closure e x body guards hx hbody hguards := by
    have hrange := h.range e x hx
    rw [hbody] at hrange
    obtain ⟨old, hold⟩ := Option.isSome_iff_exists.mp hrange
    -- the range was in use already, and means what it meant
    have hsame := body?_addBody hold gs
    rw [hguards] at hsame
    cases hsame
    exact h.closure e x body _ hx hbody hold
  guards g hg e he := by
    have hmem : g ∈ a.guards.toList ++ gs := by
      rw [← Array.toList_appendList]
      exact hg.val
    rcases List.mem_append.mp hmem with hold | hnew
    · exact h.guards g ⟨hold⟩ e he
    · exact hgs g hnew e he

/-- **Arenas built children first are layered.** -/
theorem ChildrenFirst.layered (h : a.ChildrenFirst) : a.Layered := by
  induction h with
  | empty => exact ⟨nofun, nofun, nofun, nofun⟩
  | expr _ hx ih => exact ih.addExpr hx
  | strand _ _ ih => exact ih.addStrand _
  | body _ hgs ih => exact ih.addBody hgs

/-! ## Printing -/

section Reading

variable {α β : Type} {depth : Nat}

/-- The reading finds something. -/
def Reads (x : Except TreeFault α) : Prop := ∃ a, x = .ok a

theorem reads_pure (a : α) : Reads (pure a) := ⟨a, rfl⟩

theorem reads_found {o : Option α} (h : o.isSome) : Reads (found o) := by
  obtain ⟨a, rfl⟩ := Option.isSome_iff_exists.mp h
  exact ⟨a, rfl⟩

theorem found_eq_ok {o : Option α} {b : α} (h : found o = .ok b) : o = some b := by
  cases o with
  | none => cases h
  | some a =>
      cases h
      rfl

/-- What is read in two parts must be readable in both. -/
theorem Reads.bind {x : Except TreeFault α} {f : α → Except TreeFault β} (h : Reads x)
    (hf : ∀ a, x = .ok a → Reads (f a)) : Reads (x >>= f) := by
  obtain ⟨a, rfl⟩ := h
  exact hf a rfl

theorem Reads.map {x : Except TreeFault α} (h : Reads x) (f : α → β) : Reads (f <$> x) := by
  obtain ⟨a, rfl⟩ := h
  exact ⟨f a, rfl⟩

/-- Lists are read item by item. -/
theorem reads_mapM {l : List α} {f : α → Except TreeFault β} (h : ∀ a ∈ l, Reads (f a)) :
    Reads (l.mapM f) := by
  induction l with
  | nil => exact ⟨[], rfl⟩
  | cons a l ih =>
      rw [List.mapM_cons]
      refine (h a (by simp)).bind fun b _ => ?_
      exact (ih fun a ha => h a (by simp [ha])).bind fun bs _ => reads_pure _

/-- If the whole can be read, so can its first part. -/
theorem Reads.of_bind {x : Except TreeFault α} {f : α → Except TreeFault β}
    (h : Reads (x >>= f)) : ∃ a, x = .ok a ∧ Reads (f a) := by
  cases x with
  | error fault =>
      obtain ⟨b, hb⟩ := h
      cases hb
  | ok a => exact ⟨a, rfl, h⟩

theorem Reads.of_map {x : Except TreeFault α} {f : α → β} (h : Reads (f <$> x)) : Reads x := by
  cases x with
  | error fault =>
      obtain ⟨b, hb⟩ := h
      cases hb
  | ok a => exact ⟨a, rfl⟩

theorem Reads.of_mapM {l : List α} {f : α → Except TreeFault β} (h : Reads (l.mapM f)) :
    ∀ a ∈ l, Reads (f a) := by
  induction l with
  | nil => simp
  | cons a l ih =>
      rw [List.mapM_cons] at h
      obtain ⟨b, hb, hrest⟩ := h.of_bind
      obtain ⟨bs, hbs, -⟩ := hrest.of_bind
      exact List.forall_mem_cons.mpr ⟨⟨b, hb⟩, ih ⟨bs, hbs⟩⟩

/-- Whoever can print a closure can print its statements. -/
theorem reads_print_of_printClosure {a : Arena} {names : Interner} {body : BodyRange}
    {gs : List Guard} (h : Reads (a.printClosure names body)) (hbody : a.body? body = some gs) :
    ∀ g ∈ gs, Reads (a.print names g.body) := by
  intro g hg
  obtain ⟨gs', hgs', hstatements⟩ := h.of_map.of_bind
  cases hbody.symm.trans (found_eq_ok hgs')
  obtain ⟨statements, hmap, -⟩ := hstatements.of_bind
  have hprint : ∀ condition : Option Tree,
      Reads (do let body ← a.tree names g.body; pure (condition, body)) →
        Reads (a.print names g.body) := by
    intro condition hrest
    obtain ⟨tree, htree, -⟩ := hrest.of_bind
    exact Reads.map ⟨tree, htree⟩ _
  have hstatement := Reads.of_mapM ⟨statements, hmap⟩ g hg
  split at hstatement
  all_goals
    obtain ⟨condition, -, hrest⟩ := hstatement.of_bind
    exact hprint condition hrest

theorem reads_optional {e : Option ExprId} {part : ExprId → Except TreeFault Tree}
    (h : ∀ e' ∈ e, Reads (part e')) :
    Reads (match (motive := Option ExprId → Except TreeFault (Option Tree)) e with
      | none => pure none
      | some e => some <$> part e) := by
  cases e with
  | none => exact reads_pure _
  | some e => exact (h e rfl).map some

/-- No expression of a layered arena contains itself, so none is deeper than its position. -/
theorem Layered.reads_treeWithin (h : a.Layered) (names : Interner) (hdepth : e.index < depth)
    (he : e.index < a.size) :
    Reads (a.treeWithin names depth e) := by
  induction depth generalizing e with
  | zero => exact absurd hdepth (Nat.not_lt_zero _)
  | succ depth ih =>
      obtain ⟨⟨node, span⟩, hx⟩ := Option.isSome_iff_exists.mp (isSome_expr?_iff.mpr he)
      -- parts have smaller handles, so the depth that is left is enough for them
      have hpart : ∀ e' : ExprId, e'.index < e.index → Reads (a.treeWithin names depth e') :=
        fun e' he' => ih (by omega) (by omega)
      have hparts := h.parts e _ hx
      have hrange := h.range e _ hx
      rw [treeWithin, hx]
      refine (reads_found rfl).bind fun x hx' => ?_
      cases hx'
      cases node with
      | int | float | bool | text | «variable» | primitive => exact reads_pure _
      | strand items =>
          refine (reads_found hrange).bind fun es hes => ?_
          have hes' := found_eq_ok hes
          refine (reads_mapM fun e' he' => hpart e' (hparts e' ?_)).bind fun _ _ => reads_pure _
          simpa [Arena.parts, hes'] using he'
      | closure body =>
          refine (reads_found hrange).bind fun gs hgs => ?_
          have hguards := h.closure e _ body gs hx rfl (found_eq_ok hgs)
          refine (reads_mapM fun g hg => ?_).bind fun _ _ => reads_pure _
          refine (reads_optional fun e' he' => ?_).bind fun _ _ => ?_
          · exact hpart e' (hguards g hg e' (by simp [Guard.exprs, Option.mem_def.mp he']))
          · refine (hpart g.body (hguards g hg _ (by simp [Guard.exprs]))).bind fun _ _ => ?_
            exact reads_pure _
      | derived operator left right =>
          refine (hpart left (hparts left (by simp [Arena.parts]))).bind fun _ _ => ?_
          refine (reads_optional fun e' he' => ?_).bind fun _ _ => reads_pure _
          exact hpart e' (hparts e' (by simp [Arena.parts, Option.mem_def.mp he']))
      | call function left right =>
          refine (hpart function (hparts function (by simp [Arena.parts]))).bind fun _ _ => ?_
          refine (reads_optional fun e' he' => ?_).bind fun _ _ => ?_
          · exact hpart e' (hparts e' (by simp [Arena.parts, Option.mem_def.mp he']))
          · exact (hpart right (hparts right (by simp [Arena.parts]))).bind fun _ _ => reads_pure _
      | assign target value =>
          exact (hpart value (hparts value (by simp [Arena.parts]))).bind fun _ _ => reads_pure _
      | selectiveAssign target function left value =>
          refine (hpart function (hparts function (by simp [Arena.parts]))).bind fun _ _ => ?_
          refine (reads_optional fun e' he' => ?_).bind fun _ _ => ?_
          · exact hpart e' (hparts e' (by simp [Arena.parts, Option.mem_def.mp he']))
          · exact (hpart value (hparts value (by simp [Arena.parts]))).bind fun _ _ => reads_pure _

/-- **In an arena that was built from the leaves up every expression can be read.** -/
theorem Layered.reads_tree (h : a.Layered) (names : Interner) (he : e.index < a.size) :
    Reads (a.tree names e) := h.reads_treeWithin names (Nat.lt_succ_of_lt he) he

/-- **Every expression of a layered arena can be printed.** -/
theorem Layered.reads_print (h : a.Layered) (names : Interner) (he : e.index < a.size) :
    Reads (a.print names e) := (h.reads_tree names he).map _

/-- And so can every closure. -/
theorem Layered.reads_printClosure (h : a.Layered) (names : Interner) {body : BodyRange}
    (hbody : (a.body? body).isSome) : Reads (a.printClosure names body) := by
  refine Reads.map ((reads_found hbody).bind fun gs hgs => ?_) _
  have hguards : ∀ g ∈ gs, ∀ e ∈ g.exprs, e.index < a.size := fun g hg =>
    h.guards g (mem_of_slice? (found_eq_ok hgs) hg)
  refine (reads_mapM fun g hg => ?_).bind fun _ _ => reads_pure _
  have hrest : ∀ condition : Option Tree,
      Reads (do let body ← a.tree names g.body; pure (condition, body)) := fun _ =>
    (h.reads_tree names (hguards g hg _ (by simp [Guard.exprs]))).bind fun _ _ => reads_pure _
  split
  · exact (reads_pure none).bind fun condition _ => hrest condition
  · next e he =>
      have hlt := hguards g hg e (by simp [Guard.exprs, he])
      exact ((h.reads_tree names hlt).map some).bind fun condition _ => hrest condition

end Reading

end ArrayLang.Arena
