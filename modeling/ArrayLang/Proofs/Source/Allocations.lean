import ArrayLang.Proofs.Source.ChildrenFirst
import Mathlib.Data.List.Induction

/-!
# Handles are permanent

An arena grows by nodes, strands and closure bodies, in any order. Each of them is put at the end of
its table, and so its handle is a bare position or range that no later addition can change. What one
addition does is said by `Arena.tableSize_allocate`, `Arena.read?_allocate_self` and
`Arena.read?_allocate_of_some`; what is true of all handles over the whole history of an arena is
`Arena.handles_permanent`.
-/

namespace ArrayLang

namespace Arena

/-! ## Additions and handles -/

inductive Table where
  | exprs
  | items
  | guards
deriving DecidableEq

/-- What is added to an arena at once. -/
inductive Allocation where
  | expr (x : Expr)
  | strand (items : List ExprId)
  | body (guards : List Guard)

namespace Allocation

def table : Allocation → Table
  | .expr _ => .exprs
  | .strand _ => .items
  | .body _ => .guards

/-- How many entries of its table it takes. -/
def length : Allocation → Nat
  | .expr _ => 1
  | .strand items => items.length
  | .body guards => guards.length

end Allocation

/-- What an arena gives for an addition. -/
inductive Handle where
  | expr (e : ExprId)
  | strand (r : StrandRange)
  | body (r : BodyRange)

namespace Handle

def table : Handle → Table
  | .expr _ => .exprs
  | .strand _ => .items
  | .body _ => .guards

def start : Handle → Nat
  | .expr e => e.index
  | .strand r => r.start
  | .body r => r.start

def length : Handle → Nat
  | .expr _ => 1
  | .strand r => r.length
  | .body r => r.length

/-- One handle ends before the other one begins. -/
def Apart (h h' : Handle) : Prop :=
  h.start + h.length ≤ h'.start ∨ h'.start + h'.length ≤ h.start

end Handle

def allocate (a : Arena) : Allocation → Handle × Arena
  | .expr x => (.expr (a.addExpr x).1, (a.addExpr x).2)
  | .strand items => (.strand (a.addStrand items).1, (a.addStrand items).2)
  | .body guards => (.body (a.addBody guards).1, (a.addBody guards).2)

/-- What a handle leads to. -/
def read? (a : Arena) : Handle → Option Allocation
  | .expr e => (a.expr? e).map .expr
  | .strand r => (a.strand? r).map .strand
  | .body r => (a.body? r).map .body

def tableSize (a : Arena) : Table → Nat
  | .exprs => a.exprs.size
  | .items => a.items.size
  | .guards => a.guards.size

/-- The arena after all additions, beginning with an empty one. -/
def built (l : List Allocation) : Arena := l.foldl (fun a x => (a.allocate x).2) empty

/-- How many entries of a table the additions take. -/
def filled (t : Table) : List Allocation → Nat
  | [] => 0
  | x :: l => (if x.table = t then x.length else 0) + filled t l

/-- The addition number `i` is `x`, and the arena gives the handle for it. -/
structure Returned (l : List Allocation) (i : Nat) (x : Allocation) (h : Handle) : Prop where
  allocation : l[i]? = some x
  handle : ((built (l.take i)).allocate x).1 = h

variable {a : Arena} {l later : List Allocation} {x y : Allocation} {h h' : Handle} {t : Table}
  {i j k : Nat}

/-! ## One addition -/

theorem table_allocate (a : Arena) (x : Allocation) : (a.allocate x).1.table = x.table := by
  cases x <;> rfl

theorem length_allocate (a : Arena) (x : Allocation) : (a.allocate x).1.length = x.length := by
  cases x <;> rfl

/-- The handle begins where the table ended. -/
theorem start_allocate (a : Arena) (x : Allocation) :
    (a.allocate x).1.start = a.tableSize x.table := by
  cases x <;> rfl

/-- Only the table of what is added grows. -/
theorem tableSize_allocate (a : Arena) (x : Allocation) (t : Table) :
    (a.allocate x).2.tableSize t = a.tableSize t + if x.table = t then x.length else 0 := by
  cases x with
  | expr x =>
      cases t with
      | exprs => exact Array.size_push x
      | items | guards => rfl
  | strand items =>
      cases t with
      | items => exact size_appendList a.items items
      | exprs | guards => rfl
  | body guards =>
      cases t with
      | guards => exact size_appendList a.guards guards
      | exprs | items => rfl

/-- The handle leads to what was added. -/
theorem read?_allocate_self (a : Arena) (x : Allocation) :
    (a.allocate x).2.read? (a.allocate x).1 = some x := by
  cases x with
  | expr x =>
      have hread : (a.addExpr x).2.expr? (a.addExpr x).1 = some x := Array.getElem?_push_size
      simp [allocate, read?, hread]
  | strand items =>
      have hread : (a.addStrand items).2.strand? (a.addStrand items).1 = some items :=
        slice?_append_self a.items items
      simp [allocate, read?, hread]
  | body guards =>
      have hread : (a.addBody guards).2.body? (a.addBody guards).1 = some guards :=
        slice?_append_self a.guards guards
      simp [allocate, read?, hread]

/-- **A handle that leads somewhere leads there after every addition.** -/
theorem read?_allocate_of_some (hr : a.read? h = some y) (x : Allocation) :
    (a.allocate x).2.read? h = some y := by
  cases h with
  | expr e =>
      obtain ⟨z, hz, rfl⟩ := Option.map_eq_some_iff.mp hr
      have hlt : e.index < a.size := isSome_expr?_iff.mp (by simp [hz])
      have hkept : (a.allocate x).2.expr? e = some z := by
        cases x with
        -- the new handle is the size of the table, and so another one
        | expr x =>
            show (a.addExpr x).2.expr? e = some z
            rw [expr?_addExpr, if_neg (Nat.ne_of_lt hlt)]
            exact hz
        | strand | body => exact hz
      simp [read?, hkept]
  | strand r =>
      obtain ⟨items, hitems, rfl⟩ := Option.map_eq_some_iff.mp hr
      have hkept : (a.allocate x).2.strand? r = some items := by
        cases x with
        | strand new => exact slice?_append hitems new
        | expr | body => exact hitems
      simp [read?, hkept]
  | body r =>
      obtain ⟨guards, hguards, rfl⟩ := Option.map_eq_some_iff.mp hr
      have hkept : (a.allocate x).2.body? r = some guards := by
        cases x with
        | body new => exact body?_addBody hguards new
        | expr | strand => exact hguards
      simp [read?, hkept]

/-! ## All additions -/

theorem built_concat (l : List Allocation) (x : Allocation) :
    built (l ++ [x]) = ((built l).allocate x).2 := List.foldl_append

theorem built_take_succ (hx : l[i]? = some x) :
    built (l.take (i + 1)) = ((built (l.take i)).allocate x).2 := by
  rw [List.take_add_one, hx]
  exact built_concat _ _

theorem filled_append (t : Table) (l later : List Allocation) :
    filled t (l ++ later) = filled t l + filled t later := by
  induction l with
  | nil => exact (Nat.zero_add _).symm
  | cons x l ih => rw [List.cons_append, filled, filled, ih, Nat.add_assoc]

theorem filled_singleton (t : Table) (x : Allocation) :
    filled t [x] = if x.table = t then x.length else 0 := rfl

/-- Tables never shrink. -/
theorem filled_le_of_isPrefix (hl : l <+: later) : filled t l ≤ filled t later := by
  obtain ⟨rest, rfl⟩ := hl
  rw [filled_append]
  exact Nat.le_add_right _ _

/-- A table holds what was added to it and nothing else. -/
theorem tableSize_built (t : Table) (l : List Allocation) :
    (built l).tableSize t = filled t l := by
  induction l using List.reverseRecOn with
  | nil => cases t <;> rfl
  | append_singleton l x ih =>
      rw [built_concat, tableSize_allocate, ih, filled_append, filled_singleton]

/-- **What was read once is read ever after**, however much is allocated in between. -/
theorem read?_built_of_isPrefix (hl : l <+: later) (hr : (built l).read? h = some x) :
    (built later).read? h = some x := by
  obtain ⟨rest, rfl⟩ := hl
  induction rest using List.reverseRecOn with
  | nil => rwa [List.append_nil]
  | append_singleton rest y ih =>
      rw [← List.append_assoc, built_concat]
      exact read?_allocate_of_some ih y

namespace Returned

theorem table_eq (hx : Returned l i x h) : h.table = x.table := by
  rw [← hx.handle, table_allocate]

theorem length_eq (hx : Returned l i x h) : h.length = x.length := by
  rw [← hx.handle, length_allocate]

/-- A handle begins behind all that was added to its table before. -/
theorem start_eq (hx : Returned l i x h) : h.start = filled h.table (l.take i) := by
  rw [hx.table_eq, ← hx.handle, start_allocate, tableSize_built]

/-- A handle reads at every later moment as it was given. -/
theorem read?_eq (hx : Returned l i x h) (hk : i < k) :
    (built (l.take k)).read? h = some x := by
  apply read?_built_of_isPrefix (List.take_prefix_take_left hk)
  rw [built_take_succ hx.allocation, ← hx.handle]
  exact read?_allocate_self _ x

/-- A handle ends before all that is added to its table later. -/
theorem stop_le (hx : Returned l i x h) (hy : Returned l j y h') (ht : h.table = h'.table)
    (hij : i < j) : h.start + h.length ≤ h'.start := by
  have htake : l.take (i + 1) = l.take i ++ [x] := by
    rw [List.take_add_one, hx.allocation]
    rfl
  calc h.start + h.length
      = filled h.table (l.take (i + 1)) := by
        rw [htake, filled_append, filled_singleton, if_pos hx.table_eq.symm, hx.start_eq,
          hx.length_eq]
    _ ≤ filled h.table (l.take j) := filled_le_of_isPrefix (List.take_prefix_take_left hij)
    _ = h'.start := by rw [ht, hy.start_eq]

end Returned

/-- **Handles are permanent.** Nodes, strands and closure bodies may be added in any order. The
handles of the nodes number them from zero. At every later moment each handle leads to exactly what
it was given for. The handles of two additions to the same table lie apart. Any position leads
nowhere exactly if there are not so many nodes, and any range exactly if it ends behind what its
table holds at that moment. This goes for empty ranges as well: one that begins behind the end leads
nowhere, and the one at zero always leads somewhere. -/
theorem handles_permanent (l : List Allocation) :
    (∀ i x h, Returned l i (.expr x) h → h = .expr ⟨filled .exprs (l.take i)⟩) ∧
    (∀ i x h, Returned l i x h → ∀ k, i < k → (built (l.take k)).read? h = some x) ∧
    (∀ i j x y h h', i ≠ j → Returned l i x h → Returned l j y h' → h.table = h'.table →
      h.Apart h') ∧
    (∀ k e, (built (l.take k)).expr? e = none ↔ filled .exprs (l.take k) ≤ e.index) ∧
    (∀ k r, (built (l.take k)).strand? r = none ↔
      filled .items (l.take k) < r.start + r.length) ∧
    (∀ k r, (built (l.take k)).body? r = none ↔
      filled .guards (l.take k) < r.start + r.length) := by
  refine ⟨?_, fun i x h hx k hk => hx.read?_eq hk, ?_, ?_, ?_, ?_⟩
  · intro i x h hx
    have hstart := hx.start_eq
    obtain ⟨-, rfl⟩ := hx
    exact congrArg (fun n => Handle.expr ⟨n⟩) hstart
  · -- in one table the earlier range ends before the later one starts
    intro i j x y h h' hij hx hy ht
    rcases Nat.lt_or_gt_of_ne hij with hlt | hgt
    · exact .inl (hx.stop_le hy ht hlt)
    · exact .inr (hy.stop_le hx ht.symm hgt)
  · intro k e
    rw [← tableSize_built]
    exact Array.getElem?_eq_none_iff
  · intro k r
    rw [← tableSize_built]
    exact slice?_eq_none_iff
  · intro k r
    rw [← tableSize_built]
    exact slice?_eq_none_iff

/-- Two strands and a body with nodes between them; one more strand is empty. -/
def interleaved : List Allocation :=
  [.expr ⟨.int 1, .dummy⟩, .strand [⟨0⟩, ⟨0⟩], .expr ⟨.strand ⟨0, 2⟩, .dummy⟩, .strand [],
    .body [⟨none, ⟨1⟩⟩], .strand [⟨1⟩]]

/-- The first strand is still there at the end and apart from the last one. A range may be empty at
the end of its table, but not behind it. -/
theorem handles_permanent_interleaved :
    Returned interleaved 1 (.strand [⟨0⟩, ⟨0⟩]) (.strand ⟨0, 2⟩) ∧
      (built (interleaved.take 6)).read? (.strand ⟨0, 2⟩) = some (.strand [⟨0⟩, ⟨0⟩]) ∧
      Handle.Apart (.strand ⟨0, 2⟩) (.strand ⟨2, 1⟩) ∧
      (built (interleaved.take 6)).strand? ⟨3, 0⟩ ≠ none ∧
      (built (interleaved.take 6)).strand? ⟨4, 0⟩ = none := by
  obtain ⟨-, hread, hapart, -, hrange, -⟩ := handles_permanent interleaved
  have hfirst : Returned interleaved 1 (.strand [⟨0⟩, ⟨0⟩]) (.strand ⟨0, 2⟩) := ⟨rfl, rfl⟩
  have hlast : Returned interleaved 5 (.strand [⟨1⟩]) (.strand ⟨2, 1⟩) := ⟨rfl, rfl⟩
  refine ⟨hfirst, hread 1 _ _ hfirst 6 (by decide),
    hapart 1 5 _ _ _ _ (by decide) hfirst hlast rfl, ?_, ?_⟩
  · rw [ne_eq, hrange 6 ⟨3, 0⟩]
    decide
  · rw [hrange 6 ⟨4, 0⟩]
    decide

end Arena

end ArrayLang
