import ArrayLang.Proofs.Library.Arrays
import ArrayLang.Proofs.Selection.Arranging
import ArrayLang.Proofs.Selection.Assignment

/-!
# What is assigned through a selection is what the selection reads

In the core library `⌽` and `↑` only arrange the cells of an array. After `(⌽X)←Y` or `(k↑X)←Y` the
same function on `X` gives what was assigned (`Eval.selection_reads_back`).
-/

namespace ArrayLang

/-! ## Expressions -/

namespace Context

variable (c : Context) (a : ArenaId)

def HasNode (e : ExprId) (x : Node) : Prop := ∃ span, c.expr? a e = some ⟨x, span⟩

/-- The function is the primitive, and its left argument the integer, if there is one. -/
structure Applies (function : ExprId) (operand : Option ExprId) (symbol : Name)
    (left : Option Int64) : Prop where
  function : c.HasNode a function (.primitive symbol)
  operand : Option.Rel (fun e k => c.HasNode a e (.int k)) operand left

/-- The expression `left symbol target`. -/
def IsCall (e : ExprId) (left : Option Int64) (symbol target : Name) : Prop :=
  ∃ function operand right, c.HasNode a e (.call function operand right) ∧
    c.Applies a function operand symbol left ∧ c.HasNode a right (.variable target)

/-- The expression `(left symbol target)←source`. -/
def IsSelectiveAssign (e : ExprId) (left : Option Int64) (symbol target source : Name) : Prop :=
  ∃ function operand value, c.HasNode a e (.selectiveAssign target function operand value) ∧
    c.Applies a function operand symbol left ∧ c.HasNode a value (.variable source)

end Context

namespace Eval

open Selection

variable {c : Context} {m m' : Machine} {scope : ScopeId} {e function : ExprId}
  {operand : Option ExprId} {symbol target source : Name} {left : Option Int64} {v : Value}

/-- An expression gives what its node gives. -/
theorem ends_evaluate_of_hasNode {x : Node} (he : c.HasNode m.arena e x)
    (h : Ends c (node c scope x) m (.ok v) m') : Ends c (evaluate e scope) m (.ok v) m' := by
  obtain ⟨span, he⟩ := he
  exact ends_ask_iff.mpr ((ends_evaluate_iff he).mpr ⟨.ok v, h, rfl⟩)

theorem ends_variable_of_hasNode {x : Name} (he : c.HasNode m.arena e (.variable x))
    (hx : m.scopes.lookup? scope x = some v) : Ends c (evaluate e scope) m (.ok v) m :=
  ends_evaluate_of_hasNode he (ends_variableValue_ok_iff.mpr ⟨hx, rfl⟩)

section Applies

variable (h : c.Applies m.arena function operand symbol left)
include h

theorem ends_evaluateCallable_of_applies :
    Ends c (evaluateCallable function scope) m (.ok (.primitive symbol)) m := by
  have hf : Ends c (evaluate function scope) m (.ok (.primitive symbol)) m :=
    ends_evaluate_of_hasNode h.function (ends_pure_iff.mpr ⟨rfl, rfl⟩)
  exact ends_bind_ok_iff.mpr ⟨_, m, hf, ends_pure_iff.mpr ⟨rfl, rfl⟩⟩

/-- The function of the assignment is the primitive itself. -/
theorem ends_selector_of_applies :
    Ends c (selector c function scope) m (.ok (.primitive symbol)) m := by
  obtain ⟨span, hx⟩ := h.function
  exact ends_bind_ok_iff.mpr
    ⟨_, m, ends_expr_iff.mpr ⟨_, hx, rfl, rfl⟩, ends_evaluateCallable_of_applies h⟩

theorem ends_evaluateOptional_of_applies :
    Ends c (evaluateOptional operand scope) m (.ok (left.map .int)) m := by
  cases h.operand with
  | none => exact ends_pure_iff.mpr ⟨rfl, rfl⟩
  | @some e k hk =>
      have he : Ends c (evaluate e scope) m (.ok (.int k)) m :=
        ends_evaluate_of_hasNode hk (ends_pure_iff.mpr ⟨rfl, rfl⟩)
      exact ends_bind_ok_iff.mpr ⟨_, m, he, ends_pure_iff.mpr ⟨rfl, rfl⟩⟩

end Applies

/-! ## Functions that arrange -/

/-- On arrays of `n` cells the primitive gives the cells at these positions. -/
def Arranges (c : Context) (symbol : Name) (left : Option Int64) (n : Nat) (ps : List Nat) : Prop :=
  ∀ v cells, v.cells? = some cells → cells.length = n → ∀ scope m,
    Ends c (step c (.call (.primitive symbol) (left.map .int) v scope)) m
      (.ok (.vector (arrange ps cells))) m

section Core

variable {names : Interner} (hcore : c.registry = Library.core names)
include hcore

/-- Reversal arranges cells from the last to the first. -/
theorem arranges_reverse (hsymbol : c.names.get? "⌽" = some symbol) (n : Nat) :
    Arranges c symbol none n (List.range n).reverse := by
  intro v cells hcells hn scope m
  have hresolve : c.registry.resolve c.tower symbol none v = .ok ⟨Library.reverse, none, v⟩ :=
    Library.resolve_reverse hcore hsymbol (Value.isArray_of_cells? hcells)
  apply ends_of_eq
  apply step_call_of_done hresolve
  rw [← hn, arrange_reversed]
  show Body.done (.ok (Value.vector (v.cells?.getD []).reverse)) = _
  rw [hcells]
  rfl

/-- Taking arranges the first cells, as long as an allocation holds that many. -/
theorem arranges_take {k : Int64} (hsymbol : c.names.get? "↑" = some symbol) (hk : 0 ≤ k)
    (hroom : k.toNatClampNeg ≤ Library.maxCells) (n : Nat) :
    Arranges c symbol (some k) n (List.range k.toNatClampNeg) := by
  intro v cells hcells hn scope m
  have hresolve : c.registry.resolve c.tower symbol (some (.int k)) v =
      .ok ⟨Library.take, some (.int k), v⟩ :=
    Library.resolve_take hcore hsymbol (Value.isArray_of_cells? hcells)
  apply ends_of_eq
  apply step_call_of_done hresolve
  rw [arrange_firsts]
  show (Body.ofExcept (Library.count (.int k))).bind _ = _
  rw [Library.count_int hk, hcells]
  exact if_pos hroom

end Core

/-! ## Assigning and reading -/

variable {current values : Value} {cells vs : List Value} {ps : List Nat} {assign read : ExprId}
  {n : Nat}

/-- Reading through the same function gives the arranged cells. -/
theorem ends_read_of_arranges (hread : c.IsCall m.arena read left symbol target)
    (hf : Arranges c symbol left n ps) (hx : m.scopes.lookup? scope target = some v)
    (hcells : v.cells? = some cells) (hn : cells.length = n) :
    Ends c (step c (.evaluate read scope)) m (.ok (.vector (arrange ps cells))) m := by
  obtain ⟨function, operand, right, hnode, happlies, hright⟩ := hread
  apply ends_ask_iff.mp
  apply ends_evaluate_of_hasNode hnode
  refine ends_bind_ok_iff.mpr ⟨v, m, ends_variable_of_hasNode hright hx, ?_⟩
  refine ends_bind_ok_iff.mpr ⟨_, m, ends_evaluateCallable_of_applies happlies, ?_⟩
  refine ends_bind_ok_iff.mpr ⟨_, m, ends_evaluateOptional_of_applies happlies, ?_⟩
  exact ends_ask_iff.mpr (hf v cells hcells hn scope m)

/-- The function is called on the numbers of all cells. -/
theorem ends_prepared_of_arranges {s : Shape} {value : ExprId}
    (happlies : c.Applies m.arena function operand symbol left)
    (hvalue : c.HasNode m.arena value (.variable source)) (hf : Arranges c symbol left s.size ps)
    (hx : m.scopes.lookup? scope target = some current)
    (hy : m.scopes.lookup? scope source = some values) (hs : current.shape? = some s) :
    Ends c (prepared c target function operand value scope) m
      (.ok ⟨values, current,
        some (.vector (arrange ps ((Value.indexes (.iota s)).cells?.getD [])))⟩) m := by
  refine ends_bind_ok_iff.mpr ⟨values, m, ends_variable_of_hasNode hvalue hy, ?_⟩
  refine ends_bind_ok_iff.mpr ⟨_, m, ends_evaluateOptional_of_applies happlies, ?_⟩
  refine ends_bind_ok_iff.mpr ⟨current, m, ends_variableValue_ok_iff.mpr ⟨hx, rfl⟩, ?_⟩
  refine ends_bind_ok_iff.mpr ⟨_, m, ends_selector_of_applies happlies, ?_⟩
  refine ends_bind_ok_iff.mpr ⟨_, m, ?_, ends_pure_iff.mpr ⟨rfl, rfl⟩⟩
  have hcall := hf (.indexes (.iota s)) _ rfl (by simp [Grid.iota]) scope m
  unfold pick
  rw [hs]
  exact ends_bind_ok_iff.mpr ⟨_, m, ends_ask_iff.mpr hcall, ends_pure_iff.mpr ⟨rfl, rfl⟩⟩

/-- **Through a function that arranges, and takes no cell twice**, an array gets what the function
then reads from it. -/
theorem exists_ends_of_arranges
    (hassign : c.IsSelectiveAssign m.arena assign left symbol target source)
    (hread : c.IsCall m.arena read left symbol target) (hf : Arranges c symbol left cells.length ps)
    (hindex : ∀ i, c.tower.toIndex? (.int i) = some i)
    (hx : m.scopes.lookup? scope target = some current)
    (hy : m.scopes.lookup? scope source = some values) (hw : current.WellShaped)
    (hcells : current.cells? = some cells) (hvs : values.cells? = some vs) (hnodup : ps.Nodup)
    (hlen : vs.length = ps.length) (hps : ∀ i ∈ ps, i < cells.length → i < maxLength) :
    ∃ m' updated, Ends c (step c (.evaluate assign scope)) m (.ok values) m' ∧
      m'.scopes.lookup? scope target = some updated ∧ updated.shape? = current.shape? ∧
      (∀ i, i ∉ ps → updated.cellAt? i = current.cellAt? i) ∧
      Ends c (step c (.evaluate read scope)) m' (.ok (.vector (received cells.length ps vs)))
        m' := by
  obtain ⟨function, operand, value, hnode, happlies, hvalue⟩ := hassign
  obtain ⟨s, hs⟩ : ∃ s, current.shape? = some s := by
    rw [← Option.isSome_iff_exists, ← (Value.isArray_eq current).1]
    exact Value.isArray_of_cells? hcells
  have hsize : s.size = cells.length := by simpa [hcells] using hw.size_eq hs
  obtain ⟨updated, cells', hupdated, hshape, hcells', hlength, hkept, harrange⟩ :=
    Selected.exists_updated_arrange hindex hw hs hcells hvs hnodup hlen hps
  rw [← hsize] at hf
  -- the function is applied twice: to the numbers of the cells, and to the cells that were put
  -- there
  have hprepared := ends_prepared_of_arranges happlies hvalue hf hx hy hs
  obtain ⟨holder, hholder, -⟩ := Scopes.lookup?_eq_some_iff.mp hx
  have hlookup := Scopes.lookup?_define_of_holder? (v := updated) hholder
  refine ⟨{ m with scopes := m.scopes.define holder target updated }, updated, ?_, hlookup, ?_,
    hkept, ?_⟩
  · apply ends_ask_iff.mp
    apply ends_evaluate_of_hasNode hnode
    show Ends c (selectiveAssign c target function operand value scope) m _ _
    rw [selectiveAssign_eq]
    refine ends_bind_ok_iff.mpr ⟨_, m, hprepared, ?_⟩
    exact (ends_finish_iff hholder).mpr (.inr ⟨updated, hupdated, rfl, rfl⟩)
  · rw [hshape, hs]
  · rw [← harrange]
    exact ends_read_of_arranges hread hf hlookup hcells' (hlength.trans hsize.symm)

/-- **What is assigned through a selection is what the selection then reads.** Let `X` be a
well-shaped array of `n` elements and `Y` an array with the elements `vs`.

* With `n` elements in `Y`, `(⌽X)←Y` succeeds, `X` keeps its shape, and `⌽X` gives `vs`.
* With `k` elements in `Y`, `(k↑X)←Y` succeeds, `X` keeps its shape and its elements from position
  `k` on, and `k↑X` gives as many of `vs` as `X` has room for, and zeros up to length `k`.

Numbers of positions are integer words, so an array that is to be reversed has at most `maxLength`
elements; and what `k↑X` gives is an array of `k` values, of which `Library.maxCells` is the most
that memory can address. -/
theorem selection_reads_back {names : Interner} (hcore : c.registry = Library.core names)
    (hindex : ∀ i, c.tower.toIndex? (.int i) = some i)
    (hx : m.scopes.lookup? scope target = some current)
    (hy : m.scopes.lookup? scope source = some values) (hw : current.WellShaped)
    (hcells : current.cells? = some cells) (hvs : values.cells? = some vs) :
    (∀ symbol assign read, c.names.get? "⌽" = some symbol →
      c.IsSelectiveAssign m.arena assign none symbol target source →
      c.IsCall m.arena read none symbol target →
      vs.length = cells.length → cells.length ≤ maxLength →
      ∃ m' updated, Ends c (step c (.evaluate assign scope)) m (.ok values) m' ∧
        m'.scopes.lookup? scope target = some updated ∧ updated.shape? = current.shape? ∧
        Ends c (step c (.evaluate read scope)) m' (.ok (.vector vs)) m') ∧
    ∀ (k : Int64) symbol assign read, 0 ≤ k → c.names.get? "↑" = some symbol →
      c.IsSelectiveAssign m.arena assign (some k) symbol target source →
      c.IsCall m.arena read (some k) symbol target →
      vs.length = k.toNatClampNeg → k.toNatClampNeg ≤ Library.maxCells →
      ∃ m' updated, Ends c (step c (.evaluate assign scope)) m (.ok values) m' ∧
        m'.scopes.lookup? scope target = some updated ∧ updated.shape? = current.shape? ∧
        (∀ i, k.toNatClampNeg ≤ i → updated.cellAt? i = current.cellAt? i) ∧
        Ends c (step c (.evaluate read scope)) m'
          (.ok (.vector (vs.take (min k.toNatClampNeg cells.length) ++
            List.replicate (k.toNatClampNeg - cells.length) (.int 0)))) m' := by
  constructor
  · -- every position below the length occurs once, so each value is read back where it was put
    intro symbol assign read hsymbol hassign hread hlen hbound
    have hlt : ∀ i ∈ (List.range cells.length).reverse, i < cells.length := by simp
    have hnodup : (List.range cells.length).reverse.Nodup :=
      List.nodup_reverse.mpr List.nodup_range
    obtain ⟨m', updated, hends, hlookup, hshape, -, hreads⟩ :=
      exists_ends_of_arranges hassign hread (arranges_reverse hcore hsymbol cells.length) hindex hx
        hy hw hcells hvs hnodup (by simpa using hlen) fun i _ hi => by omega
    rw [received_of_lt hlt (by simpa using hlen)] at hreads
    exact ⟨m', updated, hends, hlookup, hshape, hreads⟩
  · intro k symbol assign read hk hsymbol hassign hread hlen hroom
    -- positions may exceed the length here, and those give zeros
    have hword := Int64.toNatClampNeg_lt k
    obtain ⟨m', updated, hends, hlookup, hshape, hkept, hreads⟩ :=
      exists_ends_of_arranges hassign hread (arranges_take hcore hsymbol hk hroom cells.length)
        hindex hx hy hw hcells hvs List.nodup_range (by simpa using hlen) fun i hi _ => by
          rw [List.mem_range] at hi
          unfold maxLength
          omega
    rw [received_range hlen] at hreads
    refine ⟨m', updated, hends, hlookup, hshape, ?_, hreads⟩
    intro i hi
    apply hkept
    rw [List.mem_range]
    omega

end Eval

/-- `⌽X`, `(⌽X)←Y`, `3↑X` and `(3↑X)←Z` over the core library. -/
def Context.readingBack : Context where
  registry := Library.core (((Interner.initial.intern "X").2.intern "Y").2.intern "Z").2
  tower := .standard
  arenas := #[{
    exprs := #[⟨.variable ⟨5⟩, .dummy⟩, ⟨.variable ⟨6⟩, .dummy⟩, ⟨.variable ⟨7⟩, .dummy⟩,
      ⟨.primitive ⟨13⟩, .dummy⟩, ⟨.primitive ⟨14⟩, .dummy⟩, ⟨.int 3, .dummy⟩,
      ⟨.call ⟨3⟩ none ⟨0⟩, .dummy⟩, ⟨.selectiveAssign ⟨5⟩ ⟨3⟩ none ⟨1⟩, .dummy⟩,
      ⟨.call ⟨4⟩ (some ⟨5⟩) ⟨0⟩, .dummy⟩, ⟨.selectiveAssign ⟨5⟩ ⟨4⟩ (some ⟨5⟩) ⟨2⟩, .dummy⟩]
    items := #[]
    guards := #[] }]

/-- `X` is an array of the indexes `1 2`, `Y` holds two texts, and `Z` a number, a text and a
truth value. -/
def Machine.readingBack : Machine where
  arena := ⟨0⟩
  calls := .empty 10
  scopes := ((Scopes.empty.outermost.2.define ⟨0⟩ ⟨5⟩ (.indexes (.vector [1, 2]))).define ⟨0⟩ ⟨6⟩
    (.strings (.vector ["a", "b"]))).define ⟨0⟩ ⟨7⟩ (.vector [.int 7, .text "c", .bool true])

namespace Eval

/-- An array of indexes takes texts as well, and a third element of `3↑X` has no place in it. -/
theorem selection_reads_back_texts :
    (∃ m', Ends .readingBack (step .readingBack (.evaluate ⟨7⟩ ⟨0⟩)) .readingBack
        (.ok (.strings (.vector ["a", "b"]))) m' ∧
      Ends .readingBack (step .readingBack (.evaluate ⟨6⟩ ⟨0⟩)) m'
        (.ok (.vector [.text "a", .text "b"])) m') ∧
    ∃ m', Ends .readingBack (step .readingBack (.evaluate ⟨9⟩ ⟨0⟩)) .readingBack
        (.ok (.vector [.int 7, .text "c", .bool true])) m' ∧
      Ends .readingBack (step .readingBack (.evaluate ⟨8⟩ ⟨0⟩)) m'
        (.ok (.vector [.int 7, .text "c", .int 0])) m' := by
  have hcore : Context.readingBack.registry = Library.core _ := rfl
  have hx : Machine.readingBack.scopes.lookup? ⟨0⟩ ⟨5⟩ = some (.indexes (.vector [1, 2])) := rfl
  have hy : Machine.readingBack.scopes.lookup? ⟨0⟩ ⟨6⟩ = some (.strings (.vector ["a", "b"])) := rfl
  have hz : Machine.readingBack.scopes.lookup? ⟨0⟩ ⟨7⟩ =
    some (.vector [.int 7, .text "c", .bool true]) := rfl
  have hfits : (Value.indexes (.vector [1, 2])).WellShaped := Grid.fits_vector _
  constructor
  · obtain ⟨hreverse, -⟩ :=
      selection_reads_back hcore (fun _ => rfl) hx hy hfits rfl rfl
    obtain ⟨m', updated, hends, -, -, hreads⟩ := hreverse ⟨13⟩ ⟨7⟩ ⟨6⟩ (by decide +kernel)
      ⟨⟨3⟩, none, ⟨1⟩, ⟨.dummy, rfl⟩, ⟨⟨.dummy, rfl⟩, .none⟩, ⟨.dummy, rfl⟩⟩
      ⟨⟨3⟩, none, ⟨0⟩, ⟨.dummy, rfl⟩, ⟨⟨.dummy, rfl⟩, .none⟩, ⟨.dummy, rfl⟩⟩ rfl (by decide)
    exact ⟨m', hends, hreads⟩
  · obtain ⟨-, htake⟩ := selection_reads_back hcore (fun _ => rfl) hx hz hfits rfl rfl
    obtain ⟨m', updated, hends, -, -, -, hreads⟩ := htake 3 ⟨14⟩ ⟨9⟩ ⟨8⟩ (by decide)
      (by decide +kernel)
      ⟨⟨4⟩, some ⟨5⟩, ⟨2⟩, ⟨.dummy, rfl⟩, ⟨⟨.dummy, rfl⟩, .some ⟨.dummy, rfl⟩⟩, ⟨.dummy, rfl⟩⟩
      ⟨⟨4⟩, some ⟨5⟩, ⟨0⟩, ⟨.dummy, rfl⟩, ⟨⟨.dummy, rfl⟩, .some ⟨.dummy, rfl⟩⟩, ⟨.dummy, rfl⟩⟩ rfl
      (by decide)
    exact ⟨m', hends, hreads⟩

end Eval

end ArrayLang
