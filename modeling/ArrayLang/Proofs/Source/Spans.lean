import ArrayLang.Source.Tree

/-!
# Arenas that differ in spans

Two arenas are *alike* if only the spans of their expressions differ. A tree has no spans, so
whatever is read or printed out of the one arena is read or printed out of the other.
-/

namespace ArrayLang.Arena

/-- The same nodes, elements and statements, each in its place. The spans may be any. -/
structure Alike (a a' : Arena) : Prop where
  nodes : a'.exprs.map Expr.node = a.exprs.map Expr.node
  items : a'.items = a.items
  guards : a'.guards = a.guards

namespace Alike

variable {a a' : Arena} {names : Interner}

/-! ## Reading -/

/-- Arenas that differ in places alone have the same number of expressions. -/
theorem size_eq (h : a.Alike a') : a'.size = a.size := by
  have hsize := congrArg Array.size h.nodes
  rw [Array.size_map, Array.size_map] at hsize
  exact hsize

theorem strand?_eq (h : a.Alike a') (r : StrandRange) : a'.strand? r = a.strand? r := by
  unfold strand?
  rw [h.items]

theorem body?_eq (h : a.Alike a') (r : BodyRange) : a'.body? r = a.body? r := by
  unfold body?
  rw [h.guards]

/-- There are expressions at the same positions, with the same nodes. -/
theorem expr? (h : a.Alike a') (e : ExprId) :
    (a.expr? e = none ∧ a'.expr? e = none) ∨
      ∃ node span span', a.expr? e = some ⟨node, span⟩ ∧ a'.expr? e = some ⟨node, span'⟩ := by
  have hnode : (a'.expr? e).map Expr.node = (a.expr? e).map Expr.node := by
    have hnode := congrArg (fun nodes => nodes[e.index]?) h.nodes
    simp only [Array.getElem?_map] at hnode
    exact hnode
  cases hx : a.expr? e with
  | none =>
      rw [hx] at hnode
      exact .inl ⟨rfl, Option.map_eq_none_iff.mp hnode⟩
  | some x =>
      rw [hx] at hnode
      obtain ⟨x', hx', hsame⟩ := Option.map_eq_some_iff.mp hnode
      obtain ⟨node, span⟩ := x
      obtain ⟨node', span'⟩ := x'
      obtain rfl : node' = node := hsame
      exact .inr ⟨node', span, span', rfl, hx'⟩

/-! ## Printing -/

theorem treeWithin_eq (h : a.Alike a') (depth : Nat) :
    a'.treeWithin names depth = a.treeWithin names depth := by
  induction depth with
  | zero => rfl
  | succ depth ih =>
      funext e
      simp only [treeWithin, ih, h.strand?_eq, h.body?_eq]
      -- nothing but the node is looked at
      rcases h.expr? e with ⟨hx, hx'⟩ | ⟨node, span, span', hx, hx'⟩
      · rw [hx, hx']
      · rw [hx, hx']
        rfl

/-- Arenas that differ in places alone have the same trees. -/
theorem tree_eq (h : a.Alike a') (e : ExprId) : a'.tree names e = a.tree names e := by
  unfold tree
  rw [h.size_eq, h.treeWithin_eq]

theorem print_eq (h : a.Alike a') (e : ExprId) : a'.print names e = a.print names e := by
  unfold print
  rw [h.tree_eq]

/-- **A closure is written in the same way** in both arenas. -/
theorem printClosure_eq (h : a.Alike a') (body : BodyRange) :
    a'.printClosure names body = a.printClosure names body := by
  unfold printClosure closureTree
  simp only [h.body?_eq, h.tree_eq]

end Alike

end ArrayLang.Arena
