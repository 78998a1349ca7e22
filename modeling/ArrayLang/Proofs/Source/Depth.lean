import ArrayLang.Proofs.Results
import ArrayLang.Proofs.Source.ChildrenFirst

/-!
# Reading to a greater depth

Expressions are read out of an arena to some depth at most. A tree that is found is found as well
when the reading may go deeper (`Arena.foundBy_treeWithin`). So it makes no difference whether a
closure is read as a part of an expression or on its own (`Arena.closureTree_of_treeWithin`).
-/

namespace ArrayLang.Arena

variable {α β : Type}

/-- Whatever the first reading finds, the second one finds. -/
def FoundBy (x y : Except TreeFault α) : Prop := ∀ a, x = .ok a → y = .ok a

namespace FoundBy

variable {x y z : Except TreeFault α} {f g : α → Except TreeFault β}

theorem refl (x : Except TreeFault α) : FoundBy x x := fun _ h => h

/-- What is found by one depth is found by any that extends it. -/
theorem trans (h : FoundBy x y) (h' : FoundBy y z) : FoundBy x z := fun a ha => h' a (h a ha)

theorem bind (h : FoundBy x y) (hf : ∀ a, FoundBy (f a) (g a)) :
    FoundBy (x >>= f) (y >>= g) := by
  intro b hb
  obtain ⟨a, ha, hb⟩ := exists_of_bind_eq_ok hb
  rw [h a ha]
  exact hf a b hb

theorem map (h : FoundBy x y) (f : α → β) : FoundBy (f <$> x) (f <$> y) :=
  h.bind fun a => refl (pure (f a))

theorem mapM {l : List α} (h : ∀ a ∈ l, FoundBy (f a) (g a)) :
    FoundBy (l.mapM f) (l.mapM g) := by
  induction l with
  | nil => exact refl _
  | cons a l ih =>
      rw [List.mapM_cons, List.mapM_cons]
      refine (h a (by simp)).bind fun b => ?_
      exact (ih fun a ha => h a (by simp [ha])).bind fun bs => refl _

theorem optional {part part' : ExprId → Except TreeFault Tree}
    (h : ∀ e, FoundBy (part e) (part' e)) (e : Option ExprId) :
    FoundBy
      (match (motive := Option ExprId → Except TreeFault (Option Tree)) e with
      | none => pure none
      | some e => some <$> part e)
      (match (motive := Option ExprId → Except TreeFault (Option Tree)) e with
      | none => pure none
      | some e => some <$> part' e) := by
  cases e with
  | none => exact refl _
  | some e => exact (h e).map some

end FoundBy

variable {a : Arena} {names : Interner} {e : ExprId} {depth depth' : Nat} {t : Tree}

/-- A tree that is read to the end is the same at one level more. -/
theorem foundBy_treeWithin_succ (a : Arena) (names : Interner) (depth : Nat) (e : ExprId) :
    FoundBy (a.treeWithin names depth e) (a.treeWithin names (depth + 1) e) := by
  induction depth generalizing e with
  | zero => exact nofun
  | succ depth ih =>
      have hoptional := FoundBy.optional ih
      rw [treeWithin, treeWithin]
      refine (FoundBy.refl _).bind fun x => ?_
      cases x.node with
      | int | float | bool | text | «variable» | primitive => exact .refl _
      | strand items =>
          refine (FoundBy.refl _).bind fun es => ?_
          exact (FoundBy.mapM fun e _ => ih e).bind fun _ => .refl _
      | closure body =>
          refine (FoundBy.refl _).bind fun gs => (FoundBy.mapM fun g _ => ?_).bind fun _ => .refl _
          exact (hoptional g.condition).bind fun _ => (ih g.body).bind fun _ => .refl _
      | derived operator left right =>
          exact (ih left).bind fun _ => (hoptional right).bind fun _ => .refl _
      | call function left right =>
          refine (ih function).bind fun _ => (hoptional left).bind fun _ => ?_
          exact (ih right).bind fun _ => .refl _
      | assign target value => exact (ih value).bind fun _ => .refl _
      | selectiveAssign target function left value =>
          refine (ih function).bind fun _ => (hoptional left).bind fun _ => ?_
          exact (ih value).bind fun _ => .refl _

/-- **A greater depth finds every tree that a smaller one finds.** -/
theorem foundBy_treeWithin (a : Arena) (names : Interner) (hle : depth ≤ depth') (e : ExprId) :
    FoundBy (a.treeWithin names depth e) (a.treeWithin names depth' e) := by
  induction hle with
  | refl => exact .refl _
  | step _ ih => exact ih.trans (foundBy_treeWithin_succ a names _ e)

/-- The tree of a closure literal is that of the closure. -/
theorem closureTree_of_treeWithin {body : BodyRange} {span : Span}
    (hx : a.expr? e = some ⟨.closure body, span⟩) (hle : depth ≤ a.size + 1)
    (h : a.treeWithin names (depth + 1) e = .ok t) : a.closureTree names body = .ok t := by
  have hpart : ∀ e, FoundBy (a.treeWithin names depth e) (a.tree names e) :=
    foundBy_treeWithin a names hle
  rw [treeWithin, hx] at h
  refine FoundBy.bind (.refl _) (fun gs => (FoundBy.mapM fun g _ => ?_).bind fun _ => .refl _) t h
  obtain ⟨condition, statement⟩ := g
  cases condition with
  | none => exact (hpart statement).bind fun _ => .refl _
  | some e => exact ((hpart e).map some).bind fun _ => (hpart statement).bind fun _ => .refl _

/-! ## Parts of what is found -/

/-- Nothing is read at depth zero. -/
theorem exists_succ_of_treeWithin (h : a.treeWithin names depth e = .ok t) :
    ∃ depth', depth = depth' + 1 := by
  cases depth with
  | zero => cases h
  | succ depth => exact ⟨depth, rfl⟩

/-- A strand that could be read has items that were read one level below. -/
theorem exists_strand_of_treeWithin {items : StrandRange} {es : List ExprId} {span : Span}
    (hx : a.expr? e = some ⟨.strand items, span⟩) (hitems : a.strand? items = some es)
    (h : a.treeWithin names (depth + 1) e = .ok t) :
    ∃ ts, t = .strand ts ∧ List.Forall₂ (fun e t => a.treeWithin names depth e = .ok t) es ts := by
  rw [treeWithin, hx] at h
  obtain ⟨es', hes, hrest⟩ := exists_of_bind_eq_ok (x := found (a.strand? items)) h
  obtain ⟨ts, hts, hstrand⟩ := exists_of_bind_eq_ok hrest
  cases hitems.symm.trans (found_eq_ok hes)
  cases hstrand
  exact ⟨ts, rfl, forall₂_of_mapM_eq_ok hts⟩

theorem exists_derived_of_treeWithin {operator : Name} {left : ExprId} {right : Option ExprId}
    {span : Span} (hx : a.expr? e = some ⟨.derived operator left right, span⟩)
    (h : a.treeWithin names (depth + 1) e = .ok t) :
    ∃ tl tr, t = .derived (names.lookup operator) tl tr ∧
      a.treeWithin names depth left = .ok tl ∧
      Option.Rel (fun e t => a.treeWithin names depth e = .ok t) right tr := by
  rw [treeWithin, hx] at h
  obtain ⟨tl, hleft, hrest⟩ := exists_of_bind_eq_ok (x := a.treeWithin names depth left) h
  obtain ⟨tr, hright, hderived⟩ := exists_of_bind_eq_ok hrest
  cases hderived
  refine ⟨tl, tr, rfl, hleft, ?_⟩
  cases right with
  | none =>
      cases hright
      exact .none
  | some e' =>
      obtain ⟨t', ht', hsome⟩ := exists_of_bind_eq_ok (x := a.treeWithin names depth e') hright
      cases hsome
      exact .some ht'

end ArrayLang.Arena
