import ArrayLang.Proofs.Evaluation.Contract
import ArrayLang.Proofs.Scopes.Shadowing

/-!
# Scopes only grow

While expressions are evaluated, scopes are added and names are declared or bound anew, but nothing
is taken back: parents stay, a declared name stays declared, and a name that has a value does not
become absent. `Scopes.GrowsTo` says so of an earlier and a later store.

* `Scopes.GrowsTo.lookup?_eq_some` — a name that can be looked up once can be looked up ever after,
  from the same scope; its value may be another one.
* `Eval.growth_keptBy` — every evaluation lets the scopes grow.
-/

namespace ArrayLang

namespace Scopes

variable {s t u : Scopes} {d e : ScopeId} {x : Name}

/-- `t` has all that `s` has: its scopes, each with the same parent and at least the same names, and
no name of these scopes is absent that was not. -/
structure GrowsTo (s t : Scopes) : Prop where
  size_le : s.size ≤ t.size
  parent?_eq : ∀ e : ScopeId, e.index < s.size → t.parent? e = s.parent? e
  declares : ∀ e x, s.declares e x = true → t.declares e x = true
  absent : ∀ e x, e.index < s.size → t.find? e x = some .absent → s.find? e x = some .absent

theorem GrowsTo.refl (s : Scopes) : s.GrowsTo s :=
  ⟨Nat.le_refl _, fun _ _ => rfl, fun _ _ h => h, fun _ _ _ h => h⟩

/-- Growth composes. -/
theorem GrowsTo.trans (h : s.GrowsTo t) (h' : t.GrowsTo u) : s.GrowsTo u where
  size_le := Nat.le_trans h.size_le h'.size_le
  parent?_eq e he := (h'.parent?_eq e (Nat.lt_of_lt_of_le he h.size_le)).trans (h.parent?_eq e he)
  declares e x hx := h'.declares e x (h.declares e x hx)
  absent e x he hx := h.absent e x he (h'.absent e x (Nat.lt_of_lt_of_le he h.size_le) hx)

/-! ## What lets scopes grow -/

/-- Giving a value to a name. -/
theorem growsTo_define (s : Scopes) (e : ScopeId) (x : Name) (v : Value) :
    s.GrowsTo (s.define e x v) where
  size_le := Nat.le_of_eq (size_bind _).symm
  parent?_eq d _ := parent?_bind _
  declares d y hy := by
    obtain ⟨b, hb⟩ := declares_iff.mp hy
    rw [declares_iff, define, find?_bind, hb]
    split
    · exact ⟨_, rfl⟩
    · exact ⟨_, rfl⟩
  absent d y _ hy := by
    rw [define, find?_bind] at hy
    split at hy
    · cases hy
    · exact hy

/-- Any declaration in a scope that was not there. -/
theorem GrowsTo.bind_of_le (h : s.GrowsTo t) (he : s.size ≤ e.index) (b : Binding) :
    s.GrowsTo (t.bind e x b) where
  size_le := by
    rw [size_bind]
    exact h.size_le
  parent?_eq d hd := (parent?_bind _).trans (h.parent?_eq d hd)
  declares d y hy := by
    obtain ⟨b', hb'⟩ := declares_iff.mp (h.declares d y hy)
    rw [declares_iff, find?_bind, hb']
    split
    · exact ⟨_, rfl⟩
    · exact ⟨_, rfl⟩
  absent d y hd hy := by
    have hne : d ≠ e := by
      rintro rfl
      omega
    rw [find?_bind, if_neg (fun h => hne h.1)] at hy
    exact h.absent d y hd hy

/-- A new scope. -/
theorem growsTo_child (s : Scopes) (p : ScopeId) : s.GrowsTo (s.child p).2 where
  size_le := by
    rw [size_child]
    exact Nat.le_succ _
  parent?_eq _ he := parent?_child_of_lt he
  declares e x hx := by
    unfold Scopes.declares
    rw [find?_child]
    exact hx
  absent e x _ hx := by
    rw [find?_child] at hx
    exact hx

/-- The scope of a closure call. -/
theorem growsTo_withArguments (s : Scopes) (left : Option Value) (right : Value) (e : ScopeId) :
    s.GrowsTo (s.withArguments left right e) :=
  ((s.growsTo_child e).bind_of_le (Nat.le_refl _) _).bind_of_le (Nat.le_refl _) (.bound right)

/-! ## What growing scopes keep -/

namespace GrowsTo

/-- Chains stay as they are. -/
theorem chain_eq (h : s.GrowsTo t) (he : e.index < s.size) : t.chain e = s.chain e := by
  induction hk : e.index using Nat.strongRecOn generalizing e with
  | ind k ih =>
      rw [Scopes.chain_eq t, Scopes.chain_eq s, h.parent?_eq e he, if_pos he,
        if_pos (Nat.lt_of_lt_of_le he h.size_le)]
      cases hp : s.parent? e with
      | none => rfl
      | some p =>
          have hpe : p.index < e.index := index_lt_of_parent? hp
          show e :: t.chain p = e :: s.chain p
          rw [ih p.index (hk ▸ hpe) (Nat.lt_trans hpe he) rfl]

/-- The holder of a name stays the same, unless the name has come into a nearer scope. -/
theorem holder?_eq_some (h : s.GrowsTo t) (hd : s.holder? e x = some d) :
    ∃ d', t.holder? e x = some d' ∧ d'.index < s.size ∧ (d' = d ∨ s.declares d' x = false) := by
  have he := index_lt_of_holder? hd
  rw [holder?_eq_find?_chain, List.find?_eq_some_iff_append] at hd
  obtain ⟨hdecl, near, far, hchain, hnear⟩ := hd
  have hmem : ∀ a ∈ near ++ [d], a.index < s.size := by
    intro a ha
    refine index_lt_of_mem_chain (e := e) ?_
    rw [hchain]
    rcases List.mem_append.mp ha with ha | ha
    · simp [ha]
    · simp [List.mem_singleton.mp ha]
  rw [holder?_eq_find?_chain, h.chain_eq he, hchain, List.find?_append, List.find?_cons,
    h.declares d x hdecl]
  -- the same scopes in the same order, but a near one may declare the name by now
  cases hn : near.find? fun d => t.declares d x with
  | none => exact ⟨d, rfl, hmem d (by simp), .inl rfl⟩
  | some a =>
      have ha : a ∈ near := List.mem_of_find?_eq_some hn
      exact ⟨a, rfl, hmem a (by simp [ha]), .inr (by simpa using hnear a ha)⟩

/-- **Names are never lost.** The name may have come into a nearer scope in the meantime, but only
together with a value. -/
theorem lookup?_eq_some (h : s.GrowsTo t) {v : Value} (hv : s.lookup? e x = some v) :
    ∃ w, t.lookup? e x = some w := by
  obtain ⟨d, hd, hbound⟩ := lookup?_eq_some_iff.mp hv
  obtain ⟨d', hd', hlt, hor⟩ := h.holder?_eq_some hd
  obtain ⟨b, hb⟩ := declares_iff.mp (declares_of_holder? hd')
  cases b with
  | bound w => exact ⟨w, lookup?_eq_some_iff.mpr ⟨d', hd', hb⟩⟩
  | absent =>
      have habs := h.absent d' x hlt hb
      -- what is absent now was so before: not in the old holder, and a new one had no such name
      rcases hor with rfl | hno
      · rw [hbound] at habs
        cases habs
      · rw [declares_iff.mpr ⟨_, habs⟩] at hno
        cases hno

end GrowsTo

/-- What is stored in the holder of a name is what is seen from then on. -/
theorem lookup?_define_of_holder? {v : Value} (h : s.holder? e x = some d) :
    (s.define d x v).lookup? e x = some v :=
  lookup?_bind_of_inView (holder?_eq_some_iff.mp h).inView

end Scopes

/-! ## The evaluator lets scopes grow -/

/-- The scopes of the one machine grew to those of the other. -/
def ScopesGrow (m m' : Machine) : Prop := m.scopes.GrowsTo m'.scopes

instance : IsPreorder Machine ScopesGrow where
  refl m := .refl m.scopes
  trans _ _ _ h h' := Scopes.GrowsTo.trans h h'

namespace Eval

variable {c : Context}

theorem keeps_growth_define (x : Name) (v : Value) (scope : ScopeId) :
    Keeps (.keeping ScopesGrow) ScopesGrow (define x v scope) :=
  fun m => m.scopes.growsTo_define scope x v

theorem keeps_growth_store (x : Name) (v : Value) (scope : ScopeId) :
    Keeps (.keeping ScopesGrow) ScopesGrow (store c x v scope) := by
  intro m
  unfold store
  split
  · next scopes hs =>
      obtain ⟨d, -, rfl⟩ := Scopes.assign?_eq_some_iff.mp hs
      exact m.scopes.growsTo_define d x v
  · exact Scopes.GrowsTo.refl _

/-- The scope of a call is a new one. -/
theorem argumentScope_apply {left : Option Value} {right : Value} {scope : ScopeId} {m : Machine} :
    argumentScope left right scope m =
      .finished (.ok ⟨m.scopes.size⟩)
        { m with scopes := m.scopes.withArguments left right scope } := by
  have hnew := Scopes.child_fst (s := m.scopes) scope
  unfold argumentScope Scopes.withArguments
  cases left with
  | none => simp only [hnew, Option.elim_none, Scopes.defineAbsent]
  | some v => simp only [hnew, Option.elim_some, Scopes.define]

/-- The scope of the arguments is new, so that declaring them takes nothing from the others. -/
theorem keeps_growth_argumentScope (left : Option Value) (right : Value) (scope : ScopeId) :
    Keeps (.keeping ScopesGrow) ScopesGrow (argumentScope left right scope) := by
  intro m
  rw [argumentScope_apply]
  exact m.scopes.growsTo_withArguments left right scope

theorem keptIn_growth (scope : ScopeId) : KeptIn c (.keeping ScopesGrow) ScopesGrow scope :=
  keptIn_keeping keeps_growth_define keeps_growth_store scope

/-- Entering and leaving a closure does not touch the scopes. -/
theorem keeps_growth_callClosure (f : Closure) (left : Option Value) (right : Value)
    (scope : ScopeId) :
    Keeps (.keeping ScopesGrow) ScopesGrow (callClosure c f left right scope) := by
  intro ⟨arena, calls, scopes⟩
  have hbody : Keeps (.keeping ScopesGrow) ScopesGrow (runBody c f.body left right scope) :=
    keeps_runBody keptIn_growth (fun l r => keeps_growth_argumentScope l r scope) f.body left right
  show Progress.Meets _ _ _ ((enter f _).bind fun _ m' => _)
  unfold enter
  simp only
  split
  · exact (hbody _).mapEnd (fun _ _ h => h) fun _ _ h => h
  · exact Scopes.GrowsTo.refl _

/-- **Every evaluation lets the scopes grow.** -/
theorem growth_keptBy : (Contract.keeping ScopesGrow).KeptBy c :=
  keeping_keptBy keeps_growth_define keeps_growth_store keeps_growth_callClosure

/-- So does every part of a step. -/
theorem Ends.growsTo {α : Type} {x : Eval α} {m m' : Machine} {r : Except EvalError α}
    (hr : Ends c x m r m') (hx : Keeps (.keeping ScopesGrow) ScopesGrow x) :
    m.scopes.GrowsTo m'.scopes :=
  growth_keptBy.ends_of_meets (hx m) hr

end Eval

end ArrayLang
