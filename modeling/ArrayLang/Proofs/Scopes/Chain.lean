import ArrayLang.Scopes

/-!
# Chains of scopes

What the operations on scopes do is said here through two views of a store: `Scopes.find?`, the
binding of a name in one scope, and `Scopes.chain`, the scopes from one outward.

* `Scopes.find?_bind`, `Scopes.parent?_bind`, `Scopes.find?_child` — one equation for each
  operation.
* `Scopes.chain_eq` — the bound in the definition of a chain is never met, since parents are older.
* `Scopes.holder?_eq_find?_chain`, `Scopes.lookup?_eq_some_iff` — the walks that look for a name
  look through the chain in its order.
* `Scopes.assign?_eq_some_iff` — an assignment binds the name in the first declaring scope.
-/

namespace ArrayLang

/-! ## One scope -/

namespace Scope

/-- Taking out one name leaves the bindings of the others. -/
theorem lookup_filter_ne (x y : Name) (l : List (Name × Binding)) :
    (l.filter fun p => p.1 != x).lookup y = if y = x then none else l.lookup y := by
  induction l with
  | nil => simp
  | cons p l ih =>
      obtain ⟨z, b⟩ := p
      rw [List.filter_cons, List.lookup_cons]
      by_cases hzx : z = x
      · subst hzx
        rw [if_neg (by simp), ih]
        by_cases hyz : y = z
        · rw [if_pos hyz, if_pos hyz]
        · rw [if_neg hyz, if_neg hyz, beq_eq_false_iff_ne.mpr hyz]
      · rw [if_pos (by simpa using hzx), List.lookup_cons, ih]
        by_cases hyz : y = z
        · subst hyz
          simp [hzx]
        · rw [beq_eq_false_iff_ne.mpr hyz]

/-- A declaration replaces the binding of its own name. -/
theorem find?_bind (s : Scope) (x y : Name) (b : Binding) :
    (s.bind x b).find? y = if y = x then some b else s.find? y := by
  show ((x, b) :: s.bindings.filter fun p => p.1 != x).lookup y = _
  rw [List.lookup_cons, lookup_filter_ne]
  by_cases hyx : y = x
  · simp [hyx]
  · have hbeq : (y == x) = false := beq_eq_false_iff_ne.mpr hyx
    simp [hyx, hbeq, find?]

end Scope

namespace Scopes

variable {s : Scopes} {d e : ScopeId} {x y : Name}

/-! ## Operations through `find?` and `parent?` -/

/-- The scopes that are there are those below the number of scopes. -/
theorem get?_eq_none_iff : s.get? e = none ↔ s.size ≤ e.index := Array.getElem?_eq_none_iff

theorem index_lt_of_get? {scope : Scope} (h : s.get? e = some scope) : e.index < s.size :=
  (Array.getElem?_eq_some_iff.mp h).1

theorem find?_eq_none_of_le (h : s.size ≤ e.index) : s.find? e x = none := by
  unfold find?
  rw [get?_eq_none_iff.mpr h]
  rfl

/-- A scope declares the names that it has a binding for. -/
theorem declares_iff : s.declares e x = true ↔ ∃ b, s.find? e x = some b := Option.isSome_iff_exists

theorem index_lt_of_declares (h : s.declares e x = true) : e.index < s.size := by
  obtain ⟨b, hb⟩ := declares_iff.mp h
  obtain ⟨scope, hget, -⟩ := Option.bind_eq_some_iff.mp hb
  exact index_lt_of_get? hget

/-- Parents come before their children, which is why chains end. -/
theorem index_lt_of_parent? {p : ScopeId} (h : s.parent? e = some p) : p.index < e.index := by
  obtain ⟨scope, hget, hp⟩ := Option.bind_eq_some_iff.mp h
  obtain ⟨hlt, hscope⟩ := Array.getElem?_eq_some_iff.mp hget
  exact s.parent_lt e.index hlt p (by rw [hscope]; exact hp)

@[simp] theorem size_bind (b : Binding) : (s.bind e x b).size = s.size := Array.size_modify

theorem get?_bind (b : Binding) :
    (s.bind e x b).get? d =
      if d = e then (s.get? e).map fun scope => scope.bind x b else s.get? d := by
  show (s.all.modify e.index fun scope => scope.bind x b)[d.index]? = _
  rw [Array.getElem?_modify]
  obtain ⟨d⟩ := d
  obtain ⟨e⟩ := e
  by_cases hde : e = d
  · simp [hde, get?]
  · simp [hde, Ne.symm hde, get?]

@[simp] theorem parent?_bind (b : Binding) : (s.bind e x b).parent? d = s.parent? d := by
  unfold parent?
  rw [get?_bind]
  split
  · next hde =>
      subst hde
      cases s.get? d <;> rfl
  · rfl

/-- A declaration is seen where it was made and nowhere else. -/
theorem find?_bind (b : Binding) :
    (s.bind e x b).find? d y =
      if d = e ∧ y = x ∧ e.index < s.size then some b else s.find? d y := by
  unfold find?
  rw [get?_bind]
  by_cases hde : d = e
  · subst hde
    cases hget : s.get? d with
    | none =>
        have hle := get?_eq_none_iff.mp hget
        simp [Nat.not_lt.mpr hle]
    | some scope =>
        simp [Scope.find?_bind, index_lt_of_get? hget]
  · simp [hde]

/-- The new scope stands behind all others. -/
theorem child_fst (p : ScopeId) : (s.child p).1 = ⟨s.size⟩ := by
  unfold child
  split <;> rfl

theorem size_child (p : ScopeId) : (s.child p).2.size = s.size + 1 := by
  unfold child
  split <;> exact Array.size_push _

/-- A new scope changes none of the others. -/
theorem get?_child_of_lt {p : ScopeId} (h : e.index < s.size) :
    (s.child p).2.get? e = s.get? e := by
  have hpush : ∀ scope, (s.all.push scope)[e.index]? = s.all[e.index]? := by
    intro scope
    rw [Array.getElem?_push]
    exact if_neg (Nat.ne_of_lt h)
  unfold child
  split <;> exact hpush _

/-- The new scope declares nothing, and the others stay as they are. -/
theorem find?_child (p : ScopeId) : (s.child p).2.find? e x = s.find? e x := by
  by_cases hlt : e.index < s.size
  · unfold find?
    rw [get?_child_of_lt hlt]
  · rw [find?_eq_none_of_le (Nat.le_of_not_lt hlt)]
    by_cases heq : e.index = s.size
    · have hget : ∃ q, (s.child p).2.get? e = some ⟨[], q⟩ := by
        unfold child get?
        rw [heq]
        split
        · exact ⟨_, Array.getElem?_push_size⟩
        · exact ⟨_, Array.getElem?_push_size⟩
      obtain ⟨q, hq⟩ := hget
      unfold find?
      rw [hq]
      rfl
    · exact find?_eq_none_of_le (by rw [size_child]; omega)

theorem parent?_child_of_lt {p : ScopeId} (h : e.index < s.size) :
    (s.child p).2.parent? e = s.parent? e := by
  unfold parent?
  rw [get?_child_of_lt h]

/-! ## Scopes of closure calls -/

/-- The scopes with a new one behind them, inside of `e`, that declares the arguments of a closure
call. -/
def withArguments (s : Scopes) (left : Option Value) (right : Value) (e : ScopeId) : Scopes :=
  ((s.child e).2.bind ⟨s.size⟩ .leftArgument (left.elim .absent .bound)).define ⟨s.size⟩
    .rightArgument right

theorem size_withArguments (left : Option Value) (right : Value) (e : ScopeId) :
    (s.withArguments left right e).size = s.size + 1 := by
  unfold withArguments define
  rw [size_bind, size_bind, size_child]

/-- The scopes that were there keep their bindings. -/
theorem find?_withArguments_of_lt {left : Option Value} {right : Value} {e : ScopeId}
    (h : d.index < s.size) : (s.withArguments left right e).find? d x = s.find? d x := by
  have hne : d ≠ ⟨s.size⟩ := by
    rintro rfl
    exact Nat.lt_irrefl _ h
  unfold withArguments define
  rw [find?_bind, if_neg (fun h => hne h.1), find?_bind, if_neg (fun h => hne h.1), find?_child]

/-! ## Chains -/

/-- A bound above the position of the scope is never met. -/
theorem chainWithin_succ {bound : Nat} (h : e.index < bound) :
    s.chainWithin (bound + 1) e = s.chainWithin bound e := by
  -- the parent is older, so that a smaller bound does for its chain
  induction bound generalizing e with
  | zero => exact absurd h (Nat.not_lt_zero _)
  | succ bound ih =>
      rw [chainWithin, chainWithin]
      cases hget : s.get? e with
      | none => rfl
      | some scope =>
          cases hp : scope.parent with
          | none => simp [hp]
          | some p =>
              have hlt : p.index < e.index :=
                index_lt_of_parent? (Option.bind_eq_some_iff.mpr ⟨scope, hget, hp⟩)
              simp only [hp]
              rw [ih (by omega)]

/-- The chain is complete once the bound exceeds the scope's number. -/
theorem chainWithin_eq_chain {bound : Nat} (h : e.index < bound) :
    s.chainWithin bound e = s.chain e := by
  obtain ⟨n, rfl⟩ := Nat.exists_eq_add_of_lt h
  clear h
  induction n with
  | zero => rfl
  | succ n ih => exact (chainWithin_succ (by omega)).trans ih

/-- **A chain is a scope and the chain of its parent.** -/
theorem chain_eq (s : Scopes) (e : ScopeId) :
    s.chain e =
      if e.index < s.size then
        e :: match s.parent? e with
          | none => []
          | some p => s.chain p
      else [] := by
  unfold chain
  rw [chainWithin]
  cases hget : s.get? e with
  | none => rw [if_neg (Nat.not_lt.mpr (get?_eq_none_iff.mp hget))]
  | some scope =>
      have hlt : e.index < s.size := index_lt_of_get? hget
      have hparent : s.parent? e = scope.parent := by
        unfold parent?
        rw [hget]
        rfl
      rw [if_pos hlt, hparent]
      cases hp : scope.parent with
      | none => simp [hp]
      | some p =>
          have hlt : p.index < e.index := index_lt_of_parent? (hparent.trans hp)
          simp only [hp]
          rw [chainWithin_eq_chain hlt]
          rfl

/-- All scopes of a chain are there. -/
theorem index_lt_of_mem_chain (h : d ∈ s.chain e) : d.index < s.size := by
  induction hk : e.index using Nat.strongRecOn generalizing e with
  | ind k ih =>
      rw [chain_eq] at h
      split at h
      · next hlt =>
          rcases List.mem_cons.mp h with rfl | h
          · exact hlt
          · cases hp : s.parent? e with
            | none =>
                rw [hp] at h
                cases h
            | some p =>
                rw [hp] at h
                exact ih p.index (hk ▸ index_lt_of_parent? hp) h rfl
      · cases h

/-! ## Looking for a name -/

/-- The holder is the first scope of the chain that declares the name. -/
theorem holderWithin?_eq (bound : Nat) :
    s.holderWithin? x bound e = (s.chainWithin bound e).find? fun d => s.declares d x := by
  induction bound generalizing e with
  | zero => rfl
  | succ bound ih =>
      rw [holderWithin?, chainWithin]
      cases hget : s.get? e with
      | none => rfl
      | some scope =>
          have hdecl : s.declares e x = scope.declares x := by
            unfold declares find? Scope.declares
            rw [hget]
            rfl
          simp only [List.find?_cons, hdecl]
          cases scope.declares x with
          | true => rfl
          | false =>
              cases hp : scope.parent with
              | none => simp
              | some p => simpa using ih

/-- **The holder of a name is the first scope of the chain that declares it.** -/
theorem holder?_eq_find?_chain (s : Scopes) (e : ScopeId) (x : Name) :
    s.holder? e x = (s.chain e).find? fun d => s.declares d x := holderWithin?_eq _

/-- The holder declares the name. -/
theorem declares_of_holder? (h : s.holder? e x = some d) : s.declares d x = true := by
  rw [holder?_eq_find?_chain] at h
  have hd := List.find?_some h
  exact hd

theorem index_lt_of_holder? (h : s.holder? e x = some d) : e.index < s.size := by
  rw [holder?_eq_find?_chain, chain_eq] at h
  split at h
  · assumption
  · cases h

/-- The value of a name is the one that its holder gives it. -/
theorem lookup?_eq_some_iff {v : Value} :
    s.lookup? e x = some v ↔ ∃ d, s.holder? e x = some d ∧ s.find? d x = some (.bound v) := by
  unfold lookup?
  simp only [Option.bind_eq_bind, Option.bind_eq_some_iff]
  constructor
  · rintro ⟨d, hd, b, hb, hv⟩
    cases b with
    | bound w =>
        cases hv
        exact ⟨d, hd, hb⟩
    | absent => cases hv
  · rintro ⟨d, hd, hb⟩
    exact ⟨d, hd, .bound v, hb, rfl⟩

/-- **An assignment gives the value to the name in its holder.** -/
theorem assign?_eq_some_iff {v : Value} {t : Scopes} :
    s.assign? e x v = some t ↔ ∃ d, s.holder? e x = some d ∧ t = s.define d x v := by
  unfold assign?
  rw [Option.map_eq_some_iff]
  exact exists_congr fun d => and_congr_right fun _ => eq_comm

/-! ## One binding -/

/-- Both stores have the same scopes, which declare the same names, and only the binding of `x` in
`e` may be another one. -/
structure DiffersOnlyAt (s t : Scopes) (e : ScopeId) (x : Name) : Prop where
  size_eq : t.size = s.size
  parent?_eq : ∀ d, t.parent? d = s.parent? d
  declares_eq : ∀ d y, t.declares d y = s.declares d y
  find?_eq : ∀ d y, (d, y) ≠ (e, x) → t.find? d y = s.find? d y

/-- A name that is declared already is bound anew, and that is all. -/
theorem differsOnlyAt_define {v : Value} (h : s.declares e x = true) :
    s.DiffersOnlyAt (s.define e x v) e x where
  size_eq := size_bind _
  parent?_eq _ := parent?_bind _
  declares_eq d y := by
    unfold declares define
    rw [find?_bind]
    split
    · next hat =>
        obtain ⟨rfl, rfl, -⟩ := hat
        exact h.symm
    · rfl
  find?_eq d y hne := by
    unfold define
    rw [find?_bind, if_neg]
    rintro ⟨rfl, rfl, -⟩
    exact hne rfl

/-- What was defined is found in its own scope. -/
theorem find?_define_self {v : Value} (h : s.declares e x = true) :
    (s.define e x v).find? e x = some (.bound v) := by
  unfold define
  rw [find?_bind, if_pos ⟨rfl, rfl, index_lt_of_declares h⟩]

end Scopes

end ArrayLang
