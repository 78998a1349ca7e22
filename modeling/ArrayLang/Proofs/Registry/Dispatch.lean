import ArrayLang.Proofs.Domain.Sides
import ArrayLang.Proofs.Registry.Log

/-!
# Dispatch

Primitives and operators find what they run in the same way: the entries of a symbol are tried one
after the other, and the first that accepts the arguments is taken (`firstOf`). What an entry
accepts depends on the entry and the arguments alone, so entries that come later never take anything
away from those that are there.

`Registry.dispatch_first_match` puts this together for a registry and the log of its registrations.
-/

namespace ArrayLang

/-! ## The first entry that accepts -/

section First

variable {α α' β γ : Type} {accept : α → Option β} {l : List α} {a : α} {b : β}
  {unknown noMatch : EvalError}

/-- `a` is the first of the list that is accepted, and `b` what it is accepted as. -/
def FirstAccepted (accept : α → Option β) (l : List α) (a : α) (b : β) : Prop :=
  ∃ before after, l = before ++ a :: after ∧ accept a = some b ∧ ∀ x ∈ before, accept x = none

/-- The search stops at the first one that accepts. -/
theorem findSome?_eq_some_iff_firstAccepted :
    l.findSome? accept = some b ↔ ∃ a, FirstAccepted accept l a b := by
  rw [List.findSome?_eq_some_iff]
  constructor
  · rintro ⟨before, a, after, h⟩
    exact ⟨a, before, after, h⟩
  · rintro ⟨a, before, after, h⟩
    exact ⟨before, a, after, h⟩

/-- What comes later is not reached. -/
theorem FirstAccepted.append (h : FirstAccepted accept l a b) (later : List α) :
    FirstAccepted accept (l ++ later) a b := by
  obtain ⟨before, after, rfl, hab, hnone⟩ := h
  exact ⟨before, after ++ later, by simp, hab, hnone⟩

theorem map_eq_map_of_map_eq {δ : Type} {l' : List α'} {g : α → γ} {g' : α' → γ} {f : α → δ}
    {f' : α' → δ} (hmap : l.map g = l'.map g') (hf : ∀ x x', g x = g' x' → f x = f' x') :
    l.map f = l'.map f' := by
  induction l generalizing l' with
  | nil =>
      rw [List.map_nil, eq_comm, List.map_eq_nil_iff] at hmap
      rw [hmap, List.map_nil, List.map_nil]
  | cons x l ih =>
      rw [List.map_cons] at hmap
      obtain ⟨x', l'', rfl, hx, hl⟩ := List.map_eq_cons_iff.mp hmap.symm
      rw [List.map_cons, List.map_cons, hf x x' hx.symm, ih hl.symm]

/-- The entries may be looked at in another way, as long as the same ones are accepted. -/
theorem FirstAccepted.of_map_eq {accept' : α' → Option β} {l' : List α'} {g : α → γ} {g' : α' → γ}
    (h : FirstAccepted accept l a b) (hmap : l.map g = l'.map g')
    (haccept : ∀ x x', g x = g' x' → accept' x' = accept x) :
    ∃ a', g a = g' a' ∧ FirstAccepted accept' l' a' b := by
  obtain ⟨before, after, rfl, hab, hnone⟩ := h
  rw [List.map_append, List.map_cons] at hmap
  -- the second list splits where the first one does
  obtain ⟨before', rest, rfl, hbefore, hrest⟩ := List.map_eq_append_iff.mp hmap.symm
  obtain ⟨a', after', rfl, ha, -⟩ := List.map_eq_cons_iff.mp hrest
  refine ⟨a', ha.symm, before', after', rfl, (haccept a a' ha.symm).trans hab, ?_⟩
  intro x' hx'
  have hmem := List.mem_map_of_mem (f := g') hx'
  rw [hbefore] at hmem
  obtain ⟨x, hx, hxx'⟩ := List.mem_map.mp hmem
  exact (haccept x x' hxx').trans (hnone x hx)

/-- The way in which the entries of a symbol are tried, if it has any. -/
def firstOf (entries : Option (List α)) (accept : α → Option β) (unknown noMatch : EvalError) :
    Except EvalError β :=
  match entries with
  | none => .error unknown
  | some l =>
    match l.findSome? accept with
    | some b => .ok b
    | none => .error noMatch

variable {entries : Option (List α)}

/-- The scan over a symbol's list gives what the first accepting entry makes. -/
theorem firstOf_eq_ok_iff :
    firstOf entries accept unknown noMatch = .ok b ↔
      ∃ a, FirstAccepted accept (entries.getD []) a b := by
  rw [← findSome?_eq_some_iff_firstAccepted]
  unfold firstOf
  cases entries with
  | none => simp
  | some l => cases h : l.findSome? accept <;> simp [h]

/-- The symbol is unknown if it has no list. -/
theorem firstOf_eq_unknown_iff (hne : unknown ≠ noMatch) :
    firstOf entries accept unknown noMatch = .error unknown ↔ entries = none := by
  unfold firstOf
  cases entries with
  | none => simp
  | some l => cases h : l.findSome? accept <;> simp [h, hne.symm]

/-- A symbol has no match if all entries of its list refuse. -/
theorem firstOf_eq_noMatch_iff (hne : unknown ≠ noMatch) :
    firstOf entries accept unknown noMatch = .error noMatch ↔
      entries ≠ none ∧ ∀ a ∈ entries.getD [], accept a = none := by
  rw [← List.findSome?_eq_none_iff]
  unfold firstOf
  cases entries with
  | none => simp [hne]
  | some l => cases h : l.findSome? accept <;> simp [h]

end First

/-! ## Pairs and operands -/

namespace PairDomain

/-- What becomes of operands that are as many as the arity says, and of no others. A single operand
is the right side of the pair. -/
def convertOperands? (tower : Tower) (d : PairDomain) (arity : Arity) (left : Value)
    (right : Option Value) : Option (Option Value × Value) :=
  match arity, right with
  | .monadic, none => d.convert? tower none left
  | .dyadic, some right => d.convert? tower (some left) right
  | .monadic, some _ | .dyadic, none => none

end PairDomain

/-- The pair that stands for one operand or two. -/
def operandPair (left : Value) : Option Value → Option Value × Value
  | none => (none, left)
  | some right => (some left, right)

/-- Operands and arguments are the same pairs, with the other side optional. -/
theorem exists_operandPair_eq (p : Option Value × Value) :
    ∃ left right, operandPair left right = p := by
  obtain ⟨l, r⟩ := p
  cases l with
  | none => exact ⟨r, none, rfl⟩
  | some l => exact ⟨l, some r, rfl⟩

/-- A definition makes a function of the operands as its domain converts them. -/
theorem OperatorDefinition.derive?_eq_some_iff {tower : Tower} {d : OperatorDefinition}
    {symbol : Name} {left : Value} {right : Option Value} {f : Derived} :
    d.derive? tower symbol left right = some f ↔
      d.domain.convertOperands? tower d.arity left right = some (operandPair f.left f.right) ∧
        f.operator = symbol ∧ f.body = d.body := by
  obtain ⟨arity, domain, body⟩ := d
  obtain ⟨operator, body', l, r⟩ := f
  unfold derive? PairDomain.convertOperands?
  cases arity <;> cases right <;> simp only [reduceCtorEq, false_and]
  -- one operand, which a definition with one takes
  · cases hc : domain.convert? tower none left with
    | none => simp
    | some p =>
        obtain ⟨l', r'⟩ := p
        have hnone := PairDomain.isSome_of_convert? hc
        cases l' with
        | some _ => cases hnone
        | none => cases r <;> grind [operandPair]
  -- two operands
  · next right =>
      cases hc : domain.convert? tower (some left) right with
      | none => simp
      | some p =>
          obtain ⟨l', r'⟩ := p
          have hsome := PairDomain.isSome_of_convert? hc
          cases l' with
          | none => cases hsome
          | some _ => cases r <;> grind [operandPair]

/-- A definition refuses operands that its domain does not convert. -/
theorem OperatorDefinition.derive?_eq_none_iff {tower : Tower} {d : OperatorDefinition}
    {symbol : Name} {left : Value} {right : Option Value} :
    d.derive? tower symbol left right = none ↔
      d.domain.convertOperands? tower d.arity left right = none := by
  constructor
  · intro h
    cases hc : d.domain.convertOperands? tower d.arity left right with
    | none => rfl
    | some p =>
        obtain ⟨l, r, rfl⟩ := exists_operandPair_eq p
        have hf := derive?_eq_some_iff (f := ⟨symbol, d.body, l, r⟩) |>.mpr ⟨hc, rfl, rfl⟩
        rw [h] at hf
        cases hf
  · intro h
    cases hf : d.derive? tower symbol left right with
    | none => rfl
    | some f =>
        rw [(derive?_eq_some_iff.mp hf).1] at h
        cases h

namespace Registry

variable {r : Registry} {tower : Tower} {symbol : Name} {log : List Registration}

/-! ## Handlers -/

/-- Dispatch is the scan over the handlers of a symbol. -/
theorem resolve_eq_firstOf (r : Registry) (tower : Tower) (symbol : Name) (left : Option Value)
    (right : Value) :
    r.resolve tower symbol left right =
      firstOf (r.primitives.find? symbol) (fun h => h.dispatch? tower left right)
        (.of (.unknownPrimitive (r.names.lookup symbol)))
        (.of (.noMatchingDomain (r.names.lookup symbol) (left.map Value.kind) right.kind
          ((r.handlersOf symbol).map fun h => h.domain.text))) := by
  unfold resolve firstOf handlersOf
  cases r.primitives.find? symbol with
  | none => rfl
  | some handlers =>
      simp only
      cases handlers.findSome? fun h => h.dispatch? tower left right <;> rfl

/-- A symbol resolves to the first of the handlers that accepts the arguments, with the arguments as
its domain converts them. -/
structure ResolvesBy (r : Registry) (tower : Tower) (symbol : Name)
    (handlers : List PrimitiveHandler) : Prop where
  ok : ∀ left right d, r.resolve tower symbol left right = .ok d ↔
    ∃ h, FirstAccepted (fun h => h.domain.convert? tower left right) handlers h (d.left, d.right) ∧
      d.body = h.body
  unknown : ∀ left right, r.resolve tower symbol left right =
    .error (.of (.unknownPrimitive (r.names.lookup symbol))) ↔ handlers = []
  noMatch : ∀ left right, r.resolve tower symbol left right =
    .error (.of (.noMatchingDomain (r.names.lookup symbol) (left.map Value.kind) right.kind
      (handlers.map fun h => h.domain.text))) ↔
    handlers ≠ [] ∧ ∀ h ∈ handlers, h.domain.convert? tower left right = none

/-- A handler is chosen by its domain alone. -/
theorem dispatch?_eq_some_iff {h : PrimitiveHandler} {left : Option Value} {right : Value}
    {d : Dispatch} :
    h.dispatch? tower left right = some d ↔
      h.domain.convert? tower left right = some (d.left, d.right) ∧ d.body = h.body := by
  obtain ⟨body, l, r⟩ := d
  unfold PrimitiveHandler.dispatch?
  cases h.domain.convert? tower left right with
  | none => simp
  | some p =>
      obtain ⟨l', r'⟩ := p
      simp [and_comm, and_assoc, eq_comm]

theorem dispatch?_eq_none_iff {h : PrimitiveHandler} {left : Option Value} {right : Value} :
    h.dispatch? tower left right = none ↔ h.domain.convert? tower left right = none :=
  Option.map_eq_none_iff

theorem resolve_eq_ok_iff {left : Option Value} {right : Value} {d : Dispatch} :
    r.resolve tower symbol left right = .ok d ↔
      ∃ h, FirstAccepted (fun h => h.domain.convert? tower left right) (r.handlersOf symbol) h
          (d.left, d.right) ∧
        d.body = h.body := by
  rw [resolve_eq_firstOf, firstOf_eq_ok_iff]
  refine exists_congr fun h => ?_
  unfold FirstAccepted handlersOf
  simp only [dispatch?_eq_some_iff, dispatch?_eq_none_iff]
  grind

/-- The first handler is tried first. -/
theorem resolve_of_head {handler : PrimitiveHandler} {handlers : List PrimitiveHandler}
    {left : Option Value} {right : Value} {d : Dispatch}
    (h : r.handlersOf symbol = handler :: handlers)
    (hd : handler.dispatch? tower left right = some d) :
    r.resolve tower symbol left right = .ok d := by
  obtain ⟨hconvert, hbody⟩ := dispatch?_eq_some_iff.mp hd
  exact resolve_eq_ok_iff.mpr ⟨handler, ⟨[], handlers, h, hconvert, nofun⟩, hbody⟩

/-- **Dispatch goes by the handlers of the symbol**, in the order of the list. -/
theorem resolvesBy_handlersOf (h : r.primitives.Filled) (tower : Tower) (symbol : Name) :
    r.ResolvesBy tower symbol (r.handlersOf symbol) where
  ok left right d := resolve_eq_ok_iff
  unknown left right := by
    rw [resolve_eq_firstOf, firstOf_eq_unknown_iff (by simp [EvalError.of]), h.find?_eq_none_iff]
    rfl
  noMatch left right := by
    rw [resolve_eq_firstOf, firstOf_eq_noMatch_iff (by simp [EvalError.of]), ne_eq,
      h.find?_eq_none_iff]
    simp only [dispatch?_eq_none_iff]
    rfl

/-! ## Definitions -/

/-- Deriving is the same scan, over the definitions of an operator. -/
theorem derive_eq_firstOf (r : Registry) (tower : Tower) (symbol : Name) (left : Value)
    (right : Option Value) :
    r.derive tower symbol left right =
      firstOf (r.operators.find? symbol) (fun d => d.derive? tower symbol left right)
        (.of (.unknownOperator (r.names.lookup symbol)))
        (.of (.noMatchingDomain (r.names.lookup symbol)
          ((operandPair left right).1.map Value.kind) (operandPair left right).2.kind
          ((r.definitionsOf symbol).map fun d => d.domain.text))) := by
  unfold derive firstOf definitionsOf
  cases r.operators.find? symbol with
  | none => rfl
  | some definitions =>
      simp only
      cases definitions.findSome? fun d => d.derive? tower symbol left right <;>
        cases right <;> rfl

/-- An operator makes a function by the first of the definitions that accepts the operands. The
function has the operands as the domain converts them, and the body of the definition. -/
structure DerivesBy (r : Registry) (tower : Tower) (symbol : Name)
    (definitions : List OperatorEntry) : Prop where
  of_ok : ∀ left right f, r.derive tower symbol left right = .ok f →
    ∃ o, FirstAccepted (fun o => o.domain.convertOperands? tower o.arity left right) definitions o
        (operandPair f.left f.right) ∧
      f.operator = symbol ∧ r.body? f.body = some o.body
  ok : ∀ left right o p,
    FirstAccepted (fun o => o.domain.convertOperands? tower o.arity left right) definitions o p →
    ∃ f, r.derive tower symbol left right = .ok f ∧ operandPair f.left f.right = p
  unknown : ∀ left right, r.derive tower symbol left right =
    .error (.of (.unknownOperator (r.names.lookup symbol))) ↔ definitions = []
  noMatch : ∀ left right, r.derive tower symbol left right =
    .error (.of (.noMatchingDomain (r.names.lookup symbol)
      ((operandPair left right).1.map Value.kind) (operandPair left right).2.kind
      (definitions.map fun o => o.domain.text))) ↔
    definitions ≠ [] ∧ ∀ o ∈ definitions, o.domain.convertOperands? tower o.arity left right = none

theorem derive_eq_ok_iff {left : Value} {right : Option Value} {f : Derived} :
    r.derive tower symbol left right = .ok f ↔
      ∃ d, FirstAccepted (fun d => d.domain.convertOperands? tower d.arity left right)
          (r.definitionsOf symbol) d (operandPair f.left f.right) ∧
        f.operator = symbol ∧ f.body = d.body := by
  rw [derive_eq_firstOf, firstOf_eq_ok_iff]
  refine exists_congr fun d => ?_
  unfold FirstAccepted definitionsOf
  simp only [OperatorDefinition.derive?_eq_some_iff, OperatorDefinition.derive?_eq_none_iff]
  grind

/-- A definition together with its body is the entry that was registered. -/
theorem eq_of_withBody?_eq_some {d : OperatorDefinition} {o : OperatorEntry}
    (h : r.withBody? d = some o) :
    d.arity = o.arity ∧ d.domain = o.domain ∧ r.body? d.body = some o.body := by
  obtain ⟨body, hbody, rfl⟩ := Option.map_eq_some_iff.mp h
  exact ⟨rfl, rfl, hbody⟩

/-- The definitions may be given together with their bodies. -/
theorem derivesBy_of_map (hfilled : r.operators.Filled) {definitions : List OperatorEntry}
    (h : (r.definitionsOf symbol).map r.withBody? = definitions.map some) :
    r.DerivesBy tower symbol definitions := by
  -- a definition refers to its body by handle, the logged entry holds it; arity and domain are the
  -- same
  have hparts : ∀ d o, r.withBody? d = some o → ∀ left right,
      o.domain.convertOperands? tower o.arity left right =
        d.domain.convertOperands? tower d.arity left right := by
    intro d o hd left right
    obtain ⟨harity, hdomain, -⟩ := eq_of_withBody?_eq_some hd
    rw [harity, hdomain]
  have htexts : (r.definitionsOf symbol).map (fun d => d.domain.text) =
      definitions.map fun o => o.domain.text := by
    refine map_eq_map_of_map_eq h fun d o hd => ?_
    rw [(eq_of_withBody?_eq_some hd).2.1]
  have hempty : r.operators.find? symbol = none ↔ definitions = [] := by
    rw [hfilled.find?_eq_none_iff, ← definitionsOf, ← List.map_eq_nil_iff (f := r.withBody?), h,
      List.map_eq_nil_iff]
  -- both lists refuse the same operands
  have hnone : ∀ left right,
      (∀ d ∈ r.definitionsOf symbol, d.derive? tower symbol left right = none) ↔
        ∀ o ∈ definitions, o.domain.convertOperands? tower o.arity left right = none := by
    intro left right
    have hmap := map_eq_map_of_map_eq h fun d o hd => (hparts d o hd left right).symm
    simp only [OperatorDefinition.derive?_eq_none_iff]
    have hall := List.forall_mem_map (l := r.definitionsOf symbol) (P := fun y => y = none)
      (f := fun d => d.domain.convertOperands? tower d.arity left right)
    rw [hmap, List.forall_mem_map] at hall
    exact hall.symm
  refine ⟨fun left right f hf => ?_, fun left right o p hp => ?_, fun left right => ?_,
    fun left right => ?_⟩
  · obtain ⟨d, hd, hoperator, hbody⟩ := derive_eq_ok_iff.mp hf
    obtain ⟨o, ho, hfirst⟩ := hd.of_map_eq h fun d o hdo => hparts d o hdo left right
    obtain ⟨-, -, hbody'⟩ := eq_of_withBody?_eq_some ho
    exact ⟨o, hfirst, hoperator, by rw [hbody, hbody']⟩
  · obtain ⟨d, ho, hfirst⟩ :=
      hp.of_map_eq h.symm fun o d hdo => (hparts d o hdo.symm left right).symm
    obtain ⟨l, r', rfl⟩ := exists_operandPair_eq p
    exact ⟨⟨symbol, d.body, l, r'⟩, derive_eq_ok_iff.mpr ⟨d, hfirst, rfl, rfl⟩, rfl⟩
  · rw [derive_eq_firstOf, firstOf_eq_unknown_iff (by simp [EvalError.of]), hempty]
  · rw [derive_eq_firstOf, ← htexts, firstOf_eq_noMatch_iff (by simp [EvalError.of]),
      ← definitionsOf, hnone, Ne, hempty]

/-! ## Later registrations -/

section Later

variable {x : Registration} {later : List Registration}

theorem resolve_add_of_ok {left : Option Value} {right : Value} {d : Dispatch}
    (h : r.resolve tower symbol left right = .ok d) :
    (r.add x).resolve tower symbol left right = .ok d := by
  obtain ⟨handler, hfirst, hbody⟩ := resolve_eq_ok_iff.mp h
  refine resolve_eq_ok_iff.mpr ⟨handler, ?_, hbody⟩
  rw [handlersOf_add]
  exact hfirst.append _

theorem derive_add_of_ok {left : Value} {right : Option Value} {f : Derived}
    (h : r.derive tower symbol left right = .ok f) :
    (r.add x).derive tower symbol left right = .ok f := by
  obtain ⟨d, hfirst, hf⟩ := derive_eq_ok_iff.mp h
  refine derive_eq_ok_iff.mpr ⟨d, ?_, hf⟩
  rw [definitionsOf_add]
  exact hfirst.append _

/-- A registration for another symbol changes neither the entries of this one nor its text. -/
theorem resolve_add_of_ne (h : (r.add x).names.get? x.symbol ≠ some symbol) (left : Option Value)
    (right : Value) :
    (r.add x).resolve tower symbol left right = r.resolve tower symbol left right := by
  unfold resolve
  rw [(find?_add_of_ne h).1, lookup_add h]

/-- A registration does not change what is derived from other operators. -/
theorem derive_add_of_ne (h : (r.add x).names.get? x.symbol ≠ some symbol) (left : Value)
    (right : Option Value) :
    (r.add x).derive tower symbol left right = r.derive tower symbol left right := by
  unfold derive
  rw [(find?_add_of_ne h).2, lookup_add h]

theorem resolve_addAll_of_ok {left : Option Value} {right : Value} {d : Dispatch}
    (h : r.resolve tower symbol left right = .ok d) :
    (r.addAll later).resolve tower symbol left right = .ok d := by
  induction later generalizing r with
  | nil => exact h
  | cons x later ih => exact ih (resolve_add_of_ok h)

theorem derive_addAll_of_ok {left : Value} {right : Option Value} {f : Derived}
    (h : r.derive tower symbol left right = .ok f) :
    (r.addAll later).derive tower symbol left right = .ok f := by
  induction later generalizing r with
  | nil => exact h
  | cons x later ih => exact ih (derive_add_of_ok h)

/-- Symbols that are not registered again keep all their outcomes, errors included. -/
theorem outcomes_addAll_of_ne
    (h : ∀ x ∈ later, (r.addAll later).names.get? x.symbol ≠ some symbol) :
    (∀ left right,
      (r.addAll later).resolve tower symbol left right = r.resolve tower symbol left right) ∧
    ∀ left right,
      (r.addAll later).derive tower symbol left right = r.derive tower symbol left right := by
  induction later generalizing r with
  | nil => exact ⟨fun _ _ => rfl, fun _ _ => rfl⟩
  | cons x later ih =>
      -- the names given until now are kept by the registrations after them
      have hx : (r.add x).names.get? x.symbol ≠ some symbol := by
        intro hsymbol
        have hlater : ((r.add x).addAll later).names.get? x.symbol = some symbol :=
          get?_addAll_of_some hsymbol
        exact h x List.mem_cons_self hlater
      obtain ⟨hresolve, hderive⟩ := ih fun y hy => h y (List.mem_cons_of_mem x hy)
      constructor
      · intro left right
        exact (hresolve left right).trans (resolve_add_of_ne hx left right)
      · intro left right
        exact (hderive left right).trans (derive_add_of_ne hx left right)

end Later

/-! ## Registries -/

/-- **Dispatch takes the first match in the order of registration**, for primitives and operators
alike, and what was registered later does not change it: what a symbol resolved to or derived once
it does ever after, and a symbol that is not registered for again keeps its errors as well. -/
theorem dispatch_first_match (t : Interner) (log later : List Registration) (tower : Tower)
    (symbol : Name) :
    let r := (empty t).addAll log
    let r' := (empty t).addAll (log ++ later)
    r.ResolvesBy tower symbol (log.filterMap (·.handler? r.names symbol)) ∧
    r.DerivesBy tower symbol (log.filterMap (·.operator? r.names symbol)) ∧
    (∀ left right d, r.resolve tower symbol left right = .ok d →
      r'.resolve tower symbol left right = .ok d) ∧
    (∀ left right f, r.derive tower symbol left right = .ok f →
      r'.derive tower symbol left right = .ok f ∧ r'.body? f.body = r.body? f.body) ∧
    ((∀ x ∈ later, r'.names.get? x.symbol ≠ some symbol) →
      (∀ left right, r'.resolve tower symbol left right = r.resolve tower symbol left right) ∧
      ∀ left right, r'.derive tower symbol left right = r.derive tower symbol left right) := by
  intro r r'
  have hr' : r' = r.addAll later := addAll_append (empty t) log later
  have hfollows : r.Follows log := follows_addAll t log
  have hderives : r.DerivesBy tower symbol (log.filterMap (·.operator? r.names symbol)) :=
    derivesBy_of_map hfollows.filled.2 (hfollows.definitionsOf_map symbol)
  rw [hr']
  refine ⟨?_, hderives, fun left right d => resolve_addAll_of_ok, fun left right f hf => ?_,
    outcomes_addAll_of_ne⟩
  · rw [← hfollows.handlersOf_eq]
    exact resolvesBy_handlersOf hfollows.filled.1 tower symbol
  · obtain ⟨o, -, -, hbody⟩ := hderives.of_ok left right f hf
    exact ⟨derive_addAll_of_ok hf, (body?_addAll_of_some hbody).trans hbody.symm⟩

def echo : PrimitiveBody := fun _ _ right => pure right

def echoOperand : OperatorBody := fun _ left _ _ _ => pure left

/-- A primitive `f` that takes numbers and texts by different handlers, and an operator of the same
name. -/
def sampleLog : List Registration :=
  [⟨"f", .primitive (.monadic (some (.leaf .isNumber none))) echo⟩,
    ⟨"f", .operator .monadic (.monadic none) echoOperand⟩,
    ⟨"f", .primitive (.monadic (some (.leaf .toStringArray none))) echo⟩]

/-- A handler and a definition of the same symbol that would take everything. -/
def sampleLater : List Registration :=
  [⟨"f", .primitive (.both none) echo⟩, ⟨"f", .operator .monadic (.both none) echoOperand⟩]

/-- A text is converted for the second handler, before the later registrations and after them, and
the operator goes on to make the same function of it. -/
theorem dispatch_first_match_sample :
    let r := (empty .initial).addAll sampleLog
    let r' := (empty .initial).addAll (sampleLog ++ sampleLater)
    ∃ symbol, r.names.get? "f" = some symbol ∧
      (∃ d, r.resolve .standard symbol none (.text "x") = .ok d ∧
        d.right = .strings (.vector ["x"]) ∧
        r'.resolve .standard symbol none (.text "x") = .ok d) ∧
      (∃ f, r.derive .standard symbol (.text "x") none = .ok f ∧
        r'.derive .standard symbol (.text "x") none = .ok f) ∧
      ∀ other, other ≠ symbol →
        r'.resolve .standard other none (.text "x") =
          r.resolve .standard other none (.text "x") := by
  intro r r'
  have hnamed : ∃ symbol, r.names.get? "f" = some symbol :=
    (follows_addAll .initial sampleLog).named _ List.mem_cons_self
  obtain ⟨symbol, hsymbol⟩ := hnamed
  have hsymbol' : r'.names.get? "f" = some symbol := by
    rw [show r' = r.addAll sampleLater from addAll_append _ _ _]
    exact get?_addAll_of_some hsymbol
  obtain ⟨hresolves, hderives, hresolve, hderive, -⟩ :=
    dispatch_first_match .initial sampleLog sampleLater .standard symbol
  have hhandlers : sampleLog.filterMap (·.handler? r.names symbol) =
      [⟨.monadic (some (.leaf .isNumber none)), echo⟩,
        ⟨.monadic (some (.leaf .toStringArray none)), echo⟩] := by
    simp [sampleLog, Registration.handler?, hsymbol]
  have hoperators : sampleLog.filterMap (·.operator? r.names symbol) =
      [⟨.monadic, .monadic none, echoOperand⟩] := by
    simp [sampleLog, Registration.operator?, hsymbol]
  rw [hhandlers] at hresolves
  rw [hoperators] at hderives
  have hd : ∃ d, r.resolve .standard symbol none (.text "x") = .ok d ∧
      d.right = .strings (.vector ["x"]) := by
    refine ⟨⟨echo, none, _⟩, (hresolves.ok _ _ _).mpr ⟨_, ⟨[_], [], rfl, rfl, ?_⟩, rfl⟩, rfl⟩
    -- the first handler takes numbers only
    intro h hh
    cases List.mem_singleton.mp hh
    rfl
  have hf : ∃ f, r.derive .standard symbol (.text "x") none = .ok f := by
    obtain ⟨f, hf, -⟩ := hderives.ok (.text "x") none _ _
      ⟨[], [], rfl, rfl, fun _ h => absurd h List.not_mem_nil⟩
    exact ⟨f, hf⟩
  obtain ⟨d, hd, hright⟩ := hd
  obtain ⟨f, hf⟩ := hf
  refine ⟨symbol, hsymbol, ⟨d, hd, hright, hresolve _ _ d hd⟩, ⟨f, hf, (hderive _ _ f hf).1⟩, ?_⟩
  intro other hother
  obtain ⟨-, -, -, -, hothers⟩ :=
    dispatch_first_match .initial sampleLog sampleLater .standard other
  refine (hothers fun x hx => ?_).1 none (.text "x")
  have hx : x.symbol = "f" := by
    rcases List.mem_cons.mp hx with rfl | hx
    · rfl
    · cases List.mem_singleton.mp hx
      rfl
  rw [hx, hsymbol']
  exact fun h => hother (Option.some.inj h).symm

end Registry

end ArrayLang
