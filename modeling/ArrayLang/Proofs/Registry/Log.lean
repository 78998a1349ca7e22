import ArrayLang.Proofs.Registry.Interning
import ArrayLang.Registry.Basic

/-!
# Logs of registrations

A registry is what its registrations have made of it, one after the other. `Registry.Follows r log`
says that `r` has the handlers and definitions of every symbol in the order of a log of
registrations, and `Registry.follows_addAll` that this is so from the empty registry on, whatever
table of names it was begun with and whoever else adds names to it.
-/

namespace ArrayLang

/-- What a registration puts under its symbol. -/
inductive Entry where
  | primitive (domain : PairDomain) (body : PrimitiveBody)
  | operator (arity : Arity) (domain : PairDomain) (body : OperatorBody)
  /-- Nothing: someone who shares the table of names has a use for the text. -/
  | name

structure Registration where
  symbol : String
  entry : Entry

/-- A definition of an operator, with the body itself in it. -/
structure OperatorEntry where
  arity : Arity
  domain : PairDomain
  body : OperatorBody

namespace Registration

/-- The handler that a registration gives to a symbol, if it is one of a primitive with that
name. -/
def handler? (t : Interner) (symbol : Name) (x : Registration) : Option PrimitiveHandler :=
  match x.entry with
  | .primitive domain body =>
    if t.get? x.symbol = some symbol then some ⟨domain, body⟩ else none
  | .operator .. | .name => none

/-- As `handler?`, for operators. -/
def operator? (t : Interner) (symbol : Name) (x : Registration) : Option OperatorEntry :=
  match x.entry with
  | .operator arity domain body =>
    if t.get? x.symbol = some symbol then some ⟨arity, domain, body⟩ else none
  | .primitive .. | .name => none

variable {t t' : Interner} {symbol : Name} {x : Registration}

theorem handler?_congr (h : t'.get? x.symbol = t.get? x.symbol) :
    x.handler? t' symbol = x.handler? t symbol := by
  unfold handler?
  rw [h]

theorem operator?_congr (h : t'.get? x.symbol = t.get? x.symbol) :
    x.operator? t' symbol = x.operator? t symbol := by
  unfold operator?
  rw [h]

/-- A registration gives a handler to its own symbol alone. -/
theorem handler?_eq_none (h : t.get? x.symbol ≠ some symbol) : x.handler? t symbol = none := by
  unfold handler?
  split
  · exact if_neg h
  · rfl
  · rfl

theorem operator?_eq_none (h : t.get? x.symbol ≠ some symbol) : x.operator? t symbol = none := by
  unfold operator?
  split
  · exact if_neg h
  · rfl
  · rfl

/-- A handler has the domain and the body that were registered with its symbol. -/
theorem entry_of_handler? {h : PrimitiveHandler} (hx : x.handler? t symbol = some h) :
    t.get? x.symbol = some symbol ∧ x.entry = .primitive h.domain h.body := by
  unfold handler? at hx
  split at hx
  · next domain body hentry =>
      obtain ⟨hsymbol, hh⟩ := Option.ite_none_right_eq_some.mp hx
      cases hh
      exact ⟨hsymbol, hentry⟩
  · cases hx
  · cases hx

end Registration

namespace Registry

def add (r : Registry) (x : Registration) : Registry :=
  match x.entry with
  | .primitive domain body => (r.registerPrimitive x.symbol domain body).2
  | .operator arity domain body => (r.registerOperator x.symbol arity domain body).2
  | .name => (r.intern x.symbol).2

def addAll (r : Registry) (log : List Registration) : Registry := log.foldl add r

/-- A definition with its body, if the body is there. -/
def withBody? (r : Registry) (d : OperatorDefinition) : Option OperatorEntry :=
  (r.body? d.body).map fun body => ⟨d.arity, d.domain, body⟩

variable {r : Registry} {x : Registration} {symbol : Name} {s : String} {n : Name} {b : BodyId}
  {body : OperatorBody} {d : OperatorDefinition} {o : OperatorEntry}

/-! ## One registration -/

theorem names_add (r : Registry) (x : Registration) :
    (r.add x).names = (r.names.intern x.symbol).2 := by
  unfold add
  split <;> rfl

/-- A text keeps its name. -/
theorem get?_add_of_some (h : r.names.get? s = some n) : (r.add x).names.get? s = some n := by
  rw [names_add]
  exact Interner.get?_intern_of_some h

/-- A registered symbol has a name. -/
theorem get?_add_self (r : Registry) (x : Registration) :
    (r.add x).names.get? x.symbol = some (r.names.intern x.symbol).1 := by
  rw [names_add]
  exact Interner.get?_intern_self r.names x.symbol

/-- Names of other symbols read as they did. -/
theorem lookup_add (h : (r.add x).names.get? x.symbol ≠ some symbol) :
    (r.add x).names.lookup symbol = r.names.lookup symbol := by
  rw [names_add] at h ⊢
  exact Interner.lookup_intern h

/-- A handler goes behind those that its symbol has already. -/
theorem handlersOf_add (r : Registry) (x : Registration) (symbol : Name) :
    (r.add x).handlersOf symbol =
      r.handlersOf symbol ++ (x.handler? (r.add x).names symbol).toList := by
  have hname := get?_add_self r x
  obtain ⟨s, entry⟩ := x
  cases entry with
  | primitive domain body =>
      show ((r.primitives.append (r.names.intern s).1 ⟨domain, body⟩).find? symbol).getD [] = _
      rw [Dictionary.getD_find?_append, Registration.handler?, hname, handlersOf]
      by_cases hs : symbol = (r.names.intern s).1
      · simp [hs]
      · simp [hs, Ne.symm hs]
  | operator | name => exact (List.append_nil _).symm

/-- So does a definition, and its body takes the next place in the table. -/
theorem definitionsOf_add (r : Registry) (x : Registration) (symbol : Name) :
    (r.add x).definitionsOf symbol =
      r.definitionsOf symbol ++ ((x.operator? (r.add x).names symbol).map fun o =>
        ⟨o.arity, o.domain, ⟨r.bodies.size⟩⟩).toList := by
  have hname := get?_add_self r x
  obtain ⟨s, entry⟩ := x
  cases entry with
  | operator arity domain body =>
      show ((r.operators.append (r.names.intern s).1
        ⟨arity, domain, ⟨r.bodies.size⟩⟩).find? symbol).getD [] = _
      rw [Dictionary.getD_find?_append, Registration.operator?, hname, definitionsOf]
      by_cases hs : symbol = (r.names.intern s).1
      · simp [hs]
      · simp [hs, Ne.symm hs]
  | primitive | name => exact (List.append_nil _).symm

/-- A registration for another symbol adds no key and no entry to this one. -/
theorem find?_add_of_ne (h : (r.add x).names.get? x.symbol ≠ some symbol) :
    (r.add x).primitives.find? symbol = r.primitives.find? symbol ∧
      (r.add x).operators.find? symbol = r.operators.find? symbol := by
  rw [get?_add_self, ne_eq, Option.some.injEq] at h
  obtain ⟨s, entry⟩ := x
  cases entry with
  | primitive domain body => exact ⟨Dictionary.find?_append_of_ne (Ne.symm h), rfl⟩
  | operator arity domain body => exact ⟨rfl, Dictionary.find?_append_of_ne (Ne.symm h)⟩
  | name => exact ⟨rfl, rfl⟩

/-- Bodies that are there stay at their handles. -/
theorem body?_add_of_some (h : r.body? b = some body) : (r.add x).body? b = some body := by
  have hlt : b.index < r.bodies.size := (Array.getElem?_eq_some_iff.mp h).1
  unfold add
  split
  · exact h
  · show (r.bodies.push _)[b.index]? = some body
    rw [Array.getElem?_push, if_neg (Nat.ne_of_lt hlt)]
    exact h
  · exact h

/-- The body of a new operator gets the next handle. -/
theorem body?_add_size (h : x.operator? (r.add x).names symbol = some o) :
    (r.add x).body? ⟨r.bodies.size⟩ = some o.body := by
  unfold Registration.operator? at h
  split at h
  · next arity domain body hentry =>
      split at h
      · cases h
        unfold add
        rw [hentry]
        exact Array.getElem?_push_size
      · cases h
  · cases h
  · cases h

/-- A registration leaves the bodies of the definitions that are there. -/
theorem withBody?_add_of_some (h : r.withBody? d = some o) : (r.add x).withBody? d = some o := by
  obtain ⟨body, hbody, rfl⟩ := Option.map_eq_some_iff.mp h
  exact Option.map_eq_some_iff.mpr ⟨body, body?_add_of_some hbody, rfl⟩

/-- A registration leaves no key without an entry. -/
theorem filled_add (h : r.primitives.Filled ∧ r.operators.Filled) (x : Registration) :
    (r.add x).primitives.Filled ∧ (r.add x).operators.Filled := by
  obtain ⟨s, entry⟩ := x
  cases entry with
  | primitive domain body => exact ⟨h.1.append _ _, h.2⟩
  | operator arity domain body => exact ⟨h.1, h.2.append _ _⟩
  | name => exact h

/-! ## All registrations -/

/-- The registry has what a log of registrations put into it, in the order of the log. A symbol for
which there is nothing in the log is no key at all. -/
structure Follows (r : Registry) (log : List Registration) : Prop where
  filled : r.primitives.Filled ∧ r.operators.Filled
  named : ∀ x ∈ log, ∃ n, r.names.get? x.symbol = some n
  handlersOf_eq : ∀ symbol, r.handlersOf symbol = log.filterMap (·.handler? r.names symbol)
  definitionsOf_map : ∀ symbol,
    (r.definitionsOf symbol).map r.withBody? = (log.filterMap (·.operator? r.names symbol)).map some

/-- The registry without entries follows the empty log. -/
theorem follows_empty (t : Interner) : (empty t).Follows [] where
  filled := ⟨Dictionary.filled_empty, Dictionary.filled_empty⟩
  named _ hx := nomatch hx
  handlersOf_eq _ := rfl
  definitionsOf_map _ := rfl

/-- What the log gives to a symbol does not change with the names that are added later. -/
theorem Follows.filterMap_add {α : Type} {log : List Registration} (h : r.Follows log)
    {f : Interner → Registration → Option α}
    (hf : ∀ {t t' : Interner} {y}, t'.get? y.symbol = t.get? y.symbol → f t' y = f t y)
    (x : Registration) : log.filterMap (f (r.add x).names) = log.filterMap (f r.names) := by
  refine List.filterMap_congr fun y hy => ?_
  obtain ⟨n, hn⟩ := h.named y hy
  exact hf ((get?_add_of_some hn).trans hn.symm)

/-- One more registration, at the end of the log. -/
theorem Follows.add {log : List Registration} (h : r.Follows log) (x : Registration) :
    (r.add x).Follows (log ++ [x]) where
  filled := filled_add h.filled x
  named y hy := by
    rcases List.mem_append.mp hy with hy | hy
    · obtain ⟨n, hn⟩ := h.named y hy
      exact ⟨n, get?_add_of_some hn⟩
    · cases List.mem_singleton.mp hy
      exact ⟨_, get?_add_self r x⟩
  handlersOf_eq symbol := by
    have hold : log.filterMap (·.handler? (r.add x).names symbol) =
        log.filterMap (·.handler? r.names symbol) :=
      h.filterMap_add Registration.handler?_congr x
    rw [handlersOf_add, List.filterMap_append, hold, h.handlersOf_eq]
    congr 1
  definitionsOf_map symbol := by
    have hold : log.filterMap (·.operator? (r.add x).names symbol) =
        log.filterMap (·.operator? r.names symbol) :=
      h.filterMap_add Registration.operator?_congr x
    -- the bodies of the earlier definitions are where they were
    have hbodies : (r.definitionsOf symbol).map (r.add x).withBody? =
        (r.definitionsOf symbol).map r.withBody? := by
      refine List.map_congr_left fun d hd => ?_
      have hmem := List.mem_map_of_mem (f := r.withBody?) hd
      rw [h.definitionsOf_map] at hmem
      obtain ⟨o, -, ho⟩ := List.mem_map.mp hmem
      rw [← ho]
      exact withBody?_add_of_some ho.symm
    rw [definitionsOf_add, List.map_append, List.filterMap_append, List.map_append, hold, hbodies,
      h.definitionsOf_map]
    congr 1
    simp only [List.filterMap_cons, List.filterMap_nil]
    cases hx : x.operator? (r.add x).names symbol with
    | none => rfl
    | some o =>
        show [(r.add x).withBody? _] = [some o]
        unfold withBody?
        rw [body?_add_size hx]
        rfl

/-- Every definition of the log leads to its body. -/
theorem Follows.isSome_body? {log : List Registration} (h : r.Follows log)
    (hd : d ∈ r.definitionsOf symbol) : (r.body? d.body).isSome := by
  have hmem := List.mem_map_of_mem (f := r.withBody?) hd
  rw [h.definitionsOf_map] at hmem
  obtain ⟨o, -, ho⟩ := List.mem_map.mp hmem
  obtain ⟨body, hbody, -⟩ := Option.map_eq_some_iff.mp ho.symm
  exact Option.isSome_of_eq_some hbody

theorem addAll_append (r : Registry) (log later : List Registration) :
    r.addAll (log ++ later) = (r.addAll log).addAll later := List.foldl_append

/-- **Registering a list appends it to the log.** -/
theorem Follows.addAll {log : List Registration} (h : r.Follows log)
    (later : List Registration) : (r.addAll later).Follows (log ++ later) := by
  induction later generalizing r log with
  | nil =>
      rw [List.append_nil]
      exact h
  | cons x later ih =>
      rw [List.append_cons]
      exact ih (h.add x)

/-- **A registry follows the log of its registrations.** -/
theorem follows_addAll (t : Interner) (log : List Registration) :
    ((empty t).addAll log).Follows log := (follows_empty t).addAll log

/-! ## Later registrations -/

theorem get?_addAll_of_some {log : List Registration} (h : r.names.get? s = some n) :
    (r.addAll log).names.get? s = some n := by
  induction log generalizing r with
  | nil => exact h
  | cons x log ih => exact ih (get?_add_of_some h)

theorem body?_addAll_of_some {log : List Registration} (h : r.body? b = some body) :
    (r.addAll log).body? b = some body := by
  induction log generalizing r with
  | nil => exact h
  | cons x log ih => exact ih (body?_add_of_some h)

end Registry

end ArrayLang
