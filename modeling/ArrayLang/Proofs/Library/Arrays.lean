import ArrayLang.Proofs.Evaluation.Panics
import ArrayLang.Proofs.Library.Core
import ArrayLang.Proofs.Registry.Dispatch

/-!
# The arrays that the core library makes

Some primitives of the core library make an array as long as a number says. Such a number may be so
large that no memory has room for the array, and then the primitive panics. Nothing else in the core
library does, so the requests that panic by themselves can be told by looking at them
(`Eval.breaks_iff_exceeds`), and an evaluation panics exactly if it leads to one
(`Eval.panics_iff_exceeds`).
-/

namespace ArrayLang

namespace Library

variable {r : Registry} {names : Interner} {symbol : Name} {tower : Tower} {s : String} {k : Int64}
  {v right : Value} {left : Option Value}

/-! ## Resolving -/

/-- The handlers that were registered under a name. -/
def handlersNamed (s : String) : List PrimitiveHandler :=
  primitives.filterMap fun (t, domain, body) => if t = s then some ⟨domain, body⟩ else none

/-- The handlers of a symbol, by the log of the library. -/
theorem filterMap_handler?_registrations {t : Interner} (h : t.get? s = some symbol) :
    registrations.filterMap (·.handler? t symbol) = handlersNamed s := by
  rw [registrations, List.filterMap_append, List.filterMap_map, List.filterMap_map]
  -- operators give no handlers
  refine (congrArg (_ ++ ·) (List.filterMap_eq_nil_iff.mpr fun _ _ => rfl)).trans ?_
  rw [List.append_nil]
  refine List.filterMap_congr fun x _ => ?_
  exact if_congr (Interner.get?_eq_iff_of_some h) rfl rfl

/-- A symbol with one handler resolves to it. -/
theorem resolve_core {domain : PairDomain} {body : PrimitiveBody} {left' : Option Value}
    {right' : Value} (hr : r = core names) (h : r.names.get? s = some symbol)
    (hs : handlersNamed s = [⟨domain, body⟩])
    (hconvert : domain.convert? tower left right = some (left', right')) :
    r.resolve tower symbol left right = .ok ⟨body, left', right'⟩ := by
  subst hr
  have hhandlers : (core names).handlersOf symbol = [⟨domain, body⟩] := by
    rw [(follows_core names).handlersOf_eq, filterMap_handler?_registrations h, hs]
  refine Registry.resolve_of_head hhandlers ?_
  show (domain.convert? tower left right).map _ = _
  rw [hconvert]
  rfl

theorem resolve_reverse (hr : r = core names) (h : r.names.get? "⌽" = some symbol)
    (hv : v.isArray = true) : r.resolve tower symbol none v = .ok ⟨reverse, none, v⟩ := by
  have hconvert : (PairDomain.monadic (some array)).convert? tower none v = some (none, v) := by
    simp [PairDomain.convert?, PairDomain.convertRight?, array, Domain.convert?, Leaf.accept?, hv]
  exact resolve_core hr h rfl hconvert

theorem resolve_iota (hr : r = core names) (h : r.names.get? "⍳" = some symbol) :
    r.resolve tower symbol none (.int k) = .ok ⟨iota, none, .int k⟩ := by
  have hconvert : (PairDomain.monadic (some number)).convert? tower none (.int k) =
      some (none, .int k) := by
    simp [PairDomain.convert?, PairDomain.convertRight?, number, Domain.convert?, Leaf.accept?,
      Value.int, Value.number?]
  exact resolve_core hr h rfl hconvert

theorem resolve_take (hr : r = core names) (h : r.names.get? "↑" = some symbol)
    (hv : v.isArray = true) :
    r.resolve tower symbol (some (.int k)) v = .ok ⟨take, some (.int k), v⟩ := by
  have hconvert : (PairDomain.split (some number) (some array)).convert? tower (some (.int k)) v =
      some (some (.int k), v) := by
    simp [PairDomain.convert?, PairDomain.convertRight?, PairDomain.convertSide?,
      Domain.convertOptional?, array, number, Domain.convert?, Leaf.accept?, hv, Value.int,
      Value.number?]
  exact resolve_core hr h rfl hconvert

/-- A domain of numbers changes nothing. -/
theorem number_of_convert? {w : Value} (h : number.convert? tower v = some w) :
    w = v ∧ v.number?.isSome = true := by
  obtain ⟨hv, h⟩ := Option.ite_none_right_eq_some.mp h
  cases h
  exact ⟨rfl, hv⟩

theorem array_of_convert? {w : Value} (h : array.convert? tower v = some w) :
    w = v ∧ v.isArray = true := by
  obtain ⟨hv, h⟩ := Option.ite_none_right_eq_some.mp h
  cases h
  exact ⟨rfl, hv⟩

/-! ## Counts -/

/-- An integer that is not negative counts as itself. -/
theorem count_int (hk : 0 ≤ k) : count (.int k) = .ok k.toNatClampNeg := by
  have hneg : ¬ k < 0 := by
    rw [Int64.lt_iff_toInt_lt]
    rw [Int64.le_iff_toInt_le] at hk
    omega
  show (if k < 0 then _ else _) = _
  rw [if_neg hneg]
  rfl

/-- Negative numbers count nothing at all. -/
theorem nonneg_of_lt_toNatClampNeg {n : Nat} (h : n < k.toNatClampNeg) : 0 ≤ k := by
  rw [Int64.le_iff_toInt_le]
  unfold Int64.toNatClampNeg at h
  simp only [Int64.toInt_zero]
  omega

/-- A number that counts is an integer. -/
theorem eq_int_of_count {n : Nat} (hv : v.number?.isSome) (h : count v = .ok n) :
    ∃ k : Int64, v = .int k ∧ n = k.toNatClampNeg := by
  obtain ⟨k, hk, hn⟩ := exists_of_bind_eq_ok h
  split at hn
  · cases hn
  · cases hn
    unfold integer at hk
    split at hk
    · cases hk
      exact ⟨k, rfl, rfl⟩
    · cases hv
    · cases hk

/-! ## Panics -/

/-- With these arguments the primitive would make an array that no memory has room for. -/
inductive Exceeds : String → Option Value → Value → Prop
  | iota {n : Int64} (h : maxIntegers < n.toNatClampNeg) : Exceeds "⍳" none (.int n)
  | take {n : Int64} {v : Value} (hv : v.isArray = true) (h : maxCells < n.toNatClampNeg) :
      Exceeds "↑" (some (.int n)) v

theorem iota_of_lt (tower : Tower) (left : Option Value) (h : maxIntegers < k.toNatClampNeg) :
    iota tower left (.int k) = .panics := by
  show (Body.ofExcept (count (.int k))).bind _ = _
  rw [count_int (nonneg_of_lt_toNatClampNeg h)]
  exact if_neg (Nat.not_le_of_lt h)

theorem take_of_lt (tower : Tower) (h : maxCells < k.toNatClampNeg) :
    take tower (some (.int k)) right = .panics := by
  show (Body.ofExcept (count (.int k))).bind _ = _
  rw [count_int (nonneg_of_lt_toNatClampNeg h)]
  exact if_neg (Nat.not_le_of_lt h)

/-- Counting panics for its count alone. -/
theorem panics_iota_iff :
    (iota tower left right).Panics ↔ ∃ n, count right = .ok n ∧ maxIntegers < n := by
  refine Body.panics_ofExcept_bind_iff.trans (exists_congr fun n => and_congr_right fun _ => ?_)
  split
  · next h => exact ⟨False.elim, fun hlt => absurd hlt (Nat.not_lt_of_le h)⟩
  · next h => exact ⟨fun _ => Nat.lt_of_not_le h, fun _ => trivial⟩

/-- Taking panics for its count alone: neither the missing cells nor the shape matter. -/
theorem panics_take_iff : (take tower left right).Panics ↔
    ∃ n, leftArgument left >>= count = .ok n ∧ maxCells < n := by
  refine Body.panics_ofExcept_bind_iff.trans (exists_congr fun n => and_congr_right fun _ => ?_)
  split
  · next h => exact ⟨False.elim, fun hlt => absurd hlt (Nat.not_lt_of_le h)⟩
  · next h => exact ⟨fun _ => Nat.lt_of_not_le h, fun _ => trivial⟩

theorem not_panics_apply (f : Callable) (left : Option Value) (right : Value) :
    ¬ (Body.apply f left right).Panics := by
  rintro ⟨_, ⟨⟩⟩

/-- Going over the cells makes calls and puts their results together, none of which panics. -/
theorem not_panics_callEach (f : Callable) (left : Option Value) (done vs : List Value) :
    ¬ (callEach f left done vs).Panics := by
  induction vs generalizing done with
  | nil => exact id
  | cons v vs ih => exact Body.not_panics_bind (not_panics_apply _ _ _) fun w => ih (w :: done)

theorem not_panics_foldOnto (f : Callable) (result : Value) (vs : List Value) :
    ¬ (foldOnto f result vs).Panics := by
  induction vs generalizing result with
  | nil => exact id
  | cons v vs ih => exact Body.not_panics_bind (not_panics_apply _ _ _) fun w => ih w

/-- No operator of the library allocates by a number that it is given. -/
theorem not_panics_operator {body : OperatorBody} (h : body ∈ operatorBodies) {operand : Value}
    {unused : Option Value} : ¬ (body tower operand unused left right).Panics := by
  simp only [operatorBodies, operators, List.map_cons, List.map_nil, List.mem_cons,
    List.not_mem_nil, or_false] at h
  rcases h with rfl | rfl
  · exact Body.not_panics_bind (Body.not_panics_ofExcept _) fun f => not_panics_callEach _ _ _ _
  · refine Body.not_panics_bind (Body.not_panics_ofExcept _) fun f => ?_
    split
    · exact id
    · exact not_panics_foldOnto _ _ _

/-- A panic of the body is one of the call that it was resolved for. -/
theorem exceeds_of_panics_iota {left' : Option Value} {right' : Value}
    (hconvert : (PairDomain.monadic (some number)).convert? tower left right = some (left', right'))
    (h : (iota tower left' right').Panics) : Exceeds "⍳" left right := by
  obtain ⟨n, hn, hlt⟩ := panics_iota_iff.mp h
  cases left with
  | some _ => cases hconvert
  | none =>
      obtain ⟨w, hw, heq⟩ := Option.map_eq_some_iff.mp hconvert
      cases heq
      obtain ⟨rfl, hnumber⟩ := number_of_convert? hw
      obtain ⟨k, rfl, rfl⟩ := eq_int_of_count hnumber hn
      exact .iota hlt

theorem exceeds_of_panics_take {left' : Option Value} {right' : Value}
    (hconvert : (PairDomain.split (some number) (some array)).convert? tower left right =
      some (left', right'))
    (h : (take tower left' right').Panics) : Exceeds "↑" left right := by
  obtain ⟨n, hn, hlt⟩ := panics_take_iff.mp h
  obtain ⟨l, hl, hconvert⟩ := Option.bind_eq_some_iff.mp hconvert
  obtain ⟨w, hw, heq⟩ := Option.bind_eq_some_iff.mp hconvert
  cases heq
  obtain ⟨u, hu, rfl⟩ := Option.map_eq_some_iff.mp hl
  obtain ⟨v, rfl, hv⟩ := Option.bind_eq_some_iff.mp hu
  obtain ⟨rfl, hnumber⟩ := number_of_convert? hv
  obtain ⟨rfl, harray⟩ := array_of_convert? hw
  obtain ⟨k, rfl, rfl⟩ := eq_int_of_count hnumber hn
  exact .take harray hlt

/-- **A primitive panics only for arguments that exceed.** -/
theorem exceeds_of_panics {domain : PairDomain} {body : PrimitiveBody} {left' : Option Value}
    {right' : Value} (hmem : (s, domain, body) ∈ primitives)
    (hconvert : domain.convert? tower left right = some (left', right'))
    (h : (body tower left' right').Panics) : Exceeds s left right := by
  simp only [primitives, List.mem_cons, Prod.mk.injEq, List.not_mem_nil, or_false] at hmem
  rcases hmem with ⟨-, -, rfl⟩ | ⟨-, -, rfl⟩ | ⟨-, -, rfl⟩ | ⟨-, -, rfl⟩ | ⟨-, -, rfl⟩ |
    ⟨rfl, rfl, rfl⟩ | ⟨-, -, rfl⟩ | ⟨-, -, rfl⟩ | ⟨rfl, rfl, rfl⟩
  · exact h.elim
  · exact h.elim
  · exact h.elim
  · exact h.elim
  · exact h.elim
  · exact exceeds_of_panics_iota hconvert h
  · exact h.elim
  · exact h.elim
  · exact exceeds_of_panics_take hconvert h

end Library

namespace Eval

open Library

variable {c : Context} {names : Interner} {q : Request} {m : Machine}

/-- The request asks the core library for an array that no memory has room for. -/
inductive Exceeds (c : Context) : Request → Prop
  | call {s : String} {symbol : Name} {left : Option Value} {right : Value} {scope : ScopeId}
      (hs : c.names.get? s = some symbol) (h : Library.Exceeds s left right) :
      Exceeds c (.call (.primitive symbol) left right scope)

/-- **A body of the library panics in a call that exceeds an allocation, and in no other.** -/
theorem Executes.exceeds (hcore : c.registry = core names) {b : Body Value}
    (hb : Executes c q b) (h : b.Panics) : Exceeds c q := by
  cases hb with
  | primitive hresolve =>
      obtain ⟨handler, hmem, hconvert, hbody⟩ :=
        Registry.exists_mem_handlersOf_of_resolve hresolve
      rw [hcore] at hmem
      obtain ⟨s, hs, hprimitive⟩ := exists_mem_primitives hmem
      rw [hbody] at h
      refine .call (s := s) ?_ (exceeds_of_panics hprimitive hconvert h)
      show c.registry.names.get? s = _
      rw [hcore]
      exact hs
  | derived hfound =>
      rw [hcore] at hfound
      exact absurd h (not_panics_operator (body_mem_of_mem_bodies (Array.mem_of_getElem? hfound)))

/-- A call that exceeds an allocation executes a body that panics. -/
theorem Exceeds.executes (hcore : c.registry = core names) (h : Exceeds c q) :
    Executes c q .panics := by
  cases h with
  | @call s symbol left right scope hs h =>
      cases h with
      | @iota n hlt =>
          rw [← iota_of_lt c.tower none hlt]
          exact .primitive (resolve_iota hcore hs)
      | @take n _ hv hlt =>
          rw [← take_of_lt c.tower hlt]
          exact .primitive (resolve_take hcore hs hv)

/-- **With the core library a step panics by itself**, other than on a dangling handle, exactly if
it asks for an array that exceeds. -/
theorem breaks_iff_exceeds (hcore : c.registry = core names) :
    Breaks c (step c q) m .body ↔ Exceeds c q := by
  constructor
  · intro h
    obtain ⟨b, hb, hpanics⟩ := exists_executes_of_breaks h
    exact hb.exceeds hcore hpanics
  · intro h
    unfold Breaks
    rw [(h.executes hcore).step_eq]
    exact .here

/-- An evaluation panics in a body if and only if it leads to a call that exceeds an allocation. -/
theorem panics_iff_exceeds (hcore : c.registry = core names) :
    Panics c (step c q) m .body ↔ ∃ q' n, Leads c q m q' n ∧ Exceeds c q' := by
  refine panics_iff.trans (exists_congr fun q' => exists_congr fun n => and_congr_right fun _ => ?_)
  exact breaks_iff_exceeds hcore

end Eval

end ArrayLang
