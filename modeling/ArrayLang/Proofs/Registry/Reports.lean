import ArrayLang.Proofs.Registry.Dispatch
import ArrayLang.Proofs.Text.ByteOrder
import Mathlib.Data.List.Induction

/-!
# Reports

Between registrations a registry can be asked which symbols it has and what their domains are.
Names take part in all of this: they are the keys under which symbols are stored, they are shared
with whoever else interns texts, and asking about a symbol interns it. `Registry.Answers` says what
the answers are without any names, from the registrations that have been made so far, and
`Registry.reply_iff_answers` that these are the ones that are given, whatever order the keys are
gone through in.
-/

namespace ArrayLang

/-! ## What was registered for a text -/

namespace Registration

/-- The domain of the primitive that is registered for the text, if it is one. -/
def primitiveDomain? (s : String) (x : Registration) : Option PairDomain :=
  match x.entry with
  | .primitive domain _ => if x.symbol = s then some domain else none
  | .operator .. | .name => none

/-- As `primitiveDomain?`, for operators. -/
def operatorDomain? (s : String) (x : Registration) : Option PairDomain :=
  match x.entry with
  | .operator _ domain _ => if x.symbol = s then some domain else none
  | .primitive .. | .name => none

variable {t : Interner} {s : String} {n : Name} {d : PairDomain}

theorem primitiveDomain?_eq_some_iff {x : Registration} :
    x.primitiveDomain? s = some d ↔ ∃ body, x = ⟨s, .primitive d body⟩ := by
  obtain ⟨symbol, entry⟩ := x
  cases entry <;> simp [primitiveDomain?, and_comm]

theorem operatorDomain?_eq_some_iff {x : Registration} :
    x.operatorDomain? s = some d ↔ ∃ arity body, x = ⟨s, .operator arity d body⟩ := by
  obtain ⟨symbol, entry⟩ := x
  cases entry <;> simp [operatorDomain?, and_comm]

/-- A registration has the domain of its handler. -/
theorem map_domain_handler? (hs : t.get? s = some n) (x : Registration) :
    (x.handler? t n).map PrimitiveHandler.domain = x.primitiveDomain? s := by
  obtain ⟨symbol, entry⟩ := x
  cases entry with
  | primitive domain body =>
      simp only [handler?, primitiveDomain?, Interner.get?_eq_iff_of_some hs]
      split <;> rfl
  | operator | name => rfl

theorem map_domain_operator? (hs : t.get? s = some n) (x : Registration) :
    (x.operator? t n).map OperatorEntry.domain = x.operatorDomain? s := by
  obtain ⟨symbol, entry⟩ := x
  cases entry with
  | operator arity domain body =>
      simp only [operator?, operatorDomain?, Interner.get?_eq_iff_of_some hs]
      split <;> rfl
  | primitive | name => rfl

/-- A handler has the name of the text that it was registered for. -/
theorem get?_of_handler?_eq_some {x : Registration} {h : PrimitiveHandler}
    (hx : x.handler? t n = some h) : t.get? x.symbol = some n := by
  by_contra hne
  rw [handler?_eq_none hne] at hx
  cases hx

theorem get?_of_operator?_eq_some {x : Registration} {o : OperatorEntry}
    (hx : x.operator? t n = some o) : t.get? x.symbol = some n := by
  by_contra hne
  rw [operator?_eq_none hne] at hx
  cases hx

end Registration

/-- The domains of the primitives that were registered for a text, in the order of the log. -/
def primitiveDomains (log : List Registration) (s : String) : List PairDomain :=
  log.filterMap (·.primitiveDomain? s)

def operatorDomains (log : List Registration) (s : String) : List PairDomain :=
  log.filterMap (·.operatorDomain? s)

section Domains

variable {log : List Registration} {s : String}

/-- A symbol has domains if something was registered for it. -/
theorem primitiveDomains_ne_nil_iff :
    primitiveDomains log s ≠ [] ↔ ∃ domain body, ⟨s, .primitive domain body⟩ ∈ log := by
  rw [← List.isEmpty_eq_false_iff, List.isEmpty_eq_false_iff_exists_mem]
  refine exists_congr fun domain => ?_
  simp only [primitiveDomains, List.mem_filterMap, Registration.primitiveDomain?_eq_some_iff]
  exact ⟨fun ⟨_, hx, body, heq⟩ => ⟨body, heq ▸ hx⟩, fun ⟨body, hx⟩ => ⟨_, hx, body, rfl⟩⟩

theorem operatorDomains_ne_nil_iff :
    operatorDomains log s ≠ [] ↔ ∃ arity domain body, ⟨s, .operator arity domain body⟩ ∈ log := by
  rw [← List.isEmpty_eq_false_iff, List.isEmpty_eq_false_iff_exists_mem, exists_comm]
  refine exists_congr fun domain => ?_
  simp only [operatorDomains, List.mem_filterMap, Registration.operatorDomain?_eq_some_iff]
  exact ⟨fun ⟨_, hx, arity, body, heq⟩ => ⟨arity, body, heq ▸ hx⟩,
    fun ⟨arity, body, hx⟩ => ⟨_, hx, arity, body, rfl⟩⟩

end Domains

namespace Registry

/-! ## Questions -/

inductive Question where
  | isPrimitive (symbol : String)
  | isOperator (symbol : String)
  | describe (symbol : String)
  | symbols

inductive Reply where
  | flag (b : Bool)
  | texts (l : List String)

/-- The reply of a registry, and the registry afterwards. A symbol that is looked up by its name
is interned for it. -/
def ask (r : Registry) : Question → Reply × Registry
  | .isPrimitive s => (.flag ((r.intern s).2.isPrimitive (r.intern s).1), (r.intern s).2)
  | .isOperator s => (.flag ((r.intern s).2.isOperator (r.intern s).1), (r.intern s).2)
  | .describe s => (.texts (r.describe s), r)
  | .symbols => (.texts r.symbols, r)

/-- What a log of registrations answers. -/
inductive Answers (log : List Registration) : Question → Reply → Prop
  | isPrimitive {s : String} {b : Bool}
    (h : b = true ↔ ∃ domain body, ⟨s, .primitive domain body⟩ ∈ log) :
    Answers log (.isPrimitive s) (.flag b)
  | isOperator {s : String} {b : Bool}
    (h : b = true ↔ ∃ arity domain body, ⟨s, .operator arity domain body⟩ ∈ log) :
    Answers log (.isOperator s) (.flag b)
  /-- The primitives come first. -/
  | describe {s : String} :
    Answers log (.describe s)
      (.texts ((primitiveDomains log s ++ operatorDomains log s).map PairDomain.text))
  | symbols {l : List String} (horder : Text.InByteOrder l)
    (hmem : ∀ s, s ∈ l ↔ (∃ domain body, ⟨s, .primitive domain body⟩ ∈ log) ∨
      ∃ arity domain body, ⟨s, .operator arity domain body⟩ ∈ log) :
    Answers log .symbols (.texts l)

variable {r : Registry} {log : List Registration} {s : String} {n : Name} {q : Question}
  {a a' : Reply}

/-- A log has one answer to a question. -/
theorem Answers.unique (h : Answers log q a) (h' : Answers log q a') : a = a' := by
  cases h with
  | isPrimitive h =>
      cases h' with
      | isPrimitive h' => rw [Bool.eq_iff_iff.mpr (h.trans h'.symm)]
  | isOperator h =>
      cases h' with
      | isOperator h' => rw [Bool.eq_iff_iff.mpr (h.trans h'.symm)]
  | describe =>
      cases h'
      rfl
  | symbols horder hmem =>
      cases h' with
      | symbols horder' hmem' =>
          rw [horder.eq_of_mem_iff horder' fun s => (hmem s).trans (hmem' s).symm]

/-! ## Answers from the log -/

/-- The list of a primitive holds the domains of the log, in their order. -/
theorem Follows.map_domain_handlersOf (h : r.Follows log) (hs : r.names.get? s = some n) :
    (r.handlersOf n).map PrimitiveHandler.domain = primitiveDomains log s := by
  rw [h.handlersOf_eq, List.map_filterMap, primitiveDomains]
  exact List.filterMap_congr fun x _ => Registration.map_domain_handler? hs x

theorem Follows.map_domain_definitionsOf (h : r.Follows log) (hs : r.names.get? s = some n) :
    (r.definitionsOf n).map OperatorDefinition.domain = operatorDomains log s := by
  have hmap : (r.definitionsOf n).map OperatorDefinition.domain =
      (log.filterMap (·.operator? r.names n)).map OperatorEntry.domain :=
    map_eq_map_of_map_eq (h.definitionsOf_map n) fun d o hd => (eq_of_withBody?_eq_some hd).2.1
  rw [hmap, List.map_filterMap, operatorDomains]
  exact List.filterMap_congr fun x _ => Registration.map_domain_operator? hs x

/-- A name is a primitive if the log says so of its text. -/
theorem Follows.isPrimitive_iff (h : r.Follows log) (hs : r.names.get? s = some n) :
    r.isPrimitive n = true ↔ ∃ domain body, ⟨s, .primitive domain body⟩ ∈ log := by
  rw [← primitiveDomains_ne_nil_iff, ← h.map_domain_handlersOf hs, ne_eq, List.map_eq_nil_iff]
  exact h.filled.1.contains_iff

theorem Follows.isOperator_iff (h : r.Follows log) (hs : r.names.get? s = some n) :
    r.isOperator n = true ↔ ∃ arity domain body, ⟨s, .operator arity domain body⟩ ∈ log := by
  rw [← operatorDomains_ne_nil_iff, ← h.map_domain_definitionsOf hs, ne_eq, List.map_eq_nil_iff]
  exact h.filled.2.contains_iff

/-- Only names of registered texts have handlers. -/
theorem Follows.exists_get?_of_isPrimitive (h : r.Follows log) (hn : r.isPrimitive n = true) :
    ∃ s, r.names.get? s = some n := by
  rw [isPrimitive, h.filled.1.contains_iff, ← handlersOf, h.handlersOf_eq] at hn
  obtain ⟨handler, hhandler⟩ := List.exists_mem_of_ne_nil _ hn
  obtain ⟨x, -, hx⟩ := List.mem_filterMap.mp hhandler
  exact ⟨x.symbol, Registration.get?_of_handler?_eq_some hx⟩

/-- Names without a text are no operators. -/
theorem Follows.exists_get?_of_isOperator (h : r.Follows log) (hn : r.isOperator n = true) :
    ∃ s, r.names.get? s = some n := by
  rw [isOperator, h.filled.2.contains_iff, ← definitionsOf, ne_eq,
    ← List.map_eq_nil_iff (f := r.withBody?), h.definitionsOf_map, List.map_eq_nil_iff] at hn
  obtain ⟨o, ho⟩ := List.exists_mem_of_ne_nil _ hn
  obtain ⟨x, -, hx⟩ := List.mem_filterMap.mp ho
  exact ⟨x.symbol, Registration.get?_of_operator?_eq_some hx⟩

theorem Follows.isPrimitive_iff_exists (h : r.Follows log) :
    r.isPrimitive n = true ↔
      ∃ s domain body, r.names.get? s = some n ∧ ⟨s, .primitive domain body⟩ ∈ log := by
  constructor
  · intro hn
    obtain ⟨s, hs⟩ := h.exists_get?_of_isPrimitive hn
    obtain ⟨domain, body, hx⟩ := (h.isPrimitive_iff hs).mp hn
    exact ⟨s, domain, body, hs, hx⟩
  · rintro ⟨s, domain, body, hs, hx⟩
    exact (h.isPrimitive_iff hs).mpr ⟨domain, body, hx⟩

theorem Follows.isOperator_iff_exists (h : r.Follows log) :
    r.isOperator n = true ↔
      ∃ s arity domain body, r.names.get? s = some n ∧ ⟨s, .operator arity domain body⟩ ∈ log := by
  constructor
  · intro hn
    obtain ⟨s, hs⟩ := h.exists_get?_of_isOperator hn
    obtain ⟨arity, domain, body, hx⟩ := (h.isOperator_iff hs).mp hn
    exact ⟨s, arity, domain, body, hs, hx⟩
  · rintro ⟨s, arity, domain, body, hs, hx⟩
    exact (h.isOperator_iff hs).mpr ⟨arity, domain, body, hx⟩

/-- The text of a name and the name of a text. -/
theorem lookup_eq_iff {t : Interner} (hs : t.get? s = some n) {s' : String} :
    t.lookup n = s' ↔ t.get? s' = some n := by
  rw [Interner.get?_eq_iff_of_some hs, Interner.lookup_of_get? hs]
  exact eq_comm

/-- The texts of the keys, in whatever order the map has them. -/
theorem mem_textsOf_iff {names : List Name} :
    s ∈ r.textsOf names ↔ ∃ n ∈ names, r.names.lookup n = s := by
  rw [textsOf, mem_dropRepeats_iff, mem_sortTexts_iff, List.mem_map]

/-- **The order of the keys does not show**, nor how often a name comes up. -/
theorem textsOf_eq_of_mem_iff {names names' : List Name} (h : ∀ n, n ∈ names ↔ n ∈ names') :
    r.textsOf names = r.textsOf names' := by
  refine (Text.inByteOrder_dropRepeats _).eq_of_mem_iff (Text.inByteOrder_dropRepeats _) fun s => ?_
  show s ∈ r.textsOf names ↔ s ∈ r.textsOf names'
  simp only [mem_textsOf_iff, h]

/-- **The symbols are those of the log**, whether they name a primitive, an operator or both. -/
theorem Follows.mem_symbols_iff (h : r.Follows log) :
    s ∈ r.symbols ↔ (∃ domain body, ⟨s, .primitive domain body⟩ ∈ log) ∨
      ∃ arity domain body, ⟨s, .operator arity domain body⟩ ∈ log := by
  rw [symbols, mem_textsOf_iff]
  simp only [List.mem_append, Dictionary.mem_keys_iff]
  constructor
  · rintro ⟨n, hn | hn, hlookup⟩
    · obtain ⟨_, hget⟩ := h.exists_get?_of_isPrimitive hn
      exact .inl ((h.isPrimitive_iff ((lookup_eq_iff hget).mp hlookup)).mp hn)
    · obtain ⟨_, hget⟩ := h.exists_get?_of_isOperator hn
      exact .inr ((h.isOperator_iff ((lookup_eq_iff hget).mp hlookup)).mp hn)
  · rintro (hs | hs)
    · obtain ⟨domain, body, hx⟩ := hs
      obtain ⟨n, hn⟩ := h.named _ hx
      exact ⟨n, .inl ((h.isPrimitive_iff hn).mpr ⟨domain, body, hx⟩), (lookup_eq_iff hn).mpr hn⟩
    · obtain ⟨arity, domain, body, hx⟩ := hs
      obtain ⟨n, hn⟩ := h.named _ hx
      exact ⟨n, .inr ((h.isOperator_iff hn).mpr ⟨arity, domain, body, hx⟩),
        (lookup_eq_iff hn).mpr hn⟩

/-- Whatever was registered has a name. -/
theorem Follows.not_mem_of_get?_eq_none (h : r.Follows log) (hs : r.names.get? s = none)
    (entry : Entry) : ⟨s, entry⟩ ∉ log := by
  intro hx
  obtain ⟨n, hn⟩ := h.named _ hx
  cases hs.symm.trans hn

/-- A description lists the domains of the primitive before those of the operator. -/
theorem Follows.describe_eq (h : r.Follows log) (s : String) :
    r.describe s = (primitiveDomains log s ++ operatorDomains log s).map PairDomain.text := by
  unfold describe
  split
  · next hnone =>
      have hprimitives : primitiveDomains log s = [] := by
        by_contra hne
        obtain ⟨_, _, hx⟩ := primitiveDomains_ne_nil_iff.mp hne
        exact h.not_mem_of_get?_eq_none hnone _ hx
      have hoperators : operatorDomains log s = [] := by
        by_contra hne
        obtain ⟨_, _, _, hx⟩ := operatorDomains_ne_nil_iff.mp hne
        exact h.not_mem_of_get?_eq_none hnone _ hx
      rw [hprimitives, hoperators]
      rfl
  · next n hn =>
      rw [← h.map_domain_handlersOf hn, ← h.map_domain_definitionsOf hn, List.map_append,
        List.map_map, List.map_map]
      rfl

/-! ## Interning and asking -/

/-- Interning registers nothing. -/
theorem Follows.intern (h : r.Follows log) (s : String) : (r.intern s).2.Follows log := by
  obtain ⟨hfilled, hnamed, hhandlers, hdefinitions⟩ := h.add ⟨s, .name⟩
  refine ⟨hfilled, fun x hx => hnamed x (List.mem_append_left _ hx), fun symbol => ?_,
    fun symbol => ?_⟩
  · exact (hhandlers symbol).trans (List.filterMap_append.trans (List.append_nil _))
  · have hdrop : (log ++ [Registration.mk s .name]).filterMap
        (·.operator? (r.intern s).2.names symbol) =
          log.filterMap (·.operator? (r.intern s).2.names symbol) :=
      List.filterMap_append.trans (List.append_nil _)
    rw [← hdrop]
    exact hdefinitions symbol

/-- Questions change nothing but names. -/
theorem Follows.ask (h : r.Follows log) (q : Question) : (r.ask q).2.Follows log := by
  cases q with
  | isPrimitive s | isOperator s => exact h.intern s
  | describe | symbols => exact h

/-- Each question is answered from the log. -/
theorem Follows.answers_ask (h : r.Follows log) (q : Question) : Answers log q (r.ask q).1 := by
  have hname : ∀ s, (r.intern s).2.names.get? s = some (r.intern s).1 :=
    fun s => Interner.get?_intern_self r.names s
  cases q with
  | isPrimitive s => exact .isPrimitive ((h.intern s).isPrimitive_iff (hname s))
  | isOperator s => exact .isOperator ((h.intern s).isOperator_iff (hname s))
  | describe s =>
      show Answers log (.describe s) (.texts (r.describe s))
      rw [h.describe_eq]
      exact .describe
  | symbols => exact .symbols (Text.inByteOrder_dropRepeats _) fun _ => h.mem_symbols_iff

/-! ## All calls -/

/-- A use of a registry, or of the table of names that it shares. -/
inductive Call where
  | register (x : Registration)
  | ask (q : Question)

/-- What a call registers, if anything. -/
def Call.registration? : Call → Option Registration
  | .register ⟨_, .name⟩ => none
  | .register x => some x
  | .ask _ => none

def registrations (calls : List Call) : List Registration := calls.filterMap Call.registration?

def perform (r : Registry) : Call → Registry
  | .register x => r.add x
  | .ask q => (r.ask q).2

/-- The registry after all calls, beginning with nothing registered and with any table of names. -/
def after (t : Interner) (calls : List Call) : Registry := calls.foldl perform (empty t)

/-- Along a history the registry follows its registrations. -/
theorem Follows.perform (h : r.Follows log) (call : Call) :
    (r.perform call).Follows (log ++ call.registration?.toList) := by
  match call with
  | .register ⟨s, .name⟩ =>
      rw [Call.registration?, Option.toList_none, List.append_nil]
      exact h.intern s
  | .register ⟨s, .primitive domain body⟩ => exact h.add ⟨s, .primitive domain body⟩
  | .register ⟨s, .operator arity domain body⟩ => exact h.add ⟨s, .operator arity domain body⟩
  | .ask q =>
      rw [Call.registration?, Option.toList_none, List.append_nil]
      exact h.ask q

/-- Whatever else is done between them, a registry follows the registrations. -/
theorem follows_after (t : Interner) (calls : List Call) :
    (after t calls).Follows (registrations calls) := by
  induction calls using List.reverseRecOn with
  | nil => exact follows_empty t
  | append_singleton calls call ih =>
      have hlog : registrations (calls ++ [call]) =
          registrations calls ++ call.registration?.toList := by
        rw [registrations, registrations, List.filterMap_append]
        cases h : call.registration? <;> simp [h]
      rw [hlog, after, List.foldl_append]
      exact ih.perform call

/-- **What a registry reports is the log of its registrations.** The table of names may hold any
texts beforehand, and registrations, questions and the use of names by others may come in any order:
a question is answered as the registrations so far answer it, and so in the same way whenever these
are the same. The symbols are the same list in whatever order the keys of the two dictionaries are
gone through. A name belongs to a primitive exactly if it is the name of a text for which one is
registered, and so for operators. Describing a symbol and listing all of them leaves everything as
it is, the names included. -/
theorem reply_iff_answers (t : Interner) (calls : List Call) :
    (∀ q a, ((after t calls).ask q).1 = a ↔ Answers (registrations calls) q a) ∧
    (∀ t' calls', registrations calls' = registrations calls →
      ∀ q, ((after t' calls').ask q).1 = ((after t calls).ask q).1) ∧
    (∀ keys keys', keys.Perm (after t calls).primitives.keys →
      keys'.Perm (after t calls).operators.keys →
      (after t calls).textsOf (keys ++ keys') = (after t calls).symbols) ∧
    (∀ n, (after t calls).isPrimitive n = true ↔
      ∃ s domain body, (after t calls).names.get? s = some n ∧
        ⟨s, .primitive domain body⟩ ∈ registrations calls) ∧
    (∀ n, (after t calls).isOperator n = true ↔
      ∃ s arity domain body, (after t calls).names.get? s = some n ∧
        ⟨s, .operator arity domain body⟩ ∈ registrations calls) ∧
    (∀ s, after t (calls ++ [.ask (.describe s)]) = after t calls) ∧
    after t (calls ++ [.ask .symbols]) = after t calls := by
  have hfollows := follows_after t calls
  have hconcat : ∀ call, after t (calls ++ [call]) = (after t calls).perform call :=
    fun call => List.foldl_append
  refine ⟨fun q a => ⟨?_, (hfollows.answers_ask q).unique⟩, fun t' calls' hsame q => ?_,
    fun keys keys' hkeys hkeys' => textsOf_eq_of_mem_iff fun n => (hkeys.append hkeys').mem_iff,
    fun n => hfollows.isPrimitive_iff_exists, fun n => hfollows.isOperator_iff_exists,
    fun s => hconcat _, hconcat _⟩
  · rintro rfl
    exact hfollows.answers_ask q
  · have hanswers := (follows_after t' calls').answers_ask q
    rw [hsame] at hanswers
    exact hanswers.unique (hfollows.answers_ask q)

end Registry

end ArrayLang
