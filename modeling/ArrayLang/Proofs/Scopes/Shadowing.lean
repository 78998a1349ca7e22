import ArrayLang.Eval.Step
import ArrayLang.Proofs.Scopes.Chain
import Mathlib.Data.List.Find

/-!
# Names that hide others

Scopes are shared, so that one binding is seen from many chains. `Scopes.InView` says from where: no
scope before it on the chain declares the name. A declaration is seen from exactly there, whether
the name was declared before or not (`Scopes.lookup?_bind_of_inView`,
`Scopes.lookup?_bind_of_not_inView`), and an assignment is a declaration in the nearest scope that
has the name already. That both agree with each other and with looking a name up is
`Scopes.lookup_agrees`.
-/

namespace ArrayLang

namespace Scopes

/-! ## What is in view -/

/-- Looking for `x` from `e` outward, one comes to `d` before any other scope that declares it. -/
def InView (s : Scopes) (x : Name) (e d : ScopeId) : Prop :=
  ∃ near far, s.chain e = near ++ d :: far ∧ ∀ a ∈ near, s.declares a x = false

/-- `d` is the nearest scope from `e` outward that declares `x`, with a value or without one. -/
structure Nearest (s : Scopes) (x : Name) (e d : ScopeId) : Prop where
  inView : s.InView x e d
  declares : s.declares d x = true

variable {s t : Scopes} {a d e : ScopeId} {x y : Name} {b : Binding} {v : Value}

/-- The holder is the nearest scope on the chain that declares the name. -/
theorem holder?_eq_some_iff : s.holder? e x = some d ↔ s.Nearest x e d := by
  rw [holder?_eq_find?_chain, List.find?_eq_some_iff_append]
  constructor
  · rintro ⟨hd, near, far, hchain, hnear⟩
    exact ⟨⟨near, far, hchain, by simpa using hnear⟩, hd⟩
  · rintro ⟨⟨near, far, hchain, hnear⟩, hd⟩
    exact ⟨hd, near, far, hchain, by simpa using hnear⟩

/-- A scope in view lies on the chain. -/
theorem InView.mem_chain (h : s.InView x e d) : d ∈ s.chain e := by
  obtain ⟨near, far, hchain, -⟩ := h
  simp [hchain]

theorem InView.index_lt (h : s.InView x e d) : d.index < s.size := index_lt_of_mem_chain h.mem_chain

/-- A scope of the chain that is not in view is hidden by one before it. -/
theorem exists_hiding (hd : d ∈ s.chain e) (h : ¬ s.InView x e d) :
    ∃ near far, s.chain e = near ++ d :: far ∧ d ∉ near ∧ ∃ a ∈ near, s.declares a x = true := by
  obtain ⟨near, far, hchain, hnot⟩ := List.eq_append_cons_of_mem hd
  refine ⟨near, far, hchain, hnot, ?_⟩
  by_cases hclear : ∀ a ∈ near, s.declares a x = false
  · exact absurd ⟨near, far, hchain, hclear⟩ h
  · simpa using hclear

/-! ## Declarations -/

/-- Binding leaves chains alone. -/
theorem chain_bind : (s.bind d x b).chain e = s.chain e := by
  induction hk : e.index using Nat.strongRecOn generalizing e with
  | ind k ih =>
      rw [chain_eq, chain_eq s, size_bind, parent?_bind]
      cases hp : s.parent? e with
      | none => rfl
      | some p =>
          have hlt : p.index < k := hk ▸ index_lt_of_parent? hp
          simp only [ih p.index hlt rfl]

theorem declares_bind_of_ne (h : (a, y) ≠ (d, x)) :
    (s.bind d x b).declares a y = s.declares a y := by
  unfold declares
  rw [find?_bind, if_neg]
  rintro ⟨rfl, rfl, -⟩
  exact h rfl

/-- The name that was bound is found with its new binding. -/
theorem find?_bind_self (h : d.index < s.size) : (s.bind d x b).find? d x = some b := by
  rw [find?_bind, if_pos ⟨rfl, rfl, h⟩]

/-- A declaration becomes the nearest one from where its scope is in view. -/
theorem holder?_bind_of_inView (h : s.InView x e d) : (s.bind d x b).holder? e x = some d := by
  have hself := find?_bind_self (x := x) (b := b) h.index_lt
  obtain ⟨near, far, hchain, hnear⟩ := h
  rw [holder?_eq_find?_chain, chain_bind, hchain, List.find?_append]
  -- a scope that stands before `d` is another one or declares the name by now
  cases hfirst : near.find? fun a => (s.bind d x b).declares a x with
  | none => simp [declares, hself]
  | some a =>
      have ha := hnear a (List.mem_of_find?_eq_some hfirst)
      have hdecl := List.find?_some (p := fun a => (s.bind d x b).declares a x) hfirst
      by_cases had : a = d
      · simp [had]
      · rw [declares_bind_of_ne (by simp [had]), ha] at hdecl
        cases hdecl

/-- From elsewhere the nearest declaration stays the same. -/
theorem holder?_bind_of_not_inView (h : ¬ s.InView x e d) :
    (s.bind d x b).holder? e x = s.holder? e x := by
  have hsame : ∀ l : List ScopeId, d ∉ l →
      (l.find? fun a => (s.bind d x b).declares a x) = l.find? fun a => s.declares a x := by
    intro l hl
    apply List.find?_congr
    intro a ha
    apply declares_bind_of_ne
    rintro ⟨rfl, -⟩
    exact hl ha
  rw [holder?_eq_find?_chain, holder?_eq_find?_chain, chain_bind]
  by_cases hd : d ∈ s.chain e
  · obtain ⟨near, far, hchain, hnot, a, ha, hdecl⟩ := exists_hiding hd h
    have hsome : (near.find? fun a => s.declares a x).isSome := by
      rw [List.find?_isSome]
      exact ⟨a, ha, hdecl⟩
    -- the search is over before it comes to `d`
    rw [hchain, List.find?_append, List.find?_append, hsame near hnot]
    obtain ⟨c, hc⟩ := Option.isSome_iff_exists.mp hsome
    simp [hc]
  · exact hsame _ hd

theorem holder?_bind_of_ne (h : y ≠ x) : (s.bind d x b).holder? e y = s.holder? e y := by
  have hdecl : ∀ a, (s.bind d x b).declares a y = s.declares a y := by
    intro a
    apply declares_bind_of_ne
    simp [h]
  simp only [holder?_eq_find?_chain, chain_bind, hdecl]

/-! ## Looking up after a declaration -/

/-- **A declaration is seen from where its scope is in view.** If it gives no value, the search ends
there without one. -/
theorem lookup?_bind_of_inView (h : s.InView x e d) : (s.bind d x b).lookup? e x = b.value? := by
  simp [lookup?, holder?_bind_of_inView h, find?_bind_self h.index_lt]

/-- **From elsewhere it is not seen.** -/
theorem lookup?_bind_of_not_inView (h : ¬ s.InView x e d) :
    (s.bind d x b).lookup? e x = s.lookup? e x := by
  unfold lookup?
  rw [holder?_bind_of_not_inView h]
  cases hholder : s.holder? e x with
  | none => rfl
  | some a =>
      have had : a ≠ d := by
        rintro rfl
        exact h (holder?_eq_some_iff.mp hholder).inView
      have hfind : (s.bind d x b).find? a x = s.find? a x := by
        rw [find?_bind, if_neg (fun hat => had hat.1)]
      simp [hfind]

/-- Other names are read as before. -/
theorem lookup?_bind_of_ne (h : y ≠ x) : (s.bind d x b).lookup? e y = s.lookup? e y := by
  have hfind : ∀ a, (s.bind d x b).find? a y = s.find? a y := by
    intro a
    rw [find?_bind, if_neg (fun hat => h hat.2.1)]
  simp only [lookup?, holder?_bind_of_ne h, hfind]

/-! ## Assignments -/

/-- There is a nearest declaration exactly if there is one at all on the chain. -/
theorem exists_nearest_iff : (∃ d, s.Nearest x e d) ↔ ∃ d ∈ s.chain e, s.declares d x = true := by
  simp only [← holder?_eq_some_iff]
  rw [← Option.isSome_iff_exists, holder?_eq_find?_chain, List.find?_isSome]

/-- An assignment is a declaration in the nearest scope that has the name already. -/
theorem assign?_eq_some_iff_nearest :
    s.assign? e x v = some t ↔ ∃ d, s.Nearest x e d ∧ t = s.define d x v := by
  simp only [assign?_eq_some_iff, holder?_eq_some_iff]

/-- What has become of the scopes once `x`, which `d` declares, was given the value `v` there. -/
structure Rebound (s t : Scopes) (d : ScopeId) (x : Name) (v : Value) : Prop
    extends s.DiffersOnlyAt t d x where
  bound : t.find? d x = some (.bound v)
  seen : ∀ e, s.Nearest x e d → t.lookup? e x = some v
  unseen : ∀ e, ¬ s.Nearest x e d → t.lookup? e x = s.lookup? e x
  others : ∀ e y, y ≠ x → t.lookup? e y = s.lookup? e y

/-- Defining a name that the scope declares rebinds it. -/
theorem rebound_define (h : s.declares d x = true) : s.Rebound (s.define d x v) d x v where
  toDiffersOnlyAt := differsOnlyAt_define h
  bound := find?_define_self h
  seen e he := lookup?_bind_of_inView he.inView
  unseen e he := by
    apply lookup?_bind_of_not_inView
    intro hview
    exact he ⟨hview, h⟩
  others e y hne := lookup?_bind_of_ne hne

/-- **Looking up, assigning and declaring agree on chains of scopes.** The scopes may be chained in
any way, and chains may share their outer parts. An assignment from `e` succeeds exactly if a scope
of the chain of `e` declares the name, be it without a value; otherwise it is an error, and all
scopes stay as they are. What it changes is the binding in the nearest scope that declares the name:
no other binding, no parent and no set of names. The value is seen from every scope that has its
nearest declaration there; from all others, and for all other names, what is seen stays the same. A
declaration in `e` is seen from exactly those scopes whose chain comes to `e` before it comes to any
other scope with the name. -/
theorem lookup_agrees (s : Scopes) (e : ScopeId) (x : Name) (v : Value) :
    ((∃ t, s.assign? e x v = some t) ↔ ∃ d ∈ s.chain e, s.declares d x = true) ∧
    (∀ c m, m.scopes = s → (∀ d ∈ s.chain e, s.declares d x = false) →
      Eval.store c x v e m =
        .finished (.error (.of (.undefinedVariable (c.names.lookup x)))) m) ∧
    (∀ t, s.assign? e x v = some t → ∃ d, s.Nearest x e d ∧ s.Rebound t d x v) ∧
    (∀ f, s.InView x f e → (s.define e x v).lookup? f x = some v) ∧
    (∀ f, ¬ s.InView x f e → (s.define e x v).lookup? f x = s.lookup? f x) ∧
    (∀ f y, y ≠ x → (s.define e x v).lookup? f y = s.lookup? f y) := by
  -- an assignment rebinds the nearest declaration, so it succeeds where there is one
  have hassigns : (∃ t, s.assign? e x v = some t) ↔ ∃ d ∈ s.chain e, s.declares d x = true := by
    rw [← exists_nearest_iff]
    simp only [assign?_eq_some_iff_nearest]
    constructor
    · rintro ⟨t, d, hd, -⟩
      exact ⟨d, hd⟩
    · rintro ⟨d, hd⟩
      exact ⟨_, d, hd, rfl⟩
  refine ⟨hassigns, ?_, ?_, fun f hf => lookup?_bind_of_inView hf,
    fun f hf => lookup?_bind_of_not_inView hf, fun f y hne => lookup?_bind_of_ne hne⟩
  · rintro c m rfl hnone
    have hrefused : m.scopes.assign? e x v = none := by
      rw [Option.eq_none_iff_forall_ne_some]
      intro t ht
      obtain ⟨d, hd, hdecl⟩ := hassigns.mp ⟨t, ht⟩
      rw [hnone d hd] at hdecl
      cases hdecl
    simp [Eval.store, hrefused]
  · intro t ht
    obtain ⟨d, hd, rfl⟩ := assign?_eq_some_iff_nearest.mp ht
    exact ⟨d, hd, rebound_define hd.declares⟩

/-- Two scopes inside of the outermost one, which gives the left argument a value; the first of them
hides it, also from a scope of its own. -/
def forked : Scopes :=
  let outer := Scopes.empty.outermost.2.define ⟨0⟩ .leftArgument (.bool true)
  let inner := (outer.child ⟨0⟩).2.defineAbsent ⟨1⟩ .leftArgument
  ((inner.child ⟨1⟩).2.child ⟨0⟩).2

/-- Assigned to from the innermost scope, the left argument gets a value where it was hidden, and
the other side of the fork still sees the outermost scope. -/
theorem lookup_agrees_forked :
    ∃ t, forked.assign? ⟨2⟩ .leftArgument (.bool false) = some t ∧
      forked.Rebound t ⟨1⟩ .leftArgument (.bool false) ∧
      t.lookup? ⟨2⟩ .leftArgument = some (.bool false) ∧
      t.lookup? ⟨3⟩ .leftArgument = some (.bool true) := by
  have hagrees := lookup_agrees forked ⟨2⟩ .leftArgument (.bool false)
  have hnearest : forked.holder? ⟨2⟩ .leftArgument = some ⟨1⟩ := by decide
  obtain ⟨t, ht⟩ := hagrees.1.mpr ⟨⟨1⟩, by decide, by decide⟩
  obtain ⟨d, hd, hrebound⟩ := hagrees.2.2.1 t ht
  obtain rfl : ⟨1⟩ = d := Option.some.inj (hnearest.symm.trans (holder?_eq_some_iff.mpr hd))
  refine ⟨t, ht, hrebound, hrebound.seen _ hd, ?_⟩
  rw [hrebound.unseen]
  · rfl
  · intro hother
    have hseen := holder?_eq_some_iff.mpr hother
    revert hseen
    decide

end Scopes

end ArrayLang
