import ArrayLang.Proofs.Evaluation.Control
import ArrayLang.Proofs.Evaluation.Licence

/-!
# The questions of an evaluation

While a request is answered, other requests come up: the questions of its step, their questions,
and so on. `Eval.Leads c q m q' m'` says that answering `q` on the machine `m` comes to the question
`q'` on the machine `m'`, at any depth and with everything before it answered by the evaluator.

* `Contract.ends_of_leads` — the rule of recursion, for contracts that only have to be kept on the
  way from one request.
* `Eval.Within.meets` — what a step does that stays within a licence, given what its questions do.
-/

namespace ArrayLang

/-! ## Questions of one step -/

namespace Progress

variable {α : Type} {answers : Request → Machine → Except EvalError Value → Machine → Prop}
  {p : Progress α} {k : Contract} {post : Except EvalError α → Machine → Prop} {d : Panic → Prop}
  {q : Request} {m m' : Machine} {r : Except EvalError α}

/-- The step comes to this question on this machine when those before it are answered as `answers`
says. -/
inductive Puts (answers : Request → Machine → Except EvalError Value → Machine → Prop) :
    Progress α → Request → Machine → Prop
  | here {q : Request} {m : Machine} {resume : Except EvalError Value → Machine → Progress α} :
      Puts answers (.asks q m resume) q m
  | later {q q' : Request} {m m' m'' : Machine} {r : Except EvalError Value}
      {resume : Except EvalError Value → Machine → Progress α} (hr : answers q m r m')
      (h : Puts answers (resume r m') q' m'') : Puts answers (.asks q m resume) q' m''

/-- Whoever may get more answers puts more questions. -/
theorem Puts.mono {answers' : Request → Machine → Except EvalError Value → Machine → Prop}
    (h : p.Puts answers q m) (himp : ∀ q m r m', answers q m r m' → answers' q m r m') :
    p.Puts answers' q m := by
  induction h with
  | here => exact .here
  | later hr _ ih => exact .later (himp _ _ _ _ hr) ih

/-- Whatever the step comes to ask is allowed by its contract, as long as the answers keep it. -/
theorem Meets.requires_of_puts (h : p.Meets k post d) (hp : p.Puts answers q m)
    (hans : ∀ q m r m', p.Puts answers q m → k.requires q m → answers q m r m' →
      k.ensures q m r m') : k.requires q m := by
  induction hp with
  | here => exact h.1
  | later hr _ ih =>
      obtain ⟨hreq, hres⟩ := h
      exact ih (hres _ _ (hans _ _ _ _ .here hreq hr)) fun _ _ _ _ hput =>
        hans _ _ _ _ (.later hr hput)

/-- As `Meets.of_resolve`, where only the questions that are put have to keep the contract. -/
theorem Meets.of_resolve_of_puts {answer : Request → Machine → Outcome Value}
    (h : p.Meets k post d)
    (hans : ∀ q m r m', p.Puts (fun q m r m' => answer q m = .finished r m') q m →
      k.requires q m → answer q m = .finished r m' → k.ensures q m r m')
    (hr : p.resolve answer = .finished r m) : post r m := by
  induction p with
  | finished r' m' =>
      cases hr
      exact h
  | asks q m' resume ih =>
      obtain ⟨hreq, hres⟩ := h
      simp only [resolve] at hr
      split at hr
      · next r₁ m₁ hq =>
          refine ih r₁ m₁ (hres r₁ m₁ (hans q m' r₁ m₁ .here hreq hq)) (fun _ _ _ _ hput => ?_) hr
          exact hans _ _ _ _ (.later hq hput)
      · cases hr
      · cases hr
  | panics why => cases hr

end Progress

/-! ## Questions at any depth -/

namespace Eval

variable {α : Type} {c : Context} {q q' q'' : Request} {m m' m'' : Machine}

/-- A step comes to this question when the evaluator answers those before it. -/
def Puts (c : Context) (x : Eval α) (m : Machine) (q : Request) (m' : Machine) : Prop :=
  (x m).Puts (fun q m r m' => Ends c (step c q) m r m') q m'

/-- Answering `q` on `m` comes to the question `q'` on `m'`, however deep it is nested. -/
inductive Leads (c : Context) (q : Request) (m : Machine) : Request → Machine → Prop
  | refl : Leads c q m q m
  | tail {q' q'' : Request} {m' m'' : Machine} (h : Leads c q m q' m')
      (hp : Puts c (step c q') m' q'' m'') : Leads c q m q'' m''

/-- Questions lead on from where others have led. -/
theorem Leads.trans (h : Leads c q m q' m') (h' : Leads c q' m' q'' m'') :
    Leads c q m q'' m'' := by
  induction h' with
  | refl => exact h
  | tail _ hp ih => exact ih.tail hp

/-- A path may be told from its first question on. -/
theorem Leads.head (hp : Puts c (step c q) m q' m') (h : Leads c q' m' q'' m'') :
    Leads c q m q'' m'' := (Leads.refl.tail hp).trans h

end Eval

namespace Contract

open Eval

variable {c : Context} {k : Contract} {q q' : Request} {m m' m'' : Machine}

/-- **The rule of recursion, from one request on.** If all steps keep the contract to which the
request leads, those requests do that end. -/
theorem ends_of_leads
    (h : ∀ q' m', Leads c q m q' m' → k.requires q' m' → (step c q' m').Meets k (k.ensures q' m'))
    (hl : Leads c q m q' m') (hreq : k.requires q' m') {r : Except EvalError Value}
    (hr : Ends c (step c q') m' r m'') : k.ensures q' m' r m'' := by
  obtain ⟨depth, hrun⟩ := ends_step_iff.mp hr
  clear hr
  induction depth generalizing q' m' r m'' with
  | zero => cases hrun
  | succ depth ih =>
      refine (h q' m' hl hreq).of_resolve_of_puts (fun q₁ m₁ r₁ m₂ hput hreq₁ hr₁ => ?_) hrun
      -- the questions are put at this depth, and so when the evaluator answers them
      have hput' : Puts c (step c q') m' q₁ m₁ :=
        hput.mono fun _ _ _ _ h => ends_step_iff.mpr ⟨depth, h⟩
      exact ih (hl.tail hput') hreq₁ hr₁

/-- Every request to which one leads that a kept contract allows is allowed by it. -/
theorem KeptBy.requires_of_leads (h : k.KeptBy c) (hl : Leads c q m q' m')
    (hreq : k.requires q m) : k.requires q' m' := by
  induction hl with
  | refl => exact hreq
  | tail _ hput ih =>
      exact (h _ _ ih).requires_of_puts hput fun _ _ _ _ _ hreq hr => h.ends hreq hr

end Contract

/-! ## Steps within a licence -/

/-- A property of machines that whatever the licence permits keeps. -/
structure Licence.Invariant (l : Licence) (I : Machine → Prop) : Prop where
  arena : ∀ m, I m → m.arena = l.arena
  lookup : ∀ m x v, I m → m.scopes.lookup? l.scope x = some v → l.value v
  define : ∀ m x v, I m → l.assigns x → l.value v →
    I { m with scopes := m.scopes.define l.scope x v }
  store : ∀ m x v scopes, I m → l.selects x → l.value v →
    m.scopes.assign? l.scope x v = some scopes → I { m with scopes }

namespace Eval

variable {α : Type} {c : Context} {k : Contract} {l : Licence} {I : Machine → Prop}
  {p : α → Prop} {x : Eval α} {m : Machine}

/-- **A step within a licence keeps an invariant of it** if the answers to its questions do, and
comes to panic only as the licence lets it. -/
theorem Within.meets_or {d : Panic → Prop} (h : Within c l p x) (hI : l.Invariant I)
    (hd : ∀ why, l.panics why → d why)
    (hask : ∀ q m, l.Asks q → I m →
      k.requires q m ∧ ∀ r m', k.ensures q m r m' → I m' ∧ l.Allows l.value r) (hm : I m) :
    (x m).Meets k (fun r m' => I m' ∧ l.Allows p r) d := by
  induction h generalizing m with
  | result h => exact ⟨hm, h⟩
  | bind _ _ ihx ihf =>
      exact (ihx hm).bind (fun a m' ⟨hm', ha⟩ => ihf a ha hm') fun e m' ⟨hm', he⟩ => ⟨hm', he⟩
  | locating _ s ih =>
      refine (ih hm).mapEnd (fun _ _ h => h) fun e m' ⟨hm', he⟩ => ⟨hm', ?_⟩
      show l.fails (e.locate s).cause
      rw [EvalError.cause_locate]
      exact he
  | arena => exact ⟨hm, hI.arena m hm⟩
  | @found _ o h =>
      cases o with
      | none => exact hd _ (h rfl)
      | some a => exact ⟨hm, rfl⟩
  | @lookup x h =>
      unfold variableValue
      split
      · next v hv => exact ⟨hm, hI.lookup m x v hm hv⟩
      · exact ⟨hm, h⟩
  | define hx hv => exact ⟨hI.define m _ _ hm hx hv, trivial⟩
  | store hx hv h =>
      unfold Eval.store
      split
      · next scopes hs => exact ⟨hI.store m _ _ scopes hm hx hv hs, trivial⟩
      · exact ⟨hm, h⟩
  | asks hq _ _ ih =>
      -- the contract promises of the answer what the licence expects of it
      obtain ⟨hreq, hans⟩ := hask _ m hq hm
      refine ⟨hreq, fun r m' hr => ?_⟩
      obtain ⟨hm', hr'⟩ := hans r m' hr
      exact ih r hr' hm'
  | panics h => exact hd _ h

/-- A step within a licence keeps an invariant that every question of the licence keeps, whatever
contract the questions have. -/
theorem Within.meets (h : Within c l p x) (hI : l.Invariant I)
    (hask : ∀ q m, l.Asks q → I m →
      k.requires q m ∧ ∀ r m', k.ensures q m r m' → I m' ∧ l.Allows l.value r) (hm : I m) :
    (x m).Meets k fun r m' => I m' ∧ l.Allows p r :=
  h.meets_or hI (fun _ _ => trivial) hask hm

/-- Whatever a step comes to ask is answered, if the step ends. -/
theorem Puts.exists_run {depth : Nat} {r : Except EvalError α} {q : Request} {m' n : Machine}
    (h : Puts c x m q n) (hr : (x m).resolve (run c depth) = .finished r m') :
    ∃ r' n', run c depth q n = .finished r' n' := by
  change (x m).Puts _ q n at h
  generalize x m = p at h hr
  induction h with
  | here =>
      simp only [Progress.resolve] at hr
      split at hr
      · next r' n' hq => exact ⟨r', n', hq⟩
      · cases hr
      · cases hr
  | later hans _ ih =>
      simp only [Progress.resolve] at hr
      split at hr
      · next r' n' hq =>
          obtain ⟨rfl, rfl⟩ := (ends_step_iff.mpr ⟨depth, hq⟩).unique hans
          exact ih hr
      · cases hr
      · cases hr

/-- **Induction over an evaluation**: what holds of how a request ends if it holds of how the
questions of its step end, holds of how every request ends. -/
theorem Ends.induction {Q : Request → Machine → Except EvalError Value → Machine → Prop}
    {q : Request} {m m' : Machine} {r : Except EvalError Value} (h : Ends c (step c q) m r m')
    (hstep : ∀ q m r m', Ends c (step c q) m r m' →
      (∀ q₁ m₁ r₁ m₂, Puts c (step c q) m q₁ m₁ → Ends c (step c q₁) m₁ r₁ m₂ → Q q₁ m₁ r₁ m₂) →
        Q q m r m') : Q q m r m' := by
  obtain ⟨depth, hrun⟩ := ends_step_iff.mp h
  induction depth generalizing q m r m' with
  | zero => cases hrun
  | succ depth ih =>
      refine hstep q m r m' h fun q₁ m₁ r₁ m₂ hput hend => ?_
      -- the question is answered at a smaller depth, and by the same ending
      obtain ⟨r', n', hq⟩ := hput.exists_run hrun
      obtain ⟨rfl, rfl⟩ := (ends_step_iff.mpr ⟨depth, hq⟩).unique hend
      exact ih hend hq

/-- A question ends with an answer, from which the rest goes on. -/
theorem ends_asks_iff {q : Request} {f : Except EvalError Value → Machine → Progress α}
    {r : Except EvalError α} {m' : Machine} :
    Ends c (fun m => .asks q m f) m r m' ↔
      ∃ s n, Ends c (step c q) m s n ∧ Ends c (f s) n r m' := by
  constructor
  · rintro ⟨d, hd⟩
    simp only [Progress.resolve] at hd
    split at hd
    · next s n hq => exact ⟨s, n, ends_step_iff.mpr ⟨d, hq⟩, ⟨d, hd⟩⟩
    · cases hd
    · cases hd
  · rintro ⟨s, n, hq, ⟨d', hf⟩⟩
    obtain ⟨d, hq⟩ := ends_step_iff.mp hq
    -- a depth that is enough for the question and for what follows
    refine ⟨max d d', ?_⟩
    simp only [Progress.resolve]
    rw [run_eq_of_le (Nat.le_max_left d d') (by simp [hq]), hq]
    exact resolve_run_of_le (Nat.le_max_right d d') hf

/-- A question of a composed step is one of its first part, or of the second once the first has
ended. -/
theorem Puts.of_bind {β : Type} {x : Eval α} {f : α → Eval β} {q : Request} {m' : Machine}
    (h : Puts c (x >>= f) m q m') :
    Puts c x m q m' ∨ ∃ a s, Ends c x m (.ok a) s ∧ Puts c (f a) s q m' := by
  change ((x m).bind fun a s => f a s).Puts _ q m' at h
  show (x m).Puts _ q m' ∨ ∃ a s, (∃ d, (x m).resolve (run c d) = .finished (.ok a) s) ∧ _
  -- on the states that the first part goes through
  generalize x m = p at h ⊢
  induction p with
  | finished r s =>
      cases r with
      | ok a => exact .inr ⟨a, s, ⟨0, rfl⟩, h⟩
      | error e => cases h
  | asks q' m₁ resume ih =>
      cases h with
      | here => exact .inl .here
      | @later _ _ _ s _ r _ hr h =>
          rcases ih _ _ h with hput | ⟨a, t, hends, hput⟩
          · exact .inl (.later hr hput)
          · exact .inr ⟨a, t, (ends_asks_iff (m := m₁)).mpr ⟨r, s, hr, hends⟩, hput⟩
  | panics why => cases h

/-- The questions of the first part of a composed step are questions of it. -/
theorem Puts.bind_left {β : Type} {x : Eval α} {f : α → Eval β} {q : Request} {m' : Machine}
    (h : Puts c x m q m') : Puts c (x >>= f) m q m' := by
  show ((x m).bind fun a s => f a s).Puts _ q m'
  change (x m).Puts _ q m' at h
  generalize x m = p at h ⊢
  induction h with
  | here => exact .here
  | later hr _ ih => exact .later hr ih

/-- So are those of the second part, once the first has ended. -/
theorem Puts.bind_right {β : Type} {x : Eval α} {f : α → Eval β} {q : Request} {m' s : Machine}
    {a : α} (hx : Ends c x m (.ok a) s) (h : Puts c (f a) s q m') : Puts c (x >>= f) m q m' := by
  obtain ⟨d, hd⟩ := hx
  show ((x m).bind fun a s => f a s).Puts _ q m'
  generalize x m = p at hd ⊢
  induction p with
  | finished r s =>
      cases hd
      exact h
  | asks q' m₁ resume ih =>
      simp only [Progress.resolve] at hd
      split at hd
      · next r n hq => exact .later (ends_step_iff.mpr ⟨d, hq⟩) (ih r n hd)
      · cases hd
      · cases hd
  | panics why => cases hd

theorem puts_congr {x y : Eval α} {q : Request} {m' : Machine} (h : x m = y m) :
    Puts c x m q m' ↔ Puts c y m q m' := by
  unfold Puts
  rw [h]

/-- Two steps put the questions of the first, and those of the second on every machine that the
first one leaves with a value. -/
theorem puts_bind_iff {β : Type} {x : Eval α} {f : α → Eval β} {q : Request} {m' : Machine} :
    Puts c (x >>= f) m q m' ↔
      Puts c x m q m' ∨ ∃ a s, Ends c x m (.ok a) s ∧ Puts c (f a) s q m' := by
  constructor
  · exact Puts.of_bind
  · rintro (h | ⟨a, s, hx, h⟩)
    · exact h.bind_left
    · exact Puts.bind_right hx h

end Eval

end ArrayLang
