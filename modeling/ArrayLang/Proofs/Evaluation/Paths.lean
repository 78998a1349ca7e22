import ArrayLang.Proofs.Evaluation.Moments

/-!
# Requests in progress

While a question is answered, the requests around it wait for the answer. `Eval.Path` is the way
from a request down to a question with those that wait on it, which is what the native stack of a
recursive evaluator has, and what the loop has on its list: whatever question the loop is at, it has
come there on a path with as many requests as it has pending steps (`Eval.Later.exists_path`).
-/

namespace ArrayLang

/-! ## States of one step -/

namespace Progress

variable {α : Type} {answers : Request → Machine → Except EvalError Value → Machine → Prop}
  {p s : Progress α} {q : Request} {m : Machine}

/-- The step comes to this state as its questions are answered. -/
inductive ComesTo (answers : Request → Machine → Except EvalError Value → Machine → Prop)
    (p : Progress α) : Progress α → Prop
  | refl : ComesTo answers p p
  | answered {q : Request} {m m' : Machine} {r : Except EvalError Value}
      {resume : Except EvalError Value → Machine → Progress α}
      (h : ComesTo answers p (.asks q m resume)) (hr : answers q m r m') :
      ComesTo answers p (resume r m')

/-- What is asked later on is asked by the step. -/
theorem ComesTo.puts (h : p.ComesTo answers s) (hs : s.Puts answers q m) : p.Puts answers q m := by
  induction h with
  | refl => exact hs
  | answered _ hr ih => exact ih (.later hr hs)

end Progress

namespace Eval

variable {c : Context} {q q' : Request} {m m' : Machine} {s : Progress Value}
  {r : Except EvalError Value}

/-- The answers that the evaluator gives. -/
def Answers (c : Context) (q : Request) (m : Machine) (r : Except EvalError Value) (m' : Machine) :
    Prop := Ends c (step c q) m r m'

/-- A step ends as the state does that it has come to. -/
theorem ends_of_comesTo {p : Progress Value} (h : p.ComesTo (Answers c) s)
    (hs : Ends c (fun _ => s) m r m') : Ends c (fun _ => p) m r m' := by
  induction h with
  | refl => exact hs
  | answered _ hr ih =>
      refine ih ?_
      obtain ⟨depth, hdepth⟩ := (ends_asks_iff (c := c)).mpr ⟨_, _, hr, hs⟩
      exact ⟨depth, hdepth⟩

/-! ## Paths -/

/-- Answering `q` on `m` has come to the question `q'` on `m'`. Those that wait for its answer are
listed, each with the machine on which it was put and the innermost one first. -/
inductive Path (c : Context) (q : Request) (m : Machine) :
    List (Request × Machine) → Request → Machine → Prop
  | start : Path c q m [] q m
  | step {pending : List (Request × Machine)} {q' q'' : Request} {m' m'' : Machine}
      (h : Path c q m pending q' m') (hp : Puts c (step c q') m' q'' m'') :
      Path c q m ((q', m') :: pending) q'' m''

/-! ## The list of the loop -/

/-- The steps on the list of the loop, and the requests that they are steps for, each of them where
it has put the question to the next one. -/
inductive Waits (c : Context) (q : Request) (m : Machine) :
    List Pending → List (Request × Machine) → Request → Machine → Prop
  | start : Waits c q m [] [] q m
  | push {waiting : List Pending} {pending : List (Request × Machine)} {q' q'' : Request}
      {m' m'' : Machine} {resume : Pending} (h : Waits c q m waiting pending q' m')
      (hasks : (step c q' m').ComesTo (Answers c) (.asks q'' m'' resume)) :
      Waits c q m (resume :: waiting) ((q', m') :: pending) q'' m''

/-- Read from the list of the loop, the steps that wait are a path to the question at hand. -/
theorem Waits.path {waiting : List Pending} {pending : List (Request × Machine)}
    (h : Waits c q m waiting pending q' m') :
    Path c q m pending q' m' ∧ pending.length = waiting.length := by
  induction h with
  | start => exact ⟨.start, rfl⟩
  | push _ hasks ih =>
      obtain ⟨hpath, hlength⟩ := ih
      exact ⟨hpath.step (hasks.puts .here), congrArg (· + 1) hlength⟩

/-- At every moment the loop has a step at hand for a request that those on its list wait for. -/
theorem Later.exists_waits {t : Moment} (h : Later c (.start c q m) t) :
    ∃ pending q' m', Waits c q m t.waiting pending q' m' ∧
      (Eval.step c q' m').ComesTo (Answers c) t.now := by
  induction h with
  | refl => exact ⟨[], q, m, .start, .refl⟩
  | tail _ hturn ih =>
      obtain ⟨pending, q', m', hwaits, hnow⟩ := ih
      cases hturn with
      | question => exact ⟨_, _, _, hwaits.push hnow, .refl⟩
      | @answer r n resume waiting =>
          -- the request has its answer, and the one that waits for it goes on
          cases hwaits with
          | push hwaits hasks =>
              have hend : Answers c q' m' r n := by
                obtain ⟨depth, hdepth⟩ := ends_of_comesTo (m := m') hnow ⟨0, rfl⟩
                exact ⟨depth, hdepth⟩
              exact ⟨_, _, _, hwaits, hasks.answered hend⟩

/-- **The loop is at a question on a path to it**, with a pending step for each request that waits.
-/
theorem Later.exists_path {t : Moment} {resume : Pending} (h : Later c (.start c q m) t)
    (ht : t.now = .asks q' m' resume) :
    ∃ pending, Path c q m pending q' m' ∧ pending.length = t.waiting.length + 1 := by
  obtain ⟨pending, q₁, m₁, hwaits, hnow⟩ := h.exists_waits
  rw [ht] at hnow
  obtain ⟨hpath, hlength⟩ := (hwaits.push hnow).path
  exact ⟨_, hpath, hlength⟩

end Eval

end ArrayLang
