import ArrayLang.Eval.Step

/-!
# Running evaluation steps

Two ways of answering the questions of `Eval.step`.

* `run` answers each question by another step, nested to a given depth at most.
* `exec` keeps what waits for answers on a list and takes one question at a time, so its native
  stack does not grow with the nesting of the program.
-/

namespace ArrayLang.Eval

variable (c : Context)

/-- The answer to a request, with questions nested at most `depth` levels deep. -/
def run : (depth : Nat) → Request → Machine → Outcome Value
  | 0, _, _ => .unfinished
  | depth + 1, q, m => (step c q m).resolve (run depth)

/-- A step that waits for an answer. -/
abbrev Pending := Except EvalError Value → Machine → Progress Value

/-- Takes at most `count` turns: one for each question, and one for each answer that is handed to
the step that waits for it. -/
def exec : (count : Nat) → Progress Value → List Pending → Outcome Value
  | 0, _, _ => .unfinished
  | _ + 1, .panics why, _ => .panics why
  | _ + 1, .finished r m, [] => .finished r m
  | count + 1, .finished r m, resume :: waiting => exec count (resume r m) waiting
  | count + 1, .asks q m resume, waiting => exec count (step c q m) (resume :: waiting)

/-- More turns than any evaluation could take in practice. -/
def turns : Nat := Nat.pow 2 62

def answer (q : Request) (m : Machine) : Outcome Value := exec c turns (step c q m) []

/-! ### Both ways agree -/

variable {c}

/-- A deeper nesting keeps every answer. -/
theorem run_succ_eq {depth : Nat} {q : Request} {m : Machine}
    (h : run c depth q m ≠ .unfinished) : run c (depth + 1) q m = run c depth q m := by
  induction depth generalizing q m with
  | zero => exact absurd rfl h
  | succ depth ih => exact Progress.resolve_eq_of_extends (fun q m => ih) (step c q m) h

/-- More depth changes nothing about a run that is over. -/
theorem run_eq_of_le {depth depth' : Nat} (hle : depth ≤ depth') {q : Request} {m : Machine}
    (h : run c depth q m ≠ .unfinished) : run c depth' q m = run c depth q m := by
  induction hle with
  | refl => rfl
  | step _ ih => rw [run_succ_eq (by rwa [ih]), ih]

/-- A step that comes to an end keeps it when questions may be nested deeper. -/
theorem resolve_run_eq_of_le {depth depth' : Nat} (hle : depth ≤ depth') {p : Progress Value}
    (h : p.resolve (run c depth) ≠ .unfinished) :
    p.resolve (run c depth') = p.resolve (run c depth) :=
  Progress.resolve_eq_of_extends (fun _ _ => run_eq_of_le hle) p h

/-- A step that ends with a result hands it to those that wait, after some turns. -/
theorem exec_of_resolve_finished {depth : Nat} {p : Progress Value}
    {r : Except EvalError Value} {m : Machine} (h : p.resolve (run c depth) = .finished r m)
    (waiting : List Pending) :
    ∃ k, ∀ count, exec c (count + k) p waiting = exec c count (.finished r m) waiting := by
  induction depth generalizing p r m waiting with
  | zero =>
    cases p with
    | finished r' m' =>
      obtain ⟨rfl, rfl⟩ : r' = r ∧ m' = m := by simpa [Progress.resolve] using h
      exact ⟨0, fun _ => rfl⟩
    | asks q m resume => simp [Progress.resolve, run] at h
    | panics why => simp [Progress.resolve] at h
  | succ depth ihd =>
    induction p generalizing r m with
    | finished r' m' =>
      obtain ⟨rfl, rfl⟩ : r' = r ∧ m' = m := by simpa [Progress.resolve] using h
      exact ⟨0, fun _ => rfl⟩
    | asks q m' resume ihp =>
      simp only [Progress.resolve] at h
      split at h
      · next r₁ m₁ hq =>
        -- one turn for the question, then its own turns, one for the answer, and those of the rest
        obtain ⟨k₁, h₁⟩ := ihd hq (resume :: waiting)
        obtain ⟨k₂, h₂⟩ := ihp r₁ m₁ h
        refine ⟨k₂ + 1 + k₁ + 1, fun count => ?_⟩
        rw [← h₂ count,
          show count + (k₂ + 1 + k₁ + 1) = count + (k₂ + 1) + k₁ + 1 by omega]
        exact h₁ (count + (k₂ + 1))
      · simp at h
      · simp at h
    | panics why => simp [Progress.resolve] at h

/-- A step that panics ends the whole evaluation, after some turns. -/
theorem exec_of_resolve_panics {depth : Nat} {p : Progress Value} {why : Panic}
    (h : p.resolve (run c depth) = .panics why) (waiting : List Pending) :
    ∃ k, ∀ count, exec c (count + k + 1) p waiting = .panics why := by
  induction depth generalizing p waiting with
  | zero =>
    cases p with
    | finished r m => simp [Progress.resolve] at h
    | asks q m resume => simp [Progress.resolve, run] at h
    | panics why' => exact ⟨0, fun _ => h⟩
  | succ depth ihd =>
    induction p with
    | finished r m => simp [Progress.resolve] at h
    | asks q m resume ihp =>
      simp only [Progress.resolve] at h
      split at h
      · -- the panic comes behind the answer
        next r₁ m₁ hq =>
        obtain ⟨k₁, h₁⟩ := exec_of_resolve_finished hq (resume :: waiting)
        obtain ⟨k₂, h₂⟩ := ihp r₁ m₁ h
        refine ⟨k₂ + 2 + k₁, fun count => ?_⟩
        rw [← h₂ count,
          show count + (k₂ + 2 + k₁) + 1 = count + (k₂ + 2) + k₁ + 1 by omega]
        exact h₁ (count + (k₂ + 2))
      · -- or the question itself panics
        next hq =>
        cases h
        obtain ⟨k, hk⟩ := ihd hq (resume :: waiting)
        exact ⟨k + 1, hk⟩
      · simp at h
    | panics why' => exact ⟨0, fun _ => h⟩

/-- What the loop makes of a step: the step ends by itself, and those that wait are served from
there on. -/
theorem resolve_of_exec {count : Nat} {p : Progress Value} {waiting : List Pending}
    (h : exec c count p waiting ≠ .unfinished) :
    (∃ depth r m, ∃ count' ≤ count, p.resolve (run c depth) = .finished r m ∧
      exec c count' (.finished r m) waiting = exec c count p waiting) ∨
    ∃ why, (∃ depth, p.resolve (run c depth) = .panics why) ∧
      exec c count p waiting = .panics why := by
  induction count using Nat.strongRecOn generalizing p waiting with
  | _ count ih =>
    match count, p with
    | 0, p => exact absurd rfl h
    | count + 1, .finished r m => exact .inl ⟨0, r, m, count + 1, Nat.le_refl _, rfl, rfl⟩
    | count + 1, .panics why => exact .inr ⟨why, ⟨0, rfl⟩, rfl⟩
    -- by the hypothesis once for the question and once for what waits for its answer
    | count + 1, .asks q m resume =>
      have h : exec c count (step c q m) (resume :: waiting) ≠ .unfinished := h
      show (∃ depth r m', ∃ count' ≤ count + 1, _ ∧ exec c count' (.finished r m') waiting =
          exec c count (step c q m) (resume :: waiting)) ∨
        ∃ why, _ ∧ exec c count (step c q m) (resume :: waiting) = .panics why
      rcases ih count (Nat.lt_succ_self _) h with ⟨d₁, r₁, m₁, n₁, hn₁, hs, he⟩ | ⟨why, ⟨d, hd⟩, he⟩
      · rw [← he] at h ⊢
        match n₁, hn₁ with
        | 0, _ => exact absurd rfl h
        | n₁ + 1, hn₁ =>
          have h : exec c n₁ (resume r₁ m₁) waiting ≠ .unfinished := h
          -- a depth that is enough for the question is enough at every larger depth
          have hq : ∀ d, d₁ ≤ d → run c (d + 1) q m = .finished r₁ m₁ := fun d hd => by
            rw [← hs]
            exact resolve_run_eq_of_le hd (by rw [hs]; simp)
          rcases ih n₁ (by omega) h with ⟨d₂, r₂, m₂, n₂, hn₂, hr, he₂⟩ | ⟨why, ⟨d₂, hr⟩, he₂⟩
          · refine .inl ⟨max d₁ d₂ + 1, r₂, m₂, n₂, by omega, ?_, he₂⟩
            simp only [Progress.resolve, hq _ (Nat.le_max_left d₁ d₂)]
            rw [← hr]
            exact resolve_run_eq_of_le (by omega) (by rw [hr]; simp)
          · refine .inr ⟨why, ⟨max d₁ d₂ + 1, ?_⟩, he₂⟩
            simp only [Progress.resolve, hq _ (Nat.le_max_left d₁ d₂)]
            rw [← hr]
            exact resolve_run_eq_of_le (by omega) (by rw [hr]; simp)
      · refine .inr ⟨why, ⟨d + 1, ?_⟩, he⟩
        have hq : run c (d + 1) q m = .panics why := hd
        simp only [Progress.resolve, hq]

/-- The loop and the recursive reading give the same answers. -/
theorem exec_eq_iff_run_eq {q : Request} {m : Machine} {o : Outcome Value} (ho : o ≠ .unfinished) :
    (∃ count, exec c count (step c q m) [] = o) ↔ ∃ depth, run c depth q m = o := by
  constructor
  · rintro ⟨count, rfl⟩
    rcases resolve_of_exec ho with ⟨d, r, m', n, _, hs, he⟩ | ⟨why, ⟨d, hs⟩, he⟩
    · refine ⟨d + 1, ?_⟩
      rw [← he] at ho ⊢
      match n with
      | 0 => exact absurd rfl ho
      | n + 1 => exact hs
    · exact ⟨d + 1, hs.trans he.symm⟩
  · rintro ⟨depth, rfl⟩
    match depth, ho with
    | 0, ho => exact absurd rfl ho
    | depth + 1, ho =>
      match hr : run c (depth + 1) q m, ho with
      | .finished r m', _ =>
        obtain ⟨k, hk⟩ := exec_of_resolve_finished (p := step c q m) hr []
        exact ⟨1 + k, hk 1⟩
      | .panics why, _ =>
        obtain ⟨k, hk⟩ := exec_of_resolve_panics (p := step c q m) hr []
        exact ⟨0 + k + 1, hk 0⟩
      | .unfinished, ho => exact absurd rfl ho

end ArrayLang.Eval
