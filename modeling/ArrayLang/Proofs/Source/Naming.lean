import ArrayLang.Proofs.Registry.Interning
import Mathlib.Data.List.Induction

/-!
# The history of a table of names

A table of names is used in two ways: a text is interned, or its name is asked for. Interning is not
one step. Whoever interns a text looks for it first and adds it later, and others may use the table
in between; so before the text is added, it is looked for once more.

Whatever was done with a table, and in whatever order, its two directions agree
(`InternTable.inverse_after`). It holds the texts that came up, each of them once and in the order
in which they came up first, behind those that every table starts with
(`InternTable.toList_texts_after`). The name of a text is its number in this order, and so names and
texts correspond one to one over the whole history (`InternTable.names_one_to_one`). Once all
positions are used up, new texts are refused, and nothing else is different.
-/

namespace ArrayLang

namespace InternTable

/-- How many texts a table can hold. -/
def capacity : Nat := InternOverflow.maxIndex + 1

/-- The texts that every table starts with. -/
def builtin : List String := "" :: bound

/-! ## Uses of a table -/

/-- A use of a table of names. -/
inductive Call where
  /-- Interns a text, with nothing in between. -/
  | intern (s : String)
  /-- Goes on with interning a text that was not found. Anything may have been done with the table
  since then. -/
  | resume (s : String)
  | get (s : String)

namespace Call

/-- The text that a call interns, if any. -/
def interned? : Call → Option String
  | .intern s | .resume s => some s
  | .get _ => none

/-- The name that a table gives, if any, and the table afterwards. -/
def serve (t : InternTable) : Call → Except InternOverflow (Option Name × InternTable)
  | .intern s => (t.tryIntern s).map fun (n, t') => (some n, t')
  | .resume s => (t.add s).map fun (n, t') => (some n, t')
  | .get s => .ok (t.get? s, t)

end Call

/-- The table after a call. A text that is refused leaves it as it is. -/
def perform (t : InternTable) (call : Call) : InternTable :=
  match call.serve t with
  | .ok (_, t') => t'
  | .error _ => t

/-- The table after all calls, beginning with the one that every table is at first. -/
def after (calls : List Call) : InternTable := calls.foldl perform initial

/-- The texts that have come up, those that every table starts with before all others. -/
def seen (calls : List Call) : List String := builtin ++ calls.filterMap Call.interned?

/-- The texts that have come up, each of them where it did so first. -/
def distinct (calls : List Call) : List String := (seen calls).eraseDups

/-- The call number `i` interns the text, and the answer is the name. -/
structure Named (calls : List Call) (i : Nat) (s : String) (n : Name) : Prop where
  interned : ∃ call, calls[i]? = some call ∧ call.interned? = some s
  answer : ∀ call, calls[i]? = some call →
    ∃ t, call.serve (after (calls.take i)) = .ok (some n, t)

variable {t : InternTable} {calls l : List Call} {call : Call} {i : Nat} {s : String} {n : Name}

/-! ## Texts in the order in which they came up -/

/-- A text is kept where it came first. -/
theorem eraseDups_concat (l : List String) (s : String) :
    (l ++ [s]).eraseDups = if s ∈ l then l.eraseDups else l.eraseDups ++ [s] := by
  rw [List.eraseDups_append]
  by_cases hs : s ∈ l <;> simp [hs, List.removeAll, List.eraseDups_cons]

/-- No text is kept twice. -/
theorem nodup_eraseDups (l : List String) : l.eraseDups.Nodup := by
  induction l using List.reverseRecOn with
  | nil => exact List.nodup_nil
  | append_singleton l s ih =>
      rw [eraseDups_concat]
      split
      · exact ih
      · next hs =>
          rw [← List.mem_eraseDups] at hs
          refine List.nodup_append.mpr ⟨ih, List.nodup_singleton s, ?_⟩
          intro a ha b hb hab
          rw [hab, List.mem_singleton.mp hb] at ha
          exact hs ha

theorem seen_append (calls later : List Call) :
    seen (calls ++ later) = seen calls ++ later.filterMap Call.interned? := by
  simp [seen]

/-- A text was seen if it is built in or an earlier call interned it. -/
theorem mem_seen_take_iff {k : Nat} : s ∈ seen (calls.take k) ↔
    s ∈ builtin ∨ ∃ i < k, ∃ call, calls[i]? = some call ∧ call.interned? = some s := by
  rw [seen, List.mem_append, List.mem_filterMap]
  refine or_congr_right ?_
  constructor
  · rintro ⟨call, hcall, hs⟩
    obtain ⟨i, hi⟩ := List.mem_iff_getElem?.mp hcall
    rw [List.getElem?_take, Option.ite_none_right_eq_some] at hi
    exact ⟨i, hi.1, call, hi.2, hs⟩
  · rintro ⟨i, hi, call, hcall, hs⟩
    refine ⟨call, List.mem_iff_getElem?.mpr ⟨i, ?_⟩, hs⟩
    rw [List.getElem?_take, if_pos hi, hcall]

theorem mem_distinct_iff : s ∈ distinct calls ↔ s ∈ seen calls := List.mem_eraseDups

theorem distinct_concat_of_none (calls : List Call) (h : call.interned? = none) :
    distinct (calls ++ [call]) = distinct calls := by
  rw [distinct, seen_append, List.filterMap_cons_none h]
  exact congrArg List.eraseDups (List.append_nil _)

/-- Of a call that interns, the text is new or it was seen. -/
theorem distinct_concat_of_some (calls : List Call) (h : call.interned? = some s) :
    distinct (calls ++ [call]) =
      if s ∈ distinct calls then distinct calls else distinct calls ++ [s] := by
  simp only [mem_distinct_iff]
  rw [distinct, seen_append, List.filterMap_cons_some h]
  exact eraseDups_concat _ _

/-- Texts that come up later stand behind those that were there. -/
theorem distinct_isPrefix (h : l <+: calls) : distinct l <+: distinct calls := by
  obtain ⟨later, rfl⟩ := h
  rw [distinct, distinct, seen_append, List.eraseDups_append]
  exact List.prefix_append _ _

/-- Numbers never change hands. -/
theorem getElem?_distinct_of_isPrefix (h : l <+: calls) (hs : (distinct l)[i]? = some s) :
    (distinct calls)[i]? = some s := by
  obtain ⟨later, hlater⟩ := distinct_isPrefix h
  rw [← hlater, List.getElem?_append_left (List.getElem?_eq_some_iff.mp hs).1]
  exact hs

/-- One more text changes the first ones only as long as there are not enough of them. -/
theorem take_concat (l : List String) (s : String) (count : Nat) :
    (if s ∈ l then l else l ++ [s]).take count =
      if s ∈ l.take count ∨ count ≤ (l.take count).length then l.take count
      else l.take count ++ [s] := by
  by_cases hroom : l.length < count
  · rw [List.take_of_length_le (Nat.le_of_lt hroom)]
    by_cases hs : s ∈ l
    · rw [if_pos hs, if_pos (.inl hs), List.take_of_length_le (Nat.le_of_lt hroom)]
    · have hlength : (l ++ [s]).length ≤ count := by
        rw [List.length_append]
        exact hroom
      rw [if_neg hs, if_neg (by simp [hs, hroom]), List.take_of_length_le hlength]
  · have hfull : count ≤ l.length := Nat.le_of_not_lt hroom
    have hlength : count ≤ (l.take count).length := by
      rw [List.length_take]
      exact Nat.le_min.mpr ⟨Nat.le_refl _, hfull⟩
    rw [if_pos (Or.inr hlength)]
    split
    · rfl
    · exact List.take_append_of_le_length hfull

/-! ## One call -/

/-- The map knows a text if and only if the list holds it. -/
theorem Inverse.isSome_get?_iff (h : t.Inverse) : (t.get? s).isSome ↔ s ∈ t.texts.toList := by
  rw [Option.isSome_iff_exists, List.mem_iff_getElem?]
  simp only [h.get?_eq_some_iff]
  constructor
  · rintro ⟨n, hn⟩
    exact ⟨n.index, by simpa using hn⟩
  · rintro ⟨i, hi⟩
    exact ⟨⟨i⟩, by simpa using hi⟩

/-- Interning is served in the same way whether or not others came in between. -/
theorem serve_of_interned (t : InternTable) (h : call.interned? = some s) :
    call.serve t = (t.tryIntern s).map fun (n, t') => (some n, t') := by
  cases call with
  | intern s' =>
      cases h
      rfl
  | resume s' =>
      cases h
      rw [tryIntern_eq_add]
      rfl
  | get s' => cases h

/-- Looking up changes nothing. -/
theorem perform_of_none (t : InternTable) (h : call.interned? = none) : t.perform call = t := by
  cases call with
  | intern s' | resume s' => cases h
  | get s' => rfl

/-- A text gets a name if it has one already or if there is room for another one. -/
theorem tryIntern_of_room (h : (t.get? s).isSome ∨ t.size < capacity) :
    t.tryIntern s = .ok (t.intern s) := by
  rw [tryIntern_eq_add, add, intern]
  cases hs : t.get? s with
  | some n => rfl
  | none =>
      have hroom : t.size < capacity := by simpa [hs] using h
      exact if_neg (Nat.not_lt.mpr (Nat.le_of_lt_succ hroom))

/-- Otherwise it is refused. -/
theorem tryIntern_of_full (h : ¬ ((t.get? s).isSome ∨ t.size < capacity)) :
    t.tryIntern s = .error ⟨t.size⟩ := by
  rw [not_or, Nat.not_lt] at h
  rw [tryIntern_eq_add, add, Option.not_isSome_iff_eq_none.mp h.1]
  exact if_pos (Nat.lt_of_succ_le h.2)

/-- A text that is not refused is interned. -/
theorem serve_eq_ok_iff (hs : call.interned? = some s) :
    (∃ t', call.serve t = .ok (some n, t')) ↔
      ((t.get? s).isSome ∨ t.size < capacity) ∧ (t.intern s).1 = n := by
  rw [serve_of_interned t hs]
  by_cases hroom : (t.get? s).isSome ∨ t.size < capacity
  · simp [tryIntern_of_room hroom, hroom, Except.map]
  · simp [tryIntern_of_full hroom, hroom, Except.map]

/-- While there is room, a call interns its text. -/
theorem perform_of_room (hs : call.interned? = some s)
    (h : (t.get? s).isSome ∨ t.size < capacity) : t.perform call = (t.intern s).2 := by
  rw [perform, serve_of_interned t hs, tryIntern_of_room h]
  rfl

/-- A full table refuses new texts and stays as it is. -/
theorem perform_of_full (hs : call.interned? = some s)
    (h : ¬ ((t.get? s).isSome ∨ t.size < capacity)) : t.perform call = t := by
  rw [perform, serve_of_interned t hs, tryIntern_of_full h]
  rfl

/-- **No call makes the two directions disagree.** -/
theorem Inverse.perform (h : t.Inverse) (call : Call) : (t.perform call).Inverse := by
  cases hs : call.interned? with
  | none =>
      rw [perform_of_none t hs]
      exact h
  | some s =>
      by_cases hroom : (t.get? s).isSome ∨ t.size < capacity
      · rw [perform_of_room hs hroom]
        exact h.intern s
      · rw [perform_of_full hs hroom]
        exact h

/-- A new text is added at the end, if there is room. -/
theorem Inverse.toList_texts_perform (h : t.Inverse) (hs : call.interned? = some s) :
    (t.perform call).texts.toList =
      if s ∈ t.texts.toList ∨ capacity ≤ t.size then t.texts.toList else t.texts.toList ++ [s] := by
  simp only [← h.isSome_get?_iff]
  by_cases hroom : (t.get? s).isSome ∨ t.size < capacity
  · rw [perform_of_room hs hroom]
    cases hget : t.get? s with
    | some n => rw [intern_eq_of_get? hget, if_pos (.inl rfl)]
    | none =>
        have hlt : t.size < capacity := by simpa [hget] using hroom
        rw [intern_eq_of_get?_eq_none hget, if_neg (by simpa using hlt),
          InternTable.push, Array.toList_push]
  · rw [not_or, Nat.not_lt] at hroom
    rw [perform_of_full hs (by simpa using hroom), if_pos (.inr hroom.2)]

/-! ## All calls -/

theorem after_concat (calls : List Call) (call : Call) :
    after (calls ++ [call]) = (after calls).perform call := List.foldl_append

theorem after_take_succ (h : calls[i]? = some call) :
    after (calls.take (i + 1)) = (after (calls.take i)).perform call := by
  rw [List.take_add_one, h]
  exact after_concat _ _

/-- **The two directions agree at every moment.** -/
theorem inverse_after (calls : List Call) : (after calls).Inverse :=
  List.foldlRecOn calls perform .initial fun _ h call _ => h.perform call

/-- **A table holds the texts that came up, in their order.** These are all of them as long as there
are positions enough, and the first ones otherwise. -/
theorem toList_texts_after (calls : List Call) :
    (after calls).texts.toList = (distinct calls).take capacity := by
  induction calls using List.reverseRecOn with
  | nil => exact (List.take_of_length_le (by decide)).symm
  | append_singleton calls call ih =>
      rw [after_concat]
      cases hs : call.interned? with
      | none =>
          rw [perform_of_none _ hs, distinct_concat_of_none calls hs]
          exact ih
      | some s =>
          rw [(inverse_after calls).toList_texts_perform hs, size, ← Array.length_toList, ih,
            distinct_concat_of_some calls hs, take_concat]

/-- **After any history the map finds exactly the texts seen, by the order in which they came
first.** -/
theorem get?_after_iff :
    (after calls).get? s = some n ↔ (distinct calls)[n.index]? = some s ∧ n.index < capacity := by
  rw [(inverse_after calls).get?_eq_some_iff, ← Array.getElem?_toList, toList_texts_after,
    List.getElem?_take]
  split
  · next hlt => simp [hlt]
  · next hge => simp [hge]

/-- A name stays the name of its text. -/
theorem get?_after_of_isPrefix (h : l <+: calls) (hs : (after l).get? s = some n) :
    (after calls).get? s = some n := by
  rw [get?_after_iff] at hs ⊢
  exact ⟨getElem?_distinct_of_isPrefix h hs.1, hs.2⟩

/-- A text that has a name has had it since it came up. -/
theorem get?_after_of_mem_seen (h : l <+: calls) (hs : s ∈ seen l)
    (hn : (after calls).get? s = some n) : (after l).get? s = some n := by
  obtain ⟨i, hi⟩ := List.mem_iff_getElem?.mp (mem_distinct_iff.mpr hs)
  rw [get?_after_iff] at hn ⊢
  -- the text has one position only in their order
  have hsame : (distinct calls)[i]? = (distinct calls)[n.index]? :=
    (getElem?_distinct_of_isPrefix h hi).trans hn.1.symm
  have hlt : i < (distinct calls).length :=
    (List.getElem?_eq_some_iff.mp (getElem?_distinct_of_isPrefix h hi)).1
  obtain rfl : i = n.index := (List.getElem?_inj hlt (nodup_eraseDups _)).mp hsame
  exact ⟨hi, hn.2⟩

/-- What interning gives is what the table says afterwards. -/
theorem named_iff (hcall : calls[i]? = some call) (hs : call.interned? = some s) :
    Named calls i s n ↔ (after (calls.take (i + 1))).get? s = some n := by
  have hinverse := inverse_after (calls.take i)
  have hnamed : Named calls i s n ↔ ∃ t, call.serve (after (calls.take i)) = .ok (some n, t) := by
    constructor
    · intro h
      exact h.answer call hcall
    · intro h
      refine ⟨⟨call, hcall, hs⟩, fun call' hcall' => ?_⟩
      rw [hcall, Option.some.injEq] at hcall'
      exact hcall' ▸ h
  rw [hnamed, serve_eq_ok_iff hs, after_take_succ hcall]
  by_cases hroom : ((after (calls.take i)).get? s).isSome ∨ (after (calls.take i)).size < capacity
  · rw [perform_of_room hs hroom, hinverse.get?_intern_self, Option.some.injEq, and_iff_right hroom]
  · have hnone := Option.not_isSome_iff_eq_none.mp (not_or.mp hroom).1
    refine iff_of_false (fun h => hroom h.1) ?_
    rw [perform_of_full hs hroom, hnone]
    exact nofun

/-- The name is that which `intern` gives to the text. -/
theorem Named.name_eq (h : Named calls i s n) : ((after (calls.take i)).intern s).1 = n := by
  obtain ⟨⟨call, hcall, hs⟩, hanswer⟩ := h
  exact ((serve_eq_ok_iff hs).mp (hanswer call hcall)).2

/-- A name that was given is found ever after. -/
theorem Named.get? (h : Named calls i s n) {k : Nat} (hk : i < k) :
    (after (calls.take k)).get? s = some n := by
  obtain ⟨call, hcall, hs⟩ := h.interned
  exact get?_after_of_isPrefix (List.take_prefix_take_left hk) ((named_iff hcall hs).mp h)

/-- A text has a name if the table had it from the start or if it was interned. -/
theorem get?_after_take_iff (calls : List Call) (k : Nat) (s : String) (n : Name) :
    (after (calls.take k)).get? s = some n ↔
      builtin[n.index]? = some s ∨ ∃ i < k, Named calls i s n := by
  have hinitial : (after []).get? s = some n ↔ builtin[n.index]? = some s := by
    rw [(inverse_after []).get?_eq_some_iff, ← Array.getElem?_toList]
    rfl
  constructor
  · intro hn
    have hseen : s ∈ seen (calls.take k) := by
      rw [← mem_distinct_iff]
      exact List.mem_of_getElem? (get?_after_iff.mp hn).1
    rcases mem_seen_take_iff.mp hseen with hbuiltin | ⟨i, hi, call, hcall, hs⟩
    · have hstart := get?_after_of_mem_seen List.nil_prefix (List.mem_append_left [] hbuiltin) hn
      exact .inl (hinitial.mp hstart)
    · have hmem : s ∈ seen (calls.take (i + 1)) :=
        mem_seen_take_iff.mpr (.inr ⟨i, Nat.lt_succ_self i, call, hcall, hs⟩)
      have hthen := get?_after_of_mem_seen (List.take_prefix_take_left hi) hmem hn
      exact .inr ⟨i, hi, (named_iff hcall hs).mpr hthen⟩
  · rintro (hbuiltin | ⟨i, hi, hnamed⟩)
    · exact get?_after_of_isPrefix List.nil_prefix (hinitial.mpr hbuiltin)
    · exact hnamed.get? hi

/-- As long as there are positions enough, interning gives a name. -/
theorem named_intern (hcall : calls[i]? = some call) (hs : call.interned? = some s)
    (hroom : (distinct (calls.take (i + 1))).length ≤ capacity) :
    Named calls i s ((after (calls.take i)).intern s).1 := by
  have hmem : s ∈ distinct (calls.take (i + 1)) :=
    mem_distinct_iff.mpr (mem_seen_take_iff.mpr (.inr ⟨i, Nat.lt_succ_self i, call, hcall, hs⟩))
  obtain ⟨m, hm⟩ := List.mem_iff_getElem?.mp hmem
  have hlt : m < capacity := Nat.lt_of_lt_of_le (List.getElem?_eq_some_iff.mp hm).1 hroom
  have hnamed : Named calls i s ⟨m⟩ := (named_iff hcall hs).mpr (get?_after_iff.mpr ⟨hm, hlt⟩)
  rw [hnamed.name_eq]
  exact hnamed

/-- **Names and texts correspond one to one over the whole history of a table.** Texts may be
interned and asked for in any order, and others may come in between while a text is interned.

At every moment the dictionary and the texts by position are inverse to each other. As long as the
distinct texts, with those that every table starts with, do not exceed the positions, no text that
is interned is refused. Its name is its number in the order in which texts first came up. At any two
moments two texts get the same name exactly if they are the same, and at every later moment the name
stands for the text. Asking for a text finds a name exactly if the table had the text from the start
or if it was interned before, and it is that name; the table stays as it is. The table has as many
entries as there are distinct texts, if these do not exceed the positions, and a name outside of it
stands for the empty text. -/
theorem names_one_to_one (calls : List Call) :
    (∀ k s i, (after (calls.take k)).positions.find? s = some i ↔
      (after (calls.take k)).texts[i]? = some s) ∧
    (∀ i call s, calls[i]? = some call → call.interned? = some s →
      (distinct (calls.take (i + 1))).length ≤ capacity →
      Named calls i s ((after (calls.take i)).intern s).1) ∧
    (∀ i s n, Named calls i s n → (distinct calls)[n.index]? = some s) ∧
    (∀ i j s s' n n', Named calls i s n → Named calls j s' n' → (n = n' ↔ s = s')) ∧
    (∀ i s n, Named calls i s n → ∀ k, i < k → (after (calls.take k)).lookup n = s) ∧
    (∀ k s n, (after (calls.take k)).get? s = some n ↔
      builtin[n.index]? = some s ∨ ∃ i < k, Named calls i s n) ∧
    (∀ k s, calls[k]? = some (.get s) → after (calls.take (k + 1)) = after (calls.take k)) ∧
    (∀ k, (after (calls.take k)).size = min capacity (distinct (calls.take k)).length) ∧
    (∀ k n, (after (calls.take k)).size ≤ n.index → (after (calls.take k)).lookup n = "") := by
  -- whatever was named is found in the last table, where map and list are inverse
  have hlasting : ∀ i s n, Named calls i s n → (after calls).get? s = some n := by
    intro i s n h
    exact get?_after_of_isPrefix (List.take_prefix _ _) (h.get? (Nat.lt_succ_self i))
  refine ⟨fun k _ _ => (inverse_after (calls.take k)).find?_eq_some_iff,
    fun i call s => named_intern, ?_, ?_, ?_, get?_after_take_iff calls, ?_, ?_, ?_⟩
  · intro i s n h
    exact (get?_after_iff.mp (hlasting i s n h)).1
  · intro i j s s' n n' h h'
    have hs := hlasting i s n h
    have hs' := hlasting j s' n' h'
    rw [← (inverse_after calls).get?_eq_iff_of_some hs', hs, Option.some.injEq]
  · intro i s n h k hk
    exact (inverse_after _).lookup_of_get? (h.get? hk)
  · intro k s h
    exact after_take_succ h
  · intro k
    rw [size, ← Array.length_toList, toList_texts_after, List.length_take]
  · intro k n h
    rw [lookup, Array.getElem?_eq_none h]
    rfl

/-- `x` is interned twice. The second time, `x` and another text were added before, which somebody
else had asked for. -/
def revisited : List Call := [.intern "x", .get "y", .intern "⍵", .intern "y", .resume "x"]

/-- Both times `x` gets the same name, which stays its name, and `y` gets another one. -/
theorem names_one_to_one_revisited :
    ∃ n m, Named revisited 0 "x" n ∧ Named revisited 4 "x" n ∧ Named revisited 3 "y" m ∧ n ≠ m ∧
      (distinct revisited)[n.index]? = some "x" ∧ (after (revisited.take 3)).lookup n = "x" := by
  obtain ⟨-, hgives, horder, hsame, hlater, -⟩ := names_one_to_one revisited
  have hx := hgives 0 _ "x" rfl rfl (by decide)
  have hx' := hgives 4 _ "x" rfl rfl (by decide)
  have hy := hgives 3 _ "y" rfl rfl (by decide)
  rw [(hsame 4 0 "x" "x" _ _ hx' hx).mpr rfl] at hx'
  refine ⟨_, _, hx, hx', hy, ?_, horder 0 "x" _ hx, hlater 0 "x" _ hx 3 (by decide)⟩
  rw [ne_eq, hsame 0 3 "x" "y" _ _ hx hy]
  decide

end InternTable

end ArrayLang
