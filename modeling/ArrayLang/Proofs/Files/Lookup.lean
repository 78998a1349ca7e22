import ArrayLang.Proofs.Files.Calls

/-!
# The mount that serves a path

Which mounts are there, and in which order, follows from the calls that have been made: a mount is
there from the call that made it until its point is cleared (`MountTable.StillMounted`). A path is
served by the latest of them that contains it (`MountTable.find_after_eq_ok_iff`), and containing
means what it says for whole components: the point is the root, or the path itself, or what stands
before a slash of the path.
-/

namespace ArrayLang

namespace Path

/-- What is found behind a text was written there. -/
theorem behind?_eq_some_iff {start text rest : String} :
    behind? start text = some rest ↔ start ++ rest = text := by
  unfold behind?
  rw [Option.map_eq_some_iff]
  simp only [List.isPrefixOf?_eq_some_iff_append_eq]
  constructor
  · rintro ⟨cs, hcs, rfl⟩
    apply String.toList_injective
    rw [String.toList_append, String.toList_ofList, hcs]
  · intro h
    refine ⟨rest.toList, ?_, String.ofList_toList⟩
    rw [← h, String.toList_append]

end Path

/-! ## Paths below a point -/

namespace Mount

variable {m : Mount} {path rest : String}

/-- The point of a mount contains a path. -/
def Contains (m : Mount) (path : String) : Prop :=
  m.point = "/" ∧ Path.isAbsolute path = true ∨ m.point = path ∨
    (m.point ++ "/").toList <+: path.toList

/-- What the provider of a mount is given for a path. -/
inductive Gives (m : Mount) (path : String) : String → Prop where
  | whole : m.point = "/" → Path.isAbsolute path = true → Gives m path path
  | root : m.point ≠ "/" → m.point = path → Gives m path "/"
  | below {rest : String} :
      m.point ≠ "/" → m.point ++ rest = path → Path.isAbsolute rest = true → Gives m path rest

/-- A mount hands on absolute paths only. -/
theorem Gives.isAbsolute (h : m.Gives path rest) : Path.isAbsolute rest = true := by
  cases h with
  | whole _ habs => exact habs
  | root => decide
  | below _ _ habs => exact habs

/-- The path that a mount is asked for is what its point gives. -/
theorem relative?_eq_some_iff : m.relative? path = some rest ↔ m.Gives path rest := by
  constructor
  · -- down the tests of the code, each of which is one case of `Gives`
    intro h
    unfold relative? at h
    split at h
    · next hroot =>
        split at h
        · next habs =>
            cases h
            exact .whole hroot habs
        · cases h
    · next hroot =>
        split at h
        · cases h
        · next hbehind =>
            cases h
            have hpath := Path.behind?_eq_some_iff.mp hbehind
            rw [String.append_empty] at hpath
            exact .root hroot hpath
        · next hbehind =>
            split at h
            · next habs =>
                cases h
                exact .below hroot (Path.behind?_eq_some_iff.mp hbehind) habs
            · cases h
  · intro h
    cases h with
    | whole hroot habs => rw [relative?, if_pos hroot, if_pos habs]
    | root hroot hpath =>
        rw [relative?, if_neg hroot, Path.behind?_eq_some_iff.mpr (String.append_empty.trans hpath)]
        simp
    | below hroot hpath habs =>
        rw [relative?, if_neg hroot, Path.behind?_eq_some_iff.mpr hpath]
        split
        · next heq => cases heq
        · next heq =>
            cases heq
            revert habs
            decide
        · next heq =>
            cases heq
            exact if_pos habs

/-- A provider is given something if and only if the point contains the path. -/
theorem exists_gives_iff : (∃ rest, m.Gives path rest) ↔ m.Contains path := by
  constructor
  · rintro ⟨rest, h⟩
    cases h with
    | whole hroot habs => exact .inl ⟨hroot, habs⟩
    | root _ hpath => exact .inr (.inl hpath)
    | below _ hpath habs =>
        refine .inr (.inr ?_)
        rw [← hpath, String.toList_append, String.toList_append]
        exact (List.prefix_append_right_inj _).mpr (Path.isAbsolute_iff.mp habs)
  · intro h
    by_cases hroot : m.point = "/"
    · refine ⟨path, .whole hroot ?_⟩
      rcases h with ⟨-, habs⟩ | hpath | hprefix
      · exact habs
      · rw [← hpath, hroot]
        decide
      · rw [hroot] at hprefix
        exact Path.isAbsolute_iff.mpr (List.IsPrefix.trans (by decide) hprefix)
    · rcases h with ⟨h, -⟩ | hpath | ⟨tail, htail⟩
      · exact absurd h hroot
      · exact ⟨"/", .root hroot hpath⟩
      · -- a slash follows the point in the path, and what comes behind it is the rest
        refine ⟨"/" ++ String.ofList tail, .below hroot ?_ ?_⟩
        · apply String.toList_injective
          rw [← htail]
          simp
        · rw [Path.isAbsolute_iff, String.toList_append]
          exact List.prefix_append ['/'] _

/-- A mount has no path for what it does not contain. -/
theorem relative?_eq_none_iff : m.relative? path = none ↔ ¬ m.Contains path := by
  rw [← exists_gives_iff, Option.eq_none_iff_forall_ne_some]
  simp only [ne_eq, relative?_eq_some_iff, not_exists]

end Mount

namespace MountTable

variable {t : MountTable} {calls : List MountCall} {c : MountCall} {m m' : Mount} {i j : Nat}
  {path rest : String} {f : Provider}

/-! ## The last mount of the list that contains a path -/

/-- The latest mount that contains the path serves it. -/
theorem find_eq_ok_iff :
    t.find path = .ok (f, rest) ↔
      ∃ before m behind, t.mounts = before ++ m :: behind ∧ m.provider = f ∧ m.Gives path rest ∧
        ∀ m' ∈ behind, ¬ m'.Contains path := by
  have hfound : t.find path = .ok (f, rest) ↔
      (t.mounts.reverse.findSome? fun m => (m.relative? path).map (m.provider, ·)) =
        some (f, rest) := by
    unfold find
    by_cases hmounts : t.mounts = []
    · simp [hmounts]
    · rw [if_neg (mt List.isEmpty_iff.mp hmounts)]
      split
      · next h => simp only [h, Except.ok.injEq, Option.some.injEq]
      · next h => simp only [h, reduceCtorEq]
  rw [hfound, List.findSome?_eq_some_iff]
  constructor
  · rintro ⟨l, m, l', hl, hm, hnone⟩
    obtain ⟨rest', hrest', heq⟩ := Option.map_eq_some_iff.mp hm
    cases heq
    refine ⟨l'.reverse, m, l.reverse, ?_, rfl, Mount.relative?_eq_some_iff.mp hrest', ?_⟩
    · rw [← List.reverse_reverse t.mounts, hl]
      simp
    · intro m' hm'
      have hnone' := hnone m' (List.mem_reverse.mp hm')
      exact Mount.relative?_eq_none_iff.mp (Option.map_eq_none_iff.mp hnone')
  · rintro ⟨before, m, behind, hl, rfl, hgives, hnone⟩
    refine ⟨behind.reverse, m, before.reverse, by simp [hl], ?_, ?_⟩
    · rw [Mount.relative?_eq_some_iff.mpr hgives]
      rfl
    · intro m' hm'
      rw [Mount.relative?_eq_none_iff.mpr (hnone m' (List.mem_reverse.mp hm'))]
      rfl

/-- Only two things go wrong: nothing is mounted, or no mount contains the path. -/
theorem find_eq_error_iff {e : MountError} :
    t.find path = .error e ↔
      t.mounts = [] ∧ e = .nothingMounted path ∨
        t.mounts ≠ [] ∧ (∀ m ∈ t.mounts, ¬ m.Contains path) ∧ e = .notFound path := by
  have hnone : (t.mounts.reverse.findSome? fun m => (m.relative? path).map (m.provider, ·)) = none ↔
      ∀ m ∈ t.mounts, ¬ m.Contains path := by
    simp only [List.findSome?_eq_none_iff, List.mem_reverse, Option.map_eq_none_iff,
      Mount.relative?_eq_none_iff]
  unfold find
  by_cases hmounts : t.mounts = []
  · simp [hmounts, eq_comm]
  · rw [if_neg (mt List.isEmpty_iff.mp hmounts), ← hnone]
    split
    · next h => simp [h, hmounts]
    · next h => simp [h, hmounts, eq_comm]

/-! ## What is mounted after calls -/

/-- The call with this number has made the mount, and its point has not been cleared since. -/
structure StillMounted (calls : List MountCall) (i : Nat) (m : Mount) : Prop where
  made : ∃ c, calls[i]? = some c ∧ (after (calls.take i)).added? c = some m
  kept : ∀ j c, i < j → calls[j]? = some c → c.cleared? ≠ some m.point

theorem StillMounted.lt_length (h : StillMounted calls i m) : i < calls.length := by
  obtain ⟨c, hc, -⟩ := h.made
  exact (List.getElem?_eq_some_iff.mp hc).1

/-- A mount stays until a call clears its point. -/
theorem StillMounted.concat (h : StillMounted calls i m) (hc : c.cleared? ≠ some m.point) :
    StillMounted (calls ++ [c]) i m := by
  have hi := h.lt_length
  obtain ⟨c', hc', hadded⟩ := h.made
  refine ⟨⟨c', ?_, ?_⟩, ?_⟩
  · rwa [List.getElem?_append_left hi]
  · rwa [List.take_append_of_le_length (Nat.le_of_lt hi)]
  · intro j d hij hd
    by_cases hj : j < calls.length
    · rw [List.getElem?_append_left hj] at hd
      exact h.kept j d hij hd
    · have hlt := (List.getElem?_eq_some_iff.mp hd).1
      rw [List.length_append, List.length_singleton] at hlt
      have hlast : j = calls.length := by omega
      subst hlast
      rw [List.getElem?_concat_length] at hd
      cases hd
      exact hc

/-- What was mounted by the last call is mounted. -/
theorem stillMounted_last (hadded : (after calls).added? c = some m) :
    StillMounted (calls ++ [c]) calls.length m := by
  refine ⟨⟨c, ?_, ?_⟩, ?_⟩
  · rw [List.getElem?_concat_length]
  · rwa [List.take_left]
  · intro j d hij hd
    have hlt := (List.getElem?_eq_some_iff.mp hd).1
    rw [List.length_append, List.length_singleton] at hlt
    omega

/-- One call more: it may clear the point, and it may make a mount of its own. -/
theorem stillMounted_concat :
    StillMounted (calls ++ [c]) i m ↔
      StillMounted calls i m ∧ c.cleared? ≠ some m.point ∨
        i = calls.length ∧ (after calls).added? c = some m := by
  constructor
  · intro h
    have hlt := h.lt_length
    rw [List.length_append, List.length_singleton] at hlt
    obtain ⟨c', hc', hadded⟩ := h.made
    -- the mount was made by an earlier call or by the last one
    by_cases hi : i < calls.length
    · refine .inl ⟨⟨⟨c', ?_, ?_⟩, ?_⟩, ?_⟩
      · rwa [List.getElem?_append_left hi] at hc'
      · rwa [List.take_append_of_le_length (Nat.le_of_lt hi)] at hadded
      · intro j d hij hd
        have hj := (List.getElem?_eq_some_iff.mp hd).1
        apply h.kept j d hij
        rwa [List.getElem?_append_left hj]
      · apply h.kept calls.length c hi
        rw [List.getElem?_concat_length]
    · have hlast : i = calls.length := by omega
      subst hlast
      rw [List.getElem?_concat_length] at hc'
      cases hc'
      rw [List.take_left] at hadded
      exact .inr ⟨rfl, hadded⟩
  · intro h
    cases h with
    | inl h => exact h.1.concat h.2
    | inr h =>
        obtain ⟨rfl, hadded⟩ := h
        exact stillMounted_last hadded

/-- The mounts of a table are those that are still there, in the order in which they were made. -/
theorem exists_numbered (calls : List MountCall) :
    ∃ l : List (Nat × Mount), l.map Prod.snd = (after calls).mounts ∧
      l.Pairwise (fun x y => x.1 < y.1) ∧ ∀ i m, (i, m) ∈ l ↔ StillMounted calls i m := by
  induction calls using List.reverseRecOn with
  | nil =>
      refine ⟨[], rfl, List.Pairwise.nil, fun i m => ?_⟩
      constructor
      · intro h
        cases h
      · intro h
        exact absurd h.lt_length (Nat.not_lt_zero i)
  | append_singleton calls c ih =>
      obtain ⟨l, hl, hsorted, hmem⟩ := ih
      -- the call keeps what it does not clear, and has a number above all others
      refine ⟨l.filter (fun x => c.cleared? ≠ some x.2.point) ++
        ((after calls).added? c).toList.map (calls.length, ·), ?_, ?_, ?_⟩
      · rw [after_concat, mounts_perform (tidy_after calls), ← hl, List.map_append,
          List.filter_map, List.map_map]
        simp [Function.comp_def]
      · apply List.pairwise_append.mpr
        refine ⟨hsorted.sublist List.filter_sublist, ?_, ?_⟩
        · cases (after calls).added? c <;> simp
        · intro x hx y hy
          obtain ⟨m, -, rfl⟩ := List.mem_map.mp hy
          exact ((hmem x.1 x.2).mp (List.mem_of_mem_filter hx)).lt_length
      · intro i m
        rw [stillMounted_concat, List.mem_append, List.mem_filter, hmem, List.mem_map]
        simp only [decide_eq_true_eq, Option.mem_toList, Prod.mk.injEq]
        refine or_congr Iff.rfl ?_
        constructor
        · rintro ⟨m', hm', rfl, rfl⟩
          exact ⟨rfl, hm'⟩
        · rintro ⟨rfl, hm⟩
          exact ⟨m, hm, rfl, rfl⟩

/-- The table holds what was mounted and has not been cleared since. -/
theorem mem_mounts_after_iff : m ∈ (after calls).mounts ↔ ∃ i, StillMounted calls i m := by
  obtain ⟨l, hl, -, hmem⟩ := exists_numbered calls
  simp [← hl, hmem]

/-- The mount is the latest of those that are still there and contain the path. -/
def Serves (calls : List MountCall) (path : String) (m : Mount) : Prop :=
  ∃ i, StillMounted calls i m ∧ m.Contains path ∧
    ∀ j m', StillMounted calls j m' → i < j → ¬ m'.Contains path

/-- The mounts behind the one that serves a path do not contain it. -/
theorem serves_iff :
    Serves calls path m ↔ ∃ before behind, (after calls).mounts = before ++ m :: behind ∧
      m.Contains path ∧ ∀ m' ∈ behind, ¬ m'.Contains path := by
  -- the table is in the order of the calls, so "latest" is "last"
  obtain ⟨l, hl, hsorted, hmem⟩ := exists_numbered calls
  rw [← hl]
  constructor
  · rintro ⟨i, hi, hcontains, hlatest⟩
    obtain ⟨lb, la, rfl⟩ := List.append_of_mem ((hmem i m).mpr hi)
    refine ⟨lb.map Prod.snd, la.map Prod.snd, by simp, hcontains, ?_⟩
    intro m' hm'
    obtain ⟨⟨j, _⟩, hj, rfl⟩ := List.mem_map.mp hm'
    have hij := (List.pairwise_cons.mp (List.pairwise_append.mp hsorted).2.1).1 _ hj
    exact hlatest j _ ((hmem j _).mp (List.mem_append_right lb (List.mem_cons_of_mem _ hj))) hij
  · rintro ⟨before, behind, hsplit, hcontains, hnone⟩
    obtain ⟨lb, lr, rfl, -, hlr⟩ := List.map_eq_append_iff.mp hsplit
    obtain ⟨⟨i, _⟩, la, rfl, rfl, hla⟩ := List.map_eq_cons_iff.mp hlr
    refine ⟨i, (hmem i _).mp (List.mem_append_right lb List.mem_cons_self), hcontains, ?_⟩
    intro j m' hj hij
    have hpair := List.pairwise_append.mp hsorted
    rcases List.mem_append.mp ((hmem j m').mpr hj) with hjb | hjr
    · -- what stands before has a smaller number
      have hji := hpair.2.2 _ hjb _ List.mem_cons_self
      exact absurd hij (Nat.lt_asymm hji)
    · rcases List.mem_cons.mp hjr with heq | hja
      · cases heq
        exact absurd hij (Nat.lt_irrefl i)
      · apply hnone
        rw [← hla]
        exact List.mem_map.mpr ⟨_, hja, rfl⟩

/-- After a history, lookup goes to the mount that serves the path. -/
theorem find_after_eq_ok_iff :
    (after calls).find path = .ok (f, rest) ↔
      ∃ m, Serves calls path m ∧ m.provider = f ∧ m.Gives path rest := by
  rw [find_eq_ok_iff]
  constructor
  · rintro ⟨before, m, behind, hsplit, hf, hgives, hnone⟩
    have hcontains := Mount.exists_gives_iff.mp ⟨rest, hgives⟩
    exact ⟨m, serves_iff.mpr ⟨before, behind, hsplit, hcontains, hnone⟩, hf, hgives⟩
  · rintro ⟨m, hm, hf, hgives⟩
    obtain ⟨before, behind, hsplit, -, hnone⟩ := serves_iff.mp hm
    exact ⟨before, m, behind, hsplit, hf, hgives, hnone⟩

end MountTable

end ArrayLang
