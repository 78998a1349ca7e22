import ArrayLang.Proofs.Files.Reading
import Mathlib.Data.List.Find

/-!
# Spellings of a path

What a path names are its components, and a path can be spelled with more slashes than it needs.
Providers go by the components (`MemoryTree.goesByComponents`, `HostDirectory.goesByComponents`).
The table goes by the text: a mount contains the paths that begin with its point as it was written.
So what a path reads as follows from its components and the mount that serves its spelling
(`MountTable.read_respelled`), and an extra slash within the point of a mount leads past that mount
(`MountTable.read_respelled_apart`).
-/

namespace ArrayLang

/-! ## Components -/

namespace Path

variable {path a b n : String} {names : List String}

theorem pieces_ne_nil (separator : Char) (cs : List Char) : pieces separator cs ≠ [] := by
  cases cs with
  | nil => exact List.cons_ne_nil _ _
  | cons c cs =>
      rw [pieces]
      split
      · exact List.cons_ne_nil _ _
      · split <;> exact List.cons_ne_nil _ _

/-- A separator ends a piece. -/
theorem pieces_append_cons (separator : Char) (xs ys : List Char) :
    pieces separator (xs ++ separator :: ys) = pieces separator xs ++ pieces separator ys := by
  induction xs with
  | nil =>
      rw [List.nil_append]
      exact if_pos rfl
  | cons x xs ih =>
      rw [List.cons_append, pieces, pieces, ih]
      by_cases hx : x = separator
      · rw [if_pos hx, if_pos hx, List.cons_append]
      · rw [if_neg hx, if_neg hx]
        cases hxs : pieces separator xs with
        | nil => exact absurd hxs (pieces_ne_nil separator xs)
        | cons p ps => rfl

theorem pieces_of_notMem {separator : Char} {cs : List Char} (h : separator ∉ cs) :
    pieces separator cs = [cs] := by
  induction cs with
  | nil => rfl
  | cons c cs ih =>
      rw [List.mem_cons, not_or] at h
      rw [pieces, if_neg (Ne.symm h.1), ih h.2]

/-- No piece contains the separator. -/
theorem notMem_of_mem_pieces {separator : Char} {cs p : List Char} (h : p ∈ pieces separator cs) :
    separator ∉ p := by
  induction cs generalizing p with
  | nil =>
      rw [List.mem_singleton.mp h]
      exact List.not_mem_nil
  | cons c cs ih =>
      rw [pieces] at h
      split at h
      · rcases List.mem_cons.mp h with rfl | h
        · exact List.not_mem_nil
        · exact ih h
      · next hc =>
          cases hcs : pieces separator cs with
          | nil => exact absurd hcs (pieces_ne_nil separator cs)
          | cons p' ps =>
              rw [hcs] at h ih
              rcases List.mem_cons.mp h with rfl | h
              · rw [List.mem_cons, not_or]
                exact ⟨Ne.symm hc, ih List.mem_cons_self⟩
              · exact ih (List.mem_cons_of_mem _ h)

/-- A slash in between belongs to neither part. -/
theorem parts_append_slash (a b : String) : parts (a ++ ("/" ++ b)) = parts a ++ parts b := by
  rw [parts, String.toList_append, String.toList_append]
  show (pieces '/' (a.toList ++ '/' :: b.toList)).map String.ofList = _
  rw [pieces_append_cons, List.map_append]
  rfl

/-- Behind a slash components begin anew. -/
theorem components_append_slash (a b : String) :
    components (a ++ ("/" ++ b)) = components a ++ components b := by
  rw [components, parts_append_slash, List.filter_append]
  rfl

theorem components_slash (b : String) : components ("/" ++ b) = components b := by
  rw [← String.empty_append (s := "/" ++ b), components_append_slash]
  rfl

/-- An absolute path may be put behind any path. -/
theorem components_append (a : String) (h : isAbsolute b = true) :
    components (a ++ b) = components a ++ components b := by
  obtain ⟨ys, hys⟩ := isAbsolute_iff.mp h
  have hb : b = "/" ++ String.ofList ys := by
    apply String.toList_injective
    simp [← hys]
  rw [hb, components_append_slash, components_slash]

theorem components_concat_slash (path : String) : components (path ++ "/") = components path := by
  rw [components_append path (by decide)]
  exact List.append_nil _

theorem isAbsolute_concat_slash (h : isAbsolute path = true) :
    isAbsolute (path ++ "/") = true := by
  rw [isAbsolute_iff, String.toList_append]
  exact (isAbsolute_iff.mp h).trans (List.prefix_append _ _)

theorem trimmed_concat_slash (path : String) : trimmed (path ++ "/") = trimmed path := by
  have hdrop : (path ++ "/").toList.rdropWhile (· == '/') = path.toList.rdropWhile (· == '/') := by
    rw [String.toList_append]
    exact List.rdropWhile_concat_pos _ _ _ rfl
  apply String.toList_injective
  rw [toList_trimmed, toList_trimmed, hdrop]

/-- What can be a component of a path. -/
def IsComponent (n : String) : Prop := n ≠ "" ∧ '/' ∉ n.toList

/-- Components have no slash and are not empty. -/
theorem isComponent_of_mem (h : n ∈ components path) : IsComponent n := by
  obtain ⟨hmem, hne⟩ := List.mem_filter.mp h
  obtain ⟨p, hp, rfl⟩ := List.mem_map.mp hmem
  refine ⟨by simpa using hne, ?_⟩
  rw [String.toList_ofList]
  exact notMem_of_mem_pieces hp

theorem parts_of_isComponent (h : IsComponent n) : parts n = [n] := by
  rw [parts, pieces_of_notMem h.2, List.map_singleton, String.ofList_toList]

/-- A component is a path of one. -/
theorem components_of_isComponent (h : IsComponent n) : components n = [n] := by
  rw [components, parts_of_isComponent h]
  exact List.filter_cons_of_pos (by simpa using h.1)

theorem ofParts_cons_cons (n n' : String) (names : List String) :
    ofParts (n :: n' :: names) = n ++ ("/" ++ ofParts (n' :: names)) := by
  rw [ofParts, ofParts, String.intercalate_cons_cons, String.append_assoc]

/-- The path with these components that has no slash too many. -/
def plain (names : List String) : String := "/" ++ ofParts names

/-- The path has no slash too many. -/
def IsPlain (path : String) : Prop := plain (components path) = path

instance (path : String) : Decidable (IsPlain path) := inferInstanceAs (Decidable (_ = _))

theorem isAbsolute_plain (names : List String) : isAbsolute (plain names) = true := by
  rw [isAbsolute_iff, plain, String.toList_append]
  exact List.prefix_append _ _

theorem plain_append {more : List String} (hnames : names ≠ []) (hmore : more ≠ []) :
    plain (names ++ more) = plain names ++ plain more := by
  rw [plain, plain, plain, ofParts, String.intercalate_append_of_ne_nil hnames hmore]
  simp [ofParts, String.append_assoc]

/-- The plain spelling of a path has its components. -/
theorem components_plain (h : ∀ n ∈ names, IsComponent n) : components (plain names) = names := by
  induction names with
  | nil => decide
  | cons n names ih =>
      obtain ⟨hn, hnames⟩ := List.forall_mem_cons.mp h
      have hone : components (plain [n]) = [n] := by
        rw [plain, ofParts, String.intercalate_singleton, components_slash,
          components_of_isComponent hn]
      cases names with
      | nil => exact hone
      | cons n' names =>
          rw [← List.singleton_append, plain_append (List.cons_ne_nil _ _) (List.cons_ne_nil _ _),
            components_append _ (isAbsolute_plain _), hone, ih hnames]

end Path

/-! ## Providers -/

/-- What a provider has at a path depends on the components of the path only. -/
def Provider.GoesByComponents (f : Provider) : Prop :=
  ∀ p q, Path.components p = Path.components q → f.read p = f.read q

/-- The tree in memory normalises the path first. -/
theorem MemoryTree.goesByComponents (t : MemoryTree) : t.provider.GoesByComponents := by
  intro p q h
  have hread : t.read p = t.read q := by rw [read, read, Path.normalize, Path.normalize, h]
  simp only [provider, hread]

/-- Empty parts are skipped on the way down. -/
theorem HostDirectory.below?_components (done parts : List String) :
    below? done (parts.filter (· != "")) = below? done parts := by
  induction parts generalizing done with
  | nil => rfl
  | cons part parts ih =>
      by_cases hpart : part = ""
      · rw [List.filter_cons_of_neg (by simpa using hpart), ih, below?, if_pos (.inl hpart)]
      · rw [List.filter_cons_of_pos (by simpa using hpart), below?, below?, ih, ih]

/-- The directory of the host skips empty parts, so only components count. -/
theorem HostDirectory.goesByComponents (d : HostDirectory) : d.provider.GoesByComponents := by
  intro p q h
  have hpath : d.hostPath p = d.hostPath q := by
    unfold Path.components at h
    rw [hostPath, hostPath, ← below?_components [] (Path.parts p), h, below?_components]
  show d.read p = d.read q
  rw [read, read, hpath]

/-! ## Mounts -/

namespace Mount

variable {m : Mount} {host : Host} {path rest : String} {names : List String}

/-- A mount takes the components of its point off the path. -/
theorem Gives.components_eq (h : m.Gives path rest) :
    Path.components path = Path.components m.point ++ Path.components rest := by
  cases h with
  | whole hroot _ =>
      rw [hroot]
      rfl
  | root _ hpath =>
      rw [hpath]
      exact (List.append_nil _).symm
  | below _ hpath habs => rw [← hpath, Path.components_append _ habs]

/-- What a mount has at the components of a path, those of its point included. -/
def contents? (m : Mount) (host : Host) (names : List String) : Option Contents :=
  ((m.provider.read (Path.plain (names.drop (Path.components m.point).length))).run host).toOption

/-- What is read through a mount depends on components only. -/
theorem toOption_read_of_gives (hf : m.provider.GoesByComponents) (h : m.Gives path rest) :
    ((m.provider.read rest).run host).toOption = m.contents? host (Path.components path) := by
  have hdrop : (Path.components path).drop (Path.components m.point).length =
      Path.components rest := by
    rw [h.components_eq, List.drop_left]
  have hplain : Path.components (Path.plain (Path.components rest)) = Path.components rest :=
    Path.components_plain fun _ => Path.isComponent_of_mem
  rw [contents?, hdrop, hf _ _ hplain]

theorem isSome_relative?_iff : (m.relative? path).isSome = true ↔ m.Contains path := by
  rw [← exists_gives_iff, Option.isSome_iff_exists]
  simp only [relative?_eq_some_iff]

/-- A mount contains no path of other components than those of its point and more. -/
theorem Contains.components_isPrefix (h : m.Contains path) :
    Path.components m.point <+: Path.components path := by
  obtain ⟨rest, hrest⟩ := exists_gives_iff.mpr h
  exact ⟨_, hrest.components_eq.symm⟩

/-- Spelled without a slash too many, a path is contained in every mount that it could be contained
in, as long as the point is spelled so, too. -/
theorem contains_plain (hpoint : Path.IsPlain m.point)
    (h : Path.components m.point <+: names) : m.Contains (Path.plain names) := by
  obtain ⟨more, rfl⟩ := h
  rw [← exists_gives_iff]
  by_cases hroot : Path.components m.point = []
  · have hwhole : m.point = "/" := by
      rw [← hpoint, hroot]
      rfl
    exact ⟨_, .whole hwhole (Path.isAbsolute_plain _)⟩
  · rw [exists_gives_iff]
    by_cases hmore : more = []
    · rw [hmore, List.append_nil]
      exact .inr (.inl hpoint.symm)
    · refine .inr (.inr ?_)
      rw [Path.plain_append hroot hmore, hpoint, String.toList_append, String.toList_append]
      exact (List.prefix_append_right_inj _).mpr (Path.isAbsolute_iff.mp (Path.isAbsolute_plain _))

end Mount

/-! ## Tables -/

namespace MountTable

variable {t : MountTable} {calls : List MountCall} {host : Host} {m : Mount}
  {path p q : String} {f : Provider}

theorem mount_concat_slash (h : Path.isAbsolute p = true) : t.mount (p ++ "/") f = t.mount p f := by
  rw [mount_eq, mount_eq, if_pos h, if_pos (Path.isAbsolute_concat_slash h),
    Path.trimmed_concat_slash]

theorem umount_concat_slash (h : Path.isAbsolute p = true) : t.umount (p ++ "/") = t.umount p := by
  rw [umount_eq, umount_eq, if_pos h, if_pos (Path.isAbsolute_concat_slash h),
    Path.trimmed_concat_slash]

/-- The mount that serves a path. -/
def server? (t : MountTable) (path : String) : Option Mount :=
  t.mounts.reverse.find? fun m => (m.relative? path).isSome

/-- The server is the mount that serves the path. -/
theorem server?_eq_some_iff : (after calls).server? path = some m ↔ Serves calls path m := by
  rw [serves_iff, server?, List.find?_eq_some_iff_append, Mount.isSome_relative?_iff]
  constructor
  · rintro ⟨hm, l, l', hl, hnone⟩
    refine ⟨l'.reverse, l.reverse, ?_, hm, fun m' hm' hc => ?_⟩
    · rw [← List.reverse_reverse (after calls).mounts, hl]
      simp
    · have hno := hnone m' (List.mem_reverse.mp hm')
      rw [Mount.isSome_relative?_iff.mpr hc] at hno
      cases hno
  · rintro ⟨before, behind, hl, hm, hnone⟩
    refine ⟨hm, behind.reverse, before.reverse, by simp [hl], fun m' hm' => ?_⟩
    have hno := mt Mount.isSome_relative?_iff.mp (hnone m' (List.mem_reverse.mp hm'))
    simpa using hno

theorem Serves.contains (h : Serves calls path m) : m.Contains path := by
  obtain ⟨_, -, hcontains, -⟩ := h
  exact hcontains

theorem mem_mounts_of_serves (h : Serves calls path m) : m ∈ (after calls).mounts := by
  obtain ⟨i, hi, -⟩ := h
  exact mem_mounts_after_iff.mpr ⟨i, hi⟩

theorem toOption_mapError {α ε ε' : Type} (r : Except ε α) (g : ε → ε') :
    (r.mapError g).toOption = r.toOption := by
  cases r <;> rfl

/-- Which file is read follows from the mount and the components. -/
theorem toOption_read_after (hproviders : ∀ m ∈ (after calls).mounts, m.provider.GoesByComponents) :
    (((after calls).read path).run host).toOption =
      ((after calls).server? path).bind fun m => m.contents? host (Path.components path) := by
  cases hfind : (after calls).find path with
  | ok found =>
      obtain ⟨m, hm, hf, hgives⟩ := find_after_eq_ok_iff.mp hfind
      rw [read_of_find_ok hfind, HostProgram.run_mapError, toOption_mapError,
        server?_eq_some_iff.mpr hm, ← hf]
      exact Mount.toOption_read_of_gives (hproviders m (mem_mounts_of_serves hm)) hgives
  | error e =>
      rw [read_of_find_error hfind]
      cases hserver : (after calls).server? path with
      | none => rfl
      | some m =>
          have hm := server?_eq_some_iff.mp hserver
          obtain ⟨rest, hgives⟩ := Mount.exists_gives_iff.mpr hm.contains
          rw [find_after_eq_ok_iff.mpr ⟨m, hm, rfl, hgives⟩] at hfind
          cases hfind

theorem toOption_readText (t : MountTable) (host : Host) (path : String) :
    ((t.readText path).run host).toOption =
      ((t.read path).run host).toOption.bind fun contents => (textOf contents).toOption := by
  rw [run_readText]
  cases (t.read path).run host with
  | ok contents => exact toOption_mapError _ _
  | error e => rfl

/-- Paths in the same mounts are served by the same one. -/
theorem server?_congr (h : ∀ m ∈ t.mounts, (m.Contains p ↔ m.Contains q)) :
    t.server? p = t.server? q := by
  refine List.find?_congr fun m hm => ?_
  rw [Bool.eq_iff_iff, Mount.isSome_relative?_iff, Mount.isSome_relative?_iff]
  exact h m (List.mem_reverse.mp hm)

/-- A slash at the end leads out of no mount and into none. -/
theorem Tidy.contains_concat_slash (h : t.Tidy) (hm : m ∈ t.mounts)
    (hpath : Path.isAbsolute path = true) : m.Contains path ↔ m.Contains (path ++ "/") := by
  constructor
  · rintro (⟨hroot, -⟩ | rfl | hstart)
    · exact .inl ⟨hroot, Path.isAbsolute_concat_slash hpath⟩
    · exact .inr (.inr (List.prefix_refl _))
    · rw [Mount.Contains, String.toList_append (s := path)]
      exact .inr (.inr (hstart.trans (List.prefix_append _ _)))
  · rintro (⟨hroot, -⟩ | hpoint | hstart)
    · exact .inl ⟨hroot, hpath⟩
    · refine .inl ⟨h.trimmed m hm ?_, hpath⟩
      rw [hpoint, String.toList_append]
      exact List.getLast?_concat
    · rw [String.toList_append (s := path)] at hstart
      rcases List.prefix_concat_iff.mp hstart with heq | hstart
      · rw [String.toList_append] at heq
        exact .inr (.inl (String.toList_injective (List.append_inj_left' heq rfl)))
      · exact .inr (.inr hstart)

/-- No other spelling reaches a mount that the plain one does not, and so it can only miss the one
that serves the plain one. -/
theorem Serves.of_plain (hpoints : ∀ m ∈ (after calls).mounts, Path.IsPlain m.point)
    (h : Serves calls (Path.plain (Path.components path)) m) (hm : m.Contains path) :
    Serves calls path m := by
  obtain ⟨before, behind, hl, -, hnone⟩ := serves_iff.mp h
  refine serves_iff.mpr ⟨before, behind, hl, hm, fun m' hm' hc => hnone m' hm' ?_⟩
  have hmem : m' ∈ (after calls).mounts := by
    rw [hl]
    exact List.mem_append_right _ (List.mem_cons_of_mem _ hm')
  exact Mount.contains_plain (hpoints m' hmem) hc.components_isPrefix

/-- **What a path reads as, spelled in any way.** Both kinds of providers go by the components of a
path, and points are kept without slashes at the end. Where all providers do so, the file that is
read, or that there is none, follows from the components of the path and from the mount that serves
the path as it is spelled. So two spellings read the same if and only if the two mounts that serve
them have the same at these components; in particular if every mount contains both spellings or
neither of them, as it is with slashes at the end. If all points are spelled plainly, any spelling
reads the same as the plain one as long as the mount that serves the plain one contains it. -/
theorem read_respelled (calls : List MountCall)
    (hproviders : ∀ m ∈ (after calls).mounts, m.provider.GoesByComponents) (host : Host) :
    ((∀ tree : MemoryTree, tree.provider.GoesByComponents) ∧
      ∀ d : HostDirectory, d.provider.GoesByComponents) ∧
    (∀ (t : MountTable) point f, Path.isAbsolute point = true →
      t.mount (point ++ "/") f = t.mount point f ∧ t.umount (point ++ "/") = t.umount point) ∧
    (∀ path, (((after calls).read path).run host).toOption =
        ((after calls).server? path).bind (fun m => m.contents? host (Path.components path)) ∧
      (((after calls).readText path).run host).toOption =
        (((after calls).read path).run host).toOption.bind
          (fun contents => (textOf contents).toOption) ∧
      ∀ m, (after calls).server? path = some m ↔ Serves calls path m) ∧
    (∀ p q, Path.components p = Path.components q →
      ((((after calls).read p).run host).toOption = (((after calls).read q).run host).toOption ↔
        ((after calls).server? p).bind (fun m => m.contents? host (Path.components p)) =
          ((after calls).server? q).bind fun m => m.contents? host (Path.components p)) ∧
      ((∀ m ∈ (after calls).mounts, (m.Contains p ↔ m.Contains q)) →
        (((after calls).read p).run host).toOption =
          (((after calls).read q).run host).toOption)) ∧
    (∀ p, Path.isAbsolute p = true →
      (((after calls).read (p ++ "/")).run host).toOption =
        (((after calls).read p).run host).toOption) ∧
    ((∀ m ∈ (after calls).mounts, Path.IsPlain m.point) →
      ∀ path m, Serves calls (Path.plain (Path.components path)) m → m.Contains path →
        (((after calls).read path).run host).toOption =
          (((after calls).read (Path.plain (Path.components path))).run host).toOption) := by
  -- reading looks at the path only to find the mount, and then at its components
  have hread : ∀ path, (((after calls).read path).run host).toOption =
      ((after calls).server? path).bind fun m => m.contents? host (Path.components path) :=
    fun path => toOption_read_after hproviders
  have hsame : ∀ p q, Path.components p = Path.components q →
      (after calls).server? p = (after calls).server? q →
      (((after calls).read p).run host).toOption = (((after calls).read q).run host).toOption := by
    intro p q hpq hserver
    rw [hread, hread, hpq, hserver]
  refine ⟨⟨MemoryTree.goesByComponents, HostDirectory.goesByComponents⟩,
    fun t point f h => ⟨mount_concat_slash h, umount_concat_slash h⟩,
    fun path => ⟨hread path, toOption_readText _ host path, fun m => server?_eq_some_iff⟩,
    fun p q hpq => ⟨?_, fun h => hsame p q hpq (server?_congr h)⟩, fun p hp => ?_, ?_⟩
  · rw [hread, hread, ← hpq]
  · refine hsame _ _ (Path.components_concat_slash p) (server?_congr fun m hm => ?_)
    exact ((tidy_after calls).contains_concat_slash hm hp).symm
  · -- with plain points the plain spelling finds the same mount
    intro hpoints path m hm hpath
    refine hsame _ _ (Path.components_plain fun _ => Path.isComponent_of_mem).symm ?_
    rw [server?_eq_some_iff.mpr hm, server?_eq_some_iff.mpr (hm.of_plain hpoints hpath)]

/-- A tree at the root, and one below it that hides the file of the first one. -/
def shadowingCalls : List MountCall :=
  [.mount "/" (MemoryTree.empty.insert "/a/x" "old".toUTF8).provider,
    .mount "/a" (MemoryTree.empty.insert "/x" "new".toUTF8).provider]

/-- Behind the point of the mount that serves a path, it can be spelled in any way. -/
theorem read_respelled_behind :
    (∀ m ∈ (after shadowingCalls).mounts, m.provider.GoesByComponents) ∧
    (((after shadowingCalls).read "/a//x").run bareHost).toOption = some (.ok "new".toUTF8) := by
  have hmounts : (after shadowingCalls).mounts =
      [⟨"/", (MemoryTree.empty.insert "/a/x" "old".toUTF8).provider⟩,
        ⟨"/a", (MemoryTree.empty.insert "/x" "new".toUTF8).provider⟩] := by rfl
  have hproviders : ∀ m ∈ (after shadowingCalls).mounts, m.provider.GoesByComponents := by
    rw [hmounts]
    simp [MemoryTree.goesByComponents]
  have hpoints : ∀ m ∈ (after shadowingCalls).mounts, Path.IsPlain m.point := by
    rw [hmounts]
    simp only [List.forall_mem_cons, List.not_mem_nil, false_imp_iff, implies_true, and_true]
    decide
  have hserves : Serves shadowingCalls (Path.plain (Path.components "/a//x"))
      ⟨"/a", (MemoryTree.empty.insert "/x" "new".toUTF8).provider⟩ :=
    server?_eq_some_iff.mp (by rfl)
  refine ⟨hproviders, ?_⟩
  rw [(read_respelled shadowingCalls hproviders bareHost).2.2.2.2.2 hpoints "/a//x" _ hserves
    (.inr (.inr (by decide)))]
  rfl

/-- A slash more in front of the point leads past the mount, to the file that it hides. -/
theorem read_respelled_apart :
    Path.isAbsolute "/a/x" = true ∧ Path.isAbsolute "//a/x" = true ∧
    Path.components "/a/x" = Path.components "//a/x" ∧
    (after shadowingCalls).readText "/a/x" = .done (.ok "new") ∧
    (after shadowingCalls).readText "//a/x" = .done (.ok "old") := by
  refine ⟨by decide, by decide, by decide, by rfl, by rfl⟩

end MountTable

end ArrayLang
