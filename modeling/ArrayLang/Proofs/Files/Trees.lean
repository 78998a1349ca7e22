import ArrayLang.Files.MemoryTree
import ArrayLang.Proofs.Files.Spellings
import ArrayLang.Proofs.Text.ByteOrder
import Mathlib.Data.Finset.Card

/-!
# What files in memory read as

Files are kept and found by the text of their normalized paths, and the names in a directory are cut
out of the texts that begin with its own. What can be read is about components all the same, since a
normalized path has its components and nothing else (`Path.normalize_eq_iff`), and a text that
begins like those below a directory has the components of the directory in front
(`MemoryTree.map_entry_eq_some_iff`).

Files are put into memory one after another, and everything that can be read follows from the order
in which they came: a path names the last file of its components; or else it names a directory, if
files have come further down; or else it names nothing (`MemoryTree.read_holding_iff`).
-/

namespace ArrayLang

namespace Path

variable {a b path p q : String} {names file : List String} {rest : String}

/-! ## Normalized paths -/

/-- The loop of the normalisation writes the plain spelling. -/
theorem foldl_append_slash (out : String) (names : List String) :
    names.foldl (fun out part => out ++ "/" ++ part) out =
      out ++ if names = [] then "" else plain names := by
  induction names generalizing out with
  | nil => simp
  | cons n names ih =>
      have hone : plain [n] = "/" ++ n := by rw [plain, ofParts, String.intercalate_singleton]
      rw [List.foldl_cons, ih, if_neg (List.cons_ne_nil _ _)]
      by_cases hnames : names = []
      · rw [if_pos hnames, hnames, hone, String.append_empty, String.append_assoc]
      · rw [if_neg hnames, ← List.singleton_append, plain_append (List.cons_ne_nil _ _) hnames,
          hone, String.append_assoc, String.append_assoc, String.append_assoc]

/-- A normalized path has no slash too many. -/
theorem normalize_eq_plain (path : String) : normalize path = plain (components path) := by
  unfold normalize
  rw [foldl_append_slash, String.empty_append]
  by_cases hnil : components path = []
  · rw [hnil]
    rfl
  · have hne : plain (components path) ≠ "" := by
      intro hempty
      have habs := isAbsolute_plain (components path)
      rw [hempty] at habs
      exact absurd habs (by decide)
    rw [if_neg hnil, if_neg hne]

/-- **Normalizing keeps the components and nothing else.** -/
theorem normalize_eq_iff : normalize p = normalize q ↔ components p = components q := by
  constructor
  · intro h
    have hcomponents : ∀ p, components (normalize p) = components p := by
      intro p
      rw [normalize_eq_plain, components_plain fun _ => isComponent_of_mem]
    rw [← hcomponents p, h, hcomponents]
  · intro h
    rw [normalize_eq_plain, normalize_eq_plain, h]

/-! ## Splitting at the first slash -/

theorem splitList?_of_notMem {cs : List Char} (h : '/' ∉ cs) : splitList? ['/'] cs = none := by
  induction cs with
  | nil => rfl
  | cons c cs ih =>
      rw [List.mem_cons, not_or] at h
      simp [splitList?, List.isPrefixOf?, h.1, ih h.2]

theorem splitList?_append_cons {xs : List Char} (h : '/' ∉ xs) (ys : List Char) :
    splitList? ['/'] (xs ++ '/' :: ys) = some (xs, ys) := by
  induction xs with
  | nil => simp [splitList?, List.isPrefixOf?]
  | cons x xs ih =>
      rw [List.mem_cons, not_or] at h
      simp [splitList?, List.isPrefixOf?, h.1, ih h.2]

theorem splitOnce?_of_notMem (h : '/' ∉ a.toList) : splitOnce? "/" a = none := by
  show (splitList? ['/'] a.toList).map _ = none
  rw [splitList?_of_notMem h]
  rfl

/-- A path is split behind its first name. -/
theorem splitOnce?_append_slash (h : '/' ∉ a.toList) (b : String) :
    splitOnce? "/" (a ++ ("/" ++ b)) = some (a, b) := by
  have hlist : (a ++ ("/" ++ b)).toList = a.toList ++ '/' :: b.toList := by simp
  show (splitList? ['/'] (a ++ ("/" ++ b)).toList).map _ = _
  rw [hlist, splitList?_append_cons h]
  show some (String.ofList a.toList, String.ofList b.toList) = some (a, b)
  rw [String.ofList_toList, String.ofList_toList]

end Path

namespace MemoryTree

variable {t : MemoryTree} {files : List (String × ByteArray)} {key directory file : List String}
  {n path : String} {r : Except ReadFailure ByteArray}

/-! ## Names below a directory -/

/-- A file shows in a directory under a name: its next component, with a slash behind it exactly if
there are more of them. -/
inductive Shows (directory file : List String) : String → Prop
  | file {name : String} (h : file = directory ++ [name]) : Shows directory file name
  | directory {name : String} {rest : List String} (hrest : rest ≠ [])
    (h : file = directory ++ name :: rest) : Shows directory file (name ++ "/")

/-- The texts that are left behind the beginning of all paths below a directory are the paths from
there on. The root begins like itself; no other path does. -/
theorem behind?_start_eq_some_iff {rest : String} (hdirectory : ∀ n ∈ directory, Path.IsComponent n)
    (hfile : ∀ n ∈ file, Path.IsComponent n) (hne : file ≠ directory) :
    Path.behind? (start (Path.plain directory)) (Path.plain file) = some rest ↔
      ∃ more, more ≠ [] ∧ file = directory ++ more ∧ rest = Path.ofParts more := by
  rw [Path.behind?_eq_some_iff]
  by_cases hroot : directory = []
  · subst hroot
    show "/" ++ rest = "/" ++ Path.ofParts file ↔ _
    rw [String.append_right_inj]
    constructor
    · rintro rfl
      exact ⟨file, hne, rfl, rfl⟩
    · rintro ⟨more, -, rfl, rfl⟩
      rfl
  · have hstart : start (Path.plain directory) ++ rest =
        Path.plain directory ++ ("/" ++ rest) := by
      -- only the root is spelled as one slash
      have hslash : Path.plain directory ≠ "/" := by
        intro h
        have hnil := Path.components_plain hdirectory
        rw [h] at hnil
        exact hroot hnil.symm
      rw [start, if_neg hslash, String.append_assoc]
    rw [hstart]
    constructor
    · intro h
      -- the components of both sides show what comes behind the directory
      have hfile' : file = directory ++ Path.components rest := by
        have hcomponents := congrArg Path.components h
        rw [Path.components_append_slash, Path.components_plain hdirectory,
          Path.components_plain hfile] at hcomponents
        exact hcomponents.symm
      have hmore : Path.components rest ≠ [] := by
        intro hnil
        rw [hnil, List.append_nil] at hfile'
        exact hne hfile'
      refine ⟨_, hmore, hfile', ?_⟩
      rw [hfile', Path.plain_append hroot hmore, String.append_right_inj] at h
      exact (String.append_right_inj _).mp h
    · rintro ⟨more, hmore, rfl, rfl⟩
      rw [Path.plain_append hroot hmore]
      rfl

/-- What is behind the directory is a file, listed by its name, or lies in a subdirectory, listed
with a slash. -/
theorem entry_ofParts {name : String} {rest : List String} (h : '/' ∉ name.toList) :
    entry (Path.ofParts (name :: rest)) = if rest = [] then name else name ++ "/" := by
  cases rest with
  | nil =>
      have hone : Path.ofParts [name] = name := String.intercalate_singleton
      rw [entry, hone, Path.splitOnce?_of_notMem h]
      rfl
  | cons next rest =>
      rw [entry, Path.ofParts_cons_cons, Path.splitOnce?_append_slash h]
      rfl

/-- **The text of a file shows what its components show.** -/
theorem map_entry_eq_some_iff (hdirectory : ∀ n ∈ directory, Path.IsComponent n)
    (hfile : ∀ n ∈ file, Path.IsComponent n) (hne : file ≠ directory) :
    (Path.behind? (start (Path.plain directory)) (Path.plain file)).map entry = some n ↔
      Shows directory file n := by
  rw [Option.map_eq_some_iff]
  simp only [behind?_start_eq_some_iff hdirectory hfile hne]
  have hentry : ∀ name rest, file = directory ++ name :: rest →
      entry (Path.ofParts (name :: rest)) = if rest = [] then name else name ++ "/" := by
    intro name rest h
    refine entry_ofParts (hfile name ?_).2
    rw [h]
    exact List.mem_append_right _ List.mem_cons_self
  constructor
  · rintro ⟨_, ⟨more, hmore, hsplit, rfl⟩, rfl⟩
    obtain ⟨name, rest, rfl⟩ := List.exists_cons_of_ne_nil hmore
    rw [hentry name rest hsplit]
    split
    · next hrest => exact .file (hrest ▸ hsplit)
    · next hrest => exact .directory hrest hsplit
  · intro h
    cases h with
    | file h => exact ⟨_, ⟨_, List.cons_ne_nil _ _, h, rfl⟩, (hentry _ _ h).trans (if_pos rfl)⟩
    | directory hrest h =>
        exact ⟨_, ⟨_, List.cons_ne_nil _ _, h, rfl⟩, (hentry _ _ h).trans (if_neg hrest)⟩

/-- A file shows in a directory exactly if it is further down. -/
theorem exists_shows_iff {file : List String} :
    (∃ n, Shows directory file n) ↔ directory <+: file ∧ file ≠ directory := by
  constructor
  · rintro ⟨n, h | ⟨hrest, h⟩⟩
    · rw [h]
      exact ⟨List.prefix_append _ _, by simp⟩
    · rw [h]
      exact ⟨List.prefix_append _ _, by simp⟩
  · rintro ⟨⟨more, rfl⟩, hne⟩
    match more with
    | [] => exact absurd (List.append_nil _) hne
    | [name] => exact ⟨_, .file rfl⟩
    | name :: next :: rest => exact ⟨_, .directory (List.cons_ne_nil _ _) rfl⟩

/-! ## Files one after another -/

/-- The files that have been put in, the last one last. -/
def holding (files : List (String × ByteArray)) : MemoryTree :=
  files.foldl (fun t f => t.insert f.1 f.2) .empty

theorem holding_concat (files : List (String × ByteArray)) (f : String × ByteArray) :
    holding (files ++ [f]) = (holding files).insert f.1 f.2 := by
  rw [holding, List.foldl_append]
  rfl

/-- The contents that came last for a normalized path, if any came. -/
theorem find?_holding (files : List (String × ByteArray)) (k : String) :
    (holding files).files.find? k =
      (files.reverse.find? fun f => Path.normalize f.1 = k).map Prod.snd := by
  induction files using List.reverseRecOn with
  | nil => rfl
  | append_singleton files f ih =>
      rw [holding_concat, insert, Dictionary.find?_insert, List.reverse_concat, List.find?_cons, ih]
      by_cases h : Path.normalize f.1 = k
      · rw [if_pos h.symm, decide_eq_true h]
        rfl
      · rw [if_neg (Ne.symm h), decide_eq_false h]

/-- The keys are the normal forms of the paths that were written. -/
theorem mem_keys_holding_iff {k : String} :
    k ∈ (holding files).files.keys ↔ ∃ f ∈ files, Path.normalize f.1 = k := by
  induction files using List.reverseRecOn with
  | nil => simp [holding, empty, Dictionary.keys, Dictionary.empty]
  | append_singleton files f ih =>
      rw [holding_concat, insert, Dictionary.mem_keys_insert, ih]
      simp only [List.mem_append, List.mem_singleton, or_and_right, exists_or, exists_eq_left]
      rw [or_comm, eq_comm]

/-- Paths with the same components are one file. -/
theorem size_holding (files : List (String × ByteArray)) :
    (holding files).size = (files.map fun f => Path.components f.1).toFinset.card := by
  -- components and normalized paths determine each other
  have hkeys : (holding files).files.keys.toFinset =
      ((files.map fun f => Path.components f.1).toFinset).image Path.plain := by
    ext k
    simp only [List.mem_toFinset, mem_keys_holding_iff, Finset.mem_image, List.mem_map,
      Path.normalize_eq_plain, exists_exists_and_eq_and]
  have hinjective : Set.InjOn Path.plain
      (files.map fun f => Path.components f.1).toFinset := by
    intro names hnames names' hnames' h
    simp only [List.coe_toFinset, List.mem_map, Set.mem_ofPred_eq] at hnames hnames'
    obtain ⟨f, -, rfl⟩ := hnames
    obtain ⟨f', -, rfl⟩ := hnames'
    rw [← Path.normalize_eq_plain, ← Path.normalize_eq_plain] at h
    exact Path.normalize_eq_iff.mp h
  rw [← Finset.card_image_of_injOn hinjective, ← hkeys,
    List.toFinset_card_of_nodup (Dictionary.nodup_keys _), Dictionary.length_keys]
  rfl

/-- The listing of a directory has the names that its files show, if it is not a file itself. -/
theorem mem_entries_holding_iff (hno : ∀ f ∈ files, Path.components f.1 ≠ Path.components path) :
    n ∈ (holding files).entries (Path.normalize path) ↔
      ∃ f ∈ files, Shows (Path.components path) (Path.components f.1) n := by
  rw [entries, mem_dropRepeats_iff, mem_sortTexts_iff, List.mem_filterMap]
  have hshows : ∀ f ∈ files,
      (Path.behind? (start (Path.normalize path)) (Path.normalize f.1)).map entry = some n ↔
        Shows (Path.components path) (Path.components f.1) n := by
    intro f hf
    rw [Path.normalize_eq_plain, Path.normalize_eq_plain]
    exact map_entry_eq_some_iff (fun _ => Path.isComponent_of_mem)
      (fun _ => Path.isComponent_of_mem) (hno f hf)
  constructor
  · rintro ⟨k, hk, hn⟩
    obtain ⟨f, hf, rfl⟩ := mem_keys_holding_iff.mp hk
    exact ⟨f, hf, (hshows f hf).mp hn⟩
  · rintro ⟨f, hf, hn⟩
    exact ⟨_, mem_keys_holding_iff.mpr ⟨f, hf, rfl⟩, (hshows f hf).mpr hn⟩

/-- Listings are sorted by their bytes, without repetitions. -/
theorem inByteOrder_entries (t : MemoryTree) (path : String) : Text.InByteOrder (t.entries path) :=
  Text.inByteOrder_dropRepeats _

/-! ## Reading -/

/-- What is read at the components of a path, after files have been put in one by one. -/
inductive Reads (files : List (String × ByteArray)) (key : List String) :
    Except ReadFailure ByteArray → Prop
  /-- The last file of these components. -/
  | file {before behind : List (String × ByteArray)} {p : String} {contents : ByteArray}
      (hfiles : files = before ++ (p, contents) :: behind) (hp : Path.components p = key)
      (hlast : ∀ f ∈ behind, Path.components f.1 ≠ key) : Reads files key (.ok contents)
  /-- No file has these components, and some are further down: their names, a line each. -/
  | directory {names : List String} (hno : ∀ f ∈ files, Path.components f.1 ≠ key)
      (hbelow : ∃ f ∈ files, key <+: Path.components f.1) (horder : Text.InByteOrder names)
      (hnames : ∀ n, n ∈ names ↔ ∃ f ∈ files, Shows key (Path.components f.1) n) :
      Reads files key (.ok ("\n".intercalate names).toUTF8)
  /-- Neither. -/
  | missing (hno : ∀ f ∈ files, ¬ key <+: Path.components f.1) :
      Reads files key (.error ⟨.notFound, "file does not exist"⟩)

/-- The last file that was written under the same components is found. -/
theorem find?_holding_eq_some_iff {contents : ByteArray} :
    (holding files).files.find? (Path.normalize path) = some contents ↔
      ∃ before p behind, files = before ++ (p, contents) :: behind ∧
        Path.components p = Path.components path ∧
        ∀ f ∈ behind, Path.components f.1 ≠ Path.components path := by
  rw [find?_holding]
  simp only [Option.map_eq_some_iff, List.find?_eq_some_iff_append, decide_eq_true_eq,
    Bool.not_eq_true', decide_eq_false_iff_not, List.reverse_eq_iff, Path.normalize_eq_iff]
  constructor
  · rintro ⟨⟨p, _⟩, ⟨hp, behind, before, hfiles, hlast⟩, rfl⟩
    refine ⟨before.reverse, p, behind.reverse, ?_, hp, fun f hf => hlast f (List.mem_reverse.mp hf)⟩
    rw [hfiles, List.reverse_append, List.reverse_cons, List.append_assoc]
    rfl
  · rintro ⟨before, p, behind, rfl, hp, hlast⟩
    refine ⟨(p, contents), ⟨hp, behind.reverse, before.reverse, ?_, fun f hf => ?_⟩, rfl⟩
    · simp only [List.reverse_append, List.reverse_cons, List.reverse_reverse, List.append_assoc]
      rfl
    · exact hlast f (List.mem_reverse.mp hf)

/-- Only a path that was never written is missing. -/
theorem find?_holding_eq_none_iff :
    (holding files).files.find? (Path.normalize path) = none ↔
      ∀ f ∈ files, Path.components f.1 ≠ Path.components path := by
  simp [find?_holding, Path.normalize_eq_iff]

/-- A file is read as it is, also when other files lie below it. -/
theorem read_of_find?_some {contents : ByteArray}
    (h : t.files.find? (Path.normalize path) = some contents) : t.read path = .ok contents := by
  rw [read]
  simp only [h]

/-- What is no file is a directory if something lies below it. -/
theorem read_of_find?_none (h : t.files.find? (Path.normalize path) = none) :
    t.read path = if (t.entries (Path.normalize path)).isEmpty then .error .noFile
      else .ok (Path.listing (t.entries (Path.normalize path))).toUTF8 := by
  rw [read]
  simp only [h]

/-- **The tree over strings reads as the tree over components does.** -/
theorem reads_read (files : List (String × ByteArray)) (path : String) :
    Reads files (Path.components path) ((holding files).read path) := by
  cases hfind : (holding files).files.find? (Path.normalize path) with
  | some contents =>
      rw [read_of_find?_some hfind]
      obtain ⟨before, p, behind, hfiles, hp, hlast⟩ := find?_holding_eq_some_iff.mp hfind
      exact .file hfiles hp hlast
  | none =>
      have hno := find?_holding_eq_none_iff.mp hfind
      rw [read_of_find?_none hfind]
      split
      · next hempty =>
          -- a file further down would show in the listing
          refine .missing fun f hf hstart => ?_
          obtain ⟨n, hn⟩ := exists_shows_iff.mpr ⟨hstart, hno f hf⟩
          have hmem := (mem_entries_holding_iff hno).mpr ⟨f, hf, hn⟩
          rw [List.isEmpty_iff.mp hempty] at hmem
          exact List.not_mem_nil hmem
      · next hentries =>
          obtain ⟨n, hn⟩ := List.exists_mem_of_ne_nil _ (mt List.isEmpty_iff.mpr hentries)
          obtain ⟨f, hf, hshows⟩ := (mem_entries_holding_iff hno).mp hn
          exact .directory hno ⟨f, hf, (exists_shows_iff.mp ⟨n, hshows⟩).1⟩
            (inByteOrder_entries _ _) fun n => mem_entries_holding_iff hno

/-- There is one way to read a path. -/
theorem Reads.read_eq (h : Reads files (Path.components path) r) :
    (holding files).read path = r := by
  cases h with
  | file hfiles hp hlast =>
      exact read_of_find?_some (find?_holding_eq_some_iff.mpr ⟨_, _, _, hfiles, hp, hlast⟩)
  | directory hno hbelow horder hnames =>
      obtain ⟨f, hf, hstart⟩ := hbelow
      obtain ⟨n, hn⟩ := exists_shows_iff.mpr ⟨hstart, hno f hf⟩
      have hmem := (mem_entries_holding_iff hno).mpr ⟨f, hf, hn⟩
      have hentries := (inByteOrder_entries (holding files) _).eq_of_mem_iff horder fun n => by
        rw [mem_entries_holding_iff hno, hnames]
      rw [read_of_find?_none (find?_holding_eq_none_iff.mpr hno),
        if_neg fun hempty => List.ne_nil_of_mem hmem (List.isEmpty_iff.mp hempty), hentries]
      rfl
  | missing hno =>
      have hno' : ∀ f ∈ files, Path.components f.1 ≠ Path.components path :=
        fun f hf heq => hno f hf (heq ▸ List.prefix_rfl)
      have hentries : (holding files).entries (Path.normalize path) = [] := by
        refine List.eq_nil_iff_forall_not_mem.mpr fun n hn => ?_
        obtain ⟨f, hf, hshows⟩ := (mem_entries_holding_iff hno').mp hn
        exact hno f hf (exists_shows_iff.mp ⟨n, hshows⟩).1
      rw [read_of_find?_none (find?_holding_eq_none_iff.mpr hno'), hentries]
      rfl

/-- **Files in memory are a tree.** After files have been put in one by one, a path reads as the
last one of its components, if there is one; otherwise as the listing of the names of the files
further down, if there are any; and otherwise there is no file. Files of the same components count
once. -/
theorem read_holding_iff (files : List (String × ByteArray)) :
    (∀ path r, (holding files).read path = r ↔ Reads files (Path.components path) r) ∧
      (holding files).size = (files.map fun f => Path.components f.1).toFinset.card := by
  refine ⟨fun path r => ⟨?_, Reads.read_eq⟩, size_holding files⟩
  rintro rfl
  exact reads_read files path

-- both files have the same components, so the second one takes the place of the first
example : (holding [("a//b/c", "x".toUTF8), ("/a/b/c/", "y".toUTF8)]).read "//a/b/c" =
    .ok "y".toUTF8 := by
  decide +kernel

end MemoryTree

end ArrayLang
