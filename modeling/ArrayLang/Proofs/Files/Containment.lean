import ArrayLang.Proofs.Files.Spellings
import ArrayLang.Proofs.Results

/-!
# Mounted directories are not left

A directory of the host that is mounted serves what is in it and nothing else. A path with `..` in
it is refused before the host is asked; any other one stands for the directory followed by the parts
that lead somewhere, and all that the host is asked for is that path or, where it is a directory, an
entry of it (`HostDirectory.never_leaves`). Whatever the host answers, and however the request
reaches the directory, through which mount point and with how many slashes, makes no difference.

* `HostPath.Within` — a path of the host that lies in a directory.
* `HostDirectory.path_of_touches_read` — the paths that are looked at.
-/

namespace ArrayLang

namespace Path

variable {a b n : String} {names : List String}

/-- The parts of a path that lead somewhere. -/
def steps (path : String) : List String :=
  (parts path).filter fun part => part ≠ "" ∧ part ≠ "."

/-- Steps are the parts of a path that go somewhere. -/
theorem mem_steps_iff {path : String} :
    n ∈ steps path ↔ n ∈ parts path ∧ n ≠ "" ∧ n ≠ "." := by
  rw [steps, List.mem_filter, decide_eq_true_iff]

/-- A step is a component: it is not empty and has no slash. -/
theorem isComponent_of_mem_steps {path : String} (h : n ∈ steps path) : IsComponent n := by
  obtain ⟨hmem, hne, -⟩ := mem_steps_iff.mp h
  have hcomponent : n ∈ components path := List.mem_filter.mpr ⟨hmem, by simpa using hne⟩
  exact isComponent_of_mem hcomponent

/-- Joined by slashes, components can be read again. -/
theorem components_ofParts (h : ∀ n ∈ names, IsComponent n) :
    components (ofParts names) = names := by
  rw [← components_slash]
  exact components_plain h

theorem isAbsolute_append_of_ne (h : a ≠ "") (b : String) :
    isAbsolute (a ++ b) = isAbsolute a := by
  have hne : a.toList ≠ [] := fun hnil => h (String.toList_injective hnil)
  rw [isAbsolute, isAbsolute, String.toList_append, List.head?_append_of_ne_nil _ hne]

theorem isAbsolute_of_isComponent (h : IsComponent n) : isAbsolute n = false := by
  rw [← Bool.not_eq_true, isAbsolute_iff]
  rintro ⟨cs, hcs⟩
  exact h.2 (hcs ▸ List.mem_append_left _ (List.mem_singleton.mpr rfl))

theorem isAbsolute_ofParts (h : ∀ n ∈ names, IsComponent n) :
    isAbsolute (ofParts names) = false := by
  match names with
  | [] => rfl
  | [n] =>
    rw [ofParts, String.intercalate_singleton]
    exact isAbsolute_of_isComponent (h n (List.mem_singleton.mpr rfl))
  | n :: n' :: names =>
    obtain ⟨hn, -⟩ := List.forall_mem_cons.mp h
    rw [ofParts_cons_cons, isAbsolute_append_of_ne hn.1, isAbsolute_of_isComponent hn]

/-- As many slashes. -/
def slashes (k : Nat) : String := String.ofList (List.replicate k '/')

theorem slashes_succ_append (k : Nat) (path : String) :
    slashes (k + 1) ++ path = "/" ++ (slashes k ++ path) := by
  apply String.toList_injective
  simp [slashes, List.replicate_succ]

theorem slashes_zero_append (path : String) : slashes 0 ++ path = path := String.empty_append

theorem components_slashes_append (k : Nat) (path : String) :
    components (slashes k ++ path) = components path := by
  induction k with
  | zero => rw [slashes_zero_append]
  | succ k ih => rw [slashes_succ_append, components_slash, ih]

/-- The path of a directory as the start of a longer one ends in exactly the slashes that it had,
or in one if it had none. -/
theorem opened_cases (root : String) :
    root = "" ∨ (∃ r, root = r ++ "/" ∧ opened root = r ++ "/") ∨
      root ≠ "" ∧ opened root = root ++ "/" := by
  unfold opened
  split
  · next h => exact .inl (String.toList_injective (List.getLast?_eq_none_iff.mp h))
  · next h =>
      obtain ⟨r, hr⟩ := List.getLast?_eq_some_iff.mp h
      have hroot : root = String.ofList r ++ "/" := by
        apply String.toList_injective
        simp [hr]
      exact .inr (.inl ⟨_, hroot, hroot⟩)
  · next h =>
      refine .inr (.inr ⟨?_, String.toList_injective (by simp)⟩)
      rintro rfl
      cases h

end Path

/-! ## Paths of the host -/

namespace HostPath

variable {p : HostPath}

/-- How the components are put behind the directory. -/
theorem text_cases (h : p.components ≠ []) :
    p.root = "" ∧ p.text = Path.ofParts p.components ∨
      (∃ r, p.root = r ++ "/" ∧ p.text = r ++ ("/" ++ Path.ofParts p.components)) ∨
      p.root ≠ "" ∧ p.text = p.root ++ ("/" ++ Path.ofParts p.components) := by
  have htext : p.text = Path.opened p.root ++ Path.ofParts p.components := by
    rw [text, if_neg (mt List.isEmpty_iff.mp h)]
  rcases Path.opened_cases p.root with hroot | ⟨r, hroot, hopened⟩ | ⟨hroot, hopened⟩
  · rw [htext, hroot]
    exact .inl ⟨rfl, String.empty_append⟩
  · rw [htext, hopened, String.append_assoc]
    exact .inr (.inl ⟨r, hroot, rfl⟩)
  · rw [htext, hopened, String.append_assoc]
    exact .inr (.inr ⟨hroot, rfl⟩)

theorem text_of_components_eq_nil (h : p.components = []) : p.text = p.root := by
  rw [text, h]
  rfl

/-- The path lies in a directory: it has the components of the directory and then some, none of
which leads up, and it starts at the root if and only if the directory does. -/
structure Within (p : HostPath) (root : String) : Prop where
  components_eq : Path.components p.text = Path.components root ++ p.components
  no_parent : ".." ∉ p.components
  isAbsolute_eq : Path.isAbsolute p.text = Path.isAbsolute root

/-- A host path reads as the components of the root, followed by its own. -/
theorem components_text (h : ∀ n ∈ p.components, Path.IsComponent n) :
    Path.components p.text = Path.components p.root ++ p.components := by
  by_cases hnil : p.components = []
  · rw [text_of_components_eq_nil hnil, hnil, List.append_nil]
  · rcases text_cases hnil with ⟨hroot, htext⟩ | ⟨r, hroot, htext⟩ | ⟨-, htext⟩
    · rw [htext, hroot, Path.components_ofParts h]
      rfl
    · rw [htext, hroot, Path.components_append_slash, Path.components_concat_slash,
        Path.components_ofParts h]
    · rw [htext, Path.components_append_slash, Path.components_ofParts h]

theorem isAbsolute_text (h : ∀ n ∈ p.components, Path.IsComponent n) :
    Path.isAbsolute p.text = Path.isAbsolute p.root := by
  by_cases hnil : p.components = []
  · rw [text_of_components_eq_nil hnil]
  · rcases text_cases hnil with ⟨hroot, htext⟩ | ⟨r, hroot, htext⟩ | ⟨hroot, htext⟩
    · rw [htext, hroot, Path.isAbsolute_ofParts h]
      rfl
    · have hne : r ++ "/" ≠ "" := by
        intro h
        simpa using congrArg String.toList h
      rw [htext, hroot, ← String.append_assoc, Path.isAbsolute_append_of_ne hne]
    · rw [htext, Path.isAbsolute_append_of_ne hroot]

/-- A path of components that do not lead up lies in its directory. -/
theorem within_root (h : ∀ n ∈ p.components, Path.IsComponent n) (hparent : ".." ∉ p.components) :
    p.Within p.root :=
  ⟨components_text h, hparent, isAbsolute_text h⟩

end HostPath

/-! ## What a program looks at -/

namespace HostProgram

variable {ε ε' α β : Type} {a b : Access} {p : HostProgram ε α}

/-- What two programs touch is touched by one of them. -/
theorem touches_of_bind {next : α → HostProgram ε β} (h : (p >>= next).Touches a) :
    p.Touches a ∨ ∃ x, (next x).Touches a := by
  replace h : (p.bind next).Touches a := h
  induction p with
  | done r =>
      cases r with
      | ok x => exact .inr ⟨x, h⟩
      | error e => exact nomatch h
  | ask b resume ih =>
      cases h with
      | here => exact .inl .here
      | later answer h => exact (ih answer h).imp_left (.later answer)

/-- A single look makes one access. -/
theorem touches_look_iff : (look b).Touches a ↔ a = b := by
  constructor
  · intro h
    cases h with
    | here => rfl
    | later answer h => exact nomatch h
  · rintro rfl
    exact .here

/-- Renaming errors makes no access and keeps the program from none. -/
theorem touches_mapError_iff {f : ε → ε'} : (p.mapError f).Touches a ↔ p.Touches a := by
  induction p with
  | done r => exact iff_of_false nofun nofun
  | ask b resume ih =>
      constructor
      · intro h
        cases h with
        | here => exact .here
        | later answer h => exact .later answer ((ih answer).mp h)
      · intro h
        cases h with
        | here => exact .here
        | later answer h => exact .later answer ((ih answer).mpr h)

end HostProgram

/-! ## Mounts -/

namespace Mount

/-- A path at or below a mount point, with more slashes than it needs behind the point. -/
def spelled (point : String) (k : Nat) (path : String) : String :=
  (if point = "/" then "" else point) ++ (Path.slashes (k + 1) ++ path)

/-- Whoever wants a mount may spell its mount point with any number of slashes behind it. -/
theorem gives_spelled (m : Mount) (k : Nat) (path : String) :
    m.Gives (spelled m.point k path) (Path.slashes (k + 1) ++ path) := by
  have habs : Path.isAbsolute (Path.slashes (k + 1) ++ path) = true := by
    rw [Path.slashes_succ_append, Path.isAbsolute_append_of_ne (by decide)]
    rfl
  by_cases hroot : m.point = "/"
  · have hspelled : spelled m.point k path = Path.slashes (k + 1) ++ path := by
      rw [spelled, if_pos hroot, String.empty_append]
    rw [hspelled]
    exact .whole hroot habs
  · refine .below hroot ?_ habs
    rw [spelled, if_neg hroot]

end Mount

/-! ## Mounted directories -/

namespace HostDirectory

variable {d : HostDirectory} {path : String} {p : HostPath}

/-- The walk over the parts refuses to go up, and otherwise keeps the parts that go somewhere. -/
theorem below?_eq (done parts : List String) :
    below? done parts = if ".." ∈ parts then none
      else some (done.reverse ++ parts.filter fun part => part ≠ "" ∧ part ≠ ".") := by
  induction parts generalizing done with
  | nil =>
      rw [if_neg List.not_mem_nil, List.filter_nil, List.append_nil]
      rfl
  | cons part parts ih =>
      rw [below?]
      by_cases hstays : part = "" ∨ part = "."
      · -- a part that stays is not the one that leads up
        have hparent : ".." ≠ part := by
          intro h
          rw [← h] at hstays
          revert hstays
          decide
        rw [if_pos hstays, ih,
          List.filter_cons_of_neg (by simpa [or_iff_not_imp_left] using hstays)]
        simp only [List.mem_cons, hparent, false_or]
      · rw [if_neg hstays]
        by_cases hparent : part = ".."
        · rw [if_pos hparent, hparent, if_pos List.mem_cons_self]
        · rw [if_neg hparent, ih, List.filter_cons_of_pos (by simpa using hstays)]
          simp only [List.mem_cons, Ne.symm hparent, false_or, List.reverse_cons, List.append_assoc,
            List.singleton_append]

/-- A path that goes up is refused; any other lies below the root. -/
theorem hostPath_eq (d : HostDirectory) (path : String) :
    d.hostPath path = if ".." ∈ Path.parts path then .error .leavesDirectory
      else .ok ⟨d.root, Path.steps path⟩ := by
  rw [hostPath, below?_eq]
  split_ifs with hparent
  · rfl
  · rfl

theorem hostPath_eq_ok_iff :
    d.hostPath path = .ok p ↔ ".." ∉ Path.parts path ∧ p = ⟨d.root, Path.steps path⟩ := by
  rw [hostPath_eq]
  split_ifs with hparent
  · simp [hparent]
  · simp [hparent, eq_comm]

/-- Who is refused has not got as far as the host. -/
theorem read_of_parent (h : ".." ∈ Path.parts path) :
    d.read path = .done (.error .leavesDirectory) := by
  rw [read, hostPath_eq, if_pos h]
  rfl

/-- Reading is reading at the host path. -/
theorem read_of_hostPath_ok (h : d.hostPath path = .ok p) : d.read path = readAt p := by
  rw [read, h]
  rfl

/-! ## What is looked at -/

/-- Listing a directory asks for the types of its entries and touches nothing else. -/
theorem touches_entryNames {number : Nat} {entries : List (Except ReadFailure EntryName)}
    {a : Access} (h : (entryNames p number entries).Touches a) :
    ∃ i name, a = .fileType p i name := by
  induction entries generalizing number with
  | nil => exact nomatch h
  | cons entry entries ih =>
      rw [entryNames] at h
      rcases HostProgram.touches_of_bind h with h | ⟨name, h⟩
      · exact nomatch h
      · rcases HostProgram.touches_of_bind h with h | ⟨isDirectory, h⟩
        · exact ⟨number, name, HostProgram.touches_look_iff.mp h⟩
        · rcases HostProgram.touches_of_bind h with h | ⟨names, h⟩
          · exact ih h
          · exact nomatch h

/-- One path of the host is looked at, and then perhaps the entries of a directory there. -/
theorem path_of_touches_readAt {a : Access} (h : (readAt p).Touches a) :
    a.path = p ∨ ∃ name : EntryName, a.path = ⟨p.root, p.components ++ [name.text]⟩ := by
  rw [readAt] at h
  rcases HostProgram.touches_of_bind h with h | ⟨isDirectory, h⟩
  · exact .inl (HostProgram.touches_look_iff.mp h ▸ rfl)
  · split at h
    · rcases HostProgram.touches_of_bind h with h | ⟨entries, h⟩
      · exact .inl (HostProgram.touches_look_iff.mp h ▸ rfl)
      · rcases HostProgram.touches_of_bind h with h | ⟨names, h⟩
        · obtain ⟨i, name, rfl⟩ := touches_entryNames h
          exact .inr ⟨name, rfl⟩
        · exact nomatch h
    · exact .inl (HostProgram.touches_look_iff.mp h ▸ rfl)

/-- All that is looked at lies in the directory, at the path that was asked for or below it. -/
theorem within_of_touches_read {a : Access} (h : (d.read path).Touches a) :
    a.path.Within d.root ∧ a.path.root = d.root ∧ Path.steps path <+: a.path.components := by
  by_cases hparent : ".." ∈ Path.parts path
  · rw [read_of_parent hparent] at h
    exact nomatch h
  have hp : d.hostPath path = .ok ⟨d.root, Path.steps path⟩ :=
    hostPath_eq_ok_iff.mpr ⟨hparent, rfl⟩
  have hcomponents : ∀ n ∈ Path.steps path, Path.IsComponent n :=
    fun n hn => Path.isComponent_of_mem_steps hn
  have hsteps : ".." ∉ Path.steps path := fun hmem => hparent (Path.mem_steps_iff.mp hmem).1
  rw [read_of_hostPath_ok hp] at h
  rcases path_of_touches_readAt h with heq | ⟨name, heq⟩
  · rw [heq]
    exact ⟨HostPath.within_root hcomponents hsteps, rfl, List.prefix_rfl⟩
  · obtain ⟨hempty, -, hup, hslash⟩ := name.isName
    rw [heq]
    refine ⟨HostPath.within_root (fun n hn => ?_) (fun hmem => ?_), rfl, List.prefix_append _ _⟩
    · rcases List.mem_append.mp hn with hn | hn
      · exact hcomponents n hn
      · rw [List.mem_singleton.mp hn]
        exact ⟨hempty, hslash⟩
    · rcases List.mem_append.mp hmem with hmem | hmem
      · exact hsteps hmem
      · exact hup (List.mem_singleton.mp hmem).symm

/-- **A mounted directory is not left.** A path is refused exactly if one of its parts is `..`, and
nothing is asked of the host then. Any other one stands for the directory and, behind it, the parts
that are neither empty nor `.`. Whatever the host answers, all paths that it is asked for are that
one and perhaps those of entries there; they have the components of the directory in front, and no
`..` behind them. Under every mount point, and with any number of slashes behind it, the same is
read, with the same looks at the host. -/
theorem never_leaves (d : HostDirectory) (path : String) :
    (d.hostPath path = if ".." ∈ Path.parts path then .error .leavesDirectory
      else .ok ⟨d.root, (Path.parts path).filter fun part => part ≠ "" ∧ part ≠ "."⟩) ∧
    (".." ∈ Path.parts path → d.read path = .done (.error .leavesDirectory)) ∧
    (∀ a, (d.read path).Touches a → a.path.Within d.root ∧ a.path.root = d.root ∧
      ((Path.parts path).filter fun part => part ≠ "" ∧ part ≠ ".") <+: a.path.components) ∧
    ∀ (t : MountTable) before point behind k,
      t.mounts = before ++ ⟨point, d.provider⟩ :: behind →
      (∀ m ∈ behind, ¬ m.Contains (Mount.spelled point k path)) →
        t.read (Mount.spelled point k path) = (d.read path).mapError
            (fun e => .unreadable (Mount.spelled point k path) e.message) ∧
        ∀ a, (t.read (Mount.spelled point k path)).Touches a ↔ (d.read path).Touches a := by
  refine ⟨hostPath_eq d path, read_of_parent, fun a => within_of_touches_read,
    fun t before point behind k hmounts hbehind => ?_⟩
  have hfind : t.find (Mount.spelled point k path) =
      .ok (d.provider, Path.slashes (k + 1) ++ path) :=
    MountTable.find_eq_ok_iff.mpr ⟨before, ⟨point, d.provider⟩, behind, hmounts, rfl,
      Mount.gives_spelled _ k path, hbehind⟩
  rw [MountTable.read_of_find_ok hfind,
    d.goesByComponents _ path (Path.components_slashes_append _ path)]
  exact ⟨rfl, fun a => HostProgram.touches_mapError_iff⟩

/-- A directory at `/data`, a path in it, and a request that would leave it. -/
theorem never_leaves_served :
    (HostDirectory.mk "/srv").hostPath "./a//b" = .ok ⟨"/srv", ["a", "b"]⟩ ∧
    (∃ a, ((HostDirectory.mk "/srv").read "./a//b").Touches a ∧ a.path = ⟨"/srv", ["a", "b"]⟩ ∧
      a.path.Within "/srv") ∧
    MountTable.read ⟨[⟨"/data", (HostDirectory.mk "/srv").provider⟩], .empty⟩ "/data//x/../.." =
      .done (.error (.unreadable "/data//x/../.." "path leaves the mounted directory")) := by
  obtain ⟨hpath, -, hwithin, -⟩ := never_leaves ⟨"/srv"⟩ "./a//b"
  obtain ⟨-, hrefused, -, hmounted⟩ := never_leaves ⟨"/srv"⟩ "x/../.."
  have haccepted : (HostDirectory.mk "/srv").hostPath "./a//b" = .ok ⟨"/srv", ["a", "b"]⟩ := by
    rw [hpath]
    decide
  have htouches : ((HostDirectory.mk "/srv").read "./a//b").Touches
      (.metadata ⟨"/srv", ["a", "b"]⟩) := by
    rw [read_of_hostPath_ok haccepted]
    exact .here
  obtain ⟨hread, -⟩ := hmounted ⟨[⟨"/data", (HostDirectory.mk "/srv").provider⟩], .empty⟩ []
    "/data" [] 1 rfl (fun _ h => absurd h List.not_mem_nil)
  rw [hrefused (by decide)] at hread
  exact ⟨haccepted, ⟨_, htouches, rfl, (hwithin _ htouches).1⟩, hread⟩

end HostDirectory

end ArrayLang
