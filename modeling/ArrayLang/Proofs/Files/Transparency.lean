import ArrayLang.Files.MemoryTree
import ArrayLang.Proofs.Files.Calls

/-!
# A mount that is undone

Whoever mounts something and unmounts it again leaves no trace, whatever others have mounted and
unmounted meanwhile at other points: they get the answers that they would have got anyway, and the
table ends as it would have ended (`MountTable.mount_umount_without_trace`).

The two runs are compared through `MountTable.Extended`: one table is the other with one more mount
at a point. Calls that do not name the point keep it.
-/

namespace ArrayLang.MountTable

attribute [ext] MountTable

variable {t u : MountTable} {c : MountCall} {p q : String} {f : Provider} {m : Mount}

/-! ## What an answer depends on -/

/-- Tables with the same protocols answer in the same way as long as they agree on whether something
is mounted at the point that the call names. -/
theorem answer_congr (hprotocols : u.protocols = t.protocols)
    (hmounted : ∀ p, c.point? = some p → Path.isAbsolute p = true →
      u.isMounted (Path.trimmed p) = t.isMounted (Path.trimmed p)) :
    (u.perform c).1 = (t.perform c).1 ∧ u.added? c = t.added? c := by
  -- the answer depends on what is mounted at the one point that the call is about
  have hmount : ∀ p f, (Path.isAbsolute p = true →
        u.isMounted (Path.trimmed p) = t.isMounted (Path.trimmed p)) →
      (u.perform (.mount p f)).1 = (t.perform (.mount p f)).1 ∧
        u.added? (.mount p f) = t.added? (.mount p f) := by
    intro p f h
    simp only [perform, added?, mount_eq]
    by_cases habs : Path.isAbsolute p = true
    · rw [if_pos habs, if_pos habs, h habs]
      cases t.isMounted (Path.trimmed p) <;> exact ⟨rfl, rfl⟩
    · rw [if_neg habs, if_neg habs]
      exact ⟨rfl, rfl⟩
  cases c with
  | mount p f => exact hmount p f (hmounted p rfl)
  | mountSource p uri =>
      have hsource : u.source uri = t.source uri := by rw [source, source, hprotocols]
      cases hs : t.source uri with
      | ok f =>
          rw [perform_mountSource hs, perform_mountSource (hsource.trans hs),
            added?_mountSource hs, added?_mountSource (hsource.trans hs)]
          exact hmount p f (hmounted p rfl)
      | error e =>
          simp only [perform, added?, mountSource_of_error hs,
            mountSource_of_error (hsource.trans hs), hs, hsource.trans hs, and_self]
  | umount p =>
      simp only [perform, added?, umount_eq, and_true]
      by_cases habs : Path.isAbsolute p = true
      · rw [if_pos habs, if_pos habs, hmounted p rfl habs]
        cases t.isMounted (Path.trimmed p) <;> rfl
      · rw [if_neg habs, if_neg habs]
  | addProtocol name protocol => exact ⟨rfl, rfl⟩

theorem protocols_perform_congr (c : MountCall) (h : u.protocols = t.protocols) :
    (u.perform c).2.protocols = (t.perform c).2.protocols := by
  cases c with
  | addProtocol name protocol =>
      show u.protocols.insert name protocol = t.protocols.insert name protocol
      rw [h]
  | mount | umount | mountSource =>
      rw [protocols_perform rfl, protocols_perform rfl, h]

/-! ## One more mount -/

/-- A table is another one with a mount at `q` besides. -/
structure Extended (q : String) (t u : MountTable) : Prop where
  protocols : u.protocols = t.protocols
  mounts : t.mounts = u.mounts.filter fun m => m.point ≠ q
  isMounted : u.isMounted q = true

/-- At any other point the same is mounted in both tables. -/
theorem Extended.isMounted_eq (h : Extended q t u) (hp : p ≠ q) :
    u.isMounted p = t.isMounted p := by
  rw [Bool.eq_iff_iff, isMounted_iff, isMounted_iff, h.mounts]
  constructor
  · rintro ⟨m, hm, rfl⟩
    exact ⟨m, List.mem_filter.mpr ⟨hm, by simpa using hp⟩, rfl⟩
  · rintro ⟨m, hm, rfl⟩
    exact ⟨m, List.mem_of_mem_filter hm, rfl⟩

/-- The mount itself extends a table that has nothing there. -/
theorem extended_mount (habs : Path.isAbsolute p = true)
    (hfree : ∀ m ∈ t.mounts, m.point ≠ Path.trimmed p) (f : Provider) :
    (t.perform (.mount p f)).1 = .ok () ∧
      Extended (Path.trimmed p) t (t.perform (.mount p f)).2 := by
  have hnot : t.isMounted (Path.trimmed p) = false := by
    rw [Bool.eq_false_iff]
    intro h
    obtain ⟨m, hm, hpoint⟩ := isMounted_iff.mp h
    exact hfree m hm hpoint
  have hkept : (t.mounts.filter fun m => m.point ≠ Path.trimmed p) = t.mounts := by
    rw [List.filter_eq_self]
    intro m hm
    exact decide_eq_true (hfree m hm)
  rw [MountTable.perform, mount_of_free habs hnot]
  refine ⟨rfl, rfl, ?_, ?_⟩
  · rw [List.filter_append, hkept]
    simp
  · rw [isMounted_iff]
    exact ⟨_, List.mem_append_right _ (List.mem_singleton_self _), rfl⟩

/-- A call that names another point is answered alike and keeps the mount. -/
theorem Extended.perform (h : Extended q t u) (ht : t.Tidy) (hu : u.Tidy)
    (hc : ∀ p, c.point? = some p → Path.isAbsolute p = true → Path.trimmed p ≠ q) :
    (u.perform c).1 = (t.perform c).1 ∧ Extended q (t.perform c).2 (u.perform c).2 := by
  obtain ⟨hanswer, hadded⟩ := answer_congr h.protocols fun p hp habs =>
    h.isMounted_eq (hc p hp habs)
  have hcleared : c.cleared? ≠ some q := by
    intro hq
    obtain ⟨p, rfl, habs, hpoint⟩ := MountCall.cleared?_eq_some_iff.mp hq
    exact hc p rfl habs hpoint
  have hkept : ((t.added? c).toList.filter fun m => m.point ≠ q) = (t.added? c).toList := by
    rw [List.filter_eq_self]
    intro m hm
    obtain ⟨p, hp, habs, hpoint, -⟩ := exists_point_of_added? (Option.mem_toList.mp hm)
    apply decide_eq_true
    rw [hpoint]
    exact hc p hp habs
  refine ⟨hanswer, protocols_perform_congr c h.protocols, ?_, ?_⟩
  · rw [mounts_perform ht, mounts_perform hu, hadded, h.mounts, List.filter_append, hkept,
      List.filter_filter, List.filter_filter]
    simp only [Bool.and_comm]
  · obtain ⟨m, hm, rfl⟩ := isMounted_iff.mp h.isMounted
    rw [isMounted_iff, mounts_perform hu]
    exact ⟨m, List.mem_append_left _ (List.mem_filter.mpr ⟨hm, by simpa using hcleared⟩), rfl⟩

/-- **A run of calls elsewhere gives the same results and keeps the extension.** -/
theorem Extended.performAll (h : Extended q t u) (ht : t.Tidy) (hu : u.Tidy)
    {calls : List MountCall}
    (hcalls : ∀ c ∈ calls, ∀ p, c.point? = some p → Path.isAbsolute p = true →
      Path.trimmed p ≠ q) :
    (u.performAll calls).1 = (t.performAll calls).1 ∧
      Extended q (t.performAll calls).2 (u.performAll calls).2 ∧ (u.performAll calls).2.Tidy := by
  induction calls generalizing t u with
  | nil => exact ⟨rfl, h, hu⟩
  | cons c calls ih =>
      obtain ⟨hanswer, hnext⟩ := h.perform ht hu (hcalls c List.mem_cons_self)
      obtain ⟨hanswers, hrest, htidy⟩ := ih hnext (ht.perform c) (hu.perform c)
        fun c' hc' => hcalls c' (List.mem_cons_of_mem c hc')
      refine ⟨?_, hrest, htidy⟩
      rw [MountTable.performAll, MountTable.performAll, hanswer, hanswers]

/-- The unmounting takes away what the extended table has besides, and nothing else. -/
theorem Extended.umount (h : Extended (Path.trimmed p) t u) (hu : u.Tidy)
    (habs : Path.isAbsolute p = true) : u.perform (.umount p) = (.ok (), t) := by
  have hanswer : (u.perform (.umount p)).1 = .ok () := by
    rw [MountTable.perform, umount_of_mounted habs h.isMounted]
  refine Prod.ext hanswer (MountTable.ext ?_ ?_)
  · rw [mounts_perform hu, h.mounts, MountCall.cleared?, if_pos habs, added?]
    simp [eq_comm]
  · exact (protocols_perform rfl).trans h.protocols

/-! ## The whole run -/

/-- **What is mounted and unmounted again leaves no trace.** However a table has been reached, its
points are different from each other, start with a slash and, but for the root, do not end with one,
and a call that is refused leaves the table as it is. Whatever is mounted at a point that is free,
up to slashes at the end, and unmounted after calls that do not name the point: these calls get the
answers that they would have got, and the table ends as it would have ended. -/
theorem mount_umount_without_trace (history : List MountCall) :
    (after history).Tidy ∧
      (∀ c e, ((after history).perform c).1 = .error e →
        ((after history).perform c).2 = after history) ∧
      ∀ point provider calls, Path.isAbsolute point = true →
        (∀ m ∈ (after history).mounts, Path.trimmed m.point ≠ Path.trimmed point) →
        (∀ c ∈ calls, ¬ c.Names point) →
        (after history).performAll (.mount point provider :: calls ++ [.umount point]) =
          (.ok () :: ((after history).performAll calls).1 ++ [.ok ()],
            ((after history).performAll calls).2) := by
  have ht := tidy_after history
  refine ⟨ht, fun c e => perform_of_error, ?_⟩
  intro point provider calls habs hfree hcalls
  have hpoints : ∀ m ∈ (after history).mounts, m.point ≠ Path.trimmed point := by
    intro m hm
    rw [← ht.trimmed_eq hm]
    exact hfree m hm
  obtain ⟨hmount, hextended⟩ := extended_mount habs hpoints provider
  obtain ⟨hanswers, hrest, hu⟩ := hextended.performAll ht (ht.perform _)
    fun c hc p hp hpabs heq => hcalls c hc ⟨p, hp, hpabs, heq⟩
  have humount := hrest.umount hu habs
  rw [List.cons_append, MountTable.performAll, performAll_append]
  simp only [MountTable.performAll, hmount, hanswers, humount, List.cons_append]

/-- A table for the root and something below `/a`. -/
def nestedHistory : List MountCall :=
  [.mount "/" MemoryTree.empty.provider, .mount "/a/b/" MemoryTree.empty.provider]

/-- What is below `/a` goes and comes back, and something is unmounted that is not there. -/
def nestedCalls : List MountCall :=
  [.umount "/a/b", .mount "/a/b" MemoryTree.empty.provider, .umount "/ab"]

theorem mount_umount_without_trace_nested :
    (after nestedHistory).performAll
        (.mount "/a/" MemoryTree.empty.provider :: nestedCalls ++ [.umount "/a/"]) =
      ([.ok (), .ok (), .ok (), .error (.notMounted "/ab"), .ok ()],
        ((after nestedHistory).performAll nestedCalls).2) :=
  (mount_umount_without_trace nestedHistory).2.2 "/a/" MemoryTree.empty.provider nestedCalls
    (by decide) (by decide) (by decide)

end ArrayLang.MountTable
