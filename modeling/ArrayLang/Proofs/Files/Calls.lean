import ArrayLang.Files.MountTable
import Mathlib.Data.List.DropRight
import Mathlib.Data.List.Nodup

/-!
# Calls on a mount table

A table is reached from the empty one by calls that mount, unmount and make protocols known
(`MountTable.perform`). Each of them gives an answer and leaves a table behind; where the answer is
an error, this is the table that was there before (`MountTable.perform_of_error`).

What a call does to the list of mounts is one equation, `MountTable.mounts_perform`: the mount at
the point that the call clears goes, and the mount that the call adds comes last. The equation needs
points that occur once, which is part of what all calls keep (`MountTable.Tidy`).
-/

namespace ArrayLang

/-! ## Points -/

namespace Path

variable {path : String}

theorem isAbsolute_iff : isAbsolute path = true ↔ ['/'] <+: path.toList := by
  unfold isAbsolute
  cases path.toList with
  | nil => simp
  | cons c cs =>
      rw [List.cons_prefix_cons]
      simp [eq_comm (a := '/')]

/-- Slashes are taken off the end, and the path that has nothing else keeps one. -/
theorem toList_trimmed (path : String) :
    (trimmed path).toList =
      if path.toList.rdropWhile (· == '/') = [] then ['/']
      else path.toList.rdropWhile (· == '/') := by
  show (if (path.toList.rdropWhile (· == '/')).isEmpty then "/"
    else String.ofList (path.toList.rdropWhile (· == '/'))).toList = _
  split
  · next h =>
      rw [if_pos (List.isEmpty_iff.mp h)]
      rfl
  · next h =>
      rw [if_neg (fun hnil => h (List.isEmpty_iff.mpr hnil))]
      exact String.toList_ofList

theorem isAbsolute_trimmed (h : isAbsolute path = true) : isAbsolute (trimmed path) = true := by
  rw [isAbsolute_iff] at h ⊢
  rw [toList_trimmed]
  split
  · exact List.prefix_refl _
  · next hne =>
      obtain ⟨c, cs, hcs⟩ := List.exists_cons_of_ne_nil hne
      have hprefix := List.rdropWhile_prefix (· == '/') (l := path.toList)
      rw [hcs] at hprefix ⊢
      obtain ⟨rest, hrest⟩ := hprefix
      obtain ⟨tail, htail⟩ := h
      rw [← htail, List.cons_append, List.cons_append] at hrest
      rw [(List.cons.inj hrest).1]
      exact List.prefix_append ['/'] cs

/-- Only the root keeps a slash at its end. -/
theorem eq_root_of_getLast?_trimmed (h : (trimmed path).toList.getLast? = some '/') :
    trimmed path = "/" := by
  rw [toList_trimmed] at h
  split at h
  · next hnil =>
      apply String.toList_injective
      rw [toList_trimmed, if_pos hnil]
      rfl
  · next hne =>
      have hlast := List.rdropWhile_last_not (· == '/') path.toList hne
      rw [List.getLast?_eq_getLast_of_ne_nil hne, Option.some.injEq] at h
      exact absurd (beq_iff_eq.mpr h) hlast

/-- Only a slash at the end is taken away. -/
theorem trimmed_eq_self (hne : path ≠ "") (h : path.toList.getLast? = some '/' → path = "/") :
    trimmed path = path := by
  apply String.toList_injective
  rw [toList_trimmed]
  by_cases hroot : path = "/"
  · subst hroot
    decide
  · have hkept : path.toList.rdropWhile (· == '/') = path.toList := by
      rw [List.rdropWhile_eq_self_iff]
      intro hl hlast
      refine hroot (h ?_)
      rw [List.getLast?_eq_getLast_of_ne_nil hl, beq_iff_eq.mp hlast]
    rw [hkept, if_neg]
    intro hnil
    exact hne (String.toList_injective hnil)

end Path

/-- What can be asked of a table that changes it. -/
inductive MountCall where
  | mount (point : String) (provider : Provider)
  | umount (point : String)
  | mountSource (point uri : String)
  | addProtocol (name : String) (protocol : Protocol)

namespace MountCall

/-- The point that a call names, as it is written there. -/
def point? : MountCall → Option String
  | .mount point _ | .umount point | .mountSource point _ => some point
  | .addProtocol .. => none

/-- A call names a point if it does so up to slashes at the end. -/
def Names (c : MountCall) (point : String) : Prop :=
  ∃ p ∈ c.point?, Path.isAbsolute p = true ∧ Path.trimmed p = Path.trimmed point

instance (c : MountCall) (point : String) : Decidable (c.Names point) :=
  inferInstanceAs (Decidable (∃ p ∈ c.point?, _))

/-- The point that is free after the call. -/
def cleared? : MountCall → Option String
  | .umount point => if Path.isAbsolute point then some (Path.trimmed point) else none
  | _ => none

/-- A mount point is cleared by the call to unmount it under any spelling that is trimmed to it. -/
theorem cleared?_eq_some_iff {c : MountCall} {q : String} :
    c.cleared? = some q ↔ ∃ p, c = .umount p ∧ Path.isAbsolute p = true ∧ Path.trimmed p = q := by
  cases c with
  | umount p => simp [cleared?]
  | mount | mountSource | addProtocol => simp [cleared?]

end MountCall

namespace MountTable

variable {t t' : MountTable} {c : MountCall} {p q : String} {f : Provider} {m : Mount}
  {e : MountError}

/-- The answer to a call, and the table behind it. -/
def perform (t : MountTable) : MountCall → Except MountError Unit × MountTable
  | .mount point provider => t.mount point provider
  | .umount point => t.umount point
  | .mountSource point uri => t.mountSource point uri
  | .addProtocol name protocol => (.ok (), t.addProtocol name protocol)

def performAll (t : MountTable) : List MountCall → List (Except MountError Unit) × MountTable
  | [] => ([], t)
  | c :: calls =>
    let rest := (t.perform c).2.performAll calls
    ((t.perform c).1 :: rest.1, rest.2)

/-- The table that calls make of the empty one. -/
def after (calls : List MountCall) : MountTable := (empty.performAll calls).2

/-- The mount that a call adds to the table, if it adds one. -/
def added? (t : MountTable) : MountCall → Option Mount
  | .mount point provider =>
    match (t.mount point provider).1 with
    | .ok _ => some ⟨Path.trimmed point, provider⟩
    | .error _ => none
  | .mountSource point uri =>
    match t.source uri with
    | .ok provider =>
      match (t.mount point provider).1 with
      | .ok _ => some ⟨Path.trimmed point, provider⟩
      | .error _ => none
    | .error _ => none
  | .umount _ | .addProtocol .. => none

/-! ## Each call by itself -/

theorem isMounted_iff : t.isMounted q = true ↔ ∃ m ∈ t.mounts, m.point = q := by
  simp [isMounted]

/-- The two checks of mounting, in their order, and what is changed behind them. -/
theorem mount_eq (t : MountTable) (p : String) (f : Provider) :
    t.mount p f =
      if Path.isAbsolute p = true then
        if t.isMounted (Path.trimmed p) = true then (.error (.alreadyMounted (Path.trimmed p)), t)
        else (.ok (), { t with mounts := t.mounts ++ [⟨Path.trimmed p, f⟩] })
      else (.error (.invalidMountPoint p), t) := by
  unfold mount canonical
  by_cases habs : Path.isAbsolute p = true
  · simp only [if_pos habs]
  · simp only [if_neg habs]

/-- The two checks of unmounting, and the mount that is taken out. -/
theorem umount_eq (t : MountTable) (p : String) :
    t.umount p =
      if Path.isAbsolute p = true then
        if t.isMounted (Path.trimmed p) = true then
          (.ok (), { t with mounts :=
            (t.mounts.reverse.eraseP fun m => m.point == Path.trimmed p).reverse })
        else (.error (.notMounted (Path.trimmed p)), t)
      else (.error (.invalidMountPoint p), t) := by
  unfold umount canonical
  by_cases habs : Path.isAbsolute p = true
  · simp only [if_pos habs]
  · simp only [if_neg habs]

theorem mount_of_free (habs : Path.isAbsolute p = true)
    (hfree : t.isMounted (Path.trimmed p) = false) :
    t.mount p f = (.ok (), { t with mounts := t.mounts ++ [⟨Path.trimmed p, f⟩] }) := by
  rw [mount_eq, if_pos habs, hfree]
  rfl

theorem umount_of_mounted (habs : Path.isAbsolute p = true)
    (hmounted : t.isMounted (Path.trimmed p) = true) :
    t.umount p = (.ok (), { t with mounts :=
      (t.mounts.reverse.eraseP fun m => m.point == Path.trimmed p).reverse }) := by
  rw [umount_eq, if_pos habs, if_pos hmounted]

/-- A mount is refused, or its point was free. -/
theorem mount_cases (t : MountTable) (p : String) (f : Provider) :
    (∃ e, t.mount p f = (.error e, t)) ∨
      Path.isAbsolute p = true ∧ t.isMounted (Path.trimmed p) = false := by
  rw [mount_eq]
  split
  · next habs =>
      split
      · exact .inl ⟨_, rfl⟩
      · next hfree => exact .inr ⟨habs, Bool.eq_false_iff.mpr hfree⟩
  · exact .inl ⟨_, rfl⟩

/-- An unmounting is refused, or something was at the point. -/
theorem umount_cases (t : MountTable) (p : String) :
    (∃ e, t.umount p = (.error e, t)) ∧
        ¬ (Path.isAbsolute p = true ∧ t.isMounted (Path.trimmed p) = true) ∨
      Path.isAbsolute p = true ∧ t.isMounted (Path.trimmed p) = true := by
  rw [umount_eq]
  by_cases habs : Path.isAbsolute p = true
  · rw [if_pos habs]
    by_cases hmounted : t.isMounted (Path.trimmed p) = true
    · exact .inr ⟨habs, hmounted⟩
    · rw [if_neg hmounted]
      exact .inl ⟨⟨_, rfl⟩, fun h => hmounted h.2⟩
  · rw [if_neg habs]
    exact .inl ⟨⟨_, rfl⟩, fun h => habs h.1⟩

/-- A source that is there is mounted like any other provider. -/
theorem mountSource_of_ok {uri : String} (h : t.source uri = .ok f) :
    t.mountSource p uri = t.mount p f := by
  rw [mountSource, h]

/-- A source that gives no provider is an error before any mount point is looked at. -/
theorem mountSource_of_error {uri : String} (h : t.source uri = .error e) :
    t.mountSource p uri = (.error e, t) := by
  rw [mountSource, h]

/-- **A call that is refused leaves the table as it is.** -/
theorem perform_of_error (h : (t.perform c).1 = .error e) : (t.perform c).2 = t := by
  have hmount : ∀ p f, (t.mount p f).1 = .error e → (t.mount p f).2 = t := by
    intro p f h
    rcases mount_cases t p f with ⟨e', he⟩ | ⟨habs, hfree⟩
    · rw [he]
    · rw [mount_of_free habs hfree] at h
      cases h
  cases c with
  | mount p f => exact hmount p f h
  | mountSource p uri =>
      show (t.mountSource p uri).2 = t
      cases hs : t.source uri with
      | ok f =>
          rw [mountSource_of_ok hs]
          exact hmount p f (mountSource_of_ok hs ▸ h)
      | error e' => rw [mountSource_of_error hs]
  | umount p =>
      rcases umount_cases t p with ⟨⟨e', he⟩, -⟩ | ⟨habs, hmounted⟩
      · exact congrArg Prod.snd he
      · rw [perform, umount_of_mounted habs hmounted] at h
        cases h
  | addProtocol => cases h

/-- Mounting a source is mounting the provider that the source gives. -/
theorem perform_mountSource {uri : String} (h : t.source uri = .ok f) :
    t.perform (.mountSource p uri) = t.perform (.mount p f) := mountSource_of_ok h

theorem added?_mountSource {uri : String} (h : t.source uri = .ok f) :
    t.added? (.mountSource p uri) = t.added? (.mount p f) := by
  rw [added?, added?, h]

/-- A mount is made at the point that the call names, where nothing has been. -/
theorem exists_point_of_added? (h : t.added? c = some m) :
    ∃ p, c.point? = some p ∧ Path.isAbsolute p = true ∧ m.point = Path.trimmed p ∧
      t.isMounted m.point = false := by
  -- both calls that mount succeed through `mount`
  have hmount : ∀ {p f}, t.added? (.mount p f) = some m → Path.isAbsolute p = true ∧
      m.point = Path.trimmed p ∧ t.isMounted m.point = false := by
    intro p f h
    rcases mount_cases t p f with ⟨e, he⟩ | ⟨habs, hfree⟩
    · rw [added?, he] at h
      cases h
    · rw [added?, mount_of_free habs hfree] at h
      cases h
      exact ⟨habs, rfl, hfree⟩
  cases c with
  | mount p f => exact ⟨p, rfl, hmount h⟩
  | mountSource p uri =>
      cases hs : t.source uri with
      | ok f =>
          rw [added?_mountSource hs] at h
          exact ⟨p, rfl, hmount h⟩
      | error e =>
          rw [added?, hs] at h
          cases h
  | umount | addProtocol => cases h

/-- Calls that name a point keep the protocols. -/
theorem protocols_perform (hc : c.point?.isSome = true) :
    (t.perform c).2.protocols = t.protocols := by
  have hmount : ∀ p f, (t.mount p f).2.protocols = t.protocols := by
    intro p f
    rw [mount_eq]
    split_ifs <;> rfl
  cases c with
  | mount p f => exact hmount p f
  | mountSource p uri =>
      show (t.mountSource p uri).2.protocols = t.protocols
      cases hs : t.source uri with
      | ok f =>
          rw [mountSource_of_ok hs]
          exact hmount p f
      | error e => rw [mountSource_of_error hs]
  | umount p =>
      show (t.umount p).2.protocols = t.protocols
      rw [umount_eq]
      split_ifs <;> rfl
  | addProtocol => cases hc

/-! ## What all calls keep -/

/-- Points occur once and have the form in which they are looked for. -/
structure Tidy (t : MountTable) : Prop where
  distinct : (t.mounts.map (·.point)).Nodup
  absolute : ∀ m ∈ t.mounts, Path.isAbsolute m.point = true
  trimmed : ∀ m ∈ t.mounts, m.point.toList.getLast? = some '/' → m.point = "/"

/-- The mount points of a tidy table are trimmed. -/
theorem Tidy.trimmed_eq (h : t.Tidy) (hm : m ∈ t.mounts) : Path.trimmed m.point = m.point := by
  refine Path.trimmed_eq_self ?_ (h.trimmed m hm)
  intro hempty
  have habs := h.absolute m hm
  rw [hempty] at habs
  revert habs
  decide

/-- Where no point is mounted twice, the first mount at a point is the only one. -/
theorem eraseP_eq_filter {l : List Mount} (h : (l.map (·.point)).Nodup) (q : String) :
    (l.eraseP fun m => m.point == q) = l.filter fun m => m.point ≠ q := by
  induction l with
  | nil => rfl
  | cons m l ih =>
      rw [List.map_cons, List.nodup_cons] at h
      by_cases hm : m.point = q
      · -- the others stay, none of them is at the point
        have hrest : (l.filter fun m => m.point ≠ q) = l := by
          rw [List.filter_eq_self]
          intro m' hm'
          apply decide_eq_true
          intro heq
          exact h.1 (List.mem_map.mpr ⟨m', hm', heq.trans hm.symm⟩)
        rw [List.eraseP_cons_of_pos (by simpa using hm),
          List.filter_cons_of_neg (by simpa using hm), hrest]
      · rw [List.eraseP_cons_of_neg (by simpa using hm),
          List.filter_cons_of_pos (by simpa using hm), ih h.2]

theorem mounts_perform_mount (t : MountTable) (p : String) (f : Provider) :
    (t.perform (.mount p f)).2.mounts = t.mounts ++ (t.added? (.mount p f)).toList := by
  rcases mount_cases t p f with ⟨e, he⟩ | ⟨habs, hfree⟩
  · rw [perform, added?, he]
    exact (List.append_nil _).symm
  · rw [perform, added?, mount_of_free habs hfree]
    rfl

/-- No two mounts have one point, so it does not matter that the last one is taken. -/
theorem mounts_perform_umount (h : t.Tidy) (p : String) :
    (t.perform (.umount p)).2.mounts =
      t.mounts.filter fun m => (MountCall.umount p).cleared? ≠ some m.point := by
  rcases umount_cases t p with ⟨⟨e, he⟩, hnone⟩ | ⟨habs, hmounted⟩
  · -- nothing was at the point, or it was not one
    rw [perform, he, eq_comm, List.filter_eq_self]
    intro m hm
    apply decide_eq_true
    intro hcleared
    obtain ⟨p', heq, habs, hpoint⟩ := MountCall.cleared?_eq_some_iff.mp hcleared
    cases heq
    exact hnone ⟨habs, isMounted_iff.mpr ⟨m, hm, hpoint.symm⟩⟩
  · have hdistinct : (t.mounts.reverse.map (·.point)).Nodup := by
      rw [List.map_reverse]
      exact List.nodup_reverse.mpr h.distinct
    rw [perform, umount_of_mounted habs hmounted, MountCall.cleared?, if_pos habs]
    show (List.eraseP _ _).reverse = _
    rw [eraseP_eq_filter hdistinct, List.filter_reverse, List.reverse_reverse]
    simp [eq_comm]

/-- All that a call does to the mounts: the point that it clears is free, and the mount that it
adds is the last one. -/
theorem mounts_perform (h : t.Tidy) (c : MountCall) :
    (t.perform c).2.mounts =
      (t.mounts.filter fun m => c.cleared? ≠ some m.point) ++ (t.added? c).toList := by
  cases c with
  | mount p f => simpa [MountCall.cleared?] using mounts_perform_mount t p f
  | mountSource p uri =>
      cases hs : t.source uri with
      | ok f =>
          rw [perform_mountSource hs, added?_mountSource hs]
          simpa [MountCall.cleared?] using mounts_perform_mount t p f
      | error e =>
          rw [perform, mountSource_of_error hs, added?, hs]
          simp [MountCall.cleared?]
  | addProtocol name protocol => simp [perform, MountCall.cleared?, added?, addProtocol]
  | umount p =>
      rw [added?, Option.toList_none, List.append_nil]
      exact mounts_perform_umount h p

/-- The table without mounts is tidy. -/
theorem tidy_empty : empty.Tidy where
  distinct := List.nodup_nil
  absolute _ hm := nomatch hm
  trimmed _ hm := nomatch hm

/-- **Every call keeps the table tidy.** -/
theorem Tidy.perform (h : t.Tidy) (c : MountCall) : (t.perform c).2.Tidy := by
  have hold : ∀ {P : String → Prop}, (∀ m ∈ t.mounts, P m.point) →
      (∀ p, Path.isAbsolute p = true → P (Path.trimmed p)) →
      ∀ m ∈ (t.perform c).2.mounts, P m.point := by
    intro P hP hnew m hm
    rw [mounts_perform h, List.mem_append, Option.mem_toList] at hm
    cases hm with
    | inl hm => exact hP m (List.mem_of_mem_filter hm)
    | inr hm =>
        obtain ⟨p, -, habs, hpoint, -⟩ := exists_point_of_added? hm
        rw [hpoint]
        exact hnew p habs
  refine ⟨?_, hold (P := (Path.isAbsolute · = true)) h.absolute fun _ => Path.isAbsolute_trimmed,
    hold (P := fun q => q.toList.getLast? = some '/' → q = "/") h.trimmed
      fun _ _ => Path.eq_root_of_getLast?_trimmed⟩
  rw [mounts_perform h, List.map_append]
  apply List.nodup_append.mpr
  refine ⟨h.distinct.sublist (List.filter_sublist.map _), ?_, ?_⟩
  · cases t.added? c <;> simp
  · intro q hq q' hq' heq
    obtain ⟨m, hm, rfl⟩ := List.mem_map.mp hq
    obtain ⟨m', hm', rfl⟩ := List.mem_map.mp hq'
    obtain ⟨-, -, -, -, hfree⟩ := exists_point_of_added? (Option.mem_toList.mp hm')
    have hmem := isMounted_iff.mpr ⟨m, List.mem_of_mem_filter hm, heq⟩
    rw [hfree] at hmem
    cases hmem

theorem performAll_append (t : MountTable) (before behind : List MountCall) :
    t.performAll (before ++ behind) =
      ((t.performAll before).1 ++ ((t.performAll before).2.performAll behind).1,
        ((t.performAll before).2.performAll behind).2) := by
  induction before generalizing t with
  | nil => rfl
  | cons c before ih =>
      simp only [List.cons_append, performAll, ih]

theorem after_concat (calls : List MountCall) (c : MountCall) :
    after (calls ++ [c]) = ((after calls).perform c).2 := by
  rw [after, performAll_append]
  rfl

/-- After any history the table is tidy. -/
theorem tidy_after (calls : List MountCall) : (after calls).Tidy := by
  induction calls using List.reverseRecOn with
  | nil => exact tidy_empty
  | append_singleton calls c ih =>
      rw [after_concat]
      exact ih.perform c

end MountTable

end ArrayLang
