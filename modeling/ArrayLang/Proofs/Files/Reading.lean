import ArrayLang.Files.MemoryTree
import ArrayLang.Proofs.Evaluation.Ending
import ArrayLang.Proofs.Files.Lookup
import ArrayLang.Proofs.Results
import ArrayLang.Proofs.Registry.Dispatch

/-!
# Reading through a mount table

What a path reads as is what the mount that serves it gives for the part of the path that it sees.
Errors are about the path that was asked for, wherever they come from: from the table, from the
provider, from contents that are no text, or out of the primitive `⎕READ`.

* `MountTable.read_after_calls` puts this together for every table and every path.
-/

namespace ArrayLang

namespace MountTable

variable {t : MountTable} {host : Host} {path rest : String} {f : Provider} {e : MountError}

/-! ## Reading and its errors -/

/-- A path that a mount serves is read by the provider, and its errors get the path. -/
theorem read_of_find_ok (h : t.find path = .ok (f, rest)) :
    t.read path = (f.read rest).mapError fun e => .unreadable path e.message := by
  rw [read, h]
  rfl

/-- Where no mount contains the path, the host is not asked. -/
theorem read_of_find_error (h : t.find path = .error e) : t.read path = .done (.error e) := by
  rw [read, h]
  rfl

/-- A path that no mount serves is not asked for. -/
theorem readText_of_find_error (h : t.find path = .error e) :
    t.readText path = .done (.error e) := by
  rw [readText, read_of_find_error h]
  rfl

/-- A text is read as bytes and then decoded. -/
theorem run_readText (t : MountTable) (host : Host) (path : String) :
    (t.readText path).run host = ((t.read path).run host).bind fun contents =>
      (textOf contents).mapError fun e => .unreadable path e.message := by
  rw [readText, HostProgram.run_bind]
  rfl

/-- What the table makes of what its provider gives for a file to be opened. -/
inductive Opens (path : String) : Except ReadFailure Contents → Except MountError Contents → Prop
  | opened {contents : Contents} : Opens path (.ok contents) (.ok contents)
  | failed {e : ReadFailure} : Opens path (.error e) (.error (.unreadable path e.message))

/-- What the table makes of what its provider gives for a file to be read as text. -/
inductive GivesText (path : String) : Except ReadFailure Contents → Except MountError String → Prop
  | text {bytes : ByteArray} {s : String} (h : String.fromUTF8? bytes = some s) :
      GivesText path (.ok (.ok bytes)) (.ok s)
  | notText {bytes : ByteArray} (h : String.fromUTF8? bytes = none) :
      GivesText path (.ok (.ok bytes))
        (.error (.unreadable path "stream did not contain valid UTF-8"))
  /-- The file was opened, and reading it failed. -/
  | broken {e : ReadFailure} :
      GivesText path (.ok (.error e)) (.error (.unreadable path e.message))
  | unopened {e : ReadFailure} :
      GivesText path (.error e) (.error (.unreadable path e.message))

/-- Opening a path goes to the provider that serves it. -/
theorem opens_read (h : t.find path = .ok (f, rest)) (host : Host) :
    Opens path ((f.read rest).run host) ((t.read path).run host) := by
  rw [read_of_find_ok h, HostProgram.run_mapError]
  cases (f.read rest).run host with
  | ok contents => exact .opened
  | error e => exact .failed

/-- Bytes are a text if they are valid UTF-8. -/
theorem textOf_ok (bytes : ByteArray) :
    textOf (.ok bytes) = match String.fromUTF8? bytes with
      | some s => .ok s
      | none => .error .notText := rfl

/-- Reading a text goes to the provider that serves the path. -/
theorem givesText_readText (h : t.find path = .ok (f, rest)) (host : Host) :
    GivesText path ((f.read rest).run host) ((t.readText path).run host) := by
  rw [run_readText, read_of_find_ok h, HostProgram.run_mapError]
  cases (f.read rest).run host with
  | error e => exact .unopened
  | ok contents =>
      cases contents with
      | error e => exact .broken
      | ok bytes =>
          show GivesText path (.ok (.ok bytes)) ((textOf (.ok bytes)).mapError _)
          rw [textOf_ok]
          cases hs : String.fromUTF8? bytes with
          | some s => exact .text hs
          | none => exact .notText hs

/-- Errors of the lookup name the path as it was given. -/
theorem path_of_find_error (h : t.find path = .error e) : e.path = path := by
  rcases find_eq_error_iff.mp h with ⟨-, rfl⟩ | ⟨-, -, rfl⟩ <;> rfl

theorem path_of_read_error (h : (t.read path).run host = .error e) : e.path = path := by
  cases hfind : t.find path with
  | error e' =>
      rw [read_of_find_error hfind] at h
      cases h
      exact path_of_find_error hfind
  | ok found =>
      have hopens := opens_read hfind host
      rw [h] at hopens
      generalize (found.1.read found.2).run host = given at hopens
      cases hopens
      rfl

theorem path_of_readText_error (h : (t.readText path).run host = .error e) : e.path = path := by
  cases hfind : t.find path with
  | error e' =>
      rw [readText_of_find_error hfind] at h
      cases h
      exact path_of_find_error hfind
  | ok found =>
      have hgives := givesText_readText hfind host
      rw [h] at hgives
      generalize (found.1.read found.2).run host = given at hgives
      cases hgives <;> rfl

end MountTable

/-! ## The primitive -/

namespace Registry

variable {r : Registry} {t : MountTable} {host : Host}

/-- The name by which a registry knows the primitive. -/
def readName (r : Registry) : Name := (r.names.intern readSymbol).1

/-- Where nobody else answers to the name, the primitive reads texts, whatever is registered
later. -/
theorem resolve_registerReading (h : r.handlersOf r.readName = []) (later : List Registration)
    (tower : Tower) (path : String) :
    ((r.registerReading t host).addAll later).resolve tower r.readName none (.text path) =
      .ok ⟨readBody t host, none, .text path⟩ := by
  let reading : Registration :=
    ⟨readSymbol, .primitive (.monadic (some (.leaf .isText none))) (readBody t host)⟩
  have hname : (r.add reading).names.get? readSymbol = some r.readName := get?_add_self r reading
  have hhandlers : (r.add reading).handlersOf r.readName =
      [⟨.monadic (some (.leaf .isText none)), readBody t host⟩] := by
    rw [handlersOf_add, h]
    show [] ++ (if (r.add reading).names.get? readSymbol = some r.readName then _ else none).toList
      = _
    rw [if_pos hname]
    rfl
  exact resolve_addAll_of_ok (resolve_of_head hhandlers rfl)

end Registry

namespace Eval

variable {c : Context} {r : Registry} {t : MountTable} {host : Host} {m m' : Machine}
  {x : Except EvalError Value}

/-- The primitive reads the table, and gives the error of the table with its path and reason. -/
theorem ends_read_iff {later : List Registration}
    (hc : c.registry = (r.registerReading t host).addAll later)
    (hr : r.handlersOf r.readName = []) (path : String) (scope : ScopeId) :
    Ends c (step c (.call (.primitive r.readName) none (.text path) scope)) m x m' ↔
      m' = m ∧ x = ((((t.readText path).run host).map .text).mapError MountError.evalError) := by
  have hresolve : c.registry.resolve c.tower r.readName none (.text path) =
      .ok ⟨readBody t host, none, .text path⟩ := by
    rw [hc]
    exact Registry.resolve_registerReading hr later c.tower path
  have hstep : step c (.call (.primitive r.readName) none (.text path) scope) m =
      ofExcept ((((t.readText path).run host).map .text).mapError MountError.evalError) m :=
    step_call_of_done hresolve rfl
  rw [ends_congr hstep, ends_ofExcept_iff, and_comm]

end Eval

/-! ## All of it -/

namespace MountTable

open Eval

/-- What looking for a path comes to after calls. -/
inductive Finds (calls : List MountCall) (path : String) :
    Except MountError (Mount × String) → Prop where
  | served {m : Mount} {rest : String} :
      Serves calls path m → m.Gives path rest → Finds calls path (.ok (m, rest))
  | notFound : (∃ i m, StillMounted calls i m) →
      (∀ i m, StillMounted calls i m → ¬ m.Contains path) →
      Finds calls path (.error (.notFound path))
  | nothingMounted : (∀ i m, ¬ StillMounted calls i m) →
      Finds calls path (.error (.nothingMounted path))

/-- Every path has an outcome of the lookup, told by the history alone. -/
theorem exists_finds (calls : List MountCall) (path : String) :
    ∃ found, Finds calls path found ∧
      (after calls).find path = found.map fun x => (x.1.provider, x.2) := by
  cases hfind : (after calls).find path with
  | ok found =>
      obtain ⟨m, hm, hf, hgives⟩ := find_after_eq_ok_iff.mp hfind
      refine ⟨.ok (m, found.2), .served hm hgives, ?_⟩
      rw [Except.map, hf]
  | error e =>
      rcases find_eq_error_iff.mp hfind with ⟨hnil, rfl⟩ | ⟨hne, hnot, rfl⟩
      · refine ⟨_, .nothingMounted fun i m hm => ?_, rfl⟩
        have hmem := mem_mounts_after_iff.mpr ⟨i, hm⟩
        rw [hnil] at hmem
        cases hmem
      · refine ⟨_, .notFound ?_ fun i m hm => hnot m (mem_mounts_after_iff.mpr ⟨i, hm⟩), rfl⟩
        obtain ⟨m, hm⟩ := List.exists_mem_of_ne_nil _ hne
        obtain ⟨i, hi⟩ := mem_mounts_after_iff.mp hm
        exact ⟨i, m, hi⟩

/-- **A path is served by the latest mount that contains it.** However a table has been reached,
reading a path gives what the provider of the latest of the mounts that are still there and contain
the path gives for the part of the path that it sees, which starts with a slash; as a text it is
what the bytes stand for in UTF-8. Without such a mount nothing is found, without any mount nothing
is mounted, and in both cases the host is not asked. Whatever fails, be it the table, the provider
with any message, reading what was opened, or contents that are not UTF-8, the error of the table
and that of the primitive that reads texts for programs have the path that was asked for. -/
theorem read_after_calls (calls : List MountCall) (path : String) (host : Host) :
    (∃ found, Finds calls path found ∧
      (∀ e, found = .error e → (after calls).read path = .done (.error e) ∧
        (after calls).readText path = .done (.error e)) ∧
      ∀ m rest, found = .ok (m, rest) → Path.isAbsolute rest = true ∧
        Opens path ((m.provider.read rest).run host) (((after calls).read path).run host) ∧
        GivesText path ((m.provider.read rest).run host)
          (((after calls).readText path).run host)) ∧
    (∀ e, ((after calls).read path).run host = .error e → e.path = path) ∧
    (∀ e, ((after calls).readText path).run host = .error e → e.path = path) ∧
    ∀ (c : Context) (r : Registry) (later : List Registration) (scope : ScopeId) (m : Machine),
      c.registry = (r.registerReading (after calls) host).addAll later →
      r.handlersOf r.readName = [] →
      ∀ x m', Ends c (step c (.call (.primitive r.readName) none (.text path) scope)) m x m' ↔
        m' = m ∧
          ((∃ text, ((after calls).readText path).run host = .ok text ∧ x = .ok (.text text)) ∨
            ∃ e, ((after calls).readText path).run host = .error e ∧
              x = .error (.of (.file path e.reason))) := by
  refine ⟨?_, fun e => path_of_read_error, fun e => path_of_readText_error, ?_⟩
  · obtain ⟨found, hfound, hfind⟩ := exists_finds calls path
    refine ⟨found, hfound, ?_, ?_⟩
    · rintro e rfl
      exact ⟨read_of_find_error hfind, readText_of_find_error hfind⟩
    · rintro m rest rfl
      cases hfound with
      | served hm hgives =>
          exact ⟨hgives.isAbsolute, opens_read hfind host, givesText_readText hfind host⟩
  · -- the primitive reads the text, and gives its error the path it was called with
    intro c r later scope m hc hr x m'
    rw [ends_read_iff hc hr]
    refine and_congr_right fun _ => ?_
    cases htext : ((after calls).readText path).run host with
    | ok text => simp [Except.map, Except.mapError]
    | error e =>
        have hpath := path_of_readText_error htext
        simp [Except.map, Except.mapError, MountError.evalError, hpath]

/-- A tree at the root, and one below it that hides what the first one has there. -/
def hidingCalls : List MountCall :=
  [.mount "/" (MemoryTree.empty.insert "/lib/x" "old".toUTF8).provider,
    .mount "/lib/" (MemoryTree.empty.insert "/y" "new".toUTF8).provider]

/-- A host without any files. -/
def bareHost : Host := fun _ => .error ⟨.notFound, "No such file or directory"⟩

/-- A registry with the primitive alone, for the table after these calls. -/
def hidingContext : Context where
  registry := (Registry.empty .initial).registerReading (after hidingCalls) bareHost
  tower := .standard
  arenas := #[]

def hidingMachine : Machine := ⟨⟨0⟩, .empty 10, .empty⟩

/-- The file at the root is hidden. The provider misses `/x`, and the error is about `/lib/x`. -/
theorem read_after_calls_hidden :
    Ends hidingContext
      (step hidingContext
        (.call (.primitive (Registry.empty .initial).readName) none (.text "/lib/x") ⟨0⟩))
      hidingMachine (.error (.of (.file "/lib/x" "file does not exist"))) hidingMachine :=
  ((read_after_calls hidingCalls "/lib/x" bareHost).2.2.2 hidingContext (.empty .initial) []
    ⟨0⟩ hidingMachine rfl rfl _ _).mpr
    ⟨rfl, .inr ⟨.unreadable "/lib/x" "file does not exist", by decide +kernel, rfl⟩⟩

end MountTable

end ArrayLang
