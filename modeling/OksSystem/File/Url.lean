import OksSystem.File.Canonical
import OksSystem.File.Depth

/-!
# The URL that `operator<<` writes

* `fromUrl`, `print` : `from_url` and `operator<<`;
* `resolve_slash` : a second slash in front of a path changes nothing for the system;
* `run_fromUrl_print`, `depthOf_print` : what is read from a printed URL;
* `print_never_reads_back` : it is never the file and its depth again.
-/

namespace OksSystem
open ByteBuffer EStateM FileTree Pieces

namespace File

/-- `from_url(url)`. -/
def fromUrl (host : Host) (url : Str) : FileM File := do
  let prot := protocol url
  if prot ≠ fileProtocol then throwIssue .precondition
  let path := uri url
  new host path

/-- What `operator<<` writes. -/
def print (f : File) : Str := fileProtocol ++ text ":/" ++ f.fullName

end File

variable {m : Machine} {path : Str}

theorem comps_slash (s : Str) : comps (slash :: s) = .empty :: comps s := by
  unfold comps
  rw [show slash :: s = [] ++ slash :: s from rfl, List.splitOn_append_cons_self_of_not_mem List.not_mem_nil,
    List.map_cons, comp_nil]

theorem resolve_slash (m : Machine) (h : Absolute path) : m.resolve (slash :: path) = m.resolve path := by
  have hcstr : cstr (slash :: path) = slash :: cstr path := List.takeWhile_cons_of_pos (by decide)
  rw [resolve_of_absolute m ⟨path, rfl⟩, resolve_of_absolute m h, hcstr, comps_slash, resolve_empty m.tree.root]

namespace File

variable {host : Host} {f : File}

/-- The path in a printed URL has two slashes in front. -/
theorem run_fromUrl_print (host : Host) (m : Machine) (h : Absolute f.fullName) :
    (fromUrl host f.print).run m = .ok ⟨(m.realpath f.fullName).getD (slash :: f.fullName)⟩ m := by
  have hcolon : colon ∉ fileProtocol := by decide
  have hprint : f.print = fileProtocol ++ colon :: slash :: f.fullName := by
    unfold print
    rw [List.append_assoc]
    rfl
  have hstored : m.stored (slash :: f.fullName) = (m.realpath f.fullName).getD (slash :: f.fullName) := by
    unfold Machine.stored Machine.realpath
    rw [resolve_slash m h]
  unfold fromUrl
  rw [hprint, protocol_cons hcolon, uri_cons hcolon, ← hstored]
  exact run_new host m ⟨f.fullName, rfl⟩

theorem depthOf_print (h : Absolute f.fullName) : depthOf f.print = f.depth + 1 := by
  unfold depth print
  obtain ⟨s, hs⟩ := h
  rw [hs, show fileProtocol ++ text ":/" ++ slash :: s = text "file:" ++ slash :: slash :: s from rfl, depthOf_file,
    depthOf_slash, depthOf_slash, List.count_cons_self]
  exact Int.natCast_succ _

/-- The text that `operator<<` writes is read as the file again, and has its depth. -/
def ReadsBack (host : Host) (m : Machine) (f : File) : Prop :=
  ∃ g, (fromUrl host f.print).run m = .ok g m ∧ g.equals f = true ∧ depthOf f.print = f.depth

/-- **A printed URL never reads back.** What it is read as is the file exactly when `realpath` leaves the name as it is, and
its depth is always one more. -/
theorem print_never_reads_back (host : Host) (m : Machine) (f : File) (h : Canonical f.fullName) :
    ¬ ReadsBack host m f ∧ depthOf f.print = f.depth + 1 ∧
      ∃ g, (fromUrl host f.print).run m = .ok g m ∧
        (g.equals f = true ↔ m.realpath f.fullName = some f.fullName) := by
  have habs : Absolute f.fullName := by
    rcases h with hroot | ⟨hhead, -⟩
    · exact ⟨[], hroot⟩
    · exact List.head?_eq_some_iff.1 hhead
  have hdepth := depthOf_print habs
  refine ⟨?_, hdepth, _, run_fromUrl_print host m habs, ?_⟩
  · rintro ⟨g, -, -, hsame⟩
    omega
  · unfold equals
    rw [decide_eq_true_iff]
    cases m.realpath f.fullName with
    | none =>
      refine iff_of_false (fun heq => ?_) (by simp)
      have hlen := congrArg List.length heq
      simp at hlen
    | some r => simp

theorem print_never_reads_back_tmp : ¬ ReadsBack quiet bare ⟨text "/tmp"⟩ ∧
    depthOf (text "file://tmp") = depthOf (text "/tmp") + 1 ∧
    ∃ g, (fromUrl quiet (text "file://tmp")).run bare = .ok g bare ∧
      (g.equals ⟨text "/tmp"⟩ = true ↔ bare.realpath (text "/tmp") = some (text "/tmp")) :=
  print_never_reads_back quiet bare ⟨text "/tmp"⟩ (by decide)

/-- A name that is not there. -/
theorem print_adds_slash : ¬ ∀ (host : Host) (m : Machine) (f : File), Canonical f.fullName → ReadsBack host m f := by
  intro h
  obtain ⟨g, -, -, hsame⟩ := h quiet bare ⟨text "/tmp"⟩ (by decide)
  have hdepth : depthOf (print ⟨text "/tmp"⟩) = depth ⟨text "/tmp"⟩ + 1 := depthOf_print ⟨text "tmp", rfl⟩
  omega

end File

end OksSystem
