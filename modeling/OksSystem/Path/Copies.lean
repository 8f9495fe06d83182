import OksSystem.File.Escape
import OksSystem.Lib.Run
import OksSystem.Path.Basic

/-!
# Copies of files

The copy constructor sets the name again, on the file system as it is then.

* `copied_cases`, `mapM_copied_cases` : what copies of files are called;
* `Keeper`, `lifetimes` : a path, the names it was given, and the changes of the file system between;
* `Keeper.AddsSettled` : an `add` that copies files with settled names only;
* `copy_keeps_iff` : **a copy has the name of the original exactly when the name is settled, and a path keeps its
  directories exactly when all that it copies is**.
-/

namespace OksSystem.Path
open ByteBuffer EStateM FileTree File

variable {host : Host} {m : Machine} {f : File} {fs : List File}

/-! ## Copies -/

/-- The copy has a name, which is the same if the name is settled, or the constructor throws. -/
theorem copied_cases (host : Host) (m : Machine) (f : File) :
    (Refused host m f.fullName ∧ ∃ e, (copy host f).run m = .error e m) ∨
    ¬ Refused host m f.fullName ∧
      ∃ g, (copy host f).run m = .ok g m ∧ (g.fullName = f.fullName ↔ Settled host m f.fullName) := by
  have hrun := run_new_longName host m f.fullName
  cases hlong : longName host m f.fullName with
  | error e =>
    rw [hlong] at hrun
    exact .inl ⟨(run_new_refused_iff host m f.fullName).1 ⟨e, hrun⟩, e, hrun⟩
  | ok l =>
    rw [hlong] at hrun
    refine .inr ⟨fun h => ?_, _, hrun, ?_⟩
    · obtain ⟨e, he⟩ := (run_new_refused_iff host m f.fullName).2 h
      rw [hrun] at he
      cases he
    · rw [← run_new_self_iff, hrun]
      simp

/-- Copies of files, one after the other. -/
theorem mapM_copied_cases (host : Host) (m : Machine) (fs : List File) :
    ((∃ f ∈ fs, Refused host m f.fullName) ∧ ∃ e, (fs.mapM (copy host)).run m = .error e m) ∨
    (¬ ∃ f ∈ fs, Refused host m f.fullName) ∧ ∃ gs, (fs.mapM (copy host)).run m = .ok gs m ∧
      (gs.map fullName = fs.map fullName ↔ ∀ f ∈ fs, Settled host m f.fullName) := by
  induction fs with
  | nil => exact .inr ⟨by simp, [], rfl, by simp⟩
  | cons f fs ih =>
    rw [List.mapM_cons]
    rcases copied_cases host m f with ⟨hf, e, he⟩ | ⟨hf, g, hg, hname⟩
    · exact .inl ⟨⟨f, List.mem_cons_self, hf⟩, e, run_bind_error he⟩
    rcases ih with ⟨⟨f', hf', hrefused⟩, e, he⟩ | ⟨hfs, gs, hgs, hnames⟩
    · exact .inl ⟨⟨f', List.mem_cons_of_mem f hf', hrefused⟩, e, (run_bind_ok hg).trans (run_bind_error he)⟩
    · refine .inr ⟨?_, g :: gs, (run_bind_ok hg).trans (run_bind_ok hgs), ?_⟩
      · rintro ⟨f', hf', hrefused⟩
        rcases List.mem_cons.1 hf' with rfl | hf'
        · exact hf hrefused
        · exact hfs ⟨f', hf', hrefused⟩
      · rw [List.map_cons, List.map_cons, List.cons.injEq, List.forall_mem_cons, hname, hnames]

/-! ## A path and its directories -/

/-- A path and the names it was given. -/
structure Keeper where
  machine : Machine
  path : Path
  given : List Str

/-- `add`, and any change of the file system or the working directory. -/
inductive Event where
  | change (machine : Machine)
  | add (dir : File)

/-- An `add` that throws leaves the vector as it is. -/
def lifetimes (host : Host) : LTS Keeper Event where
  init s := s.path = .empty ∧ s.given = []
  step s i s' :=
    match i with
    | .change machine => s' = { s with machine := machine }
    | .add dir =>
      match (s.path.add host dir).run s.machine with
      | .ok p machine => s' = ⟨machine, p, s.given ++ [dir.fullName]⟩
      | .error _ machine => s' = { s with machine := machine }

namespace Keeper

variable {s s' : Keeper}

/-- The directories have the names that were given. -/
def Keeps (s : Keeper) : Prop := s.path.directories.items.map fullName = s.given

/-- The files that an `add` copies: all, if the vector is full. -/
def copies (s : Keeper) (dir : File) : List File :=
  if s.path.directories.items.length < s.path.directories.capacity then [dir]
  else dir :: s.path.directories.items

/-- The names of the files that are copied are settled, unless there is one on which `add` throws. -/
def AddsSettled (host : Host) (s : Keeper) : Event → Prop
  | .change _ => True
  | .add dir => (∃ f ∈ s.copies dir, Refused host s.machine f.fullName) ∨
      ∀ f ∈ s.copies dir, Settled host s.machine f.fullName

/-- `add` throws and nothing changes, or it puts the copy behind the directories or their copies. -/
theorem add_cases (host : Host) (s : Keeper) (dir : File) :
    ((∃ f ∈ s.copies dir, Refused host s.machine f.fullName) ∧
      ∃ e, (s.path.add host dir).run s.machine = .error e s.machine) ∨
    (¬ ∃ f ∈ s.copies dir, Refused host s.machine f.fullName) ∧
      ∃ p, (s.path.add host dir).run s.machine = .ok p s.machine ∧
        (p.directories.items.map fullName = s.path.directories.items.map fullName ++ [dir.fullName] ↔
          ∀ f ∈ s.copies dir, Settled host s.machine f.fullName) := by
  unfold copies add FileList.pushBack
  rcases copied_cases host s.machine dir with ⟨hdir, e, he⟩ | ⟨hdir, g, hg, hname⟩
  · refine .inl ⟨⟨dir, ?_, hdir⟩, e, run_bind_error (run_bind_error he)⟩
    split_ifs <;> exact List.mem_cons_self
  have hbehind : ∀ names : List Str,
      names ++ [g].map fullName = s.path.directories.items.map fullName ++ [dir.fullName] ↔
        g.fullName = dir.fullName ∧ names = s.path.directories.items.map fullName := by
    intro names
    rw [List.map_singleton, List.append_singleton_inj, and_comm]
  rw [run_bind, run_bind_ok hg]
  split_ifs with hroom
  · refine .inr ⟨by simpa using hdir, _, rfl, ?_⟩
    rw [List.map_append, hbehind, List.forall_mem_singleton, hname, and_iff_left rfl]
  rcases mapM_copied_cases host s.machine s.path.directories.items with
    ⟨⟨f, hf, hrefused⟩, e, he⟩ | ⟨hfs, gs, hgs, hnames⟩
  · refine .inl ⟨⟨f, List.mem_cons_of_mem dir hf, hrefused⟩, e, ?_⟩
    rw [run_bind_error he]
  · refine .inr ⟨?_, ⟨⟨gs ++ [g], max 1 (2 * s.path.directories.capacity)⟩⟩, ?_, ?_⟩
    · simpa [List.exists_mem_cons_iff] using ⟨hdir, by simpa using hfs⟩
    · rw [run_bind_ok hgs]
      rfl
    · rw [List.map_append, hbehind, List.forall_mem_cons, hname, hnames]

theorem keeps_step {i : Event} (h : s.Keeps) (hs : (lifetimes host).step s i s') :
    s'.Keeps ↔ s.AddsSettled host i := by
  cases i with
  | change machine =>
    obtain rfl : s' = _ := hs
    exact iff_of_true h trivial
  | add dir =>
    unfold lifetimes at hs
    rcases add_cases host s dir with ⟨hrefused, e, he⟩ | ⟨hrefused, p, hp, hnames⟩
    · simp only [he] at hs
      rw [hs]
      exact iff_of_true h (.inl hrefused)
    · simp only [hp] at hs
      rw [hs]
      unfold Keeps AddsSettled
      rw [← h, hnames]
      exact (or_iff_right hrefused).symm

end Keeper

/-- **A copy has the name of the original exactly when the name is settled, and a path keeps the names of its directories
exactly when every `add` copies files with settled names.** -/
theorem copy_keeps_iff (host : Host) :
    (∀ (m : Machine) (f : File), (∃ g m', (copy host f).run m = .ok g m' ∧ g.fullName = f.fullName) ↔
      Settled host m f.fullName) ∧
    ∀ (xs : List (Keeper × Event)) (s : Keeper), (lifetimes host).Trace xs s →
      ((∀ x ∈ xs, x.1.Keeps) ∧ s.Keeps ↔ ∀ x ∈ xs, x.1.AddsSettled host x.2) := by
  constructor
  · intro m f
    rcases copied_cases host m f with ⟨hrefused, e, he⟩ | ⟨-, g, hg, hname⟩
    · refine iff_of_false ?_ fun h => ?_
      · rintro ⟨g, m', hg, -⟩
        rw [he] at hg
        cases hg
      · have hself := (run_new_self_iff host m f.fullName).2 h
        cases he.symm.trans hself
    · rw [← hname]
      refine ⟨?_, fun h => ⟨g, m, hg, h⟩⟩
      rintro ⟨g', m', hg', h⟩
      rw [hg] at hg'
      cases hg'
      exact h
  · intro xs s h
    refine h.good_iff (I := Keeper.Keeps) ?_ (fun _ => id) fun s i s' _ hI hs => ?_
    · rintro s ⟨hpath, hgiven⟩
      unfold Keeper.Keeps
      rw [hpath, hgiven]
      rfl
    · have hiff := Keeper.keeps_step hI hs
      exact ⟨hiff, hiff.2⟩

/-- A directory that is not there yet. -/
def early : Keeper := ⟨bare, .empty, []⟩

theorem settled_early : Settled quiet bare (text "/tmp") := (run_new_self_iff quiet bare (text "/tmp")).1 rfl

theorem copy_keeps_iff_early :
    (∃ g m', (copy quiet ⟨text "/tmp"⟩).run bare = .ok g m' ∧ g.fullName = text "/tmp") ∧
      ∃ s, (lifetimes quiet).Trace [(early, .add ⟨text "/tmp"⟩)] s ∧ s.given = [text "/tmp"] ∧ s.Keeps := by
  obtain ⟨hcopy, hpath⟩ := copy_keeps_iff quiet
  have htrace : (lifetimes quiet).Trace ([] ++ [(early, .add ⟨text "/tmp"⟩)])
      ⟨bare, ⟨⟨[⟨text "/tmp"⟩], 1⟩⟩, [text "/tmp"]⟩ := .snoc (.init ⟨rfl, rfl⟩) rfl
  have hadds : ∀ x ∈ ([] ++ [(early, .add ⟨text "/tmp"⟩)] : List (Keeper × Event)), x.1.AddsSettled quiet x.2 := by
    intro x hx
    rw [List.nil_append, List.mem_singleton] at hx
    rw [hx]
    refine .inr fun f hf => ?_
    rcases List.mem_cons.1 hf with rfl | hf
    · exact settled_early
    · cases hf
  exact ⟨(hcopy bare ⟨text "/tmp"⟩).2 settled_early, _, htrace, rfl, ((hpath _ _ htrace).2 hadds).2⟩

/-- A link is made where a file was named. -/
theorem copy_follows_link : ¬ ∀ (host : Host) (m₀ m₁ : Machine) (name : Str) (f : File),
    (new host name).run m₀ = .ok f m₀ → ∃ g m', (copy host f).run m₁ = .ok g m' ∧ g.fullName = f.fullName := by
  intro h
  obtain ⟨g, m', hg, hname⟩ := h quiet bare ⟨linkedTree, [], 0⟩ (text "/d/l") ⟨text "/d/l"⟩ rfl
  have hres : (⟨linkedTree, [], 0⟩ : Machine).resolve (text "/d/l") = .ok [nameX] := rfl
  have habs : Absolute (text "/d/l") := ⟨text "d/l", rfl⟩
  have hcopy : (copy quiet ⟨text "/d/l"⟩).run ⟨linkedTree, [], 0⟩ = _ := run_new quiet ⟨linkedTree, [], 0⟩ habs
  rw [stored_of_resolve hres] at hcopy
  rw [hcopy] at hg
  cases hg
  exact absurd hname (by decide)

end OksSystem.Path
