import OksSystem.File.MakeDir
import OksSystem.File.Names
import OksSystem.Lib.Run

/-!
# The working directory

* `Machine.chdir` : the call; `setWorkingDirectory` : `working_directory(dir)`;
* `visits` : calls of it, which may throw; `cwd_visits` : the last that returns decides;
* `relative_child_iff` : **a relative name is the child of the directory entered, where that child exists or the name of the
  directory is canonical.**
-/

namespace OksSystem
open ByteBuffer EStateM FileTree Pieces

/-- `::chdir` : the directory that the path leads to. -/
def Machine.chdir (m : Machine) (path : Str) : Except Errno (List Name) :=
  match m.resolve path with
  | .error e => .error (errnoOf e)
  | .ok p => if m.tree.IsDir p then .ok p else .error (errnoOf .notDirectory)

namespace File

/-- `working_directory(dir)`. -/
def setWorkingDirectory (dir : File) : FileM Unit := do
  match (← get).chdir dir.fullName with
  | .ok p => modify fun m => { m with cwd := p }
  | .error e => throwCall e (text "chdir") (text "on directory " ++ dir.fullName)

/-- Calls on directories, and which of them return. -/
def visits : LTS Machine (File × Bool) where
  init _ := True
  step m i m' := if i.2 then (setWorkingDirectory i.1).run m = .ok () m' else ∃ e, (setWorkingDirectory i.1).run m = .error e m'

variable {m m' : Machine} {host : Host} {dir : File} {name path : Str} {d p q : List Name}

/-! ## The call -/

theorem chdir_eq_ok (h : m.chdir path = .ok d) : m.resolve path = .ok d ∧ m.tree.IsDir d := by
  unfold Machine.chdir at h
  split at h
  · exact absurd h (by simp)
  · split_ifs at h with hd
    obtain rfl := Except.ok.inj h
    exact ⟨‹_›, hd⟩

/-- What is thrown when `::chdir` fails. -/
def chdirIssue (e : Errno) (dir : File) : Stop :=
  .issue (.osSystemCall e (text "chdir") (cstr (text "on directory " ++ dir.fullName)))

theorem setWorkingDirectory_cases (dir : File) (m : Machine) :
    (∃ d, m.resolve dir.fullName = .ok d ∧ m.tree.IsDir d ∧
        (setWorkingDirectory dir).run m = .ok () { m with cwd := d }) ∨
      ∃ e, (setWorkingDirectory dir).run m = .error e m := by
  unfold setWorkingDirectory
  rw [run_bind_ok (run_get m)]
  cases hchdir : m.chdir dir.fullName with
  | error e => exact .inr ⟨chdirIssue e dir, rfl⟩
  | ok d =>
    obtain ⟨hres, hd⟩ := chdir_eq_ok hchdir
    exact .inl ⟨d, hres, hd, rfl⟩

theorem step_true (h : visits.step m (dir, true) m') :
    ∃ d, m.resolve dir.fullName = .ok d ∧ m.tree.IsDir d ∧ m' = { m with cwd := d } := by
  have hrun : (setWorkingDirectory dir).run m = .ok () m' := h
  obtain ⟨d, hres, hd, hok⟩ | ⟨e, herror⟩ := setWorkingDirectory_cases dir m
  · obtain ⟨-, rfl⟩ := Result.ok.inj (hok.symm.trans hrun)
    exact ⟨d, hres, hd, rfl⟩
  · cases herror.symm.trans hrun

theorem step_false (h : visits.step m (dir, false) m') : m' = m := by
  obtain ⟨e, hrun⟩ : ∃ e, (setWorkingDirectory dir).run m = .error e m' := h
  obtain ⟨d, -, -, hok⟩ | ⟨e', herror⟩ := setWorkingDirectory_cases dir m
  · cases hok.symm.trans hrun
  · exact (Result.error.inj (herror.symm.trans hrun)).2.symm

/-- The tree stays as it was. -/
theorem tree_visits {is : List (File × Bool)} (h : visits.Path m is m') : m'.tree = m.tree := by
  have hkeep : ∀ s (i : File × Bool) s', s.tree = m.tree → True → visits.step s i s' → s'.tree = m.tree := by
    rintro s ⟨f, b⟩ s' hs - hstep
    cases b with
    | true =>
      obtain ⟨d, -, -, rfl⟩ := step_true hstep
      exact hs
    | false =>
      rw [step_false hstep]
      exact hs
  exact h.keeps hkeep (fun _ _ => trivial) rfl

/-- The last call that returns decides where the process is. -/
theorem cwd_visits {pre post : List (File × Bool)} (h : visits.Path m (pre ++ (dir, true) :: post) m')
    (habs : Absolute dir.fullName) (hpost : ∀ i ∈ post, i.2 = false) :
    m'.tree = m.tree ∧ m'.resolve dir.fullName = .ok m'.cwd ∧ m'.tree.IsDir m'.cwd := by
  obtain ⟨s, hpre, hrest⟩ := h.of_append
  cases hrest with
  | cons hstep hrest =>
    obtain ⟨d, hres, hd, rfl⟩ := step_true hstep
    have hthere : ∀ t : Machine, t.tree = s.tree → t.cwd = d → t.resolve dir.fullName = .ok d := fun t ht _ => by
      rw [resolve_of_absolute _ habs] at hres ⊢
      rw [ht]
      exact hres
    have hkeep : ∀ t (i : File × Bool) t', (t.tree = s.tree ∧ t.cwd = d) → i.2 = false → visits.step t i t' →
        t'.tree = s.tree ∧ t'.cwd = d := by
      rintro t ⟨f, b⟩ t' ht rfl hs
      rw [step_false hs]
      exact ht
    obtain ⟨htree, hcwd⟩ := hrest.keeps hkeep hpost ⟨rfl, rfl⟩
    refine ⟨htree.trans (tree_visits hpre), ?_, ?_⟩
    · rw [hcwd]
      exact hthere m' htree hcwd
    · rw [hcwd, htree]
      exact hd

/-! ## Names in a directory -/

theorem comps_slash (s s' : Str) : comps (s ++ slash :: s') = comps s ++ comps s' := by
  unfold comps
  rw [List.splitOn_append_cons_self, List.map_append]

theorem cstr_append {s : Str} (h : 0 ∉ s) (s' : Str) : cstr (s ++ s') = s ++ cstr s' := by
  unfold cstr
  rw [List.takeWhile_append_of_pos]
  intro b hb
  simpa using fun h0 : b = 0 => h (h0 ▸ hb)

theorem resolve_slash (habs : Absolute path) (h0 : 0 ∉ path) (name : Str) :
    m.resolve (path ++ slash :: name) = m.tree.resolve maxLinks [] (comps path ++ comps (cstr name)) := by
  rw [resolve_of_absolute m (habs.append _), cstr_append h0, show cstr (slash :: name) = slash :: cstr name from
    List.takeWhile_cons_of_pos (by decide), comps_slash]

theorem resolve_render_slash (hd : m.tree.IsDir d) (name : Str) :
    m.resolve (render d ++ slash :: name) = m.tree.resolve maxLinks d (comps (cstr name)) := by
  rw [resolve_slash (absolute_render d) (nul_notMem_render d)]
  by_cases hnil : d = []
  · rw [hnil, comps_root]
    show FileTree.resolve _ _ _ (.empty :: .empty :: comps (cstr name)) = _
    rw [resolve_empty m.tree.root, resolve_empty m.tree.root]
  · rw [comps_render hnil, List.cons_append, resolve_empty m.tree.root]
    exact resolve_names hd.real

/-- What is found below a path is found below the canonical name of its directory. -/
theorem resolve_below (habs : Absolute path) (h0 : 0 ∉ path) (hres : m.resolve path = .ok d) (hd : m.tree.IsDir d)
    (h : m.resolve (path ++ slash :: name) = .ok q) : m.resolve (render d ++ slash :: name) = .ok q := by
  rw [resolve_of_absolute m habs, cstr_of_notMem h0] at hres
  rw [resolve_slash habs h0] at h
  obtain ⟨d', hd', left, hle, hq⟩ := resolve_split h
  obtain rfl := Except.ok.inj (hd'.symm.trans hres)
  rw [resolve_render_slash hd]
  exact resolve_more hle hq

/-- Stored below the canonical name of a directory, or below another path to it. -/
theorem stored_below_iff (habs : Absolute path) (h0 : 0 ∉ path) (hres : m.resolve path = .ok d) (hd : m.tree.IsDir d)
    (name : Str) : m.stored (render d ++ slash :: name) = m.stored (path ++ slash :: name) ↔
      (∃ q, m.resolve (path ++ slash :: name) = .ok q) ∨ path = render d := by
  cases hlong : m.resolve (path ++ slash :: name) with
  | ok q =>
    rw [stored_of_resolve (resolve_below habs h0 hres hd hlong), stored_of_resolve hlong]
    exact iff_of_true rfl (.inl ⟨q, rfl⟩)
  | error e =>
    have hnot : ¬ ∃ q, (Except.error e : Except Failure (List Name)) = .ok q := by simp
    rw [stored_of_error hlong, or_iff_right hnot]
    constructor
    · intro heq
      cases hshort : m.resolve (render d ++ slash :: name) with
      | ok q =>
        -- a canonical name would resolve
        rw [stored_of_resolve hshort] at heq
        rw [← heq, resolve_render (real_of_resolve ((absolute_render d).append _) hshort)] at hlong
        cases hlong
      | error e' =>
        rw [stored_of_error hshort] at heq
        exact (List.append_cancel_right heq).symm
    · rintro rfl
      exact stored_of_error hlong

/-- A stored name exists when the path resolved. -/
theorem stat_stored (habs : Absolute path) : (m.stat (m.stored path)).toBool = true ↔ ∃ q, m.resolve path = .ok q := by
  cases hres : m.resolve path with
  | ok q =>
    have hreal := real_of_resolve habs hres
    obtain ⟨n, hn⟩ := Option.ne_none_iff_exists'.1 hreal.node_ne_none
    rw [stored_of_resolve hres, stat_render hreal hn]
    exact iff_of_true rfl ⟨q, rfl⟩
  | error e =>
    rw [stored_of_error hres]
    unfold Machine.stat
    rw [hres]
    exact iff_of_false (by simp [Except.toBool]) (by simp)

/-- **After any calls of `working_directory`, a file with a relative name equals the child with this name of the directory last
entered, exactly when that child exists or the process names the directory as the object does.** -/
theorem relative_child_iff (host : Host) {pre post : List (File × Bool)}
    (h : visits.Path m (pre ++ (dir, true) :: post) m') (hpost : ∀ i ∈ post, i.2 = false) (habs : Absolute dir.fullName)
    (h0 : 0 ∉ dir.fullName) (hname : name ≠ []) (hslash : name.head? ≠ some slash) (htilde : name.head? ≠ some tilde) :
    ∃ f g wd there, (new host name).run m' = .ok f m' ∧ (child host name dir).run m' = .ok g m' ∧
      (exists? g).run m' = .ok there m' ∧ workingDirectory.run m' = .ok wd m' ∧
      (f.equals g = true ↔ there = true ∨ wd = dir.fullName) := by
  obtain ⟨-, hres, hd⟩ := cwd_visits h habs hpost
  have hnew : (new host name).run m' = _ := run_new_longPath hd hname htilde
  have hlong : longPath m'.cwd name = render m'.cwd ++ slash :: name := if_neg hslash
  rw [hlong] at hnew
  have hchild : (child host name dir).run m' = _ := run_new host m' (habs.append (slash :: name))
  have hwd : workingDirectory.run m' = .ok (render m'.cwd) m' := by
    show (if m'.tree.IsDir m'.cwd then pure (render m'.cwd) else _ : FileM Str).run m' = _
    rw [if_pos hd]
    rfl
  refine ⟨_, _, _, _, hnew, hchild, run_exists? _, hwd, ?_⟩
  have hthere := stat_stored (m := m') (habs.append (slash :: name))
  show decide (m'.stored _ = m'.stored _) = true ↔ _
  rw [decide_eq_true_iff, stored_below_iff habs h0 hres hd, hthere, eq_comm (a := dir.fullName)]

theorem free_bare (n : Name) : bare.tree.node ([] ++ [n]) = none := rfl

/-- A link `/a` to `/tmp`, which is missing. -/
def dangling : Tree := bare.tree.insert [] nameA (.link ⟨false, [.name nameTmp]⟩) isDir_bare (free_bare nameA)

theorem isDir_dangling : dangling.IsDir [] := by decide

theorem free_dangling : dangling.node ([] ++ [nameTmp]) = none := rfl

/-- `/tmp`, and a link `/a` to it. -/
def linked : Machine where
  tree := dangling.insert [] nameTmp (.dir 0o755) isDir_dangling free_dangling
  cwd := []
  clock := 0

/-- The link is entered by its name; the name that is tried next is missing. -/
theorem relative_child_iff_linked : ∃ m', visits.Path linked [(fileA, true), (⟨text "/b"⟩, false)] m' ∧
    ∃ f g wd there, (new quiet (text "c")).run m' = .ok f m' ∧ (child quiet (text "c") fileA).run m' = .ok g m' ∧
      (exists? g).run m' = .ok there m' ∧ workingDirectory.run m' = .ok wd m' ∧
      (f.equals g = true ↔ there = true ∨ wd = fileA.fullName) := by
  have hpath : visits.Path linked ([] ++ (fileA, true) :: [(⟨text "/b"⟩, false)]) { linked with cwd := [nameTmp] } :=
    .cons rfl (.single ⟨chdirIssue 2 ⟨text "/b"⟩, rfl⟩)
  exact ⟨_, hpath, relative_child_iff quiet hpath (by simp) ⟨text "a", rfl⟩ (by decide) (by decide) (by decide) (by decide)⟩

end File

end OksSystem
