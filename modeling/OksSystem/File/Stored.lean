import OksSystem.File.System

/-!
# The names that files store

* `Machine.stored` : what the constructor makes of an absolute path name (`run_new`);
* `resolve_render`, `resolve_child` : where the canonical name of a node and the name of an entry lead;
* `stat_eq_ok`, `opendir_eq_ok` : what the answers of `stat` and `opendir` say of the tree;
* `stored_of_sub` : a stored name stays as it is when the constructor gets it again, also after nodes have been
  removed.
-/

namespace OksSystem
open ByteBuffer EStateM FileTree

variable {m m' : Machine} {p q : List Name} {path : Str}

/-! ## Canonical names -/

/-- NUL ends a path name, and an absolute one starts from the root. -/
theorem resolve_of_absolute (m : Machine) (h : Absolute path) :
    m.resolve path = m.tree.resolve maxLinks [] (comps (cstr path)) := by
  obtain ⟨s, rfl⟩ := h
  obtain ⟨b, hb⟩ : Absolute (cstr (slash :: s)) := ⟨_, List.takeWhile_cons_of_pos (by decide)⟩
  unfold Machine.resolve Machine.start
  rw [hb, if_neg (List.cons_ne_nil _ _), if_pos List.head?_cons]

theorem resolve_render (h : m.tree.Real p) : m.resolve (render p) = .ok p := by
  rw [resolve_of_absolute m (absolute_render p), cstr_of_notMem (nul_notMem_render p)]
  by_cases hp : p = []
  · rw [hp, comps_root, resolve_empty m.tree.root, resolve_empty m.tree.root, resolve_nil]
  · have hnames : m.tree.resolve maxLinks [] (p.map .name ++ []) = _ := resolve_names h
    rw [comps_render hp, resolve_empty m.tree.root, ← List.append_nil (p.map Comp.name), hnames]
    exact resolve_nil

/-- The path name that `directory` makes for an entry. -/
def childPath (p : List Name) (n : Name) : Str := render p ++ slash :: n.1

theorem absolute_childPath (p : List Name) (n : Name) : Absolute (childPath p n) := (absolute_render p).append _

theorem nul_notMem_childPath (p : List Name) (n : Name) : 0 ∉ childPath p n := by
  intro h
  rcases List.mem_append.1 h with h | h
  · exact nul_notMem_render p h
  · rcases List.mem_cons.1 h with h | h
    · exact absurd h (by decide)
    · exact n.2.2.2.2.2 h

theorem resolve_child (h : m.tree.IsDir p) (n : Name) :
    m.resolve (childPath p n) = m.tree.resolve maxLinks p [.name n] := by
  rw [resolve_of_absolute m (absolute_childPath p n), cstr_of_notMem (nul_notMem_childPath p n), childPath]
  by_cases hp : p = []
  · rw [hp, comps_child_root, resolve_empty m.tree.root, resolve_empty m.tree.root]
  · rw [comps_child hp, resolve_empty m.tree.root]
    exact resolve_names h.real

/-! ## Stored names -/

/-- The name that is stored for an absolute path name. -/
def Machine.stored (m : Machine) (path : Str) : Str := (m.realpath path).getD path

theorem stored_of_resolve (h : m.resolve path = .ok q) : m.stored path = render q := by
  unfold Machine.stored Machine.realpath
  rw [h]
  rfl

theorem stored_of_error {e : Failure} (h : m.resolve path = .error e) : m.stored path = path := by
  unfold Machine.stored Machine.realpath
  rw [h]
  rfl

theorem stored_render (h : m.tree.Real p) : m.stored (render p) = render p := stored_of_resolve (resolve_render h)

theorem real_of_resolve (habs : Absolute path) (h : m.resolve path = .ok q) : m.tree.Real q := by
  rw [resolve_of_absolute m habs] at h
  exact resolve_real (IsDir.real m.tree.root) h

theorem resolve_sub (habs : Absolute path) (hsub : Sub m'.tree m.tree) (h : m'.resolve path = .ok q) :
    m.resolve path = .ok q := by
  rw [resolve_of_absolute _ habs] at h ⊢
  exact resolve_mono hsub h

/-- What a stored name leads to in a tree with nodes missing, the path name it was made from led to. -/
theorem resolve_stored_sub (habs : Absolute path) (hsub : Sub m'.tree m.tree) (h : m'.resolve (m.stored path) = .ok q) :
    m.resolve path = .ok q ∧ m.stored path = render q := by
  cases hres : m.resolve path with
  | error e =>
    rw [stored_of_error hres] at h
    rw [resolve_sub habs hsub h] at hres
    cases hres
  | ok r =>
    rw [stored_of_resolve hres] at h ⊢
    have hr := resolve_render (real_of_resolve habs hres)
    rw [resolve_sub (absolute_render r) hsub h] at hr
    cases hr
    exact ⟨rfl, rfl⟩

theorem stored_of_sub (habs : Absolute path) (hsub : Sub m'.tree m.tree) :
    m'.stored (m.stored path) = m.stored path := by
  cases hres : m'.resolve (m.stored path) with
  | error e => exact stored_of_error hres
  | ok q => rw [stored_of_resolve hres, (resolve_stored_sub habs hsub hres).2]

theorem absolute_stored (m : Machine) (habs : Absolute path) : Absolute (m.stored path) := by
  cases hres : m.resolve path with
  | error e => rwa [stored_of_error hres]
  | ok q =>
    rw [stored_of_resolve hres]
    exact absolute_render q

/-! ## What the calls answer -/

theorem stat_of_resolve {n : Node Name Perm Inode} (h : m.resolve path = .ok p) (hn : m.tree.node p = some n) :
    m.stat path = .ok (mode n) := by
  unfold Machine.stat
  rw [h]
  simp only [hn]

theorem stat_render {n : Node Name Perm Inode} (h : m.tree.Real p) (hn : m.tree.node p = some n) :
    m.stat (render p) = .ok (mode n) := stat_of_resolve (resolve_render h) hn

theorem stat_eq_ok {md : Mode} (h : m.stat path = .ok md) :
    ∃ p n, m.resolve path = .ok p ∧ m.tree.node p = some n ∧ md = mode n := by
  unfold Machine.stat at h
  split at h
  · exact absurd h (by simp)
  · split at h
    · exact ⟨_, _, ‹_›, ‹_›, (Except.ok.inj h).symm⟩
    · exact absurd h (by simp)

theorem resolve_of_exists (h : (m.stat path).toBool = true) : ∃ p, m.resolve path = .ok p := by
  cases hstat : m.stat path with
  | ok md =>
    obtain ⟨p, -, hp, -⟩ := stat_eq_ok hstat
    exact ⟨p, hp⟩
  | error e => exact absurd (hstat ▸ h) (by simp [Except.toBool])

theorem opendir_render (h : m.tree.IsDir p) :
    m.opendir (render p) = .ok ([dot] :: [dot, dot] :: (m.tree.entries p).map Subtype.val) := by
  unfold Machine.opendir
  rw [resolve_render h.real]
  exact if_pos h

theorem opendir_eq_ok {names : List Str} (h : m.opendir path = .ok names) :
    ∃ p, m.resolve path = .ok p ∧ m.tree.IsDir p ∧
      names = [dot] :: [dot, dot] :: (m.tree.entries p).map Subtype.val := by
  unfold Machine.opendir at h
  split at h
  · exact absurd h (by simp)
  · split_ifs at h with hdir
    exact ⟨_, ‹_›, hdir, (Except.ok.inj h).symm⟩

theorem start_render (m : Machine) (p : List Name) : m.start (render p) = [] := by
  obtain ⟨s, hs⟩ := absolute_render p
  unfold Machine.start
  rw [hs, if_pos List.head?_cons]

theorem render_ne_nil (p : List Name) : render p ≠ [] := by
  obtain ⟨s, hs⟩ := absolute_render p
  rw [hs]
  exact List.cons_ne_nil _ _

/-- `unlink` or `rmdir` of a canonical name. -/
theorem remove_render {call : Tree → Nat → List Name → List (Comp Name) → Except Failure Tree} {t : Tree} :
    m.remove call (render p) = .ok t ↔ call m.tree maxLinks [] (comps (render p)) = .ok t := by
  unfold Machine.remove
  rw [cstr_of_notMem (nul_notMem_render p), start_render, if_neg (render_ne_nil p)]
  cases call m.tree maxLinks [] (comps (render p)) <;> simp

/-! ## The members -/

namespace File

variable {host : Host}

theorem run_new (host : Host) (m : Machine) (habs : Absolute path) : (new host path).run m = .ok ⟨m.stored path⟩ m := by
  obtain ⟨s, rfl⟩ := habs
  rfl

/-- Copying a file, also after nodes have been removed. -/
theorem run_copy (host : Host) (habs : Absolute path) (hsub : Sub m'.tree m.tree) :
    (copy host ⟨m.stored path⟩).run m' = .ok ⟨m.stored path⟩ m' := by
  unfold copy
  rw [run_new host m' (absolute_stored m habs), stored_of_sub habs hsub]

theorem run_exists? (f : File) : (exists? f).run m = .ok (m.stat f.fullName).toBool m := rfl

theorem run_getMode (f : File) : (getMode f).run m = match m.stat f.fullName with
    | .ok mode => .ok mode m
    | .error e => .error (.issue (.osSystemCall e (text "stat") (cstr (text "on file/directory " ++ f.fullName)))) m := by
  change (match m.stat f.fullName with | .ok mode => _ | .error e => _ : FileM Mode).run m = _
  cases m.stat f.fullName <;> rfl

theorem run_isDirectory (f : File) : (isDirectory f).run m = match m.stat f.fullName with
    | .ok mode => .ok (mode &&& sIfdir != 0) m
    | .error e => .error (.issue (.osSystemCall e (text "stat") (cstr (text "on file/directory " ++ f.fullName)))) m := by
  change ((getMode f) >>= _).run m = _
  rw [run_bind, run_getMode]
  cases m.stat f.fullName <;> rfl

/-! ## Directories -/

variable {v : FileList} {names : List Str}

theorem run_mapM_copy {fs : List File} (h : ∀ f ∈ fs, (copy host f).run m = .ok f m) :
    (fs.mapM (copy host)).run m = .ok fs m := by
  induction fs with
  | nil => rfl
  | cons f fs ih =>
    rw [List.mapM_cons, run_bind_ok (h f List.mem_cons_self),
      run_bind_ok (ih fun g hg => h g (List.mem_cons_of_mem f hg))]
    rfl

theorem run_pushBack {f : File} (hv : ∀ f ∈ v.items, (copy host f).run m = .ok f m)
    (hf : (copy host f).run m = .ok f m) :
    ∃ v', (v.pushBack host f).run m = .ok v' m ∧ v'.items = v.items ++ [f] := by
  unfold FileList.pushBack
  rw [run_bind_ok hf]
  split_ifs
  · exact ⟨_, rfl, rfl⟩
  · rw [run_bind_ok (run_mapM_copy hv)]
    exact ⟨_, rfl, rfl⟩

theorem run_listing (host : Host) (m : Machine) {dir : Str} (hdir : Absolute dir) (names : List Str)
    (hv : ∀ f ∈ v.items, (copy host f).run m = .ok f m) :
    ∃ v', (names.foldlM (fun (v : FileList) name => do v.pushBack host (← new host (dir ++ slash :: name))) v).run m =
        .ok v' m ∧ v'.items = v.items ++ names.map fun name => ⟨m.stored (dir ++ slash :: name)⟩ := by
  induction names generalizing v with
  | nil => exact ⟨v, rfl, by simp⟩
  | cons name names ih =>
    have hcopy := run_copy host (hdir.append (slash :: name)) (Sub.refl m.tree)
    obtain ⟨v₁, hrun, hitems⟩ := run_pushBack hv hcopy
    have hv₁ : ∀ f ∈ v₁.items, (copy host f).run m = .ok f m := by
      intro f hf
      rw [hitems] at hf
      rcases List.mem_append.1 hf with hf | hf
      · exact hv f hf
      · rw [List.mem_singleton.1 hf]
        exact hcopy
    obtain ⟨v', hrun', hitems'⟩ := ih hv₁
    have hnew := run_new host m (hdir.append (slash :: name))
    refine ⟨v', ?_, ?_⟩
    · rw [List.foldlM_cons, run_bind_ok ((run_bind_ok hnew).trans hrun)]
      exact hrun'
    · rw [hitems', hitems, List.append_assoc, List.map_cons, List.singleton_append]

end File

end OksSystem
