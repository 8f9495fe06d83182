import OksSystem.File.Canonical
import OksSystem.File.Make

/-!
# What `make_path` creates

* `parentName_render` : the parent of a canonical path name;
* `run_makeDir_new` : `make_dir` of a new name in a directory;
* `run_makePath_new` : `make_path` makes the directories that are missing on the way, and nothing else;
* `makePath_creates` : the modes they get.
-/

namespace OksSystem
open ByteBuffer EStateM FileTree Pieces

namespace File

/-! ## Names -/

theorem render_concat (p : List Name) (n : Name) : render (p ++ [n]) = slashed p ++ slash :: n.1 := by
  unfold render slashed
  rw [if_neg (by simp), List.flatMap_append, List.flatMap_singleton]

theorem parentName_render (p : List Name) (n : Name) : parentName ⟨render (p ++ [n])⟩ = render p := by
  rw [render_concat, parentName_append _ n.2.2.2.2.1]
  have hslashed : slashed p = [] ↔ p = [] := by
    unfold slashed
    cases p <;> simp
  unfold render
  simp only [hslashed]

variable {m : Machine} {a p : List Name} {n : Name} {c : Creator}

/-- A path with a name that is not there does not resolve. -/
theorem resolve_missing (hdir : m.tree.IsDir a) (hnew : m.tree.node (a ++ [n]) = none) (rest : List Name) :
    m.resolve (render (a ++ n :: rest)) = .error .noEntry := by
  rw [resolve_of_absolute m (absolute_render _), cstr_of_notMem (nul_notMem_render _), comps_render (by simp),
    resolve_empty m.tree.root, List.map_append]
  have hnames : m.tree.resolve maxLinks [] (a.map .name ++ (n :: rest).map .name) = _ := resolve_names hdir.real
  rw [hnames, List.nil_append]
  exact resolve_name_none hdir hnew

/-! ## One directory -/

theorem mode_dir_perm (d : Perm) : mode (.dir d) &&& 0o7777 = d.setWidth 32 := by
  unfold mode
  apply BitVec.eq_of_getLsbD_eq
  intro i hi
  have hmask : (0o7777 : Mode).getLsbD i = decide (i < 12) := by
    revert i
    decide
  have hdir : i < 12 → sIfdir.getLsbD i = false := by
    revert i
    decide
  rw [BitVec.getLsbD_and, BitVec.getLsbD_or, BitVec.getLsbD_setWidth, hmask]
  by_cases h12 : i < 12
  · rw [hdir h12, decide_eq_true h12, decide_eq_true hi]
    simp
  · simp [h12, BitVec.getLsbD_of_ge d i (by omega)]

theorem perm_setWidth (perm : Perm) : Mode.perm (perm.setWidth 32) = perm := by
  unfold Mode.perm
  rw [BitVec.setWidth_setWidth_of_le _ (by decide), BitVec.setWidth_eq]

/-- A directory that is there gets the permissions. -/
theorem run_setPermissions_dir (hchmod : ∀ k, c.chmod k = none) (perm : Perm) {f : File} {d : Perm}
    (hres : m.resolve f.fullName = .ok p) (hn : m.tree.node p = some (.dir d)) :
    ∃ m', (setPermissions c (perm.setWidth 32) f).run m = .ok () m' ∧ m'.tree.node p = some (.dir perm) ∧
      ∀ q ≠ p, m'.tree.node q = m.tree.node q := by
  rcases run_setPermissions _ hchmod hres hn with ⟨hrun, hperm⟩ | hrun
  · refine ⟨m, hrun, ?_, fun _ _ => rfl⟩
    rw [mode_dir_perm] at hperm
    have : d = perm := by
      have := congrArg Mode.perm hperm
      rwa [perm_setWidth, perm_setWidth] at this
    rw [hn, this]
  · refine ⟨_, hrun, ?_, fun q hq => ?_⟩
    · show (m.chmodAt _ p).node p = _
      unfold Machine.chmodAt
      rw [node_modify_self, hn, perm_setWidth]
      rfl
    · exact node_modify_of_ne hq

/-- `make_dir` of a new name in a directory. -/
theorem run_makeDir_new (hmkdir : ∀ k, c.mkdir k = none) (hchmod : ∀ k, c.chmod k = none) (perm : Perm)
    (hdir : m.tree.IsDir a) (hnew : m.tree.node (a ++ [n]) = none) :
    ∃ m', (makeDir c (perm.setWidth 32) ⟨render (a ++ [n])⟩).run m = .ok () m' ∧
      m'.tree.node (a ++ [n]) = some (.dir perm) ∧ ∀ q ≠ a ++ [n], m'.tree.node q = m.tree.node q := by
  have hpath : comps (cstr (render (a ++ [n]))) = (.empty :: a.map .name) ++ [.name n] := by
    rw [cstr_of_notMem (nul_notMem_render _), comps_render (by simp), List.map_append]
    rfl
  have hres : m.tree.resolve maxLinks [] (.empty :: a.map .name) = .ok a := by
    rw [resolve_empty m.tree.root]
    exact resolve_map_name hdir.real
  have hmk : m.mkdir (Mode.perm (perm.setWidth 32) &&& ~~~c.umask) (render (a ++ [n])) =
      .ok (m.tree.insert a n (.dir (Mode.perm (perm.setWidth 32) &&& ~~~c.umask)) hdir hnew) := by
    rw [mkdir_of_absolute m _ (absolute_render _), hpath, mkdir_append_name hres hdir hnew]
  have hself := node_insert_self (m := .dir (Mode.perm (perm.setWidth 32) &&& ~~~c.umask)) hdir hnew
  obtain ⟨m', hset, hnode, hother⟩ := run_setPermissions_dir hchmod perm
    (m := m.withTree (m.tree.insert a n (.dir (Mode.perm (perm.setWidth 32) &&& ~~~c.umask)) hdir hnew))
    (f := ⟨render (a ++ [n])⟩) (resolve_render (IsDir.real ⟨_, hself⟩)) hself
  refine ⟨m', ?_, hnode, fun q hq => (hother q hq).trans (node_insert_of_ne hdir hnew hq)⟩
  exact run_makeDir_made (run_mkdirNode (perm.setWidth 32) hmkdir hmk) hset

/-! ## All of them -/

theorem setWidth_or_sIrwxu (perm : Perm) : perm.setWidth 32 ||| sIrwxu = (perm ||| 0o700).setWidth 32 := by
  rw [BitVec.setWidth_or]
  rfl

theorem or_sIrwxu_idem (perm : Perm) : perm ||| 0o700 ||| 0o700 = perm ||| 0o700 := by
  rw [BitVec.or_assoc, BitVec.or_self]

/-- From the first missing name on the directories are made, each once its parent is there. -/
theorem run_makePath_new (hmkdir : ∀ k, c.mkdir k = none) (hchmod : ∀ k, c.chmod k = none)
    (hdir : m.tree.IsDir a) (hnew : m.tree.node (a ++ [n]) = none) (rest : List Name) (perm : Perm) (depth : Nat)
    (hdepth : rest.length < depth) :
    ∃ m', (makePath c depth (perm.setWidth 32) ⟨render (a ++ n :: rest)⟩).run m = .ok () m' ∧
      m'.tree.node (a ++ n :: rest) = some (.dir perm) ∧
      (∀ q, a ++ [n] <+: q → q <+: a ++ n :: rest → q ≠ a ++ n :: rest →
        m'.tree.node q = some (.dir (perm ||| 0o700))) ∧
      ∀ q, ¬ (a ++ [n] <+: q ∧ q <+: a ++ n :: rest) → m'.tree.node q = m.tree.node q := by
  induction rest using List.reverseRecOn generalizing perm depth with
  | nil =>
    obtain ⟨depth, rfl⟩ : ∃ k, depth = k + 1 := ⟨depth - 1, by omega⟩
    have hparent : m.resolve (parentName ⟨render (a ++ [n])⟩) = .ok a := by
      rw [parentName_render, resolve_render hdir.real]
    have hstep := run_makePath_of_parent (f := ⟨render (a ++ [n])⟩) c depth (perm.setWidth 32) (absolute_render _) hparent
    obtain ⟨m', hrun, hnode, hother⟩ := run_makeDir_new hmkdir hchmod perm hdir hnew
    refine ⟨m', hstep.trans hrun, hnode, fun q hnq hq hne => absurd (hq.eq_of_length_le ?_) hne, fun q hq => hother q ?_⟩
    · exact hnq.length_le
    · rintro rfl
      exact hq ⟨List.prefix_rfl, List.prefix_rfl⟩
  | append_singleton rest k ih =>
    obtain ⟨depth, rfl⟩ : ∃ k, depth = k + 1 := ⟨depth - 1, by omega⟩
    have hdepth : rest.length < depth := by simp at hdepth; omega
    have hsplit : a ++ n :: (rest ++ [k]) = (a ++ n :: rest) ++ [k] := by simp
    have hmissing : m.resolve (parentName ⟨render ((a ++ n :: rest) ++ [k])⟩) = .error .noEntry := by
      rw [parentName_render, resolve_missing hdir hnew rest]
    obtain ⟨m₁, hrun₁, hnode₁, hmid₁, hother₁⟩ := ih (perm ||| 0o700) depth hdepth
    -- nothing was below a name that was missing
    have hbelow : m₁.tree.node ((a ++ n :: rest) ++ [k]) = none := by
      rw [hother₁ _ fun h => absurd h.2.length_le (by simp)]
      by_contra hne
      refine absurd hnew (m.tree.node_ne_none_of_prefix ?_ hne)
      exact ⟨rest ++ [k], by simp⟩
    obtain ⟨m', hrun, hnode, hother⟩ := run_makeDir_new hmkdir hchmod perm ⟨_, hnode₁⟩ hbelow
    have hstep := run_makePath_of_missing (f := ⟨render ((a ++ n :: rest) ++ [k])⟩) c depth (perm.setWidth 32)
      (absolute_render _) hmissing
    rw [parentName_render, setWidth_or_sIrwxu, run_bind_ok hrun₁] at hstep
    rw [hsplit]
    refine ⟨m', hstep.trans hrun, hnode, fun q hnq hq hne => ?_, fun q hq => ?_⟩
    · have hq' : q <+: a ++ n :: rest := by
        rcases List.prefix_concat_iff.1 hq with h | h
        · exact absurd h hne
        · exact h
      rw [hother q hne]
      by_cases heq : q = a ++ n :: rest
      · rw [heq, hnode₁]
      · rw [hmid₁ q hnq hq' heq, or_sIrwxu_idem]
    · have hne : q ≠ (a ++ n :: rest) ++ [k] := by
        rintro rfl
        exact hq ⟨⟨rest ++ [k], by simp⟩, List.prefix_rfl⟩
      rw [hother q hne]
      exact hother₁ q fun h => hq ⟨h.1, h.2.trans (List.prefix_append _ _)⟩

/-- **`make_path` makes the directories that are missing on the way and changes nothing else**, whatever the umask. The
path is `a ++ n :: rest`, of which `a` is there. -/
theorem makePath_creates (c : Creator) (hmkdir : ∀ k, c.mkdir k = none) (hchmod : ∀ k, c.chmod k = none) (m : Machine)
    (perm : Perm) (a : List Name) (n : Name) (rest : List Name) (hdir : m.tree.IsDir a)
    (hnew : m.tree.node (a ++ [n]) = none) (depth : Nat) (hdepth : rest.length < depth) :
    ∃ m', (makePath c depth (perm.setWidth 32) ⟨render (a ++ n :: rest)⟩).run m = .ok () m' ∧
      m'.tree.node (a ++ n :: rest) = some (.dir perm) ∧
      (∀ q, q <+: a ++ n :: rest → q ≠ a ++ n :: rest → m.tree.node q = none →
        m'.tree.node q = some (.dir (perm ||| 0o700))) ∧
      (∀ q, m.tree.node q ≠ none → m'.tree.node q = m.tree.node q) ∧
      ∀ q, ¬ q <+: a ++ n :: rest → m'.tree.node q = m.tree.node q := by
  obtain ⟨m', hrun, hnode, hmid, hother⟩ := run_makePath_new hmkdir hchmod hdir hnew rest perm depth hdepth
  refine ⟨m', hrun, hnode, fun q hq hne hnone => hmid q ?_ hq hne, fun q hq => hother q ?_, fun q hq => hother q ?_⟩
  · -- what is missing on the way begins with the first missing name
    have hpre : a ++ [n] <+: a ++ n :: rest := ⟨rest, by simp⟩
    rcases List.prefix_or_prefix_of_prefix hpre hq with h | h
    · exact h
    · rcases List.prefix_concat_iff.1 h with h | h
      · rw [h]
      · exact absurd hnone (m.tree.node_ne_none_of_prefix h hdir.real.node_ne_none)
  · rintro ⟨hpre, -⟩
    exact absurd hnew (m.tree.node_ne_none_of_prefix hpre hq)
  · exact fun h => hq h.2

/-- Nothing is refused, and the umask takes the write permission of the group and of the others. -/
def willing : Creator := { quiet with
  umask := 0o022
  mkdir := fun _ => none
  chmod := fun _ => none }

def nameTmp : Name := ⟨text "tmp", by decide⟩

def nameA : Name := ⟨text "a", by decide⟩

theorem makePath_creates_tmp :
    ∃ m', (makePath willing 2 ((0o750 : Perm).setWidth 32) ⟨render ([] ++ nameTmp :: [nameA])⟩).run bare = .ok () m' ∧
      m'.tree.node ([] ++ nameTmp :: [nameA]) = some (.dir 0o750) ∧
      (∀ q, q <+: [] ++ nameTmp :: [nameA] → q ≠ [] ++ nameTmp :: [nameA] → bare.tree.node q = none →
        m'.tree.node q = some (.dir (0o750 ||| 0o700))) ∧
      (∀ q, bare.tree.node q ≠ none → m'.tree.node q = bare.tree.node q) ∧
      ∀ q, ¬ q <+: [] ++ nameTmp :: [nameA] → m'.tree.node q = bare.tree.node q :=
  makePath_creates willing (fun _ => rfl) (fun _ => rfl) bare 0o750 [] nameTmp [nameA] isDir_bare rfl 2 (by decide)

end File

end OksSystem
