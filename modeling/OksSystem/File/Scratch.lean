import OksSystem.File.Fifo
import OksSystem.File.RemoveTree

/-!
# A scratch directory

Any calls on paths from a new directory on, and then `remove` on it.

* `Op`, `work` : the calls, on paths given by names; each may return or throw;
* `Scratch` : only nodes from a name on have changed, and the new ones are directories and pipes;
* `triple_op` : every call keeps this; `scratch_path` : so does every run;
* `scratch_restored` : **`remove` on the directory leaves the file system as it was**.
-/

namespace OksSystem
open ByteBuffer EStateM FileTree Pieces

namespace File

/-! ## The calls -/

inductive Op where
  | makeDir (perm : Mode)
  | makePath (depth : Nat) (perm : Mode)
  | makeFifo (perm : Mode)
  | permissions (perm : Mode)
  | unlink
  | rmdir
  | remove (depth : Nat)

def Op.run (c : FifoCreator) (f : File) : Op → FileM Unit
  | makeDir perm => File.makeDir c.toCreator perm f
  | makePath depth perm => File.makePath c.toCreator depth perm f
  | makeFifo perm => File.makeFifo c perm f
  | permissions perm => setPermissions c.toCreator perm f
  | unlink => File.unlink c.toHost f
  | rmdir => File.rmdir c.toHost f
  | remove depth => File.remove c.toHost depth f

/-- Calls on paths, which may throw. -/
def work (c : FifoCreator) : LTS Machine (Op × List Name) where
  init _ := True
  step m i m' := ((i.1.run c ⟨render i.2⟩).run m).state = m'

/-! ## What they leave -/

/-- Only nodes from `s` on have changed, and what is new there is a directory or a pipe. -/
structure Scratch (t₀ : Tree) (s : List Name) (t : Tree) : Prop where
  linkFreeTo : ∀ q, s <+: q → t.LinkFreeTo q
  finite : t₀.Finite → t.Finite
  outside : ∀ q, ¬ s <+: q → t.node q = t₀.node q
  pipes : ∀ q a, s <+: q → t.node q = some (.other a) → a.type = .fifo ∨ ∃ b, t₀.node q = some (.other b) ∧ b.type = a.type

variable {t₀ t t' : Tree} {s p q dir : List Name} {n : Name} {m : Machine} {c : FifoCreator} {host : Host}

theorem Scratch.refl (h : ∀ q, s <+: q → t.LinkFreeTo q) : Scratch t s t :=
  ⟨h, id, fun _ _ => rfl, fun _ a _ ha => .inr ⟨a, ha, rfl⟩⟩

theorem Scratch.linkFree (h : Scratch t₀ s t) (hfree : t₀.LinkFree) : t.LinkFree := by
  intro q target hq
  by_cases hs : s <+: q
  · exact h.linkFreeTo q hs q List.prefix_rfl target hq
  · rw [h.outside q hs] at hq
    exact hfree q target hq

theorem Scratch.insert (h : Scratch t₀ s t) {x : Node Name Perm Inode} (hs : s <+: dir ++ [n]) (hdir : t.IsDir dir)
    (hnew : t.node (dir ++ [n]) = none) (hx : (∃ d, x = .dir d) ∨ ∃ d, x = .other ⟨.fifo, d⟩) :
    Scratch t₀ s (t.insert dir n x hdir hnew) where
  linkFreeTo q hq r hr target hlink := by
    refine h.linkFreeTo q hq r hr target (link_of_insert ?_ hdir hnew hlink)
    rcases hx with ⟨d, rfl⟩ | ⟨d, rfl⟩
    · simp
    · simp
  finite hfin := (h.finite hfin).insert hdir hnew
  outside q hq := by
    rw [node_insert_of_ne, h.outside q hq]
    rintro rfl
    exact hq hs
  pipes q a hq ha := by
    by_cases hqn : q = dir ++ [n]
    · rw [hqn, node_insert_self] at ha
      rcases hx with ⟨d, rfl⟩ | ⟨d, rfl⟩
      · exact absurd ha (by simp)
      · obtain rfl : Inode.mk .fifo d = a := by simpa using ha
        exact .inl rfl
    · rw [node_insert_of_ne _ _ hqn] at ha
      exact h.pipes q a hq ha

theorem Scratch.modify (h : Scratch t₀ s t) (hs : s <+: p) (fd : Perm → Perm) (fa : Inode → Inode)
    (hfa : ∀ a, (fa a).type = a.type) : Scratch t₀ s (t.modify p fd fa) where
  linkFreeTo q hq r hr target hlink := h.linkFreeTo q hq r hr target (link_of_modify hlink)
  finite hfin := (h.finite hfin).subset fun _ hq => node_modify_ne_none.1 hq
  outside q hq := by
    rw [node_modify_of_ne, h.outside q hq]
    rintro rfl
    exact hq hs
  pipes q a hq ha := by
    by_cases hqp : q = p
    · rw [hqp, node_modify_self] at ha
      cases hn : t.node p with
      | none =>
        rw [hn] at ha
        exact absurd ha (by simp)
      | some x =>
        rw [hn] at ha
        cases x with
        | dir d => exact absurd ha (by simp [Node.map])
        | link target => exact absurd ha (by simp [Node.map])
        | other b =>
          obtain rfl : fa b = a := by simpa [Node.map] using ha
          rw [hfa]
          rw [hqp]
          exact h.pipes p b hs hn
    · rw [node_modify_of_ne hqp] at ha
      exact h.pipes q a hq ha

theorem Scratch.erase (h : Scratch t₀ s t) (hs : s <+: dir ++ [n]) (hnil : t.entries (dir ++ [n]) = []) :
    Scratch t₀ s (t.erase dir n hnil) where
  linkFreeTo q hq r hr target hlink := h.linkFreeTo q hq r hr target (erase_sub hnil _ _ hlink)
  finite hfin := (h.finite hfin).subset fun q hq hnone => hq ((erase_sub hnil).none hnone)
  outside q hq := by
    rw [node_erase_of_ne, h.outside q hq]
    rintro rfl
    exact hq hs
  pipes q a hq ha := h.pipes q a hq (erase_sub hnil q _ ha)

/-! ## Canonical names without links on the way -/

theorem exists_concat (hs : s ≠ []) (hp : s <+: p) : ∃ a k, p = a ++ [k] :=
  (List.eq_nil_or_concat' p).resolve_left fun hnil => hs (List.prefix_nil.1 (hnil ▸ hp))

/-- The names that lead to a node lead to no other. -/
theorem resolve_render_free (hfree : m.tree.LinkFreeTo p) (h : m.resolve (render p) = .ok q) : q = p := by
  rw [resolve_of_absolute m (absolute_render p), cstr_of_notMem (nul_notMem_render p)] at h
  by_cases hp : p = []
  · rw [hp, comps_root, resolve_empty m.tree.root, resolve_empty m.tree.root, resolve_nil] at h
    rw [hp, Except.ok.inj h]
  · rw [comps_render hp, resolve_empty m.tree.root] at h
    exact hfree.eq_of_resolve h

theorem lookup_render_free {slashes : Bool} (hfree : t.LinkFreeTo p)
    (h : lookup t maxLinks [] (comps (render p)) = .ok (dir, .name n, slashes)) : p = dir ++ [n] := by
  rcases List.eq_nil_or_concat' p with rfl | ⟨p, k, rfl⟩
  · rw [comps_root] at h
    exact absurd h (by simp [lookup])
  · rw [comps_render_append, lookup_empty t.root, lookup_append_name] at h
    cases hres : t.resolve maxLinks [] (p.map .name) with
    | error e =>
      rw [hres] at h
      exact absurd h (by simp [bind, Except.bind])
    | ok r =>
      have hr : r = p := (hfree.above (List.prefix_append p [k])).eq_of_resolve hres
      rw [hres] at h
      change (if t.IsDir r then _ else _) = _ at h
      split_ifs at h
      obtain ⟨hdir, hk, -⟩ : r = dir ∧ k = n ∧ slashes = false := by simpa [eq_comm] using h
      rw [← hr, hdir, hk]

theorem stored_render_free (hfree : m.tree.LinkFreeTo p) : m.stored (render p) = render p := by
  cases hres : m.resolve (render p) with
  | error e => exact stored_of_error hres
  | ok q => rw [stored_of_resolve hres, resolve_render_free hfree hres]

theorem mkdir_render {d : Perm} (hfree : m.tree.LinkFreeTo p) (h : m.mkdir d (render p) = .ok t) :
    ∃ dir n hdir hnew, p = dir ++ [n] ∧ t = m.tree.insert dir n (.dir d) hdir hnew := by
  rw [mkdir_of_absolute m d (absolute_render p), cstr_of_notMem (nul_notMem_render p)] at h
  split at h
  · exact absurd h (by simp)
  · rename_i t' hmkdir
    obtain rfl := Except.ok.inj h
    unfold FileTree.mkdir at hmkdir
    split at hmkdir
    · exact absurd hmkdir (by simp)
    · rename_i dir n slashes hlook
      split_ifs at hmkdir with hnew
      exact ⟨dir, n, hnew.1, hnew.2, lookup_render_free hfree hlook, (Except.ok.inj hmkdir).symm⟩
    · exact absurd hmkdir (by simp)

theorem mkfifo_render {d : Perm} (hfree : m.tree.LinkFreeTo p) (h : m.mkfifo d (render p) = .ok t) :
    ∃ dir n hdir hnew, p = dir ++ [n] ∧ t = m.tree.insert dir n (.other ⟨.fifo, d⟩) hdir hnew := by
  unfold Machine.mkfifo at h
  rw [cstr_of_notMem (nul_notMem_render p), start_render] at h
  split_ifs at h
  split at h
  · exact absurd h (by simp)
  · rename_i t' hmknod
    obtain rfl := Except.ok.inj h
    unfold FileTree.mknod at hmknod
    split at hmknod
    · exact absurd hmknod (by simp)
    · rename_i dir n slashes hlook
      split_ifs at hmknod with hnew
      exact ⟨dir, n, hnew.1, hnew.2, lookup_render_free hfree hlook, (Except.ok.inj hmknod).symm⟩
    · exact absurd hmknod (by simp)

/-! ## Every call -/

/-- `x` changes only what is from `s` on, and makes directories and pipes there. -/
def Stays {α : Type} (t₀ : Tree) (s : List Name) (x : FileM α) : Prop :=
  Triple (fun m => Scratch t₀ s m.tree) x (fun _ m => Scratch t₀ s m.tree) fun m => Scratch t₀ s m.tree

theorem stays_of_state {α : Type} {x : FileM α} (h : ∀ m, (x.run m).state = m) : Stays t₀ s x := by
  intro m hm
  have hstate := h m
  revert hstate
  cases x.run m with
  | ok a m' =>
    rintro rfl
    exact hm
  | error e m' =>
    rintro rfl
    exact hm

theorem stays_exists (f : File) : Stays t₀ s (exists? f) := stays_of_state fun _ => rfl

theorem stays_isDirectory (f : File) : Stays t₀ s (isDirectory f) := by
  refine stays_of_state fun m => ?_
  rw [run_isDirectory]
  cases m.stat f.fullName <;> rfl

theorem stays_permissions (f : File) : Stays t₀ s (permissions f) := by
  refine stays_of_state fun m => ?_
  rw [run_permissions]
  cases m.stat f.fullName <;> rfl

theorem stays_mkdirNode (perm : Mode) (hp : s <+: p) : Stays t₀ s (mkdirNode c.toCreator perm ⟨render p⟩) := by
  refine Triple.of_forall fun m hm => ?_
  rcases mkdirNode_cases c.toCreator perm ⟨render p⟩ m with ⟨t, ht, hrun⟩ | ⟨e, -, hrun⟩
  · obtain ⟨dir, n, hdir, hnew, rfl, rfl⟩ := mkdir_render (hm.linkFreeTo p hp) ht
    exact Triple.of_run_ok hrun (hm.insert hp hdir hnew (.inl ⟨_, rfl⟩))
  · exact Triple.of_run_ok hrun hm

theorem stays_mkfifoNode (perm : Mode) (hp : s <+: p) : Stays t₀ s (mkfifoNode c perm ⟨render p⟩) := by
  refine Triple.of_forall fun m hm => ?_
  rcases mkfifoNode_cases c perm ⟨render p⟩ m with ⟨t, ht, hrun⟩ | ⟨e, -, hrun⟩
  · obtain ⟨dir, n, hdir, hnew, rfl, rfl⟩ := mkfifo_render (hm.linkFreeTo p hp) ht
    exact Triple.of_run_ok hrun (hm.insert hp hdir hnew (.inr ⟨_, rfl⟩))
  · exact Triple.of_run_ok hrun hm

theorem stays_chmodNode (perm : Mode) (hp : s <+: p) : Stays t₀ s (chmodNode c.toCreator perm ⟨render p⟩) := by
  refine Triple.of_forall fun m hm => ?_
  rcases chmodNode_cases c.toCreator perm ⟨render p⟩ m with ⟨q, hq, hrun⟩ | ⟨e, -, hrun⟩
  · obtain rfl := resolve_render_free (hm.linkFreeTo p hp) hq
    exact Triple.of_run_ok hrun (hm.modify hp _ _ fun _ => rfl)
  · exact Triple.of_run_ok hrun hm

theorem stays_setPermissions (perm : Mode) (hp : s <+: p) : Stays t₀ s (setPermissions c.toCreator perm ⟨render p⟩) := by
  unfold setPermissions
  refine Triple.bind (stays_permissions _) fun md => Triple.ite (fun _ => ?_) fun _ => Triple.pure _ fun _ => id
  refine Triple.bind (stays_chmodNode perm hp) fun r => ?_
  cases r with
  | none => exact Triple.pure _ fun _ => id
  | some e => exact Triple.throw _ fun _ => id

theorem stays_makeDir (perm : Mode) (hp : s <+: p) : Stays t₀ s (makeDir c.toCreator perm ⟨render p⟩) := by
  unfold makeDir
  refine Triple.bind (stays_mkdirNode perm hp) fun r => ?_
  cases r with
  | none =>
    refine Triple.tryCatch (stays_setPermissions perm hp) fun stop => ?_
    split
    · exact Triple.throw _ fun _ => id
    · exact Triple.throw _ fun _ => id
  | some e =>
    refine Triple.bind (stays_exists _) fun b => Triple.ite (fun _ => ?_) fun _ => Triple.throw _ fun _ => id
    refine Triple.bind (stays_isDirectory _) fun b => Triple.ite (fun _ => ?_) fun _ => Triple.pure _ fun _ => id
    refine Triple.tryCatch (stays_setPermissions perm hp) fun stop => ?_
    split
    · exact Triple.pure _ fun _ => id
    · exact Triple.throw _ fun _ => id

/-- `make_path` does not go above a directory that is there. -/
theorem stays_makePath (hdir : t₀.IsDir s.dropLast) (hs : s ≠ []) (depth : Nat) (perm : Mode) (hp : s <+: p) :
    Stays t₀ s (makePath c.toCreator depth perm ⟨render p⟩) := by
  induction depth generalizing perm p with
  | zero => exact Triple.throw _ fun _ => id
  | succ depth ih =>
    refine Triple.of_forall fun m hm => ?_
    obtain ⟨p, k, rfl⟩ := exists_concat hs hp
    have hfather : father m ⟨render (p ++ [k])⟩ = ⟨render p⟩ := by
      unfold father
      rw [parentName_render, stored_render_free ((hm.linkFreeTo _ hp).above (List.prefix_append p [k]))]
    have hrun := run_makePath_succ (m := m) (f := ⟨render (p ++ [k])⟩) c.toCreator depth perm (absolute_render _)
    rw [hfather] at hrun
    intro m' heq
    rw [heq, hrun]
    split_ifs with hexists
    · exact stays_makeDir perm hp m hm
    · rcases List.prefix_concat_iff.1 hp with rfl | hpre
      · -- the parent of the directory is there
        rw [List.dropLast_concat] at hdir
        obtain ⟨d, hd⟩ := hdir
        have hnode : m.tree.node p = some (.dir d) := by
          rw [hm.outside p fun h => absurd h.length_le (by simp), hd]
        rw [show (⟨render p⟩ : File).fullName = render p from rfl, stat_render (IsDir.real ⟨d, hnode⟩) hnode] at hexists
        exact absurd rfl hexists
      · exact Triple.bind (ih (perm ||| sIrwxu) hpre) (fun _ => stays_makeDir perm hp) m hm

theorem stays_newFifo (perm : Mode) (hp : s <+: p) : Stays t₀ s (Calls.newFifo c perm ⟨render p⟩).run := by
  unfold Calls.newFifo
  rw [Prog.run_bind, Prog.run_atomic]
  refine Triple.bind (stays_mkfifoNode perm hp) fun r => ?_
  cases r with
  | none =>
    show Stays t₀ s (Calls.setPermissions c.toCreator perm ⟨render p⟩).run
    rw [Calls.run_setPermissions]
    exact stays_setPermissions perm hp
  | some e => exact Triple.throw _ fun _ => id

theorem stays_makeFifo (perm : Mode) (hp : s <+: p) : Stays t₀ s (makeFifo c perm ⟨render p⟩) := by
  refine Triple.of_forall fun m hm => ?_
  by_cases hthere : NamesFifo m (render p)
  · obtain ⟨q, d, hq, hn⟩ := hthere
    have hrun := run_makeFifo_there (f := ⟨render p⟩) c perm hq hn
    split_ifs at hrun
    · exact Triple.of_run_eq hrun ((stays_setPermissions perm hp).mono (fun _ h => h ▸ hm) (fun _ _ => id) fun _ => id)
    · exact Triple.of_run_ok hrun hm
  · exact Triple.of_run_eq (run_makeFifo_new (f := ⟨render p⟩) c perm hthere)
      ((stays_newFifo perm hp).mono (fun _ h => h ▸ hm) (fun _ _ => id) fun _ => id)

theorem scratch_unlink (h : Scratch t₀ s m.tree) (hp : s <+: p) (ht : m.remove FileTree.unlink (render p) = .ok t) :
    Scratch t₀ s t := by
  obtain ⟨dir, n, slashes, hnil, hlook, -, -, rfl⟩ := unlink_spec (remove_render.1 ht)
  obtain rfl := lookup_render_free (h.linkFreeTo p hp) hlook
  exact h.erase hp hnil

theorem scratch_rmdir (h : Scratch t₀ s m.tree) (hp : s <+: p) (ht : m.remove FileTree.rmdir (render p) = .ok t) :
    Scratch t₀ s t := by
  obtain ⟨dir, n, slashes, hnil, hlook, -, rfl⟩ := rmdir_spec (remove_render.1 ht)
  obtain rfl := lookup_render_free (h.linkFreeTo p hp) hlook
  exact h.erase hp hnil

/-- The names in a listing are entries. -/
theorem entry_of_listed {names : List Str} {name : Str} (hfree : m.tree.LinkFreeTo q)
    (hnames : m.opendir (render q) = .ok names) (hname : name ∈ proper names) : ∃ n ∈ m.tree.entries q, m.tree.IsDir q ∧ name = n.1 := by
  obtain ⟨x, hx, hdir, -⟩ := opendir_eq_ok hnames
  obtain rfl := resolve_render_free hfree hx
  obtain ⟨-, hproper⟩ := opendir_render_sub (Sub.refl m.tree) hdir.real hnames
  obtain ⟨n, hn, rfl⟩ := hproper name hname
  exact ⟨n, hn, hdir, rfl⟩

/-- What the loop of `remove` does with an entry. -/
theorem stays_child {depth : Nat} (hfree : m.tree.LinkFreeTo (q ++ [n])) (hs : s <+: q ++ [n]) (hdir : m.tree.IsDir q)
    (hn : n ∈ m.tree.entries q) (hrec : Stays t₀ s (remove host depth ⟨render (q ++ [n])⟩)) :
    Stays t₀ s (do
      let f ← copy host ⟨m.stored (childPath q n)⟩
      if ← exists? f then remove host depth f) := by
  rw [stored_childPath hfree hdir hn]
  refine Triple.of_forall fun m' hm' => ?_
  have hcopy : (copy host ⟨render (q ++ [n])⟩).run m' = .ok ⟨render (q ++ [n])⟩ m' := by
    unfold copy
    rw [run_new host m' (absolute_render _), stored_render_free (hm'.linkFreeTo _ hs)]
  refine Triple.bind_ok hcopy (Triple.bind_ok (run_exists? _) (Triple.ite (fun _ => ?_) fun _ => ?_))
  · exact hrec.mono (fun _ h => h ▸ hm') (fun _ _ => id) fun _ => id
  · exact Triple.pure _ fun _ h => h ▸ hm'

/-- `remove` deletes nothing above its path. -/
theorem stays_remove (host : Host) (depth : Nat) (hp : s <+: p) : Stays t₀ s (remove host depth ⟨render p⟩) := by
  induction depth generalizing p with
  | zero => exact Triple.throw _ fun _ => id
  | succ depth ih =>
    apply triple_remove (f := ⟨render p⟩) (J := fun _ m => Scratch t₀ s m.tree) (absolute_render p)
    · exact fun _ => id
    · exact fun m t md hm _ _ ht => scratch_unlink hm hp ht
    · exact fun m hm => ⟨hm, fun _ => id⟩
    · intro m names hm hnames name hname
      obtain ⟨n, hn, hdir, rfl⟩ := entry_of_listed (hm.linkFreeTo p hp) hnames hname
      have hpn : s <+: p ++ [n] := hp.trans (List.prefix_append p [n])
      exact stays_child (hm.linkFreeTo _ hpn) hpn hdir hn (ih hpn)
    · exact fun m t hm ht => scratch_rmdir hm hp ht

/-- **Every call on a path from `s` on changes only what is from `s` on**, however it ends. -/
theorem stays_op (c : FifoCreator) (hdir : t₀.IsDir s.dropLast) (hs : s ≠ []) (op : Op) (hp : s <+: p) :
    Stays t₀ s (op.run c ⟨render p⟩) := by
  cases op with
  | makeDir perm => exact stays_makeDir perm hp
  | makePath depth perm => exact stays_makePath hdir hs depth perm hp
  | makeFifo perm => exact stays_makeFifo perm hp
  | permissions perm => exact stays_setPermissions perm hp
  | unlink => exact triple_unlink (fun _ => id) fun m t hm ht => scratch_unlink hm hp ht
  | rmdir => exact triple_rmdir (fun _ => id) fun m t hm ht => scratch_rmdir hm hp ht
  | remove depth => exact stays_remove c.toHost depth hp

/-! ## Whole runs -/

theorem scratch_path {m m' : Machine} (hdir : t₀.IsDir s.dropLast) (hs : s ≠ []) {is : List (Op × List Name)}
    (hin : ∀ i ∈ is, s <+: i.2) (hrun : (work c).Path m is m') (hm : Scratch t₀ s m.tree) : Scratch t₀ s m'.tree := by
  have hkeep : ∀ m (i : Op × List Name) m', Scratch t₀ s m.tree → s <+: i.2 → (work c).step m i m' →
      Scratch t₀ s m'.tree := by
    rintro m i m' hm hi rfl
    exact (stays_op c hdir hs i.1 hi).state hm
  exact hrun.keeps hkeep hin hm

/-- `if (f.exists()) f.remove()`. -/
def removeIfThere (host : Host) (depth : Nat) (f : File) : FileM Unit := do
  if ← exists? f then remove host depth f

/-- **Whatever is done on paths from a new name on, removing what is there under the name restores the file system.** The
calls may throw, `mkdir`, `mkfifo` and `chmod` may be refused; the rest fails only for what is in the tree. -/
theorem scratch_restored (c : FifoCreator) (hhost : Willing c.toHost) (m m' : Machine) (hfree : m.tree.LinkFree)
    (hfin : m.tree.Finite) (a : List Name) (n : Name) (hdir : m.tree.IsDir a) (hnew : m.tree.node (a ++ [n]) = none)
    (is : List (Op × List Name)) (hin : ∀ i ∈ is, a ++ [n] <+: i.2) (hrun : (work c).Path m is m') :
    ∃ k, ∀ depth, k ≤ depth → ∃ m'', (removeIfThere c.toHost depth ⟨render (a ++ [n])⟩).run m' = .ok () m'' ∧
      ∀ q, m''.tree.node q = m.tree.node q := by
  have hm' : Scratch m.tree (a ++ [n]) m'.tree :=
    scratch_path (by rwa [List.dropLast_concat]) (by simp) hin hrun (.refl fun _ => linkFreeTo_of_free hdir hnew)
  have hbelow : ∀ q, a ++ [n] <+: q → m.tree.node q = none := fun q hq => m.tree.node_eq_none_of_prefix hq hnew
  by_cases hnode : m'.tree.node (a ++ [n]) = none
  · refine ⟨0, fun depth _ => ⟨m', ?_, fun q => ?_⟩⟩
    · have hstat : (m'.stat (render (a ++ [n]))).toBool = false := by
        by_contra hthere
        obtain ⟨q, hq⟩ := resolve_of_exists (Bool.not_eq_false _ ▸ hthere)
        obtain rfl := resolve_render_free (hm'.linkFreeTo _ List.prefix_rfl) hq
        exact (real_of_resolve (absolute_render _) hq).node_ne_none hnode
      unfold removeIfThere
      rw [run_bind_ok (run_exists? _)]
      simp only [hstat]
      rfl
    · by_cases hq : a ++ [n] <+: q
      · rw [hbelow q hq, m'.tree.node_eq_none_of_prefix hq hnode]
      · exact hm'.outside q hq
  · have hplain : Plain m'.tree (a ++ [n]) := fun q x hq hx => by
      rcases hm'.pipes q x hq hx with htype | ⟨b, hb, -⟩
      · rw [htype]
        exact ⟨by simp, by simp⟩
      · exact absurd hb (by simp [hbelow q hq])
    obtain ⟨k, hk⟩ := removesTree_of_plain hhost (hm'.linkFree hfree) (hm'.finite hfin) hnode (by simp) hplain
    refine ⟨k, fun depth hdepth => ?_⟩
    obtain ⟨m'', hremove, hwithout⟩ := hk depth hdepth m'.cwd m'.clock
    refine ⟨m'', ?_, fun q => ?_⟩
    · obtain ⟨x, hx⟩ := Option.ne_none_iff_exists'.1 hnode
      unfold removeIfThere
      rw [run_bind_ok (run_exists? _),
        show (⟨render (a ++ [n])⟩ : File).fullName = render (a ++ [n]) from rfl,
        stat_render ((hm'.linkFreeTo _ List.prefix_rfl).real hnode) hx]
      exact hremove
    · by_cases hq : a ++ [n] <+: q
      · rw [hbelow q hq, hwithout.gone q hq]
      · rw [hwithout.kept q hq, hm'.outside q hq]

theorem willing_ready : Willing ready.toHost := ⟨fun _ => List.Perm.refl, fun _ => rfl, fun _ => rfl, fun _ => rfl⟩

/-- A pipe below two new directories. -/
theorem scratch_restored_tmp : ∃ m' k, (work ready).Path bare
    [(.makePath 2 0o755, [nameTmp, nameA]), (.makeFifo 0o622, [nameTmp, nameA, nameTmp])] m' ∧
    ∀ depth, k ≤ depth → ∃ m'', (removeIfThere ready.toHost depth ⟨render ([] ++ [nameTmp])⟩).run m' = .ok () m'' ∧
      ∀ q, m''.tree.node q = bare.tree.node q := by
  have hpath : (work ready).Path bare
      [(.makePath 2 0o755, [nameTmp, nameA]), (.makeFifo 0o622, [nameTmp, nameA, nameTmp])] _ :=
    .cons rfl (.cons rfl (.nil _))
  obtain ⟨k, hk⟩ := scratch_restored ready willing_ready bare _ (linkFree_ofRoot _) (finite_ofRoot _) [] nameTmp
    isDir_bare rfl _ (by decide) hpath
  exact ⟨_, k, hpath, hk⟩

end File

end OksSystem
