import OksSystem.File.Work
import OksSystem.Lib.Region

/-!
# Processes with directories of their own

* `Steady` : a host whose answers do not depend on when it is asked;
* `Own s Q p` : `p` sees and changes nothing but what is from `s` on;
* `own_asks`, `own_new`, `own_treeCall` : so does a question, the constructor, and a call that changes the tree;
* `own_op`, `own_work` : so does every member on a path from `s` on, and a process that names no others;
* `isolated` : **processes that work from different names on do, in any order of their system calls, what each does
  alone**.
-/

namespace OksSystem
open ByteBuffer EStateM FileTree Pieces

namespace File

/-! ## What a call sees and changes -/

/-- The answers do not depend on when the host is asked. -/
structure Steady (c : FifoCreator) (r : Renamer) : Prop where
  readdir : ∀ k k', c.readdir k = c.readdir k'
  opendir : ∀ k k', c.opendir k = c.opendir k'
  closedir : ∀ k k', c.closedir k = c.closedir k'
  remove : ∀ k k', c.remove k = c.remove k'
  mkdir : ∀ k k', c.mkdir k = c.mkdir k'
  chmod : ∀ k k', c.chmod k = c.chmod k'
  mkfifo : ∀ k k', c.mkfifo k = c.mkfifo k'
  rename : ∀ k k', r.rename k = r.rename k'

/-- `p` sees and changes nothing but what is from `s` on. -/
abbrev Own {α : Type} (s : List Name) (Q : α → Prop) (p : Calls α) : Prop :=
  p.Local (fun m u => SameFrom s m.tree u.tree) (fun m m' => OnlyFrom s m.tree m'.tree) Q

variable {α : Type} {m u : Machine} {c : FifoCreator} {r : Renamer} {s p q : List Name}

theorem resolve_alike (h : SameFrom s m.tree u.tree) (hs : s ≠ []) (hp : s <+: p) :
    m.resolve (render p) = u.resolve (render p) := by
  have hp' : p ≠ [] := fun hnil => hs (List.prefix_nil.1 (hnil ▸ hp))
  rw [resolve_of_absolute m (absolute_render p), resolve_of_absolute u (absolute_render p),
    cstr_of_notMem (nul_notMem_render p), comps_render hp', resolve_empty m.tree.root, resolve_empty u.tree.root]
  exact h.resolve hs hp

theorem stat_alike (h : SameFrom s m.tree u.tree) (hs : s ≠ []) (hp : s <+: p) : m.stat (render p) = u.stat (render p) := by
  unfold Machine.stat
  rw [← resolve_alike h hs hp]
  cases hres : m.resolve (render p) with
  | error e => rfl
  | ok q =>
    obtain rfl := resolve_render_free (h.linkFree.linkFreeTo _) hres
    simp only [h.node q hp]

/-- A question about a path. -/
theorem own_asks {x : FileM α} {g : Mode → α} {fails : Errno → Stop} (hs : s ≠ []) (hp : s <+: p)
    (hx : ∀ m : Machine, x.run m = match m.stat (render p) with
      | .ok md => .ok (g md) m
      | .error e => .error (fails e) m) : Own s (fun _ => True) (Prog.atomic x) := by
  refine Prog.Local.atomic fun m u h => ⟨m, u, .refl h.linkFree s, h, ?_⟩
  rw [hx m, hx u, ← stat_alike h hs hp]
  cases m.stat (render p) with
  | ok md => exact .inl ⟨g md, rfl, rfl, trivial⟩
  | error e => exact .inr ⟨fails e, rfl, rfl⟩

theorem own_exists (hs : s ≠ []) (hp : s <+: p) : Own s (fun _ => True) (Prog.atomic (exists? ⟨render p⟩)) := by
  refine Prog.Local.atomic fun m u h => ⟨m, u, .refl h.linkFree s, h, .inl ⟨_, run_exists? _, ?_, trivial⟩⟩
  rw [run_exists?]
  show _ = Result.ok (m.stat (render p)).toBool u
  rw [stat_alike h hs hp]

/-- The directory that the process works in is there. -/
theorem own_exists_parent : Own s (· = true) (Prog.atomic (exists? ⟨render s.dropLast⟩)) := by
  have hthere (m : Machine) (hdir : m.tree.IsDir s.dropLast) : (exists? ⟨render s.dropLast⟩).run m = .ok true m := by
    have hreal := hdir.real
    obtain ⟨d, hd⟩ := hdir
    rw [run_exists?]
    show Result.ok (m.stat (render s.dropLast)).toBool m = _
    rw [stat_render hreal hd]
    rfl
  exact Prog.Local.atomic fun m u h =>
    ⟨m, u, .refl h.linkFree s, h, .inl ⟨true, hthere m h.parent, hthere u h.parent', rfl⟩⟩

theorem own_isDirectory (hs : s ≠ []) (hp : s <+: p) : Own s (fun _ => True) (Prog.atomic (isDirectory ⟨render p⟩)) :=
  own_asks hs hp fun _ => run_isDirectory _

theorem own_isFifo (hs : s ≠ []) (hp : s <+: p) : Own s (fun _ => True) (Prog.atomic (isFifo ⟨render p⟩)) :=
  own_asks hs hp fun _ => run_isFifo _

theorem own_permissions (hs : s ≠ []) (hp : s <+: p) : Own s (fun _ => True) (Prog.atomic (permissions ⟨render p⟩)) :=
  own_asks hs hp fun _ => run_permissions _

/-- The constructor stores a canonical name as it is. -/
theorem own_new (host : Host) (p : List Name) : Own s (· = ⟨render p⟩) (Prog.atomic (new host (render p))) := by
  have hnew : ∀ m : Machine, m.tree.LinkFree → (new host (render p)).run m = .ok ⟨render p⟩ m := fun m hfree => by
    rw [run_new host m (absolute_render p), stored_render_free (hfree.linkFreeTo p)]
  exact Prog.Local.atomic fun m u h =>
    ⟨m, u, .refl h.linkFree s, h, .inl ⟨_, hnew m h.linkFree, hnew u h.linkFree', rfl⟩⟩

/-! ## Calls that change the tree -/

/-- A call that the host refuses, or that makes another tree or fails. -/
def treeCall (refuses : Nat → Option Errno) (call : Machine → Except Errno Tree) : FileM (Option Errno) := do
  let k ← tick
  match refuses k, call (← get) with
  | some e, _ | none, .error e => return some e
  | none, .ok t =>
    modify fun m => { m with tree := t }
    return none

theorem run_treeCall (refuses : Nat → Option Errno) (call : Machine → Except Errno Tree) (m : Machine) :
    (treeCall refuses call).run m = match refuses m.clock, call m.ticked with
      | some e, _ | none, .error e => .ok (some e) m.ticked
      | none, .ok t => .ok none (m.withTree t) := by
  unfold treeCall
  rw [run_bind_ok run_tick, run_bind_ok (run_get _)]
  cases refuses m.clock with
  | some e => rfl
  | none => cases call m.ticked <;> rfl

/-- The call fails alike or changes what is from `s` on alike. -/
def AlikeFrom (s : List Name) (call : Machine → Except Errno Tree) : Prop :=
  ∀ m u : Machine, SameFrom s m.tree u.tree → Alike s m.tree (call m) (call u)

/-- Then it answers the same, and leaves the same from `s` on. -/
theorem treeCall_alike {refuses : Nat → Option Errno} {call : Machine → Except Errno Tree}
    (hsteady : ∀ k k', refuses k = refuses k') (hcall : AlikeFrom s call) (h : SameFrom s m.tree u.tree) :
    ∃ m' u', OnlyFrom s m.tree m'.tree ∧ SameFrom s m'.tree u'.tree ∧
      ∃ o, (treeCall refuses call).run m = .ok o m' ∧ (treeCall refuses call).run u = .ok o u' := by
  rw [run_treeCall, run_treeCall, hsteady u.clock m.clock]
  have halike := hcall m.ticked u.ticked h
  revert halike
  cases refuses m.clock with
  | some e => exact fun _ => ⟨m.ticked, u.ticked, .refl h.linkFree s, h, some e, rfl, rfl⟩
  | none =>
    generalize call m.ticked = x, call u.ticked = y
    rintro (⟨honly, hsame⟩ | ⟨e⟩)
    · exact ⟨m.withTree _, u.withTree _, honly, hsame, none, rfl, rfl⟩
    · exact ⟨m.ticked, u.ticked, .refl h.linkFree s, h, some e, rfl, rfl⟩

theorem own_treeCall {refuses : Nat → Option Errno} {call : Machine → Except Errno Tree}
    (hsteady : ∀ k k', refuses k = refuses k') (hcall : AlikeFrom s call) :
    Own s (fun _ => True) (Prog.atomic (treeCall refuses call)) := by
  refine Prog.Local.atomic fun m u h => ?_
  obtain ⟨m', u', honly, hsame, o, hm, hu⟩ := treeCall_alike hsteady hcall h
  exact ⟨m', u', honly, hsame, .inl ⟨o, hm, hu, trivial⟩⟩

/-- The failures of a call as `errno`. -/
def numbered (x : Except Failure Tree) : Except Errno Tree :=
  match x with
  | .error e => .error (errnoOf e)
  | .ok t => .ok t

theorem alike_numbered {t : Tree} {x y : Except Failure Tree} (h : Alike s t x y) :
    Alike s t (numbered x) (numbered y) := by
  cases h with
  | ok honly hsame => exact .ok honly hsame
  | error e => exact .error (errnoOf e)

theorem alikeFrom_mkdir (hs : s ≠ []) (hp : s <+: p) (d : Perm) : AlikeFrom s fun m => m.mkdir d (render p) := by
  intro m u h
  obtain ⟨a, k, rfl⟩ := exists_concat hs hp
  show Alike s m.tree (m.mkdir _ _) (u.mkdir _ _)
  rw [mkdir_of_absolute m _ (absolute_render _), mkdir_of_absolute u _ (absolute_render _),
    cstr_of_notMem (nul_notMem_render _)]
  exact alike_numbered (alike_mkdir h hs hp (comps_render_append a k) _)

theorem alikeFrom_mkfifo (hs : s ≠ []) (hp : s <+: p) (d : Perm) : AlikeFrom s fun m => m.mkfifo d (render p) := by
  intro m u h
  obtain ⟨a, k, rfl⟩ := exists_concat hs hp
  show Alike s m.tree (m.mkfifo _ _) (u.mkfifo _ _)
  unfold Machine.mkfifo
  rw [cstr_of_notMem (nul_notMem_render _), start_render, start_render, if_neg (render_ne_nil _), if_neg (render_ne_nil _)]
  exact alike_numbered (alike_mknod h hs hp (comps_render_append a k) _)

theorem alikeFrom_chmod (hs : s ≠ []) (hp : s <+: p) (d : Perm) : AlikeFrom s fun m => m.chmod d (render p) := by
  intro m u h
  show Alike s m.tree (m.chmod _ _) (u.chmod _ _)
  unfold Machine.chmod
  rw [← resolve_alike h hs hp]
  cases hres : m.resolve (render p) with
  | error e => exact .error (errnoOf e)
  | ok q =>
    obtain rfl := resolve_render_free (h.linkFree.linkFreeTo _) hres
    show Alike s m.tree (if m.tree.node q = none then _ else _) (if u.tree.node q = none then _ else _)
    rw [h.node q hp]
    split_ifs
    · exact .error _
    · exact .ok (.modify h.linkFree hp _ _) (h.modify q _ _)

theorem alikeFrom_remove {call : Tree → Nat → List Name → List (Comp Name) → Except Failure Tree}
    (hcall : ∀ m u : Machine, SameFrom s m.tree u.tree → Alike s m.tree (call m.tree maxLinks [] (comps (render p)))
      (call u.tree maxLinks [] (comps (render p)))) : AlikeFrom s fun m => m.remove call (render p) := by
  intro m u h
  show Alike s m.tree (m.remove _ _) (u.remove _ _)
  unfold Machine.remove
  rw [cstr_of_notMem (nul_notMem_render _), start_render, start_render, if_neg (render_ne_nil _), if_neg (render_ne_nil _)]
  exact alike_numbered (hcall m u h)

/-- `rename` within what is from `s` on. -/
theorem alikeFrom_rename (hs : s ≠ []) (hp : s <+: p) (hq : s <+: q) :
    AlikeFrom s fun m => m.rename (render p) (render q) := by
  intro m u h
  obtain ⟨a, k, rfl⟩ := exists_concat hs hp
  obtain ⟨b, j, rfl⟩ := exists_concat hs hq
  have hne := not_or.2 ⟨render_ne_nil (a ++ [k]), render_ne_nil (b ++ [j])⟩
  show Alike s m.tree (m.rename _ _) (u.rename _ _)
  unfold Machine.rename
  rw [cstr_of_notMem (nul_notMem_render _), cstr_of_notMem (nul_notMem_render _), start_render, start_render, start_render,
    start_render, if_neg hne, if_neg hne]
  exact alike_numbered (alike_rename h hs hp (comps_render_append a k) hq (comps_render_append b j))

theorem run_renamed (r : Renamer) (other f : File) (m m' : Machine) (o : Option Errno)
    (h : (treeCall r.rename fun m => m.rename f.fullName other.fullName).run m = .ok o m') :
    (renamed r other f).run m = .ok (o.map fun e => ⟨e, cstr f.fullName, cstr other.fullName⟩) m' := by
  have hticked : m.ticked.rename f.fullName other.fullName = m.rename f.fullName other.fullName := rfl
  rw [run_treeCall, hticked] at h
  unfold renamed rename renameNode
  simp only [run_modifyGet, run_bind]
  revert h
  cases r.rename m.clock with
  | some e =>
    intro h
    cases h
    rfl
  | none =>
    cases m.rename f.fullName other.fullName with
    | error e =>
      intro h
      cases h
      rfl
    | ok t =>
      intro h
      cases h
      rfl

/-! ## Directories -/

/-- The files are entries of the directory `p`. -/
def ListsIn (p : List Name) (v : FileList) : Prop := ∀ g ∈ v.items, ∃ n, g = ⟨render (p ++ [n])⟩

theorem opendir_alike (h : SameFrom s m.tree u.tree) (hs : s ≠ []) (hp : s <+: p) :
    m.opendir (render p) = u.opendir (render p) := by
  unfold Machine.opendir
  rw [← resolve_alike h hs hp]
  cases hres : m.resolve (render p) with
  | error e => rfl
  | ok q =>
    obtain rfl := resolve_render_free (h.linkFree.linkFreeTo _) hres
    show (if m.tree.IsDir q then _ else _) = if u.tree.IsDir q then _ else _
    rw [h.entries q hp, if_congr (h.isDir hp) rfl rfl]

theorem own_pushBack (host : Host) {v : FileList} (hv : ListsIn p v) (n : Name) :
    Own s (ListsIn p) (Calls.pushBack host v ⟨render (p ++ [n])⟩) := by
  unfold Calls.pushBack
  refine Prog.Local.bind (own_new host (p ++ [n])) fun f hf => ?_
  subst hf
  have hsnoc : ∀ (gs : List File) capacity, (∀ g ∈ gs, ∃ n, g = ⟨render (p ++ [n])⟩) →
      ListsIn p ⟨gs ++ [⟨render (p ++ [n])⟩], capacity⟩ := fun gs _ hgs g hg => by
    rcases List.mem_append.1 hg with hg | hg
    · exact hgs g hg
    · exact ⟨n, List.mem_singleton.1 hg⟩
  split_ifs
  · exact Prog.Local.pure (hsnoc v.items _ hv)
  · refine Prog.Local.bind (Prog.Local.mapM (T := fun g => ∃ n, g = ⟨render (p ++ [n])⟩) fun g hg => ?_)
      fun gs hgs => Prog.Local.pure (hsnoc gs _ hgs)
    obtain ⟨k, rfl⟩ := hv g hg
    exact (own_new host (p ++ [k])).mono fun g hg => ⟨k, hg⟩

/-! ## Every member -/

section Members

variable (hc : Steady c r) (hs : s ≠ []) (hp : s <+: p)

include hc hs hp

theorem own_mkdirNode (perm : Mode) :
    Own s (fun _ => True) (Prog.atomic (mkdirNode c.toCreator perm ⟨render p⟩)) :=
  own_treeCall hc.mkdir (alikeFrom_mkdir hs hp _)

theorem own_mkfifoNode (perm : Mode) :
    Own s (fun _ => True) (Prog.atomic (mkfifoNode c perm ⟨render p⟩)) :=
  own_treeCall hc.mkfifo (alikeFrom_mkfifo hs hp _)

theorem own_chmodNode (perm : Mode) :
    Own s (fun _ => True) (Prog.atomic (chmodNode c.toCreator perm ⟨render p⟩)) :=
  own_treeCall hc.chmod (alikeFrom_chmod hs hp _)

theorem own_unlinkNode :
    Own s (fun _ => True) (Prog.atomic (removeNode c.toHost FileTree.unlink ⟨render p⟩)) := by
  refine own_treeCall hc.remove (alikeFrom_remove fun m u h => ?_)
  obtain ⟨a, k, rfl⟩ := exists_concat hs hp
  exact alike_unlink h hs hp (comps_render_append a k)

theorem own_rmdirNode :
    Own s (fun _ => True) (Prog.atomic (removeNode c.toHost FileTree.rmdir ⟨render p⟩)) := by
  refine own_treeCall hc.remove (alikeFrom_remove fun m u h => ?_)
  obtain ⟨a, k, rfl⟩ := exists_concat hs hp
  exact alike_rmdir h hs hp (comps_render_append a k)

theorem own_renamed (hq : s <+: q) :
    Own s (fun _ => True) (Prog.atomic (renamed r ⟨render q⟩ ⟨render p⟩)) := by
  refine Prog.Local.atomic fun m u h => ?_
  obtain ⟨m', u', honly, hsame, o, hm, hu⟩ := treeCall_alike hc.rename (alikeFrom_rename hs hp hq) h
  exact ⟨m', u', honly, hsame, .inl ⟨_, run_renamed r _ _ m m' o hm, run_renamed r _ _ u u' o hu, trivial⟩⟩

theorem own_setPermissions (perm : Mode) :
    Own s (fun _ => True) (Calls.setPermissions c.toCreator perm ⟨render p⟩) := by
  unfold Calls.setPermissions
  refine Prog.Local.bind (own_permissions hs hp) fun md _ => ?_
  split_ifs
  · refine Prog.Local.bind (own_chmodNode hc hs hp perm) fun e _ => ?_
    cases e with
    | none => exact Prog.Local.pure trivial
    | some e => exact Prog.Local.throw _
  · exact Prog.Local.pure trivial

theorem own_makeDir (perm : Mode) :
    Own s (fun _ => True) (Calls.makeDir c.toCreator perm ⟨render p⟩) := by
  unfold Calls.makeDir
  refine Prog.Local.bind (own_mkdirNode hc hs hp perm) fun e _ => ?_
  cases e with
  | none =>
    refine Prog.Local.tryCatch (own_setPermissions hc hs hp perm) fun stop => ?_
    split
    · exact Prog.Local.throw _
    · exact Prog.Local.throw _
  | some e =>
    refine Prog.Local.bind (own_exists hs hp) fun b _ => ?_
    split_ifs
    · refine Prog.Local.bind (own_isDirectory hs hp) fun b _ => ?_
      split_ifs
      · refine Prog.Local.tryCatch (own_setPermissions hc hs hp perm) fun stop => ?_
        split
        · exact Prog.Local.pure trivial
        · exact Prog.Local.throw _
      · exact Prog.Local.pure trivial
    · exact Prog.Local.throw _

/-- `make_path` makes no directory above `s`. -/
theorem own_makePath (depth : Nat) (perm : Mode) :
    Own s (fun _ => True) (Calls.makePath c.toCreator depth perm ⟨render p⟩) := by
  induction depth generalizing perm p with
  | zero => exact Prog.Local.throw _
  | succ depth ih =>
    obtain ⟨a, k, rfl⟩ := exists_concat hs hp
    have hparent : Own s (· = ⟨render a⟩) (Prog.atomic (parent c.toHost ⟨render (a ++ [k])⟩)) := by
      unfold parent
      rw [parentName_render]
      exact own_new c.toHost a
    unfold Calls.makePath
    refine Prog.Local.bind hparent fun father hfather => ?_
    rw [hfather]
    rcases List.prefix_concat_iff.1 hp with rfl | hpre
    · have hthere := own_exists_parent (s := a ++ [k])
      rw [List.dropLast_concat] at hthere
      refine Prog.Local.bind hthere fun b hb => ?_
      rw [hb]
      exact own_makeDir hc hs hp perm
    · refine Prog.Local.bind (own_exists hs hpre) fun b _ => ?_
      split_ifs
      · exact Prog.Local.bind (ih hpre (perm ||| sIrwxu)) fun _ _ => own_makeDir hc hs hp perm
      · exact own_makeDir hc hs hp perm

theorem own_newFifo (perm : Mode) :
    Own s (fun _ => True) (Calls.newFifo c perm ⟨render p⟩) := by
  unfold Calls.newFifo
  refine Prog.Local.bind (own_mkfifoNode hc hs hp perm) fun e _ => ?_
  cases e with
  | none => exact own_setPermissions hc hs hp perm
  | some e => exact Prog.Local.throw _

theorem own_makeFifo (perm : Mode) :
    Own s (fun _ => True) (Calls.makeFifo c perm ⟨render p⟩) := by
  unfold Calls.makeFifo
  refine Prog.Local.bind (own_exists hs hp) fun b _ => ?_
  split_ifs
  · refine Prog.Local.bind (own_isFifo hs hp) fun b _ => ?_
    split_ifs
    · refine Prog.Local.bind (own_permissions hs hp) fun md _ => ?_
      split_ifs
      · exact own_setPermissions hc hs hp perm
      · exact Prog.Local.pure trivial
    · exact own_newFifo hc hs hp perm
  · exact own_newFifo hc hs hp perm

theorem own_unlink :
    Own s (fun _ => True) (Calls.unlink c.toHost ⟨render p⟩) := by
  unfold Calls.unlink
  refine Prog.Local.bind (own_unlinkNode hc hs hp) fun e _ => ?_
  cases e with
  | none => exact Prog.Local.pure trivial
  | some e => exact Prog.Local.throw _

theorem own_rmdir :
    Own s (fun _ => True) (Calls.rmdir c.toHost ⟨render p⟩) := by
  unfold Calls.rmdir
  refine Prog.Local.bind (own_rmdirNode hc hs hp) fun e _ => ?_
  cases e with
  | none => exact Prog.Local.pure trivial
  | some e => exact Prog.Local.throw _

/-- The names that are read are names of entries. -/
theorem own_opened :
    Own s (fun x => ∀ names closed, x = .ok (names, closed) → ∀ name ∈ names, ∃ n : Name, name = n.1)
      (Prog.atomic (Calls.opened c.toHost ⟨render p⟩)) := by
  refine Prog.Local.atomic fun m u h =>
    ⟨m.ticked, u.ticked, .refl h.linkFree s, h, .inl ⟨_, Calls.run_opened _ _ m, ?_, ?_⟩⟩
  · have hopendir : u.opendir (⟨render p⟩ : File).fullName = m.opendir (⟨render p⟩ : File).fullName :=
      (opendir_alike h hs hp).symm
    rw [Calls.run_opened, hc.opendir u.clock m.clock, hc.readdir u.clock m.clock, hc.closedir u.clock m.clock, hopendir]
  · intro names closed hx name hname
    cases hopen : c.opendir m.clock with
    | some e =>
      rw [hopen] at hx
      cases hx
    | none =>
      rw [hopen] at hx
      cases hlist : m.opendir (⟨render p⟩ : File).fullName with
      | error e =>
        rw [hlist] at hx
        cases hx
      | ok listed =>
        rw [hlist] at hx
        cases hx
        obtain ⟨hmem, hproper⟩ := List.mem_filter.1 hname
        have hlisted : name ∈ proper listed :=
          List.mem_filter.2 ⟨List.Subperm.subset (c.readdir_subperm _ _) hmem, hproper⟩
        obtain ⟨n, -, -, rfl⟩ := entry_of_listed (h.linkFree.linkFreeTo _) hlist hlisted
        exact ⟨n, rfl⟩

theorem own_directory :
    Own s (ListsIn p) (Calls.directory c.toHost ⟨render p⟩) := by
  unfold Calls.directory
  refine Prog.Local.bind (own_opened hc hs hp) fun x hx => ?_
  rcases x with e | ⟨names, closed⟩
  · exact Prog.Local.throw _
  · refine Prog.Local.bind (Prog.Local.foldlM (T := ListsIn p) (by simp [ListsIn]) fun v name hname hv => ?_) fun v hv => ?_
    · obtain ⟨n, rfl⟩ := hx names closed rfl name hname
      have hne : p ≠ [] := fun hnil => hs (List.prefix_nil.1 (hnil ▸ hp))
      have hpath : render p ++ slash :: n.1 = render (p ++ [n]) := by
        rw [render_concat, show render p = slashed p from if_neg hne]
      show Own s _ (Prog.atomic (new c.toHost (render p ++ slash :: n.1)) >>= _)
      rw [hpath]
      refine Prog.Local.bind (own_new c.toHost (p ++ [n])) fun g hg => ?_
      rw [hg]
      exact own_pushBack c.toHost hv n
    · cases closed with
      | some e => exact Prog.Local.throw _
      | none => exact Prog.Local.pure hv

/-- `remove` goes down, and finds no entries but those of the directory. -/
theorem own_remove (depth : Nat) :
    Own s (fun _ => True) (Calls.remove c.toHost depth ⟨render p⟩) := by
  induction depth generalizing p with
  | zero => exact Prog.Local.throw _
  | succ depth ih =>
    unfold Calls.remove
    refine Prog.Local.bind (own_isDirectory hs hp) fun b _ => ?_
    split_ifs
    · refine Prog.Local.bind (own_directory hc hs hp) fun childs hchilds => ?_
      refine Prog.Local.bind (Prog.Local.forM fun g hg => ?_) fun _ _ => own_rmdir hc hs hp
      obtain ⟨n, rfl⟩ := hchilds g hg
      have hn : s <+: p ++ [n] := hp.trans (List.prefix_append p [n])
      refine Prog.Local.bind (own_new c.toHost (p ++ [n])) fun f hf => ?_
      rw [hf]
      refine Prog.Local.bind (own_exists hs hn) fun b _ => ?_
      split_ifs
      · exact ih hn
      · exact Prog.Local.pure trivial
    · exact own_unlink hc hs hp

/-- **Every member on a path from `s` on sees and changes only what is from `s` on.** -/
theorem own_op (call : Op) :
    Own s (fun _ => True) (call.calls c ⟨render p⟩) := by
  cases call with
  | makeDir perm => exact own_makeDir hc hs hp perm
  | makePath depth perm => exact own_makePath hc hs hp depth perm
  | makeFifo perm => exact own_makeFifo hc hs hp perm
  | permissions perm => exact own_setPermissions hc hs hp perm
  | unlink => exact own_unlink hc hs hp
  | rmdir => exact own_rmdir hc hs hp
  | remove depth => exact own_remove hc hs hp depth

end Members

theorem own_attempt {Q : α → Prop} {x : Calls α} (hx : Own s Q x) :
    Own s (fun y => ∀ a, y = .ok a → Q a) (attempt x) := by
  unfold attempt
  refine Prog.Local.tryCatch (Prog.Local.bind hx fun a ha => Prog.Local.pure ?_) fun stop => Prog.Local.pure ?_
  · rintro _ ⟨⟩
    exact ha
  · exact fun a h => nomatch h

theorem own_work (hc : Steady c r) (hs : s ≠ []) {w : Work α} (hw : w.From s) : Own s (fun _ => True) (w.calls c r) := by
  induction w with
  | done a => exact Prog.Local.pure trivial
  | op call p next ih => exact Prog.Local.bind (own_attempt (own_op hc hs hw.1 call)) fun x _ => ih x (hw.2 x)
  | rename p q next ih => exact Prog.Local.bind (own_renamed hc hs hw.1 hw.2.1) fun x _ => ih x (hw.2.2 x)
  | exists? p next ih => exact Prog.Local.bind (own_exists hs hw.1) fun b _ => ih b (hw.2 b)
  | directory p next ih =>
    exact Prog.Local.bind (own_attempt (own_directory hc hs hw.1)) fun x hx => ih x (hw.2 x hx)

/-! ## Processes -/

/-- The nodes of `X` are as they were. -/
def Keeping (X : Set (List Name)) (m m' : Machine) : Prop := ∀ q ∈ X, m'.tree.node q = m.tree.node q

instance (X : Set (List Name)) : IsPreorder Machine (Keeping X) where
  refl _ _ _ := rfl
  trans _ _ _ h h' q hq := (h' q hq).trans (h q hq)

/-- Make a directory and look for it. -/
def looksFor (n : Name) : Work Bool := .op (.makeDir 0o755) [n] fun _ => .exists? [n] .done

theorem from_looksFor (n : Name) : (looksFor n).From [n] := ⟨List.prefix_rfl, fun _ => ⟨List.prefix_rfl, fun _ => trivial⟩⟩

theorem steady_ready : Steady ready grants :=
  ⟨fun _ _ => rfl, fun _ _ => rfl, fun _ _ => rfl, fun _ _ => rfl, fun _ _ => rfl, fun _ _ => rfl, fun _ _ => rfl,
    fun _ _ => rfl⟩

/-- Two processes, the one after the other. -/
theorem path_two (w : Bool → Work α) (c : FifoCreator) (r : Renamer) (m : Machine) : ∃ is t,
    (pool fun _ _ => False).Path ⟨m, fun b => (w b).calls c r⟩ is t ∧ ∀ b, ∃ a, t.progs b = .ret a := by
  have hend : ∀ b m, ∃ a, Prog.ended (((w b).calls c r).run.run m) = .ret a := fun b m => by
    obtain ⟨a, m', hrun⟩ := (w b).exists_run c r m
    refine ⟨a, ?_⟩
    rw [Work.run_calls, hrun]
    rfl
  obtain ⟨is, hp⟩ := pool_alone (S := fun _ _ => False) (s := ⟨m, fun b => (w b).calls c r⟩) true rfl
  obtain ⟨js, hp'⟩ := pool_alone (S := fun _ _ => False) (p := (w false).calls c r)
    (s := ⟨(((w true).calls c r).run.run m).state, Function.update (fun b => (w b).calls c r) true
      (.ended (((w true).calls c r).run.run m))⟩) false (by simp)
  refine ⟨is ++ js, _, hp.trans hp', fun b => ?_⟩
  cases b with
  | false =>
    obtain ⟨a, ha⟩ := hend false (((w true).calls c r).run.run m).state
    refine ⟨a, ?_⟩
    simp only [Function.update_self]
    exact ha
  | true =>
    obtain ⟨a, ha⟩ := hend true m
    refine ⟨a, ?_⟩
    simp only [Function.update_of_ne Bool.false_ne_true.symm, Function.update_self]
    exact ha

end File

end OksSystem
