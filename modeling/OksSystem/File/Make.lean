import OksSystem.File.Remove
import OksSystem.Lib.Growth

/-!
# Making directories

* `Creator` : a host with a umask, and with what `mkdir` and `chmod` refuse;
* `parentName`, `parent`, `permissions`, `setPermissions`, `makeDir`, `makePath`, `ensurePath` : the members of `File`;
* `run_setPermissions`, `run_makeDir_made`, `run_makeDir_there`, `run_makeDir_failed` : how `make_dir` ends;
* `grown_makeDir`, `grown_makePath` : what they leave is the file system with more directories.
-/

namespace OksSystem
open ByteBuffer EStateM FileTree Pieces

/-- What else decides how a directory is made: the umask, and which calls fail for a reason that is not in the tree. -/
structure Creator extends Host where
  umask : Perm
  mkdir : Nat → Option Errno
  chmod : Nat → Option Errno

namespace Machine

/-- `::mkdir`. -/
def mkdir (m : Machine) (perm : Perm) (path : Str) : Except Errno Tree :=
  if cstr path = [] then .error (errnoOf .noEntry)
  else match m.tree.mkdir perm maxLinks (m.start (cstr path)) (comps (cstr path)) with
    | .error e => .error (errnoOf e)
    | .ok t => .ok t

/-- The node with other permissions. -/
def chmodAt (m : Machine) (perm : Perm) (p : List Name) : Tree :=
  m.tree.modify p (fun _ => perm) fun a => { a with perm := perm }

/-- `::chmod`. -/
def chmod (m : Machine) (perm : Perm) (path : Str) : Except Errno Tree :=
  match m.resolve path with
  | .error e => .error (errnoOf e)
  | .ok p => if m.tree.node p = none then .error (errnoOf .noEntry) else .ok (m.chmodAt perm p)

end Machine

/-- S_IRWXU. -/
def sIrwxu : Mode := 0o700

/-- The permissions a call makes of a `mode_t`. -/
def Mode.perm (mode : Mode) : Perm := mode.setWidth 12

namespace File

/-! ## The members -/

def parentName (f : File) : Str :=
  match rfind f.fullName slash with
  | none => [slash]
  | some i => if i = 0 then [slash] else substr f.fullName 0 i

/-- `permissions()`. -/
def permissions (f : File) : FileM Mode := return (← getMode f) &&& 0o7777

variable (host : Host) (c : Creator)

def parent (f : File) : FileM File := new host f.parentName

/-- `::mkdir` of the file: the error if the call fails. -/
def mkdirNode (perm : Mode) (f : File) : FileM (Option Errno) := do
  let k ← tick
  match c.mkdir k, (← get).mkdir (perm.perm &&& ~~~c.umask) f.fullName with
  | some e, _ | none, .error e => return some e
  | none, .ok t =>
    modify fun m => { m with tree := t }
    return none

/-- `::chmod` of the file. -/
def chmodNode (perm : Mode) (f : File) : FileM (Option Errno) := do
  let k ← tick
  match c.chmod k, (← get).chmod perm.perm f.fullName with
  | some e, _ | none, .error e => return some e
  | none, .ok t =>
    modify fun m => { m with tree := t }
    return none

/-- `permissions(perm)`. -/
def setPermissions (perm : Mode) (f : File) : FileM Unit := do
  if perm ≠ (← permissions f) then
    if let some e ← chmodNode c perm f then throwCall e (text "chmod") (text "on file/directory " ++ f.fullName)

def makeDir (perm : Mode) (f : File) : FileM Unit := do
  match ← mkdirNode c perm f with
  | none =>
    tryCatch (setPermissions c perm f) fun
      | .issue (.osSystemCall e _ _) => throwCall e (text "mkdir -> chmod") (text "on directory " ++ f.fullName)
      | stop => throw stop
  | some mkdirError =>
    if ← exists? f then
      if ← isDirectory f then
        -- a failed `chmod` is ignored
        tryCatch (setPermissions c perm f) fun
          | .issue (.osSystemCall ..) => return
          | stop => throw stop
    else throwCall mkdirError (text "mkdir") (text "on directory " ++ f.fullName)

/-- `make_path(perm)`, on a stack that has room for so many of its frames. -/
def makePath : Nat → Mode → File → FileM Unit
  | 0, _, _ => throw .stackOverflow
  | depth + 1, perm, f => do
    let father ← parent c.toHost f
    if !(← exists? father) then makePath depth (perm ||| sIrwxu) father
    makeDir c perm f

def ensurePath (depth : Nat) (perm : Mode) (f : File) : FileM Unit := do
  let father ← parent c.toHost f
  makePath c depth perm father

end File

theorem mkdir_of_absolute (m : Machine) (perm : Perm) {path : Str} (h : Absolute path) : m.mkdir perm path =
    match m.tree.mkdir perm maxLinks [] (comps (cstr path)) with
    | .error e => .error (errnoOf e)
    | .ok t => .ok t := by
  obtain ⟨s, rfl⟩ := h
  obtain ⟨b, hb⟩ : Absolute (cstr (slash :: s)) := ⟨_, List.takeWhile_cons_of_pos (by decide)⟩
  unfold Machine.mkdir Machine.start
  rw [hb, if_neg (List.cons_ne_nil _ _), if_pos List.head?_cons]

/-! ## What the calls leave -/

/-- The machine after a call that made the tree `t`. -/
def Machine.withTree (m : Machine) (t : Tree) : Machine := { m.ticked with tree := t }

/-- The file system has grown, the rest is the same. -/
structure Machine.Gains (m m' : Machine) : Prop where
  tree : Grown m.tree m'.tree
  cwd : m'.cwd = m.cwd

variable {m m₁ m' m'' : Machine} {c : Creator} {f : File} {perm : Mode} {p q : List Name} {path : Str}

theorem Machine.Gains.refl (m : Machine) : m.Gains m := ⟨.refl _, rfl⟩

theorem Machine.Gains.trans (h : m.Gains m') (h' : m'.Gains m'') : m.Gains m'' :=
  ⟨h.tree.trans h'.tree, h'.cwd.trans h.cwd⟩

theorem Machine.Gains.ticked (m : Machine) : m.Gains m.ticked := ⟨.refl _, rfl⟩

theorem Machine.Gains.resolve (h : m.Gains m') (hfree : m.tree.LinkFree) (hr : m.resolve path = .ok q) :
    m'.resolve path = .ok q := by
  unfold Machine.resolve at hr ⊢
  split_ifs at hr ⊢ with hnil
  rw [show m'.start = m.start by unfold Machine.start; rw [h.cwd]]
  exact h.tree.resolve hfree hr

theorem gains_chmodAt (m : Machine) (perm : Perm) (p : List Name) :
    m.Gains (m.withTree (m.chmodAt perm p)) :=
  ⟨grown_modify .., rfl⟩

namespace File

/-- `mkdir` makes the directory or changes nothing. -/
theorem mkdirNode_cases (c : Creator) (perm : Mode) (f : File) (m : Machine) :
    (∃ t, m.mkdir (perm.perm &&& ~~~c.umask) f.fullName = .ok t ∧
      (mkdirNode c perm f).run m = .ok none (m.withTree t)) ∨
    ∃ e, (c.mkdir m.clock = some e ∨ m.mkdir (perm.perm &&& ~~~c.umask) f.fullName = .error e) ∧
      (mkdirNode c perm f).run m = .ok (some e) m.ticked := by
  unfold mkdirNode
  rw [run_bind_ok run_tick, run_bind_ok (run_get _)]
  rw [show m.ticked.mkdir = m.mkdir from rfl]
  cases hc : c.mkdir m.clock with
  | some e => exact .inr ⟨e, .inl rfl, rfl⟩
  | none =>
    cases hm : m.mkdir (perm.perm &&& ~~~c.umask) f.fullName with
    | error e => exact .inr ⟨e, .inr rfl, rfl⟩
    | ok t => exact .inl ⟨t, rfl, rfl⟩

/-- `chmod` changes the permissions of the node or nothing. -/
theorem chmodNode_cases (c : Creator) (perm : Mode) (f : File) (m : Machine) :
    (∃ p, m.resolve f.fullName = .ok p ∧
      (chmodNode c perm f).run m = .ok none (m.withTree (m.chmodAt perm.perm p))) ∨
    ∃ e, (c.chmod m.clock = some e ∨ m.chmod perm.perm f.fullName = .error e) ∧
      (chmodNode c perm f).run m = .ok (some e) m.ticked := by
  unfold chmodNode
  rw [run_bind_ok run_tick, run_bind_ok (run_get _)]
  rw [show m.ticked.chmod = m.chmod from rfl]
  cases hc : c.chmod m.clock with
  | some e => exact .inr ⟨e, .inl rfl, rfl⟩
  | none =>
    cases hm : m.chmod perm.perm f.fullName with
    | error e => exact .inr ⟨e, .inr rfl, rfl⟩
    | ok t =>
      refine .inl ?_
      unfold Machine.chmod at hm
      split at hm
      · exact absurd hm (by simp)
      · rename_i p hp
        split_ifs at hm
        obtain rfl := Except.ok.inj hm
        exact ⟨p, hp, rfl⟩

theorem run_permissions (f : File) : (permissions f).run m = match m.stat f.fullName with
    | .ok mode => .ok (mode &&& 0o7777) m
    | .error e => .error (.issue (.osSystemCall e (text "stat") (cstr (text "on file/directory " ++ f.fullName)))) m := by
  change ((getMode f) >>= _).run m = _
  rw [run_bind, run_getMode]
  cases m.stat f.fullName <;> rfl

/-- The permissions change, or they are right already, or the call throws and nothing changes. -/
theorem setPermissions_cases (c : Creator) (perm : Mode) (f : File) (m : Machine) :
    (∃ p, m.resolve f.fullName = .ok p ∧
      (setPermissions c perm f).run m = .ok () (m.withTree (m.chmodAt perm.perm p))) ∨
    (∃ mode, m.stat f.fullName = .ok mode ∧ mode &&& 0o7777 = perm ∧ (setPermissions c perm f).run m = .ok () m) ∨
    ∃ i m', (setPermissions c perm f).run m = .error (.issue i) m' ∧ m.Gains m' ∧
      ∀ mode, m.stat f.fullName = .ok mode →
        ∃ e, c.chmod m.clock = some e ∨ m.chmod perm.perm f.fullName = .error e := by
  unfold setPermissions
  cases hstat : m.stat f.fullName with
  | error e =>
    have hrun := run_permissions (m := m) f
    rw [hstat] at hrun
    exact .inr (.inr ⟨_, m, run_bind_error hrun, .refl m, fun mode h => absurd h (by simp)⟩)
  | ok mode =>
    have hrun := run_permissions (m := m) f
    rw [hstat] at hrun
    rw [run_bind_ok hrun]
    by_cases hperm : perm = mode &&& 0o7777
    · refine .inr (.inl ⟨mode, rfl, hperm.symm, ?_⟩)
      rw [if_neg (not_not.2 hperm)]
      rfl
    · rw [if_pos hperm]
      rcases chmodNode_cases c perm f m with ⟨p, hp, hchmod⟩ | ⟨e, he, hchmod⟩
      · refine .inl ⟨p, hp, ?_⟩
        rw [run_bind_ok hchmod]
        rfl
      · refine .inr (.inr ⟨.osSystemCall e (text "chmod") (cstr (text "on file/directory " ++ f.fullName)), m.ticked, ?_,
          .ticked m, fun _ _ => ⟨e, he⟩⟩)
        rw [run_bind_ok hchmod]
        rfl

theorem triple_setPermissions (c : Creator) (perm : Mode) (f : File) (m : Machine) :
    Triple (· = m) (setPermissions c perm f) (fun _ m' => m.Gains m') m.Gains := by
  rcases setPermissions_cases c perm f m with ⟨p, -, hrun⟩ | ⟨mode, -, -, hrun⟩ | ⟨i, m', hrun, hgains, -⟩
  · exact Triple.of_run_ok hrun (gains_chmodAt m _ p)
  · exact Triple.of_run_ok hrun (.refl m)
  · exact Triple.of_run_error hrun hgains

/-- On a host that refuses nothing, a path that resolves gets the permissions. -/
theorem run_setPermissions (perm : Mode) (hchmod : ∀ k, c.chmod k = none) (hres : m.resolve f.fullName = .ok p)
    {n : Node Name Perm Inode} (hn : m.tree.node p = some n) :
    ((setPermissions c perm f).run m = .ok () m ∧ mode n &&& 0o7777 = perm) ∨
      (setPermissions c perm f).run m = .ok () (m.withTree (m.chmodAt perm.perm p)) := by
  have hstat := stat_of_resolve hres hn
  rcases setPermissions_cases c perm f m with ⟨q, hq, hrun⟩ | ⟨md, hmd, hperm, hrun⟩ | ⟨i, m', -, -, herr⟩
  · obtain rfl := Except.ok.inj (hq.symm.trans hres)
    exact .inr hrun
  · obtain rfl := Except.ok.inj (hmd.symm.trans hstat)
    exact .inl ⟨hrun, hperm⟩
  · obtain ⟨e, he⟩ := herr _ hstat
    rcases he with he | he
    · rw [hchmod] at he
      exact absurd he (by simp)
    · unfold Machine.chmod at he
      rw [hres] at he
      simp [hn] at he

/-! ## `make_dir` -/

theorem run_mkdirNode {t : Tree} (perm : Mode) (hmkdir : ∀ k, c.mkdir k = none)
    (ht : m.mkdir (perm.perm &&& ~~~c.umask) f.fullName = .ok t) :
    (mkdirNode c perm f).run m = .ok none (m.withTree t) := by
  rcases mkdirNode_cases c perm f m with ⟨t', ht', hrun⟩ | ⟨e, he | he, -⟩
  · rwa [Except.ok.inj (ht.symm.trans ht')]
  · exact nomatch (hmkdir _).symm.trans he
  · exact nomatch ht.symm.trans he

/-- The directory is made and gets its permissions. -/
theorem run_makeDir_made (hmade : (mkdirNode c perm f).run m = .ok none m₁)
    (hset : (setPermissions c perm f).run m₁ = .ok () m') : (makeDir c perm f).run m = .ok () m' := by
  unfold makeDir
  rw [run_bind_ok hmade]
  show (tryCatch _ _ : FileM Unit).run _ = _
  rw [run_tryCatch_any, hset]

/-- `mkdir` fails, and something is there already: only a directory gets the permissions. -/
theorem run_makeDir_there {e : Errno} {md : Mode} (hfails : (mkdirNode c perm f).run m = .ok (some e) m₁)
    (hstat : m₁.stat f.fullName = .ok md) (hset : (setPermissions c perm f).run m₁ = .ok () m') :
    (makeDir c perm f).run m = .ok () m' ∨ (makeDir c perm f).run m = .ok () m₁ := by
  have hdir := run_isDirectory (m := m₁) f
  have hexists := run_exists? (m := m₁) f
  rw [hstat] at hdir hexists
  unfold makeDir
  rw [run_bind_ok hfails, run_bind_ok hexists]
  show (isDirectory f >>= _).run m₁ = _ ∨ (isDirectory f >>= _).run m₁ = _
  rw [run_bind_ok hdir]
  cases md &&& sIfdir != 0 with
  | true =>
    left
    show (tryCatch _ _ : FileM Unit).run _ = _
    rw [run_tryCatch_any, hset]
  | false => exact .inr rfl

/-- The path leads to a directory. -/
def NamesDir (m : Machine) (path : Str) : Prop := ∃ q, m.resolve path = .ok q ∧ m.tree.IsDir q

/-- The path leads to something that is not a directory. -/
def NamesOther (m : Machine) (path : Str) : Prop := ∃ q, m.resolve path = .ok q ∧ m.tree.Blocks q

theorem NamesDir.gains (h : NamesDir m path) (hfree : m.tree.LinkFree) (hg : m.Gains m') : NamesDir m' path := by
  obtain ⟨q, hq, hdir⟩ := h
  exact ⟨q, hg.resolve hfree hq, hg.tree.isDir q hdir⟩

theorem NamesOther.gains (h : NamesOther m path) (hfree : m.tree.LinkFree) (hg : m.Gains m') : NamesOther m' path := by
  obtain ⟨q, hq, hblocks⟩ := h
  exact ⟨q, hg.resolve hfree hq, hg.tree.blocks q hblocks⟩

theorem NamesOther.not_namesDir (h : NamesOther m path) : ¬ NamesDir m path := by
  rintro ⟨q, hq, hdir⟩
  obtain ⟨q', hq', hblocks⟩ := h
  obtain rfl := Except.ok.inj (hq.symm.trans hq')
  exact hblocks.2 hdir

theorem names_of_stat {md : Mode} (h : m.stat path = .ok md) : NamesDir m path ∨ NamesOther m path := by
  obtain ⟨q, n, hq, hn, -⟩ := stat_eq_ok h
  by_cases hdir : m.tree.IsDir q
  · exact .inl ⟨q, hq, hdir⟩
  · exact .inr ⟨q, hq, hn ▸ Option.some_ne_none n, hdir⟩

/-- What `::mkdir` makes was not there, and is a directory. -/
theorem gains_mkdir {t : Tree} {d : Perm} (hfree : m.tree.LinkFree) (h : m.mkdir d path = .ok t) :
    m.Gains (m.withTree t) ∧ (∀ q, m.resolve path ≠ .ok q) ∧
      NamesDir (m.withTree t) path := by
  unfold Machine.mkdir at h
  split_ifs at h with hnil
  split at h
  · exact absurd h (by simp)
  · rename_i t' hmkdir
    obtain rfl := Except.ok.inj h
    obtain ⟨hmissing, q, hq, hdir⟩ := mkdir_resolve hfree hmkdir
    refine ⟨⟨mkdir_grown hmkdir, rfl⟩, fun r hr => ?_, q, ?_, hdir⟩
    · unfold Machine.resolve at hr
      rw [if_neg hnil] at hr
      exact hmissing r hr
    · unfold Machine.resolve
      rw [if_neg hnil]
      exact hq

/-- `make_dir` only adds a directory, and when it returns, the path names a directory or what was there before. -/
theorem triple_makeDir (c : Creator) (perm : Mode) (f : File) (hfree : m.tree.LinkFree) :
    Triple (· = m) (makeDir c perm f)
      (fun _ m' => m.Gains m' ∧ (NamesDir m' f.fullName ∨ NamesOther m f.fullName)) m.Gains := by
  unfold makeDir
  rcases mkdirNode_cases c perm f m with ⟨t, ht, hrun⟩ | ⟨e, -, hrun⟩
  · obtain ⟨hgains, -, hnames⟩ := gains_mkdir hfree ht
    have hset : Triple (· = m.withTree t) (setPermissions c perm f)
        (fun _ m' => m.Gains m' ∧ (NamesDir m' f.fullName ∨ NamesOther m f.fullName)) m.Gains :=
      (triple_setPermissions c perm f (m.withTree t)).mono (fun _ h => h)
        (fun _ m' h => ⟨hgains.trans h, .inl (hnames.gains (hgains.tree.linkFree hfree) h)⟩) fun m' h => hgains.trans h
    refine Triple.bind_ok hrun (Triple.tryCatch hset fun stop => ?_)
    split
    · exact Triple.throw _ fun _ h => h
    · exact Triple.throw _ fun _ h => h
  · refine Triple.bind_ok hrun (Triple.bind_ok (run_exists? f) ?_)
    cases hstat : m.ticked.stat f.fullName with
    | error e' => exact Triple.throw _ fun m' h => h ▸ .ticked m
    | ok md =>
      have hnames : NamesDir m f.fullName ∨ NamesOther m f.fullName := names_of_stat hstat
      have hdir := run_isDirectory (m := m.ticked) f
      rw [hstat] at hdir
      have hpost : ∀ m', m.Gains m' → m.Gains m' ∧ (NamesDir m' f.fullName ∨ NamesOther m f.fullName) :=
        fun m' h => ⟨h, hnames.imp_left fun hd => hd.gains hfree h⟩
      have hset : Triple (· = m.ticked) (setPermissions c perm f)
          (fun _ m' => m.Gains m' ∧ (NamesDir m' f.fullName ∨ NamesOther m f.fullName)) m.Gains :=
        (triple_setPermissions c perm f m.ticked).mono (fun _ h => h)
          (fun _ m' h => hpost m' ((Machine.Gains.ticked m).trans h)) fun m' h => (Machine.Gains.ticked m).trans h
      refine Triple.bind_ok hdir (Triple.ite (fun _ => Triple.tryCatch hset fun stop => ?_) fun _ => ?_)
      · split
        · exact Triple.pure _ hpost
        · exact Triple.throw _ fun _ h => h
      · exact Triple.pure _ fun m' h => hpost m' (h ▸ .ticked m)

/-! ## `make_path` -/

/-- The parent of a path is what stands before its last slash. -/
theorem parentName_append (pre : Str) {c : Str} (hc : slash ∉ c) :
    parentName ⟨pre ++ slash :: c⟩ = if pre = [] then [slash] else pre := by
  unfold parentName
  rw [show (⟨pre ++ slash :: c⟩ : File).fullName = pre ++ slash :: c from rfl, rfind_append_cons _ hc]
  show (if pre.length = 0 then [slash] else (List.drop 0 (pre ++ slash :: c)).take pre.length) = _
  rw [List.drop_zero, List.take_left]
  simp only [List.length_eq_zero_iff]

theorem absolute_parentName (h : Absolute f.fullName) : Absolute f.parentName := by
  unfold parentName
  split
  · exact ⟨[], rfl⟩
  · rename_i i _
    split_ifs with hi
    · exact ⟨[], rfl⟩
    · obtain ⟨s, hs⟩ := h
      obtain ⟨j, rfl⟩ := Nat.exists_eq_succ_of_ne_zero hi
      exact ⟨s.take j, by rw [hs]; rfl⟩

/-- The parent as an object. -/
def father (m : Machine) (f : File) : File := ⟨m.stored f.parentName⟩

theorem run_makePath_succ (c : Creator) (depth : Nat) (perm : Mode) (habs : Absolute f.fullName) :
    (makePath c (depth + 1) perm f).run m =
      if (m.stat (father m f).fullName).toBool then (makeDir c perm f).run m
      else (do makePath c depth (perm ||| sIrwxu) (father m f); makeDir c perm f).run m := by
  rw [makePath]
  have hparent : (parent c.toHost f).run m = .ok (father m f) m := run_new c.toHost m (absolute_parentName habs)
  rw [run_bind_ok hparent, run_bind_ok (run_exists? _)]
  cases (m.stat (father m f).fullName).toBool
  · rfl
  · rfl

/-- Where the name of the parent leads somewhere, `make_path` is `make_dir`. -/
theorem run_makePath_of_parent {d : List Name} (c : Creator) (depth : Nat) (perm : Mode) (habs : Absolute f.fullName)
    (hres : m.resolve f.parentName = .ok d) : (makePath c (depth + 1) perm f).run m = (makeDir c perm f).run m := by
  have hreal := real_of_resolve (absolute_parentName habs) hres
  have hexists : (m.stat (father m f).fullName).toBool = true := by
    obtain ⟨n, hn⟩ := Option.ne_none_iff_exists'.1 hreal.node_ne_none
    unfold father
    rw [stored_of_resolve hres, stat_render hreal hn]
    rfl
  rw [run_makePath_succ c depth perm habs, if_pos hexists]

/-- Where it leads nowhere, the parent is made first. -/
theorem run_makePath_of_missing {e : Failure} (c : Creator) (depth : Nat) (perm : Mode) (habs : Absolute f.fullName)
    (hres : m.resolve f.parentName = .error e) : (makePath c (depth + 1) perm f).run m =
      (do makePath c depth (perm ||| sIrwxu) ⟨f.parentName⟩; makeDir c perm f).run m := by
  have hfather : father m f = ⟨f.parentName⟩ := by
    unfold father
    rw [stored_of_error hres]
  have hexists : (m.stat (father m f).fullName).toBool = false := by
    rw [hfather]
    unfold Machine.stat
    rw [hres]
    rfl
  rw [run_makePath_succ c depth perm habs, hexists, if_neg Bool.false_ne_true, hfather]

end File

end OksSystem
