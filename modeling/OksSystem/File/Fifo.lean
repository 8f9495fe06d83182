import OksSystem.File.Together

/-!
# `make_fifo`

* `FifoCreator` : a host with what `mkfifo` refuses; `Machine.mkfifo` : the call;
* `isFifo`, `Calls.makeFifo`, `makeFifo` : the members of `File`; `isFifo_iff` : what `is_fifo` says of a node;
* `NamesFifo` : the path leads to a named pipe;
* `makeFifo_exact` : **`make_fifo` leaves a pipe with the permissions asked for and changes nothing else**, or throws.
-/

namespace OksSystem
open ByteBuffer EStateM FileTree Pieces

/-- What else decides how a named pipe is made. -/
structure FifoCreator extends Creator where
  mkfifo : Nat → Option Errno

/-- `::mkfifo`. -/
def Machine.mkfifo (m : Machine) (perm : Perm) (path : Str) : Except Errno Tree :=
  if cstr path = [] then .error (errnoOf .noEntry)
  else match m.tree.mknod ⟨.fifo, perm⟩ maxLinks (m.start (cstr path)) (comps (cstr path)) with
    | .error e => .error (errnoOf e)
    | .ok t => .ok t

def sIfifo : Mode := 0o010000

namespace File

/-! ## The members -/

def isFifo (f : File) : FileM Bool := return (← getMode f) &&& sIfifo != 0

/-- `::mkfifo` of the file: the error if the call fails. -/
def mkfifoNode (c : FifoCreator) (perm : Mode) (f : File) : FileM (Option Errno) := do
  let k ← tick
  match c.mkfifo k, (← get).mkfifo (perm.perm &&& ~~~c.umask) f.fullName with
  | some e, _ | none, .error e => return some e
  | none, .ok t =>
    modify fun m => { m with tree := t }
    return none

/-- The rest of `make_fifo`, when no pipe is found. -/
def Calls.newFifo (c : FifoCreator) (perm : Mode) (f : File) : Calls Unit := do
  match ← Prog.atomic (mkfifoNode c perm f) with
  | none => Calls.setPermissions c.toCreator perm f
  | some e => Calls.throwCall e (text "mkfifo") (text "while creating FIFO " ++ f.fullName)

/-- `make_fifo(perm)`, one system call at a time. -/
def Calls.makeFifo (c : FifoCreator) (perm : Mode) (f : File) : Calls Unit := do
  if ← Prog.atomic (exists? f) then
    if ← Prog.atomic (isFifo f) then
      if perm ≠ (← Prog.atomic (permissions f)) then Calls.setPermissions c.toCreator perm f
    else Calls.newFifo c perm f
  else Calls.newFifo c perm f

def makeFifo (c : FifoCreator) (perm : Mode) (f : File) : FileM Unit := (Calls.makeFifo c perm f).run

variable {m m' : Machine} {c : FifoCreator} {f : File} {perm : Mode} {p : Perm} {q : List Name} {path : Str}

/-! ## The bit of a pipe -/

theorem and_sIfifo (b : Mode) : (b &&& sIfifo != 0) = b.getLsbD 12 := by
  have htwo : sIfifo = BitVec.twoPow 32 12 := by decide
  rw [htwo, BitVec.and_twoPow]
  cases b.getLsbD 12 <;> decide

/-- Only a pipe has the bit of one. -/
theorem isFifo_iff (n : Node Name Perm Inode) : (mode n &&& sIfifo != 0) = true ↔ ∃ p, n = .other ⟨.fifo, p⟩ := by
  rw [and_sIfifo]
  have hperm : ∀ p : Perm, (p.setWidth 32).getLsbD 12 = false := by
    intro p
    rw [BitVec.getLsbD_setWidth, BitVec.getLsbD_of_ge p 12 (by decide), Bool.and_false]
  cases n with
  | dir p =>
    rw [mode, BitVec.getLsbD_or, hperm]
    simp only [reduceCtorEq, exists_false, iff_false]
    decide
  | link target =>
    simp only [mode, reduceCtorEq, exists_false, iff_false]
    decide
  | other a =>
    obtain ⟨type, p⟩ := a
    rw [mode, BitVec.getLsbD_or, hperm, Bool.or_false]
    cases type <;> simp [FileType.bits]

theorem mode_other_perm (a : Inode) : mode (.other a) &&& 0o7777 = a.perm.setWidth 32 := by
  have htype : a.type.bits &&& 0o7777 = 0 := by cases a.type <;> decide
  have hperm : a.perm.setWidth 32 &&& (0o7777 : Mode) = a.perm.setWidth 32 := by
    apply BitVec.eq_of_getLsbD_eq
    intro i hi
    have hmask : (0o7777 : Mode).getLsbD i = decide (i < 12) := by
      revert i
      decide
    rw [BitVec.getLsbD_and, hmask, BitVec.getLsbD_setWidth]
    by_cases h12 : i < 12
    · simp [h12]
    · simp [BitVec.getLsbD_of_ge a.perm i (by omega)]
  rw [mode, BitVec.and_or_distrib_right, htype, hperm]
  exact BitVec.zero_or

/-! ## What the calls leave -/

theorem run_isFifo (f : File) : (isFifo f).run m = match m.stat f.fullName with
    | .ok mode => .ok (mode &&& sIfifo != 0) m
    | .error e => .error (.issue (.osSystemCall e (text "stat") (cstr (text "on file/directory " ++ f.fullName)))) m := by
  change ((getMode f) >>= _).run m = _
  rw [run_bind, run_getMode]
  cases m.stat f.fullName <;> rfl

/-- The path leads to a named pipe. -/
def NamesFifo (m : Machine) (path : Str) : Prop :=
  ∃ q p, m.resolve path = .ok q ∧ m.tree.node q = some (.other ⟨.fifo, p⟩)

/-- The path leads to a pipe at `q` with the permissions, and every other node is as it was. -/
structure LeavesFifo (m m' : Machine) (path : Str) (q : List Name) (p : Perm) : Prop where
  resolve : m'.resolve path = .ok q
  node : m'.tree.node q = some (.other ⟨.fifo, p⟩)
  others : ∀ r ≠ q, m'.tree.node r = m.tree.node r

theorem LeavesFifo.trans {m'' : Machine} {p' : Perm} (h : LeavesFifo m m' path q p) (h' : LeavesFifo m' m'' path q p') :
    LeavesFifo m m'' path q p' :=
  ⟨h'.resolve, h'.node, fun r hr => (h'.others r hr).trans (h.others r hr)⟩

/-- A pipe gets the permissions, or `chmod` is refused and nothing changes. -/
theorem setPermissions_fifo {c : Creator} (perm : Mode) (hfree : m.tree.LinkFree)
    (hres : m.resolve f.fullName = .ok q) (hn : m.tree.node q = some (.other ⟨.fifo, p⟩)) :
    (∃ m', (setPermissions c perm f).run m = .ok () m' ∧ LeavesFifo m m' f.fullName q perm.perm) ∨
      ∃ stop e, (setPermissions c perm f).run m = .error stop m.ticked ∧ c.chmod m.clock = some e := by
  have hrun : (permissions f).run m = .ok (p.setWidth 32) m := by
    rw [run_permissions, stat_of_resolve hres hn]
    simp only [mode_other_perm]
  unfold setPermissions
  rw [run_bind_ok hrun]
  split_ifs with hperm
  · rcases chmodNode_cases c perm f m with ⟨q', hq', hchmod⟩ | ⟨e, he, hchmod⟩
    · obtain rfl := Except.ok.inj (hq'.symm.trans hres)
      refine .inl ⟨_, run_bind_ok hchmod, (gains_chmodAt m _ _).resolve hfree hres, ?_, fun r hr => node_modify_of_ne hr⟩
      show (m.chmodAt perm.perm q').node q' = _
      unfold Machine.chmodAt
      rw [node_modify_self, hn]
      rfl
    · rcases he with he | he
      · exact .inr ⟨_, e, run_bind_ok hchmod, he⟩
      · unfold Machine.chmod at he
        simp [hres, hn] at he
  · refine .inl ⟨m, rfl, hres, ?_, fun _ _ => rfl⟩
    rw [not_not.1 hperm, perm_setWidth, hn]

/-- `mkfifo` makes the pipe or changes nothing. -/
theorem mkfifoNode_cases (c : FifoCreator) (perm : Mode) (f : File) (m : Machine) :
    (∃ t, m.mkfifo (perm.perm &&& ~~~c.umask) f.fullName = .ok t ∧
      (mkfifoNode c perm f).run m = .ok none (m.withTree t)) ∨
    ∃ e, (c.mkfifo m.clock = some e ∨ m.mkfifo (perm.perm &&& ~~~c.umask) f.fullName = .error e) ∧
      (mkfifoNode c perm f).run m = .ok (some e) m.ticked := by
  unfold mkfifoNode
  rw [run_bind_ok run_tick, run_bind_ok (run_get _)]
  rw [show m.ticked.mkfifo = m.mkfifo from rfl]
  cases hc : c.mkfifo m.clock with
  | some e => exact .inr ⟨e, .inl rfl, rfl⟩
  | none =>
    cases hm : m.mkfifo (perm.perm &&& ~~~c.umask) f.fullName with
    | error e => exact .inr ⟨e, .inr rfl, rfl⟩
    | ok t => exact .inl ⟨t, rfl, rfl⟩

/-- What `::mkfifo` makes was not there. -/
theorem mkfifo_new {t : Tree} (hfree : m.tree.LinkFree) (h : m.mkfifo p path = .ok t) :
    (∀ r, m.resolve path ≠ .ok r) ∧ t.LinkFree ∧
      ∃ q, m.tree.node q = none ∧ LeavesFifo m (m.withTree t) path q p := by
  unfold Machine.mkfifo at h
  split_ifs at h with hnil
  split at h
  · exact absurd h (by simp)
  · rename_i t' hmknod
    obtain rfl := Except.ok.inj h
    obtain ⟨before, dir, n, hdir, hnew, hcs, hres, rfl⟩ := mknod_spec hmknod
    obtain ⟨hmissing, hthere⟩ := resolve_insert (m := .other ⟨.fifo, p⟩) hdir hnew hfree (by simp) hres
    rw [← hcs] at hmissing hthere
    refine ⟨fun r hr => ?_, hfree.insert hdir hnew (by simp), dir ++ [n], hnew, ?_, node_insert_self hdir hnew,
      fun r hr => node_insert_of_ne hdir hnew hr⟩
    · unfold Machine.resolve at hr
      rw [if_neg hnil, hmissing] at hr
      exact absurd hr (by simp)
    · unfold Machine.resolve
      rw [if_neg hnil]
      exact hthere

/-! ## How `make_fifo` ends -/

/-- A pipe that is there only gets the permissions. -/
theorem run_makeFifo_there (c : FifoCreator) (perm : Mode) (hres : m.resolve f.fullName = .ok q)
    (hn : m.tree.node q = some (.other ⟨.fifo, p⟩)) : (makeFifo c perm f).run m =
      if perm ≠ p.setWidth 32 then (setPermissions c.toCreator perm f).run m else .ok () m := by
  have hstat := stat_of_resolve hres hn
  have hexists := run_exists? (m := m) f
  have hfifo := run_isFifo (m := m) f
  have hperm := run_permissions (m := m) f
  rw [hstat] at hexists hfifo hperm
  simp only [mode_other_perm] at hperm
  simp only [(isFifo_iff _).2 ⟨p, rfl⟩] at hfifo
  unfold makeFifo Calls.makeFifo
  rw [Prog.run_bind, Prog.run_atomic, run_bind_ok hexists]
  show (Prog.run (Prog.atomic (isFifo f) >>= _)).run m = _
  rw [Prog.run_bind, Prog.run_atomic, run_bind_ok hfifo]
  show (Prog.run (Prog.atomic (permissions f) >>= _)).run m = _
  rw [Prog.run_bind, Prog.run_atomic, run_bind_ok hperm]
  split_ifs
  · rw [Calls.run_setPermissions]
  · rfl

/-- Where there is no pipe, `make_fifo` makes one. -/
theorem run_makeFifo_new (c : FifoCreator) (perm : Mode) (h : ¬ NamesFifo m f.fullName) :
    (makeFifo c perm f).run m = (Calls.newFifo c perm f).run.run m := by
  have hexists := run_exists? (m := m) f
  have hfifo := run_isFifo (m := m) f
  unfold makeFifo Calls.makeFifo
  rw [Prog.run_bind, Prog.run_atomic, run_bind_ok hexists]
  cases hstat : m.stat f.fullName with
  | error e => rfl
  | ok md =>
    obtain ⟨q, n, hq, hn, rfl⟩ := stat_eq_ok hstat
    have hbit : (mode n &&& sIfifo != 0) = false := by
      rw [Bool.eq_false_iff]
      intro hbit
      obtain ⟨p, rfl⟩ := (isFifo_iff n).1 hbit
      exact h ⟨q, p, hq, hn⟩
    rw [hstat] at hfifo
    simp only [hbit] at hfifo
    show (Prog.run (Prog.atomic (isFifo f) >>= _)).run m = _
    rw [Prog.run_bind, Prog.run_atomic, run_bind_ok hfifo]
    rfl

/-- What `make_fifo` throws when `mkfifo` fails. -/
def mkfifoIssue (e : Errno) (f : File) : Stop :=
  .issue (.osSystemCall e (text "mkfifo") (cstr (text "while creating FIFO " ++ f.fullName)))

/-- A new pipe gets the permissions, or keeps what the umask left when `chmod` is refused; or `mkfifo` fails. -/
theorem run_newFifo_cases (c : FifoCreator) (perm : Mode) (hfree : m.tree.LinkFree) :
    (∃ t m' q, m.mkfifo (perm.perm &&& ~~~c.umask) f.fullName = .ok t ∧ m.tree.node q = none ∧
      (Calls.newFifo c perm f).run.run m = .ok () m' ∧ LeavesFifo m m' f.fullName q perm.perm) ∨
    (∃ stop m' q k e, c.chmod k = some e ∧ m.tree.node q = none ∧
      (Calls.newFifo c perm f).run.run m = .error stop m' ∧
        LeavesFifo m m' f.fullName q (perm.perm &&& ~~~c.umask)) ∨
    ∃ e, (c.mkfifo m.clock = some e ∨ m.mkfifo (perm.perm &&& ~~~c.umask) f.fullName = .error e) ∧
      (Calls.newFifo c perm f).run.run m = .error (mkfifoIssue e f) m.ticked := by
  unfold Calls.newFifo
  rw [Prog.run_bind, Prog.run_atomic]
  rcases mkfifoNode_cases c perm f m with ⟨t, ht, hrun⟩ | ⟨e, he, hrun⟩
  · rw [run_bind_ok hrun]
    obtain ⟨-, hfree', q, hq, hleaves⟩ := mkfifo_new hfree ht
    show (∃ t m' q, _ ∧ _ ∧ (Calls.setPermissions c.toCreator perm f).run.run _ = _ ∧ _) ∨
      (∃ stop m' q k e, _ ∧ _ ∧ (Calls.setPermissions c.toCreator perm f).run.run _ = _ ∧ _) ∨ _
    rw [Calls.run_setPermissions]
    rcases setPermissions_fifo (m := m.withTree t) (c := c.toCreator) perm hfree' hleaves.resolve hleaves.node with
      ⟨m', hset, hleaves'⟩ | ⟨stop, e, hset, he⟩
    · exact .inl ⟨t, m', q, ht, hq, hset, hleaves.trans hleaves'⟩
    · exact .inr (.inl ⟨stop, _, q, _, e, he, hq, hset, hleaves.resolve, hleaves.node, hleaves.others⟩)
  · rw [run_bind_ok hrun]
    exact .inr (.inr ⟨e, he, rfl⟩)

/-- A pipe has the permissions; or a new one has not, since `chmod` was refused; or nothing has changed. -/
theorem makeFifo_cases (c : FifoCreator) (perm : Mode) (f : File) (hfree : m.tree.LinkFree) :
    (∃ m' q, (makeFifo c perm f).run m = .ok () m' ∧
      (m.tree.node q = none ∨ ∃ p, m.tree.node q = some (.other ⟨.fifo, p⟩)) ∧ LeavesFifo m m' f.fullName q perm.perm ∧
      (NamesFifo m f.fullName ∨ ∃ t, m.mkfifo (perm.perm &&& ~~~c.umask) f.fullName = .ok t)) ∨
    (∃ stop m' q k e, (makeFifo c perm f).run m = .error stop m' ∧ c.chmod k = some e ∧ m.tree.node q = none ∧
      LeavesFifo m m' f.fullName q (perm.perm &&& ~~~c.umask)) ∨
    ∃ stop m', (makeFifo c perm f).run m = .error stop m' ∧ m'.tree = m.tree ∧
      ((∃ k e, c.chmod k = some e) ∨ (∃ k e, c.mkfifo k = some e) ∨
        ¬ NamesFifo m f.fullName ∧ ∃ e, m.mkfifo (perm.perm &&& ~~~c.umask) f.fullName = .error e) := by
  by_cases hthere : NamesFifo m f.fullName
  · -- the pipe is there, and at most its permissions change
    obtain ⟨q, p, hq, hn⟩ := id hthere
    rw [run_makeFifo_there c perm hq hn]
    split_ifs with hperm
    · rcases setPermissions_fifo perm hfree hq hn with ⟨m', hrun, hleaves⟩ | ⟨stop, e, hrun, he⟩
      · exact .inl ⟨m', q, hrun, .inr ⟨p, hn⟩, hleaves, .inl hthere⟩
      · exact .inr (.inr ⟨stop, _, hrun, rfl, .inl ⟨_, e, he⟩⟩)
    · refine .inl ⟨m, q, rfl, .inr ⟨p, hn⟩, ⟨hq, ?_, fun _ _ => rfl⟩, .inl hthere⟩
      rw [not_not.1 hperm, perm_setWidth, hn]
  · rw [run_makeFifo_new c perm hthere]
    rcases run_newFifo_cases (f := f) c perm hfree with ⟨t, m', q, ht, hq, hrun, hleaves⟩ |
      ⟨stop, m', q, k, e, he, hq, hrun, hleaves⟩ | ⟨e, he, hrun⟩
    · exact .inl ⟨m', q, hrun, .inl hq, hleaves, .inr ⟨t, ht⟩⟩
    · exact .inr (.inl ⟨stop, m', q, k, e, hrun, he, hq, hleaves⟩)
    · exact .inr (.inr ⟨_, _, hrun, rfl, .inr (he.imp (fun he => ⟨_, e, he⟩) fun he => ⟨hthere, e, he⟩)⟩)

/-- **A call of `make_fifo` that returns leaves a pipe with exactly the permissions asked for**, new or old, and changes
nothing else. One that throws has changed nothing, or has left a new pipe with the permissions the umask left since `chmod`
was refused. On a host that refuses nothing it returns when there is a pipe or `mkfifo` can make one. -/
theorem makeFifo_exact (c : FifoCreator) (m : Machine) (hfree : m.tree.LinkFree) (perm : Mode) (f : File) :
    (∀ m', (makeFifo c perm f).run m = .ok () m' →
      ∃ q, (m.tree.node q = none ∨ ∃ p, m.tree.node q = some (.other ⟨.fifo, p⟩)) ∧
        LeavesFifo m m' f.fullName q perm.perm) ∧
    (∀ stop m', (makeFifo c perm f).run m = .error stop m' → m'.tree = m.tree ∨
      ∃ q k e, c.chmod k = some e ∧ m.tree.node q = none ∧
        LeavesFifo m m' f.fullName q (perm.perm &&& ~~~c.umask)) ∧
    ((∀ k, c.mkfifo k = none) → (∀ k, c.chmod k = none) →
      ((∃ m', (makeFifo c perm f).run m = .ok () m') ↔
        NamesFifo m f.fullName ∨ ∃ t, m.mkfifo (perm.perm &&& ~~~c.umask) f.fullName = .ok t)) := by
  rcases makeFifo_cases c perm f hfree with ⟨m', q, hrun, hq, hleaves, hwhy⟩ | ⟨stop, m', q, k, e, hrun, he, hq, hleaves⟩ |
    ⟨stop, m', hrun, htree, hwhy⟩
  · refine ⟨fun m₁ h₁ => ?_, fun stop m₁ h₁ => ?_, fun _ _ => ⟨fun _ => hwhy, fun _ => ⟨m', hrun⟩⟩⟩
    · obtain ⟨-, rfl⟩ := Result.ok.inj (hrun.symm.trans h₁)
      exact ⟨q, hq, hleaves⟩
    · exact nomatch hrun.symm.trans h₁
  · refine ⟨fun m₁ h₁ => (nomatch hrun.symm.trans h₁), fun stop m₁ h₁ => ?_, fun _ hchmod => ?_⟩
    · obtain ⟨-, rfl⟩ := Result.error.inj (hrun.symm.trans h₁)
      exact .inr ⟨q, k, e, he, hq, hleaves⟩
    · exact nomatch (hchmod k).symm.trans he
  · refine ⟨fun m₁ h₁ => (nomatch hrun.symm.trans h₁), fun stop m₁ h₁ => ?_, fun hmkfifo hchmod => iff_of_false ?_ ?_⟩
    · obtain ⟨-, rfl⟩ := Result.error.inj (hrun.symm.trans h₁)
      exact .inl htree
    · rintro ⟨m₁, h₁⟩
      exact nomatch hrun.symm.trans h₁
    · rcases hwhy with ⟨k, e, he⟩ | ⟨k, e, he⟩ | ⟨hnot, e, he⟩
      · exact nomatch (hchmod k).symm.trans he
      · exact nomatch (hmkfifo k).symm.trans he
      · rintro (h | ⟨t, ht⟩)
        · exact hnot h
        · exact nomatch ht.symm.trans he

/-- Nothing is refused. -/
def ready : FifoCreator := { willing with mkfifo := fun _ => none }

theorem makeFifo_exact_new :
    (∀ m', (makeFifo ready 0o622 fileA).run bare = .ok () m' →
      ∃ q, (bare.tree.node q = none ∨ ∃ p, bare.tree.node q = some (.other ⟨.fifo, p⟩)) ∧
        LeavesFifo bare m' fileA.fullName q (Mode.perm 0o622)) ∧
    (∀ stop m', (makeFifo ready 0o622 fileA).run bare = .error stop m' → m'.tree = bare.tree ∨
      ∃ q k e, ready.chmod k = some e ∧ bare.tree.node q = none ∧
        LeavesFifo bare m' fileA.fullName q (Mode.perm 0o622 &&& ~~~ready.umask)) ∧
    ((∀ k, ready.mkfifo k = none) → (∀ k, ready.chmod k = none) →
      ((∃ m', (makeFifo ready 0o622 fileA).run bare = .ok () m') ↔
        NamesFifo bare fileA.fullName ∨ ∃ t, bare.mkfifo (Mode.perm 0o622 &&& ~~~ready.umask) fileA.fullName = .ok t)) :=
  makeFifo_exact ready bare (linkFree_ofRoot _) 0o622 fileA

end File

end OksSystem
