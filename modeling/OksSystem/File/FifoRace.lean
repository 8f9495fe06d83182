import OksSystem.File.Fifo

/-!
# A pipe made by several processes at once

`make_fifo` looks whether the pipe is there and then makes it; unlike `make_dir` it does not look again when it fails.

* `HasFifo`, `KeepsFifo` : from the moment the pipe is there, nobody takes it away;
* `amid_makeFifo`, `amid_newFifo` : what the processes do then, those that look and those that have looked;
* `Waiting` : the invariant until then; `waiting_path` : nobody has acted on the file system before a process is scheduled
  again;
* `Beaten` : who looked before the pipe was there and did not make it, read off the order of the calls;
* `makeFifo_race` : **exactly the beaten processes fail**.
-/

namespace OksSystem
open ByteBuffer EStateM FileTree Pieces

namespace File

variable {m t : Machine} {c : FifoCreator} {f : File} {perm : Mode} {path : Str}

/-! ## Once the pipe is there -/

structure HasFifo (m : Machine) (path : Str) : Prop where
  linkFree : m.tree.LinkFree
  names : NamesFifo m path

/-- The pipe stays if it is there. -/
def KeepsFifo (path : Str) (m m' : Machine) : Prop := HasFifo m path → HasFifo m' path

instance : IsPreorder Machine (KeepsFifo path) where
  refl _ := id
  trans _ _ _ h h' := h' ∘ h

theorem HasFifo.stat (h : HasFifo m f.fullName) : ∃ md, m.stat f.fullName = .ok md ∧ (md &&& sIfifo != 0) = true := by
  obtain ⟨q, p, hq, hn⟩ := h.names
  exact ⟨_, stat_of_resolve hq hn, (isFifo_iff _).2 ⟨p, rfl⟩⟩

theorem HasFifo.chmod (h : HasFifo m path) (p : Perm) (q : List Name) :
    HasFifo (m.withTree (m.chmodAt p q)) path := by
  obtain ⟨r, p', hr, hn⟩ := h.names
  have hgains := gains_chmodAt m p q
  refine ⟨hgains.tree.linkFree h.linkFree, r, if r = q then p else p', hgains.resolve h.linkFree hr, ?_⟩
  show (m.chmodAt p q).node r = _
  unfold Machine.chmodAt
  split_ifs with hrq
  · rw [← hrq, node_modify_self, hn]
    rfl
  · rw [node_modify_of_ne hrq, hn]

theorem HasFifo.ticked (h : HasFifo m path) : HasFifo m.ticked path := ⟨h.linkFree, h.names⟩

/-- `mkfifo` fails when the pipe is there. -/
theorem HasFifo.mkfifo (h : HasFifo m path) (p : Perm) : m.mkfifo p path = .error (errnoOf .exists) := by
  obtain ⟨q, p', hq, hn⟩ := h.names
  unfold Machine.resolve at hq
  split_ifs at hq with hnil
  have hcs : comps (cstr path) ≠ [] := by simp [comps]
  have hblocks : m.tree.Blocks q := by
    refine ⟨hn ▸ Option.some_ne_none _, ?_⟩
    rintro ⟨d, hd⟩
    exact nomatch hn.symm.trans hd
  unfold Machine.mkfifo
  rw [if_neg hnil, mknod_of_blocks _ h.linkFree hq hblocks hcs]

theorem amid_setPermissions_fifo (perm : Mode) (hchmod : ∀ k, c.chmod k = none) (h : HasFifo m f.fullName) :
    (Calls.setPermissions c.toCreator perm f).Amid (KeepsFifo f.fullName) (fun _ t => HasFifo t f.fullName)
      (fun _ _ => False) m := by
  refine amid_setPermissions perm hchmod (fun t ht => ?_) (fun t t' ht hR => hR ht) (fun t p ht _ _ => ht.chmod _ p) h
  obtain ⟨md, hmd, -⟩ := ht.stat
  exact ⟨md, hmd⟩

/-- A process that looks now finds the pipe. -/
theorem amid_makeFifo (perm : Mode) (hchmod : ∀ k, c.chmod k = none) (h : HasFifo m f.fullName) :
    (Calls.makeFifo c perm f).Amid (KeepsFifo f.fullName) (fun _ t => HasFifo t f.fullName) (fun _ _ => False) m := by
  unfold Calls.makeFifo
  refine Prog.Amid.bind (Q := fun b _ => b = true) (Prog.Amid.atomic fun t ht => ?_) fun b t ht hb => ?_
  · obtain ⟨md, hmd, -⟩ := (ht h).stat
    rw [run_exists?, hmd]
    exact ⟨refl_of _ t, fun _ _ => rfl⟩
  rw [if_pos hb]
  refine Prog.Amid.bind (Q := fun b _ => b = true) (Prog.Amid.atomic fun t' ht' => ?_) fun b t' ht' hb => ?_
  · obtain ⟨md, hmd, hbit⟩ := (ht' (ht h)).stat
    rw [run_isFifo, hmd]
    exact ⟨refl_of _ t', fun _ _ => hbit⟩
  rw [if_pos hb]
  refine Prog.Amid.bind (Q := fun _ _ => True) (Prog.Amid.atomic fun t'' ht'' => ?_) fun md t'' ht'' _ => ?_
  · obtain ⟨md, hmd, -⟩ := (ht'' (ht' (ht h))).stat
    rw [run_permissions, hmd]
    exact ⟨refl_of _ t'', fun _ _ => trivial⟩
  have hfifo := ht'' (ht' (ht h))
  split_ifs
  · exact amid_setPermissions_fifo perm hchmod hfifo
  · exact Prog.Amid.pure fun t ht => ht hfifo

/-- A process that has looked before fails. -/
theorem amid_newFifo (perm : Mode) (hmkfifo : ∀ k, c.mkfifo k = none) (h : HasFifo m f.fullName) :
    (Calls.newFifo c perm f).Amid (KeepsFifo f.fullName) (fun _ _ => False)
      (fun stop _ => stop = mkfifoIssue (errnoOf .exists) f) m := by
  unfold Calls.newFifo
  refine Prog.Amid.bind (Q := fun r _ => r = some (errnoOf .exists)) (Prog.Amid.atomic fun t ht => ?_) ?_
  · have hfails := (ht h).mkfifo (perm.perm &&& ~~~c.umask)
    rcases mkfifoNode_cases c perm f t with ⟨t', ht', -⟩ | ⟨e, he, hrun⟩
    · exact nomatch hfails.symm.trans ht'
    · rw [hrun]
      rcases he with he | he
      · exact nomatch (hmkfifo _).symm.trans he
      · obtain rfl := Except.error.inj (hfails.symm.trans he)
        exact ⟨HasFifo.ticked, fun _ _ => rfl⟩
  · rintro _ t _ rfl
    exact Prog.Amid.throw fun _ _ => rfl

/-! ## Until the pipe is there -/

section Race

variable {ι : Type} [DecidableEq ι] {S : Machine → Machine → Prop} {perms : ι → Mode} {is pre : List (Option ι)} {i j : ι}
  {s s' : Pool ι Stop Machine Unit}

/-- The rest of the world leaves the file system alone. -/
def Idle (m m' : Machine) : Prop := m'.tree = m.tree ∧ m'.cwd = m.cwd

/-- The processes scheduled have looked, and nothing else has happened. -/
structure Waiting (c : FifoCreator) (f : File) (perms : ι → Mode) (m : Machine) (is : List (Option ι))
    (s : Pool ι Stop Machine Unit) : Prop where
  idle : Idle m s.state
  progs : ∀ i, s.progs i = if some i ∈ is then Calls.newFifo c (perms i) f else Calls.makeFifo c (perms i) f

theorem Idle.resolve (h : Idle m t) (path : Str) : t.resolve path = m.resolve path := by
  unfold Machine.resolve Machine.start
  rw [h.1, h.2]

theorem Idle.mkfifo (h : Idle m t) (p : Perm) (path : Str) : t.mkfifo p path = m.mkfifo p path := by
  unfold Machine.mkfifo Machine.start
  rw [h.1, h.2]

theorem waiting_step (hmissing : ∀ q, m.resolve f.fullName ≠ .ok q) (h : Waiting c f perms m pre s)
    (hi : some i ∉ pre) (hs : Pool.Step Idle s (some i) s') : Waiting c f perms m (pre ++ [some i]) s' := by
  have hprog := h.progs i
  rw [if_neg hi] at hprog
  have hstat : (s.state.stat f.fullName).toBool = false := by
    cases hres : s.state.resolve f.fullName with
    | ok q =>
      rw [h.idle.resolve] at hres
      exact absurd hres (hmissing q)
    | error e =>
      unfold Machine.stat
      rw [hres]
      rfl
  obtain rfl := Pool.Step.of_atomic hprog hs
  refine ⟨h.idle, fun k => ?_⟩
  show Function.update s.progs i _ k = _
  by_cases hk : k = i
  · rw [hk, Function.update_self, if_pos (by simp), run_exists?, hstat]
    rfl
  · rw [Function.update_of_ne hk, h.progs k]
    simp [hk]

/-- Nobody has acted on the file system before a process is scheduled again. -/
theorem waiting_path (hmissing : ∀ q, m.resolve f.fullName ≠ .ok q) (hpre : ∀ i : ι, pre.count (some i) ≤ 1)
    (hp : (pool Idle).Path ⟨m, fun i => Calls.makeFifo c (perms i) f⟩ pre s) : Waiting c f perms m pre s := by
  induction pre using List.reverseRecOn generalizing s with
  | nil =>
    cases hp with
    | nil _ => exact ⟨⟨rfl, rfl⟩, fun i => by simp⟩
  | append_singleton pre x ih =>
    obtain ⟨s₁, hp₁, hlast⟩ := hp.of_append
    have hpre₁ : ∀ i : ι, pre.count (some i) ≤ 1 := by
      intro i
      have := hpre i
      rw [List.count_append] at this
      omega
    have hwait := ih hpre₁ hp₁
    have hstep : Pool.Step Idle s₁ x s := hlast.of_single
    cases x with
    | none =>
      cases hstep with
      | others hidle =>
        exact ⟨⟨hidle.1.trans hwait.idle.1, hidle.2.trans hwait.idle.2⟩, fun i => by simpa using hwait.progs i⟩
    | some i =>
      refine waiting_step hmissing hwait (fun hmem => ?_) hstep
      have := hpre i
      rw [List.count_append, List.count_singleton_self] at this
      have := List.count_pos_iff.2 hmem
      omega

/-- The process that is scheduled again makes the pipe. -/
theorem hasFifo_of_again {u : Tree} (hmkfifo : ∀ k, c.mkfifo k = none) (hfree : m.tree.LinkFree)
    (hmake : m.mkfifo ((perms j).perm &&& ~~~c.umask) f.fullName = .ok u) (h : Waiting c f perms m pre s)
    (hj : some j ∈ pre) (hs : Pool.Step Idle s (some j) s') :
    HasFifo s'.state f.fullName ∧
      s'.progs = Function.update s.progs j (Calls.setPermissions c.toCreator (perms j) f) := by
  have hprog := h.progs j
  rw [if_pos hj] at hprog
  obtain rfl := Pool.Step.of_atomic hprog hs
  rcases mkfifoNode_cases c (perms j) f s.state with ⟨u', hu', hrun⟩ | ⟨e, he, -⟩
  · rw [hrun]
    have hfree' : s.state.tree.LinkFree := by rwa [h.idle.1]
    obtain ⟨-, hfree'', q, -, hleaves⟩ := mkfifo_new hfree' hu'
    exact ⟨⟨hfree'', q, _, hleaves.resolve, hleaves.node⟩, rfl⟩
  · rcases he with he | he
    · exact nomatch (hmkfifo _).symm.trans he
    · rw [h.idle.mkfifo] at he
      exact nomatch hmake.symm.trans he

/-! ## Who fails -/

/-- `i` looked before the pipe was there, and another process made it. -/
def Beaten (is : List (Option ι)) (i : ι) : Prop := ∃ pre j, FirstAgain is pre j ∧ some i ∈ pre ∧ i ≠ j

/-- What the processes do after the pipe is made. -/
theorem amid_after (hmkfifo : ∀ k, c.mkfifo k = none) (hchmod : ∀ k, c.chmod k = none) (hfree : m.tree.LinkFree)
    (hmake : ∀ p, ∃ u, m.mkfifo p f.fullName = .ok u) (hfirst : FirstAgain is pre j)
    (hp : (pool Idle).Path ⟨m, fun i => Calls.makeFifo c (perms i) f⟩ is s) (i : ι) :
    (s.progs i).Amid (KeepsFifo f.fullName)
      (fun _ t => HasFifo t f.fullName ∧ ¬ (some i ∈ pre ∧ i ≠ j))
      (fun stop _ => (some i ∈ pre ∧ i ≠ j) ∧ stop = mkfifoIssue (errnoOf .exists) f) s.state := by
  obtain ⟨post, rfl⟩ := hfirst.starts
  obtain ⟨u, hu⟩ := hmake ((perms j).perm &&& ~~~c.umask)
  obtain ⟨s₀, hp₀, hrest⟩ := hp.of_append
  have hwait := waiting_path (mkfifo_new hfree hu).1 hfirst.once hp₀
  obtain _ | ⟨hs, hpost⟩ := hrest
  obtain ⟨hfifo, hprogs⟩ := hasFifo_of_again hmkfifo hfree hu hwait hfirst.again hs
  refine (pool_amid (Q := fun i _ t => HasFifo t f.fullName ∧ ¬ (some i ∈ pre ∧ i ≠ j))
    (E := fun i stop _ => (some i ∈ pre ∧ i ≠ j) ∧ stop = mkfifoIssue (errnoOf .exists) f) ?_ (fun k => ?_) hpost).2 i
  · rintro a b ⟨htree, hcwd⟩ ⟨hfree, q, p, hq, hn⟩
    exact ⟨htree ▸ hfree, q, p, (Idle.resolve ⟨htree, hcwd⟩ _).trans hq, htree ▸ hn⟩
  · rw [hprogs]
    by_cases hk : k = j
    · rw [hk, Function.update_self]
      exact (amid_setPermissions_fifo (perms j) hchmod hfifo).mono (fun _ _ h => ⟨h, fun h => h.2 rfl⟩) fun _ _ => False.elim
    · rw [Function.update_of_ne hk, hwait.progs k]
      split_ifs with hmem
      · exact (amid_newFifo (perms k) hmkfifo hfifo).mono (fun _ _ => False.elim) fun _ _ h => ⟨⟨hmem, hk⟩, h⟩
      · exact (amid_makeFifo (perms k) hchmod hfifo).mono (fun _ _ h => ⟨h, fun h => hmem h.1⟩) fun _ _ => False.elim

theorem within_newFifo (c : FifoCreator) (perm : Mode) (f : File) : (Calls.newFifo c perm f).Within 3 := by
  unfold Calls.newFifo
  refine Prog.Within.bind (m := 1) (n := 2) (Prog.within_atomic _) fun r => ?_
  cases r with
  | none => exact within_setPermissions c.toCreator perm f
  | some e => exact Prog.within_fail 2 _

theorem within_makeFifo (c : FifoCreator) (perm : Mode) (f : File) : (Calls.makeFifo c perm f).Within 5 := by
  unfold Calls.makeFifo
  refine Prog.Within.bind (m := 1) (n := 4) (Prog.within_atomic _) fun b => ?_
  split_ifs
  · refine Prog.Within.bind (m := 1) (n := 3) (Prog.within_atomic _) fun b => ?_
    split_ifs
    · refine Prog.Within.bind (m := 1) (n := 2) (Prog.within_atomic _) fun md => ?_
      split_ifs
      · exact within_setPermissions c.toCreator perm f
      · exact Prog.within_ret 2 _
    · exact within_newFifo c perm f
  · exact (within_newFifo c perm f).mono (by omega)

/-- Whether `mkfifo` can make a pipe does not depend on its permissions. -/
theorem mkfifo_any {u : Tree} {p : Perm} (h : m.mkfifo p path = .ok u) (p' : Perm) :
    ∃ u', m.mkfifo p' path = .ok u' := by
  unfold Machine.mkfifo at h ⊢
  split_ifs at h ⊢ with hnil
  split at h
  · exact absurd h (by simp)
  · rename_i u' hmknod
    obtain ⟨before, dir, n, hdir, hnew, hcs, hres, -⟩ := mknod_spec hmknod
    rw [hcs, mknod_append_name _ hres hdir hnew]
    exact ⟨_, rfl⟩

/-- **When several processes make the same new pipe at once, exactly those fail that looked before it was there and did not
make it**: whoever is scheduled twice first makes it, and those scheduled before fail. The others find a pipe and return. -/
theorem makeFifo_race (c : FifoCreator) (hmkfifo : ∀ k, c.mkfifo k = none) (hchmod : ∀ k, c.chmod k = none) (m : Machine)
    (hfree : m.tree.LinkFree) (f : File) (hmake : ∃ u, m.mkfifo 0 f.fullName = .ok u) (perms : ι → Mode)
    (is : List (Option ι)) (s : Pool ι Stop Machine Unit)
    (hp : (pool Idle).Path ⟨m, fun i => Calls.makeFifo c (perms i) f⟩ is s) (i : ι) :
    (∀ stop, s.progs i = .fail stop → Beaten is i ∧ stop = mkfifoIssue (errnoOf .exists) f) ∧
      (s.progs i = .ret () → ¬ Beaten is i ∧ NamesFifo s.state f.fullName) ∧ is.count (some i) ≤ 5 := by
  obtain ⟨u, hu⟩ := hmake
  have hafter : ∀ pre j, FirstAgain is pre j → _ := fun pre j hfirst =>
    amid_after hmkfifo hchmod hfree (mkfifo_any hu) hfirst hp i
  refine ⟨fun stop hstop => ?_, fun hret => ?_, pool_count_le (within_makeFifo c (perms i) f) hp⟩
  · rcases once_or_firstAgain is with honce | ⟨pre, j, hfirst⟩
    · -- a process that was scheduled once has not ended
      have hprog := (waiting_path (mkfifo_new hfree hu).1 honce hp).progs i
      rw [hstop] at hprog
      split_ifs at hprog
      · exact nomatch hprog
      · exact nomatch hprog
    · have hend := hafter pre j hfirst
      rw [hstop] at hend
      obtain ⟨⟨hmem, hne⟩, rfl⟩ := hend s.state (refl_of _ _)
      exact ⟨⟨pre, j, hfirst, hmem, hne⟩, rfl⟩
  · rcases once_or_firstAgain is with honce | ⟨pre, j, hfirst⟩
    · have hprog := (waiting_path (mkfifo_new hfree hu).1 honce hp).progs i
      rw [hret] at hprog
      split_ifs at hprog
      · exact nomatch hprog
      · exact nomatch hprog
    · have hreturned : ∀ pre j, FirstAgain is pre j → HasFifo s.state f.fullName ∧ ¬ (some i ∈ pre ∧ i ≠ j) := by
        intro pre j hfirst
        have hend := hafter pre j hfirst
        rw [hret] at hend
        exact hend s.state (refl_of _ _)
      refine ⟨?_, (hreturned pre j hfirst).1.names⟩
      rintro ⟨pre', j', hfirst', hbeaten⟩
      exact (hreturned pre' j' hfirst').2 hbeaten

end Race

/-- One of two processes makes the pipe before the other looks. -/
theorem makeFifo_race_two : ∃ is s, (pool Idle).Path ⟨bare, fun _ : Bool => Calls.makeFifo ready 0o622 fileA⟩ is s ∧
    (∀ stop, s.progs true = .fail stop → Beaten is true ∧ stop = mkfifoIssue (errnoOf .exists) fileA) ∧
      (s.progs true = .ret () → ¬ Beaten is true ∧ NamesFifo s.state fileA.fullName) ∧ is.count (some true) ≤ 5 := by
  obtain ⟨is, hp⟩ := pool_alone (S := Idle) (s := ⟨bare, fun _ : Bool => Calls.makeFifo ready 0o622 fileA⟩) true rfl
  exact ⟨is, _, hp, makeFifo_race ready (fun _ => rfl) (fun _ => rfl) bare (linkFree_ofRoot _) fileA ⟨_, rfl⟩
    (fun _ => 0o622) is _ hp true⟩

end File

end OksSystem
