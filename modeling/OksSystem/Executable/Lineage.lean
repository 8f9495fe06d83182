import OksSystem.Executable.Environ
import OksSystem.Lib.Run

/-!
# What a line of programs inherits

A program launches a program, which launches another one, and so on. The mask, the ignored signals and the descriptors
are handed down along the line.

* `LaunchCall.throws` : how a call ends that does not return, `Proc.executed` : the process after `execve`;
* `Link`, `lineage` : the calls along a line, in the caller or in the program it launches;
* `LaunchCall.handsDown`, `child_core`, `child_fds` : with what the child of each launcher runs its program;
* `LaunchCall.leaked`, `ncard_leaves` : how many descriptors a call leaves open in the caller;
* `handed_down` : the signals after any line of calls; `descriptors_accounted` : the descriptors.
-/

namespace OksSystem
open ByteBuffer EStateM

/-- The exception, `execve` or `_exit` that a call ends with. -/
def LaunchCall.throws (exe : Executable) (ans : Answers) (s : Proc) : LaunchCall → Option Leave
  | .start params => ((exe.start params ans).run s).thrown
  | .startEnvs params envs => ((exe.startEnvs params envs ans).run s).thrown
  | .startAndForget params => ((exe.startAndForget params ans).run s).thrown
  | .pipeIn params => ((exe.pipeIn params ans).run s).thrown
  | .pipeOut params inputFile outputFile errorFile perm =>
    ((exe.pipeOut params inputFile outputFile errorFile perm ans).run s).thrown
  | .pipeOutEnvs params envs inputFile outputFile errorFile perm =>
    ((exe.pipeOutEnvs params envs inputFile outputFile errorFile perm ans).run s).thrown

/-- What `execve` makes of a disposition: a handler is gone with its program. -/
def Disposition.executed : Disposition → Disposition
  | .handler _ => .dfl
  | d => d

/-- The process `pid` with another program. No descriptor is marked to be closed by `execve`. -/
def Proc.executed (s : Proc) (pid : Pid) : Proc where
  pid := pid
  instance? := none
  instance_eq := by simp
  mask := s.mask
  disposition := fun sig => (s.disposition sig).executed
  fds := s.fds
  errno := 0

inductive Link where
  /-- A call of a launcher; the line goes on in the caller. -/
  | returns (exe : Executable) (c : LaunchCall) (ans : Answers)
  /-- A call of a launcher; the line goes on in the program it launches. -/
  | becomes (exe : Executable) (c : LaunchCall) (ans : Answers) (pid : Pid)
  /-- What the program does about its signals itself. -/
  | signal (sig : Signal) (d : Disposition)
  | mask (set : BitVec 64)

inductive Proc.Step : Proc → Link → Proc → Prop
  | returns {s exe c ans} (hchild : ans.fork ≠ .child) (hpid : ans.fork ≠ .parent s.pid) :
      Step s (.returns exe c ans) (c.leaves exe ans s)
  | becomes {s exe c ans pid argv env} (hchild : ans.fork = .child) (hexec : c.throws exe ans s = some (.exec argv env)) :
      Step s (.becomes exe c ans pid) ((c.leaves exe ans s).executed pid)
  | signal {s} (sig : Signal) (d : Disposition) : Step s (.signal sig d) ((OksSystem.signal sig d).run s).state
  | mask {s} (set : BitVec 64) : Step s (.mask set) ((pthreadSigmask set).run s).state

/-- The lines of programs, from a program with whatever signals and descriptors. -/
def lineage : LTS Proc Link where
  init _ := True
  step := Proc.Step

variable {α : Type} {ans : Answers} {exe : Executable} {s s' : Proc} {c : LaunchCall} {params : List Str}

/-! ## The child's branch -/

/-- The dispositions once `signals` are put to their default. -/
def defaulted (signals : List Signal) (d : Signal → Disposition) : Signal → Disposition :=
  fun sig => if sig ∈ signals then .dfl else d sig

/-- The process in the child's branch. -/
def Proc.inBranch (s : Proc) (signals : List Signal) (mask : SigMask) : Proc :=
  { s with disposition := defaulted signals s.disposition, mask := mask }

/-- The process after `exec` has failed. -/
def Proc.failed (s : Proc) (answer : Option Errno) : Proc := { s with errno := answer.getD s.errno }

theorem run_signals (signals : List Signal) (s : Proc) : (signals.forM fun sig => OksSystem.signal sig .dfl).run s =
    .ok () { s with disposition := defaulted signals s.disposition } := by
  induction signals generalizing s with
  | nil => rfl
  | cons sig signals ih =>
    change (OksSystem.signal sig .dfl >>= fun _ => signals.forM _).run s = _
    have hone : (OksSystem.signal sig .dfl).run s =
        .ok () { s with disposition := Function.update s.disposition sig .dfl } := rfl
    have hall : defaulted signals (Function.update s.disposition sig .dfl) = defaulted (sig :: signals) s.disposition := by
      funext other
      unfold defaulted
      rw [Function.update_apply]
      simp only [List.mem_cons]
      split_ifs <;> first | rfl | tauto
    rw [run_bind_ok hone, ih, hall]

/-- How the child's branch ends, when `body` ends with `l`. -/
def Leave.inChild : Leave → Leave
  | .issue _ => .exit exitFailure
  | l => l

theorem run_afterFork_child {signals : List Signal} {oldSet : SigMask} {body : Launch Unit} {parent : Pid → Launch α}
    {failed : Launch α} {l : Leave} (hfork : ans.fork = .child)
    (hbody : body.run (s.inBranch signals oldSet) = .error l s') :
    (afterFork ans oldSet (childBranch signals oldSet body) parent failed).run s = .error l.inChild s' := by
  have hchild : (childBranch signals oldSet body).run s = .error l.inChild s' := by
    have hrestored : (restoreSignals oldSet).run { s with disposition := defaulted signals s.disposition } =
        .ok () (s.inBranch signals oldSet) := run_restoreSignals oldSet
    unfold childBranch
    rw [run_bind_ok (run_signals _ _), run_bind_ok hrestored, run_tryCatch_any, hbody]
    cases l with
    | issue i => rfl
    | exec argv env => rfl
    | exit status => rfl
  have hforked : (fork .child).run s = .ok .child s := rfl
  unfold afterFork
  rw [hfork, run_bind_ok hforked]
  exact run_bind_error hchild

/-- How `exec` ends, which never returns. -/
def Answers.execLeave (ans : Answers) (argv : List Str) (env : Option (List Str)) : Leave :=
  match ans.execve with
  | none => .exec argv env
  | some e => .issue (.execution e (argv.headD []) (-1))

theorem run_exec (argv : List Str) (env : Option (List Str)) (s : Proc) : (Executable.exec argv env ans).run s =
    .error (ans.execLeave argv env) (s.failed ans.execve) := by
  unfold Executable.exec Answers.execLeave
  cases ans.execve with
  | none => rfl
  | some e => rfl

/-! ## With what the child runs its program -/

/-- The signals a launcher puts to their default in the child. -/
def LaunchCall.defaults : LaunchCall → List Signal
  | .startAndForget _ => [.sigterm, .sigint, .sigcld]
  | _ => [.sigterm, .sigint]

/-- The descriptors a launcher makes standard input, output and error of the child by `dup2` are those of the pipes. -/
@[irreducible] def Proc.plumbed (s : Proc) : FdTable OpenFile :=
  ((s.allPiped.fds.dup2 (s.newPipe .input).writeEnd 0).dup2 ((s.piped .input).newPipe .data).writeEnd 1).dup2
    (((s.piped .input).piped .data).newPipe .error).writeEnd 2

/-- The descriptors with which the child runs its program. -/
def LaunchCall.handsDown (s : Proc) : LaunchCall → FdTable OpenFile
  | .pipeIn _ => s.plumbed
  | .pipeOut _ inputFile outputFile errorFile perm => childTable inputFile outputFile errorFile perm s.fds
  | .pipeOutEnvs _ _ inputFile outputFile errorFile perm => childTable inputFile outputFile errorFile perm s.fds
  | _ => s.fds

/-- The process in which a call runs the program. -/
def LaunchCall.child (ans : Answers) (s : Proc) (c : LaunchCall) : Proc :=
  ({ s with fds := c.handsDown s }.inBranch c.defaults s.mask).failed ans.execve

theorem exists_of_thrown {r : Result Leave Proc α} {l : Leave} (h : r.thrown = some l) : ∃ s', r = .error l s' := by
  cases r with
  | ok a s' => cases h
  | error e s' =>
    obtain rfl := Option.some.inj h
    exact ⟨s', rfl⟩

/-- The branch of a child that does `pre` before it calls `exec`. -/
theorem state_child {signals : List Signal} {body : Launch Unit} {parent : Pid → Launch α} {failed : Launch α}
    {l : Leave} {oldSet : SigMask} (hfork : ans.fork = .child) (s : Proc)
    (hbody : body.run (s.inBranch signals oldSet) = .error l s') :
    ((afterFork ans oldSet (childBranch signals oldSet body) parent failed).run s).state = s' := by
  rw [run_afterFork_child hfork hbody]
  rfl

/-- Without descriptors to copy. -/
theorem state_child_exec {signals : List Signal} {argv : List Str} {env : Option (List Str)}
    {parent : Pid → Launch α} {failed : Launch α} {oldSet : SigMask} (hfork : ans.fork = .child) (s : Proc) :
    ((afterFork ans oldSet (childBranch signals oldSet (Executable.exec argv env ans)) parent failed).run s).state =
      (s.inBranch signals oldSet).failed ans.execve :=
  state_child hfork s (run_exec argv env _)

/-- A descriptor on the stack of a child that ends in `execve` or `_exit` is not closed by its destructor. -/
theorem run_with_inChild {file : File} {flags perm : Nat} {body : Descriptor → Launch α} {l : Leave} {s' : Proc}
    (h : (body ⟨s.fds.lowest, file.fullName⟩).run { s with fds := s.fds.alloc (.file file.fullName flags perm) } =
      .error l.inChild s') : (Descriptor.with file flags perm none body).run s = .error l.inChild s' := by
  have hstays : l.inChild.unwinds = false := by cases l <;> rfl
  rw [run_with_none, run_cleanup, h]
  simp only [hstays, Bool.false_eq_true, if_false]

theorem run_dup2s (i d e : Nat) (exec : Launch Unit) {s : Proc} {t : FdTable OpenFile}
    (h : ((s.fds.dup2 i 0).dup2 d 1).dup2 e 2 = t) :
    (dup2 i 0 >>= fun _ => dup2 d 1 >>= fun _ => dup2 e 2 >>= fun _ => exec).run s = exec.run { s with fds := t } :=
  h ▸ rfl

theorem run_pipeInFork_child (exe : Executable) (params : List Str) (hpipe : ∀ p, ans.pipe p = none)
    (hfork : ans.fork = .child) (s : Proc) : (exe.pipeInFork params ans).run s =
      .error (ans.execLeave (cstr exe.fullName :: params.map cstr) none).inChild
        ((LaunchCall.pipeIn params).child ans s) := by
  have hfds : ((s.allPiped.fds.dup2 (s.piping exe params 0).input.writeEnd 0).dup2
      (s.piping exe params 0).data.writeEnd 1).dup2 (s.piping exe params 0).error.writeEnd 2 = s.plumbed := by
    unfold Proc.plumbed
    rfl
  rw [run_pipeInFork hpipe]
  apply run_afterFork_child hfork
  exact (run_dup2s (t := s.plumbed) _ _ _ _ (by exact hfds)).trans (run_exec _ _ _)

theorem state_pipeIn_child (exe : Executable) (params : List Str) (hpipe : ∀ p, ans.pipe p = none)
    (hfork : ans.fork = .child) (s : Proc) :
    ((exe.pipeIn params ans).run s).state = (LaunchCall.pipeIn params).child ans s := by
  unfold Executable.pipeIn
  rw [run_bind_error (run_pipeInFork_child exe params hpipe hfork s)]
  rfl

theorem state_redirected_child {argv : List Str} {env : Option (List Str)} {i o e : File} {perm : Nat}
    (hopens : ans.Opens) (hfork : ans.fork = .child) (s : Proc) :
    ((exe.redirected params (Executable.exec argv env ans) i o e perm ans).run s).state =
      { s with
        disposition := defaulted [.sigterm, .sigint] s.disposition
        fds := childTable i o e perm s.fds
        errno := ans.execve.getD s.errno } := by
  obtain ⟨hi, ho, he⟩ := hopens
  unfold Executable.redirected
  rw [hi, ho, he, run_bind_ok run_blockSignals, run_with_inChild]
  · rfl
  apply run_with_inChild
  apply run_with_inChild
  exact run_afterFork_child hfork (run_exec argv env _)

/-- **The child of a launcher runs its program with the caller's mask**, with the signals of `defaults` at their default and
with the descriptors `handsDown`. -/
theorem leaves_eq_child {argv : List Str} {env : Option (List Str)} (hfork : ans.fork = .child)
    (hexec : c.throws exe ans s = some (.exec argv env)) : c.leaves exe ans s = c.child ans s := by
  cases c with
  | start params => exact state_child_exec hfork { s with mask := .ofSet sigfillset }
  | startEnvs params envs => exact state_child_exec hfork { s with mask := .ofSet sigfillset }
  | startAndForget params =>
    have hall : ∀ d : Signal → Disposition, defaulted [.sigterm, .sigint, .sigcld] d = fun _ => .dfl := by
      intro d
      funext sig
      cases sig <;> rfl
    refine (state_child_exec hfork
      { s with mask := .ofSet sigfillset, disposition := Function.update s.disposition .sigcld .ign }).trans ?_
    unfold LaunchCall.child Proc.inBranch
    rw [hall, show (LaunchCall.startAndForget params).defaults = [.sigterm, .sigint, .sigcld] from rfl, hall]
    rfl
  | pipeIn params =>
    obtain ⟨s', hrun⟩ := exists_of_thrown hexec
    exact state_pipeIn_child exe params (pipes_of_exec hrun) hfork s
  | pipeOut params i o e perm =>
    obtain ⟨s', hrun⟩ := exists_of_thrown hexec
    exact state_redirected_child (opens_of_exec hrun) hfork s
  | pipeOutEnvs params envs i o e perm =>
    obtain ⟨s', hrun⟩ := exists_of_thrown hexec
    exact state_redirected_child (opens_of_exec hrun) hfork s

/-! ## What a call leaves in the caller -/

theorem keeps_with {γ : Type} {f : Proc → γ} (hf : ∀ s fds errno, f { s with fds := fds, errno := errno } = f s)
    {file : File} {flags perm : Nat} {answer : Option Errno} {body : Descriptor → Launch α}
    (hbody : ∀ d, Keeps f (body d)) : Keeps f (Descriptor.with file flags perm answer body) := by
  intro s
  cases answer with
  | some e => exact hf s s.fds e
  | none =>
    rw [run_with_none, state_cleanup fun s => hf s _ _]
    exact (hbody _ _).trans (hf s _ s.errno)

/-- `pipe_out` changes no disposition in the caller. -/
theorem keeps_redirected {execs : Launch Unit} {i o e : File} {perm : Nat} (hchild : ans.fork ≠ .child) :
    Keeps Proc.disposition (exe.redirected params execs i o e perm ans) := by
  refine .bind (fun _ => rfl) fun oldSet => ?_
  apply keeps_with fun _ _ _ => rfl
  intro input
  apply keeps_with fun _ _ _ => rfl
  intro output
  apply keeps_with fun _ _ _ => rfl
  intro error s
  exact congrArg (·.2.1) (core_afterFork hchild (fun _ => .pure _) (keeps_throwSysCall _ _) s)

/-- The call is `start_and_forget`. -/
def LaunchCall.Forgets : LaunchCall → Prop
  | .startAndForget _ => True
  | _ => False

theorem sigcld_leaves (c : LaunchCall) (hchild : ans.fork ≠ .child) :
    (c.leaves exe ans s).disposition .sigcld = .ign ↔ c.Forgets ∨ s.disposition .sigcld = .ign := by
  have hkept : ∀ {s' : Proc}, s'.disposition = s.disposition →
      (s'.disposition .sigcld = .ign ↔ False ∨ s.disposition .sigcld = .ign) := by
    intro s' h
    rw [h, false_or]
  cases c with
  | start params => exact hkept (congrArg (·.2.1) (keeps_start params hchild s))
  | startEnvs params envs => exact hkept (congrArg (·.2.1) (keeps_startEnvs params envs hchild s))
  | startAndForget params =>
    exact iff_of_true (congrArg (fun core => core.2.1 .sigcld) (core_startAndForget params hchild s)) (.inl trivial)
  | pipeIn params => exact hkept (congrArg (·.2.1) (keeps_pipeIn params hchild s))
  | pipeOut params i o e perm => exact hkept (keeps_redirected hchild s)
  | pipeOutEnvs params envs i o e perm => exact hkept (keeps_redirected hchild s)

theorem full_leaves (c : LaunchCall) (hchild : ans.fork ≠ .child) :
    (c.leaves exe ans s).mask = .full ↔ (c.Redirects ∧ ¬ ans.Opens) ∨ s.mask = .full := by
  have hkept : ∀ {s' : Proc} {d : Signal → Disposition}, s'.core = (s.pid, d, s.mask) →
      (s'.mask = .full ↔ (False ∧ ¬ ans.Opens) ∨ s.mask = .full) := by
    intro s' d h
    rw [show s'.mask = s.mask from congrArg (·.2.2) h, false_and, false_or]
  have hredirected : ∀ (params : List Str) (execs : Launch Unit) (i o e : File) (perm : Nat),
      ((exe.redirected params execs i o e perm ans).run s).state.mask = .full ↔
        (True ∧ ¬ ans.Opens) ∨ s.mask = .full := by
    intro params execs i o e perm
    obtain ⟨hopens, hnot⟩ := mask_redirected exe params execs i o e perm hchild s
    by_cases h : ans.Opens
    · simp only [hopens h, h, not_true, and_false, false_or]
    · simp only [hnot h, h, not_false_iff, and_true, true_or]
  cases c with
  | start params => exact hkept (keeps_start params hchild s)
  | startEnvs params envs => exact hkept (keeps_startEnvs params envs hchild s)
  | startAndForget params => exact hkept (core_startAndForget params hchild s)
  | pipeIn params => exact hkept (keeps_pipeIn params hchild s)
  | pipeOut params i o e perm => exact hredirected params _ i o e perm
  | pipeOutEnvs params envs i o e perm => exact hredirected params _ i o e perm

/-! ## Signals along the line -/

/-- SIGCLD is ignored from here on: by `start_and_forget` in the program that calls it, or by the program itself. -/
def Link.Ignores : Link → Prop
  | .returns _ c _ => c.Forgets
  | .signal .sigcld .ign => True
  | _ => False

/-- SIGCLD is no longer ignored: in the program `start_and_forget` launches, or by the program itself. -/
def Link.Heeds : Link → Prop
  | .becomes _ c _ _ => c.Forgets
  | .signal .sigcld _ => True
  | _ => False

/-- All signals are blocked from here on: by a `pipe_out` that cannot open a file, or by the program itself. -/
def Link.Blocks : Link → Prop
  | .returns _ c ans => c.Redirects ∧ ¬ ans.Opens
  | .mask set => SigMask.ofSet set = .full
  | _ => False

/-- The program sets its mask itself. -/
def Link.SetsMask : Link → Prop
  | .mask _ => True
  | _ => False

theorem executed_eq_ign (d : Disposition) : d.executed = .ign ↔ d = .ign := by
  cases d with
  | dfl => exact iff_of_false Disposition.noConfusion Disposition.noConfusion
  | ign => exact Iff.rfl
  | handler a => exact iff_of_false Disposition.noConfusion Disposition.noConfusion

theorem sigcld_child (c : LaunchCall) :
    (c.child ans s).disposition .sigcld = .ign ↔ s.disposition .sigcld = .ign ∧ ¬ c.Forgets := by
  cases c with
  | startAndForget params => exact iff_of_false Disposition.noConfusion fun h => h.2 trivial
  | start params => exact (and_iff_left not_false).symm
  | startEnvs params envs => exact (and_iff_left not_false).symm
  | pipeIn params => exact (and_iff_left not_false).symm
  | pipeOut params i o e perm => exact (and_iff_left not_false).symm
  | pipeOutEnvs params envs i o e perm => exact (and_iff_left not_false).symm

theorem Proc.Step.sigcld {i : Link} (h : Proc.Step s i s') :
    s'.disposition .sigcld = .ign ↔ i.Ignores ∨ s.disposition .sigcld = .ign ∧ ¬ i.Heeds := by
  cases h with
  | @returns exe c ans hchild hpid =>
    rw [sigcld_leaves c hchild]
    exact or_congr_right (and_iff_left not_false).symm
  | @becomes exe c ans pid argv env hchild hexec =>
    rw [leaves_eq_child hchild hexec]
    exact (executed_eq_ign _).trans ((sigcld_child c).trans (or_iff_right not_false).symm)
  | signal sig d =>
    change Function.update s.disposition sig d .sigcld = .ign ↔ _
    cases sig with
    | sigcld => cases d <;> simp [Link.Ignores, Link.Heeds]
    | sigterm => cases d <;> simp [Link.Ignores, Link.Heeds]
    | sigint => cases d <;> simp [Link.Ignores, Link.Heeds]
  | mask set => exact (and_iff_left not_false).symm.trans (or_iff_right not_false).symm

theorem Proc.Step.full {i : Link} (h : Proc.Step s i s') :
    s'.mask = .full ↔ i.Blocks ∨ s.mask = .full ∧ ¬ i.SetsMask := by
  cases h with
  | @returns exe c ans hchild hpid =>
    rw [full_leaves c hchild]
    exact or_congr_right (and_iff_left not_false).symm
  | @becomes exe c ans pid argv env hchild hexec =>
    rw [leaves_eq_child hchild hexec]
    exact (and_iff_left not_false).symm.trans (or_iff_right not_false).symm
  | signal sig d => exact (and_iff_left not_false).symm.trans (or_iff_right not_false).symm
  | mask set => exact (or_iff_left fun h => h.2 trivial).symm

/-- **What the programs of a line inherit.** SIGCLD is ignored exactly when a `start_and_forget` (or the program itself) made
it so in a program of the line, and none of the programs after that was itself launched by `start_and_forget`. All signals
are blocked exactly when a `pipe_out` could not open a file in one of them. A program that was launched has SIGTERM and
SIGINT at their default. -/
theorem handed_down {is : List Link} (h : lineage.Path s is s') :
    (s'.disposition .sigcld = .ign ↔
      (∃ pre i post, is = pre ++ i :: post ∧ i.Ignores ∧ ∀ j ∈ post, ¬ j.Heeds) ∨
        s.disposition .sigcld = .ign ∧ ∀ j ∈ is, ¬ j.Heeds) ∧
    (s'.mask = .full ↔
      (∃ pre i post, is = pre ++ i :: post ∧ i.Blocks ∧ ∀ j ∈ post, ¬ j.SetsMask) ∨
        s.mask = .full ∧ ∀ j ∈ is, ¬ j.SetsMask) ∧
    ∀ pre exe c ans pid, is = pre ++ [.becomes exe c ans pid] →
      s'.disposition .sigterm = .dfl ∧ s'.disposition .sigint = .dfl := by
  refine ⟨h.last_iff (P := fun s => s.disposition .sigcld = .ign) fun _ _ _ => Proc.Step.sigcld,
    h.last_iff (P := fun s => s.mask = .full) fun _ _ _ => Proc.Step.full, ?_⟩
  rintro pre exe c ans pid rfl
  obtain ⟨t, -, hlast⟩ := h.of_append
  cases hlast.of_single with
  | becomes hchild hexec =>
    rw [leaves_eq_child hchild hexec]
    cases c <;> exact ⟨rfl, rfl⟩

def ls : Executable := ⟨⟨text "ls"⟩⟩

/-- A process after a call of `start_and_forget`. -/
def forgetful : Proc := (LaunchCall.startAndForget []).leaves ls allSucceed plain

/-- A program it launches with `start` then. -/
def unaware : Proc := ((LaunchCall.start []).leaves ls inChild forgetful).executed 102

theorem path_unaware : lineage.Path plain
    [.returns ls (.startAndForget []) allSucceed, .becomes ls (.start []) inChild 102] unaware :=
  .cons (.returns (by decide) (by decide)) (.single (.becomes rfl rfl))

/-- It cannot wait for its own children. -/
theorem handed_down_unaware : unaware.disposition .sigcld = .ign :=
  (handed_down path_unaware).1.2 (.inl ⟨[], .returns ls (.startAndForget []) allSucceed,
    [.becomes ls (.start []) inChild 102], rfl, trivial, by simp [Link.Heeds, LaunchCall.Forgets]⟩)

/-! ## Descriptors along the line -/

/-- `x` leaves open what was open before, and ends neither in `execve` nor in `_exit`. -/
def Balanced (x : Launch α) : Prop :=
  ∀ s, (x.run s).state.fds.openFds = s.fds.openFds ∧ ∀ l s', x.run s = .error l s' → l.unwinds = true

theorem balanced_pure (a : α) : Balanced (pure a) := fun _ => ⟨rfl, nofun⟩

theorem balanced_throwSysCall (name action : Str) : Balanced (throwSysCall name action : Launch α) := by
  intro s
  refine ⟨rfl, fun l s' h => ?_⟩
  obtain ⟨rfl, -⟩ := Result.error.inj (show Result.error (Leave.issue _) s = .error l s' from h)
  rfl

theorem balanced_afterFork {oldSet : SigMask} {child : Launch Unit} {parent : Pid → Launch α} {failed : Launch α}
    (hchild : ans.fork ≠ .child) (hparent : ∀ pid, Balanced (parent pid)) (hfailed : Balanced failed) :
    Balanced (afterFork ans oldSet child parent failed) := by
  intro s
  cases hfork : ans.fork with
  | child => exact absurd hfork hchild
  | parent pid =>
    rw [run_afterFork_parent hfork]
    exact hparent pid _
  | failed e =>
    rw [run_afterFork_failed hfork]
    exact hfailed _

/-- The destructor closes what the constructor opened. -/
theorem balanced_with {file : File} {flags perm : Nat} {answer : Option Errno} {body : Descriptor → Launch α}
    (hbody : ∀ d, Balanced (body d)) : Balanced (Descriptor.with file flags perm answer body) := by
  intro s
  cases answer with
  | some e =>
    rw [run_with_some]
    refine ⟨rfl, fun l s' h => ?_⟩
    obtain ⟨rfl, -⟩ := Result.error.inj h
    rfl
  | none =>
    obtain ⟨hopen, hunwinds⟩ := hbody ⟨s.fds.lowest, file.fullName⟩
      { s with fds := s.fds.alloc (.file file.fullName flags perm) }
    have hclosed : ∀ fds : FdTable OpenFile, fds.openFds = insert s.fds.lowest s.fds.openFds →
        (fds.close s.fds.lowest).openFds = s.fds.openFds := by
      intro fds h
      rw [FdTable.openFds_close, h]
      exact Set.insert_sdiff_self_of_notMem s.fds.lowest_notMem
    rw [FdTable.openFds_alloc] at hopen
    rw [run_with_none, run_cleanup]
    cases hrun : (body ⟨s.fds.lowest, file.fullName⟩).run
        { s with fds := s.fds.alloc (.file file.fullName flags perm) } with
    | ok a s' =>
      rw [hrun] at hopen
      exact ⟨hclosed _ hopen, nofun⟩
    | error l s' =>
      rw [hrun] at hopen
      have hl : l.unwinds = true := hunwinds l s' hrun
      simp only [hl, if_true]
      refine ⟨hclosed _ hopen, fun l' s'' h => ?_⟩
      obtain ⟨rfl, -⟩ := Result.error.inj h
      exact hl

theorem balanced_redirected {execs : Launch Unit} {i o e : File} {perm : Nat} (hchild : ans.fork ≠ .child) :
    Balanced (exe.redirected params execs i o e perm ans) := by
  intro s
  unfold Executable.redirected
  rw [run_bind_ok run_blockSignals]
  refine balanced_with (fun input => balanced_with fun output => balanced_with fun error => ?_) _
  exact balanced_afterFork hchild (fun _ => balanced_pure _) (balanced_throwSysCall _ _)

/-- The descriptors of the pipes that a call of `pipe_in` leaves open in the caller. -/
def LaunchCall.leaked (ans : Answers) : LaunchCall → Nat
  | .pipeIn _ =>
    if ans.pipe .input ≠ none then 0
    else if ans.pipe .data ≠ none then 2
    else if ans.pipe .error ≠ none then 4
    else match ans.fork, ans.waited with
      | .parent _, .ok (.exited _) => 0
      | .parent _, _ => 3
      | _, _ => 6
  | _ => 0

theorem ncard_piped (p : PipeName) : (s.piped p).fds.openFds.ncard = s.fds.openFds.ncard + 2 := by
  unfold Proc.piped
  rw [FdTable.ncard_alloc, FdTable.ncard_alloc]

theorem subset_piped (p : PipeName) : s.fds.openFds ⊆ (s.piped p).fds.openFds :=
  fun _ h => (s.newPipe_newIn p).mem h

theorem ncard_allPiped : s.allPiped.fds.openFds.ncard = s.fds.openFds.ncard + 6 := by
  unfold Proc.allPiped
  rw [ncard_piped, ncard_piped, ncard_piped]

theorem subset_allPiped : s.fds.openFds ⊆ s.allPiped.fds.openFds :=
  (subset_piped _).trans ((subset_piped _).trans (subset_piped _))

/-- The read ends of the three pipes are open while `pipe_in` waits. -/
theorem ncard_awaiting : s.awaiting.fds.openFds.ncard = s.fds.openFds.ncard + 3 := by
  have h1 := s.newPipe_newIn .input
  have h2 := (s.piped .input).newPipe_newIn .data
  have h3 := ((s.piped .input).piped .data).newPipe_newIn .error
  have hset : s.awaiting.fds.openFds = insert (s.newPipe .input).readEnd
      (insert ((s.piped .input).newPipe .data).readEnd
        (insert (((s.piped .input).piped .data).newPipe .error).readEnd s.fds.openFds)) := by
    ext fd
    exact mem_openFds_awaiting
  have hr2 := h2.readEnd
  have hr3 := h3.readEnd
  rw [h1.opened, not_or, not_or] at hr2
  rw [h2.opened, not_or, not_or, h1.opened, not_or, not_or] at hr3
  have hfinite := s.fds.finite_openFds
  rw [hset, Set.ncard_insert_of_notMem _ ((hfinite.insert _).insert _),
    Set.ncard_insert_of_notMem _ (hfinite.insert _), Set.ncard_insert_of_notMem hr3.2.2.2.2 hfinite]
  · simp only [Set.mem_insert_iff, not_or]
    exact ⟨fun h => hr3.1 h.symm, hr2.2.2⟩
  · simp only [Set.mem_insert_iff, not_or]
    exact ⟨fun h => hr2.1 h.symm, fun h => hr3.2.2.1 h.symm, h1.readEnd⟩

theorem subset_awaiting : s.fds.openFds ⊆ s.awaiting.fds.openFds :=
  fun _ h => mem_openFds_awaiting.2 (.inr (.inr (.inr h)))

/-- A `pipe` that fails leaves the pipes before it open. -/
theorem run_pipeInFork_fails (exe : Executable) (params : List Str) (s : Proc) (hpipe : ¬ ∀ p, ans.pipe p = none) :
    ∃ l e, (exe.pipeInFork params ans).run s = .error l
      { (if ans.pipe .input ≠ none then s else if ans.pipe .data ≠ none then s.piped .input
          else (s.piped .input).piped .data) with errno := e } := by
  unfold Executable.pipeInFork
  cases hi : ans.pipe .input with
  | some e =>
    rw [if_pos (Option.some_ne_none e)]
    exact ⟨_, e, run_bind_error (run_pipe_some .input e)⟩
  | none =>
    rw [run_bind_ok (run_pipe _), if_neg (not_not.2 rfl)]
    cases hd : ans.pipe .data with
    | some e =>
      rw [if_pos (Option.some_ne_none e)]
      exact ⟨_, e, run_bind_error (run_pipe_some .data e)⟩
    | none =>
      rw [run_bind_ok (run_pipe _), if_neg (not_not.2 rfl)]
      cases he : ans.pipe .error with
      | some e => exact ⟨_, e, run_bind_error (run_pipe_some .error e)⟩
      | none =>
        refine absurd (fun p => ?_) hpipe
        cases p with
        | input => exact hi
        | data => exact hd
        | error => exact he

/-- What `pipe_in` leaves open in the caller once its pipes are open. -/
theorem openFds_pipeIn_parent (exe : Executable) (params : List Str) {pid : Pid} (hpipe : ∀ p, ans.pipe p = none)
    (hfork : ans.fork = .parent pid) (hpid : pid ≠ s.pid) : ((exe.pipeIn params ans).run s).state.fds.openFds =
      match ans.waited with
      | .ok (.exited _) => s.fds.openFds
      | _ => s.awaiting.fds.openFds := by
  rw [← s.awaiting_pid] at hpid
  rw [run_pipeIn_parent hpipe hfork]
  have hthrows : ∀ waited : Except Errno WaitStatus, (∀ code, waited ≠ .ok (.exited code)) →
      ((exe.pipeInJoin params (s.piping exe params pid) waited ans.child.output).run s.awaiting).state.fds.openFds =
        s.awaiting.fds.openFds := by
    intro waited hwaited
    obtain ⟨i, s', hjoin, hfds⟩ := Process.run_join_throws (p := (s.piping exe params pid).child) (.inr hwaited)
    rw [run_pipeInJoin_error hjoin]
    exact congrArg FdTable.openFds hfds
  rcases ans.waited with e | code | sig | sig
  · exact hthrows _ nofun
  · rw [run_pipeInJoin (Process.run_join_exited code hpid)]
    split_ifs
    · exact openFds_closed
    · exact openFds_closed
  · exact hthrows _ nofun
  · exact hthrows _ nofun

/-- What `pipe_in` leaves open in the caller. -/
theorem openFds_pipeIn (exe : Executable) (params : List Str) (hchild : ans.fork ≠ .child)
    (hpid : ans.fork ≠ .parent s.pid) : s.fds.openFds ⊆ ((exe.pipeIn params ans).run s).state.fds.openFds ∧
      ((exe.pipeIn params ans).run s).state.fds.openFds.ncard =
        s.fds.openFds.ncard + (LaunchCall.pipeIn params).leaked ans := by
  unfold LaunchCall.leaked
  by_cases hpipe : ∀ p, ans.pipe p = none
  · rw [if_neg (not_not.2 (hpipe _)), if_neg (not_not.2 (hpipe _)), if_neg (not_not.2 (hpipe _))]
    cases hfork : ans.fork with
    | child => exact absurd hfork hchild
    | failed e =>
      unfold Executable.pipeIn
      rw [run_bind_ok (run_pipeInFork_failed hpipe hfork)]
      exact ⟨subset_allPiped, ncard_allPiped⟩
    | parent pid =>
      rw [openFds_pipeIn_parent exe params hpipe hfork fun h => hpid (h ▸ hfork)]
      rcases ans.waited with e | code | sig | sig
      · exact ⟨subset_awaiting, ncard_awaiting⟩
      · exact ⟨Set.Subset.rfl, rfl⟩
      · exact ⟨subset_awaiting, ncard_awaiting⟩
      · exact ⟨subset_awaiting, ncard_awaiting⟩
  · obtain ⟨l, e, hrun⟩ := run_pipeInFork_fails exe params s hpipe
    unfold Executable.pipeIn
    rw [run_bind_error hrun]
    split_ifs with hi hd he
    · exact ⟨Set.Subset.rfl, rfl⟩
    · exact ⟨subset_piped _, ncard_piped _⟩
    · refine ⟨(subset_piped _).trans (subset_piped _), ?_⟩
      exact (ncard_piped _).trans (congrArg (· + 2) (ncard_piped _))
    · refine absurd (fun p => ?_) hpipe
      cases p with
      | input => exact not_not.1 hi
      | data => exact not_not.1 hd
      | error => exact not_not.1 he

/-- What any call leaves open in the caller. -/
theorem openFds_leaves (exe : Executable) (c : LaunchCall) (hchild : ans.fork ≠ .child) (hpid : ans.fork ≠ .parent s.pid) :
    s.fds.openFds ⊆ (c.leaves exe ans s).fds.openFds ∧
      (c.leaves exe ans s).fds.openFds.ncard = s.fds.openFds.ncard + c.leaked ans := by
  have hbalanced : ∀ {x : Launch Process}, Balanced x → s.fds.openFds ⊆ (x.run s).state.fds.openFds ∧
      (x.run s).state.fds.openFds.ncard = s.fds.openFds.ncard + 0 := by
    intro x h
    rw [(h s).1]
    exact ⟨Set.Subset.rfl, rfl⟩
  have hblocked : ∀ {f : SigMask → Launch Process}, (∀ m, Balanced (f m)) → Balanced (blockSignals >>= f) := by
    intro f h s
    rw [run_bind_ok run_blockSignals]
    exact h _ _
  have hafter : ∀ {child : Launch Unit} {parent : Pid → Process} (m : SigMask),
      Balanced (afterFork ans m child (fun pid => return parent pid) throwFork) :=
    fun m => balanced_afterFork hchild (fun _ => balanced_pure _) (balanced_throwSysCall _ _)
  cases c with
  | start params => exact hbalanced (hblocked fun m => hafter m)
  | startEnvs params envs => exact hbalanced (hblocked fun m => hafter m)
  | startAndForget params => exact hbalanced (hblocked fun m s => hafter m _)
  | pipeIn params => exact openFds_pipeIn exe params hchild hpid
  | pipeOut params i o e perm => exact hbalanced (balanced_redirected hchild)
  | pipeOutEnvs params envs i o e perm => exact hbalanced (balanced_redirected hchild)

/-! ### In the program launched -/

theorem openFds_dup2s {t : FdTable OpenFile} (hstd : StandardOpen t) (i d e : Nat) :
    (((t.dup2 i 0).dup2 d 1).dup2 e 2).openFds = t.openFds := by
  have h0 := t.openFds_dup2 i (hstd 0 (by omega))
  have h1 := (t.dup2 i 0).openFds_dup2 d (h0 ▸ hstd 1 (by omega))
  rw [FdTable.openFds_dup2 _ _ (h1 ▸ h0 ▸ hstd 2 (by omega)), h1, h0]

theorem openFds_plumbed (hstd : StandardOpen s.fds) : s.plumbed.openFds = s.allPiped.fds.openFds := by
  unfold Proc.plumbed
  apply openFds_dup2s
  intro fd hfd
  exact subset_allPiped (hstd fd hfd)

/-- The child of `pipe_out` closes what it opened. -/
theorem openFds_childTable (i o e : File) (perm : Nat) {t : FdTable OpenFile} (hstd : StandardOpen t) :
    (childTable i o e perm t).openFds = t.openFds := by
  have hi := t.lowest_notMem
  have ho := get_outputFd i perm (t := t)
  have he := get_errorFd i o perm (t := t)
  have hdupped : (dupped i o e perm t).openFds = insert (errorFd i o perm t)
      (insert (outputFd i perm t) (insert (inputFd t) t.openFds)) := by
    have hopened : (withError i o e perm t).openFds = insert (errorFd i o perm t)
        (insert (outputFd i perm t) (insert (inputFd t) t.openFds)) := by
      unfold withError withOutput withInput errorFd outputFd withOutput withInput inputFd
      rw [FdTable.openFds_alloc, FdTable.openFds_alloc, FdTable.openFds_alloc]
    rw [← hopened]
    apply openFds_dup2s
    intro fd hfd
    rw [hopened]
    exact .inr (.inr (.inr (hstd fd hfd)))
  unfold childTable
  rw [FdTable.openFds_close, FdTable.openFds_close, FdTable.openFds_close, hdupped]
  ext n
  have hi' : inputFd t ∉ t.openFds := hi
  have ho' : outputFd i perm t ∉ t.openFds := fun h => h ho.1
  have he' : errorFd i o perm t ∉ t.openFds := fun h => h he.1
  simp only [Set.mem_sdiff, Set.mem_insert_iff, Set.mem_singleton_iff]
  grind

/-- How many descriptors more than its caller the program has. -/
def Link.leaked : Link → Nat
  | .returns _ c ans => c.leaked ans
  | .becomes _ (.pipeIn _) _ _ => 6
  | _ => 0

theorem Proc.Step.openFds {i : Link} (hstd : StandardOpen s.fds) (h : Proc.Step s i s') :
    StandardOpen s'.fds ∧ s'.fds.openFds.ncard = s.fds.openFds.ncard + i.leaked := by
  cases h with
  | @returns exe c ans hchild hpid =>
    obtain ⟨hsub, hcard⟩ := openFds_leaves exe c hchild hpid
    exact ⟨fun fd hfd => hsub (hstd fd hfd), hcard⟩
  | @becomes exe c ans pid argv env hchild hexec =>
    rw [leaves_eq_child hchild hexec]
    have hsame : ∀ {t : FdTable OpenFile}, t.openFds = s.fds.openFds →
        StandardOpen t ∧ t.openFds.ncard = s.fds.openFds.ncard + 0 := by
      intro t h
      exact ⟨fun fd hfd => h ▸ hstd fd hfd, congrArg _ h⟩
    cases c with
    | start params => exact hsame rfl
    | startEnvs params envs => exact hsame rfl
    | startAndForget params => exact hsame rfl
    | pipeIn params =>
      have hopen : s.plumbed.openFds = s.allPiped.fds.openFds := openFds_plumbed hstd
      refine ⟨fun fd hfd => hopen ▸ subset_allPiped (hstd fd hfd), ?_⟩
      exact (congrArg _ hopen).trans ncard_allPiped
    | pipeOut params i o e perm => exact hsame (openFds_childTable i o e perm hstd)
    | pipeOutEnvs params envs i o e perm => exact hsame (openFds_childTable i o e perm hstd)
  | signal sig d => exact ⟨hstd, rfl⟩
  | mask set => exact ⟨hstd, rfl⟩

theorem standardOpen_plain : StandardOpen plain.fds := by
  intro fd hfd
  obtain rfl | rfl | rfl : fd = 0 ∨ fd = 1 ∨ fd = 2 := by omega
  · exact Option.some_ne_none _
  · exact Option.some_ne_none _
  · exact Option.some_ne_none _

theorem path_pipeIn : lineage.Path plain [.becomes ls (.pipeIn []) inChild 102]
    (((LaunchCall.pipeIn []).leaves ls inChild plain).executed 102) := .single (.becomes rfl rfl)

end OksSystem
