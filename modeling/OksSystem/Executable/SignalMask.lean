import OksSystem.Executable.Frame

/-!
# The signal mask a launcher leaves

Every launcher blocks all signals before its `fork`, and `pipe_out` opens its three files while they are blocked.

* `LaunchCall` : a call of one of the launchers, `LaunchCall.leaves` : the process it leaves;
* `mask_redirected` : `pipe_out` restores it if the three files open;
* `launch_mask_iff` : when a launcher leaves the mask it was called with.
-/

namespace OksSystem
open ByteBuffer EStateM

/-- A call of one of the launchers. -/
inductive LaunchCall where
  | start (params : List Str)
  | startEnvs (params : List Str) (envs : List (Str × Str))
  | startAndForget (params : List Str)
  | pipeIn (params : List Str)
  | pipeOut (params : List Str) (inputFile outputFile errorFile : File) (perm : Nat)
  | pipeOutEnvs (params : List Str) (envs : List (Str × Str)) (inputFile outputFile errorFile : File) (perm : Nat)

/-- The process the call leaves, by return or by an exception. -/
def LaunchCall.leaves (exe : Executable) (ans : Answers) (s : Proc) : LaunchCall → Proc
  | .start params => ((exe.start params ans).run s).state
  | .startEnvs params envs => ((exe.startEnvs params envs ans).run s).state
  | .startAndForget params => ((exe.startAndForget params ans).run s).state
  | .pipeIn params => ((exe.pipeIn params ans).run s).state
  | .pipeOut params inputFile outputFile errorFile perm =>
    ((exe.pipeOut params inputFile outputFile errorFile perm ans).run s).state
  | .pipeOutEnvs params envs inputFile outputFile errorFile perm =>
    ((exe.pipeOutEnvs params envs inputFile outputFile errorFile perm ans).run s).state

/-- The call is one of `pipe_out`. -/
def LaunchCall.Redirects : LaunchCall → Prop
  | .pipeOut .. => True
  | .pipeOutEnvs .. => True
  | _ => False

/-- The input, the output and the error file can be opened. -/
def Answers.Opens (ans : Answers) : Prop := ans.openInput = none ∧ ans.openOutput = none ∧ ans.openError = none

/-- All signals that can be blocked. -/
def SigMask.full : SigMask := .ofSet sigfillset

variable {α : Type} {ans : Answers} {exe : Executable}

/-! ## `pipe_out` -/

/-- A `Descriptor` that cannot be opened leaves the mask `m` it was called with. -/
theorem mask_with {file : File} {flags perm : Nat} {answer : Option Errno} {body : Descriptor → Launch α}
    {m m' : SigMask} (hbody : ∀ d s, s.mask = m → ((body d).run s).state.mask = m') {s : Proc} (hs : s.mask = m) :
    ((Descriptor.with file flags perm answer body).run s).state.mask = if answer = none then m' else m := by
  cases answer with
  | none =>
    rw [run_with_none, if_pos rfl]
    apply (state_cleanup (f := Proc.mask) _ _ _).trans
    · exact hbody _ _ hs
    · intro _
      rfl
  | some e =>
    rw [run_with_some]
    exact hs

/-- The mask after `pipe_out` is the one before it if the three files open, and full if one of them does not. -/
theorem mask_redirected (exe : Executable) (params : List Str) (exec : Launch Unit) (inputFile outputFile errorFile : File)
    (perm : Nat) (hchild : ans.fork ≠ .child) (s : Proc) :
    (ans.Opens → ((exe.redirected params exec inputFile outputFile errorFile perm ans).run s).state.mask = s.mask) ∧
      (¬ ans.Opens → ((exe.redirected params exec inputFile outputFile errorFile perm ans).run s).state.mask = .full) := by
  have hmask : ((exe.redirected params exec inputFile outputFile errorFile perm ans).run s).state.mask =
      if ans.openInput = none then if ans.openOutput = none then if ans.openError = none then s.mask else .full
        else .full else .full := by
    unfold Executable.redirected
    rw [state_bind_of_ok run_blockSignals]
    apply mask_with (m := .full) _ rfl
    intro input s₁ hs₁
    apply mask_with _ hs₁
    intro output s₂ hs₂
    apply mask_with _ hs₂
    intro error s₃ _
    exact congrArg (·.2.2) (core_afterFork hchild (fun _ => .pure _) (keeps_throwSysCall _ _) s₃)
  rw [hmask]
  unfold Answers.Opens
  constructor
  · rintro ⟨hi, ho, he⟩
    rw [if_pos hi, if_pos ho, if_pos he]
  · intro h
    split_ifs with hi ho he
    · exact absurd ⟨hi, ho, he⟩ h
    all_goals rfl

/-! ## The launchers -/

/-- **A launcher leaves the mask it was called with exactly when it is no `pipe_out` that cannot open one of its files**,
or all signals were blocked before. -/
theorem launch_mask_iff (c : LaunchCall) (exe : Executable) (ans : Answers) (s : Proc) (hchild : ans.fork ≠ .child) :
    (c.leaves exe ans s).mask = s.mask ↔ (c.Redirects → ans.Opens) ∨ s.mask = .full := by
  have hredirected : ∀ (params : List Str) (exec : Launch Unit) (i o e : File) (perm : Nat),
      ((exe.redirected params exec i o e perm ans).run s).state.mask = s.mask ↔ (True → ans.Opens) ∨ s.mask = .full := by
    intro params exec i o e perm
    obtain ⟨hopens, hnot⟩ := mask_redirected exe params exec i o e perm hchild s
    by_cases h : ans.Opens
    · simp only [hopens h, h, implies_true, true_or]
    · simp only [hnot h, h, true_imp_iff, false_or, eq_comm]
  have hmask : ∀ {s' : Proc} {d : Signal → Disposition}, s'.core = (s.pid, d, s.mask) →
      (s'.mask = s.mask ↔ (False → ans.Opens) ∨ s.mask = .full) :=
    fun h => iff_of_true (congrArg (·.2.2) h) (.inl False.elim)
  cases c with
  | start params => exact hmask (keeps_start params hchild s)
  | startEnvs params envs => exact hmask (keeps_startEnvs params envs hchild s)
  | startAndForget params => exact hmask (core_startAndForget params hchild s)
  | pipeIn params => exact hmask (keeps_pipeIn params hchild s)
  | pipeOut params i o e perm => exact hredirected params _ i o e perm
  | pipeOutEnvs params envs i o e perm => exact hredirected params _ i o e perm

/-- A process with no signal blocked and its three standard descriptors open. -/
def plain : Proc where
  pid := 100
  instance? := none
  instance_eq := by simp
  mask := .ofSet 0
  disposition := fun _ => .dfl
  fds := ⟨[some (.other 0), some (.other 1), some (.other 2)]⟩
  errno := 0

/-- All calls succeed and the child exits with 0. -/
def allSucceed : Answers where
  pipe := fun _ => none
  openInput := none
  openOutput := none
  openError := none
  fork := .parent 101
  execve := none
  waitpid := none
  child := ⟨.exited 0, fun _ => []⟩

/-- The input file does not exist (ENOENT). -/
def noInput : Answers := { allSucceed with openInput := some 2 }

/-- `pipe_out` with a missing input file leaves all signals blocked. -/
theorem pipeOut_blocks :
    ¬ ∀ (c : LaunchCall) (exe : Executable) (ans : Answers) (s : Proc), ans.fork ≠ .child →
      (c.leaves exe ans s).mask = s.mask := by
  intro h
  have := h (.pipeOut [] ⟨text "in"⟩ ⟨text "out"⟩ ⟨text "err"⟩ 0o644) ⟨⟨text "cat"⟩⟩ noInput plain (by decide)
  exact absurd this (by decide)

theorem launch_mask_iff_noInput :
    (LaunchCall.leaves ⟨⟨text "cat"⟩⟩ noInput plain
      (.pipeOut [] ⟨text "in"⟩ ⟨text "out"⟩ ⟨text "err"⟩ 0o644)).mask = plain.mask ↔
        (True → noInput.Opens) ∨ plain.mask = .full :=
  launch_mask_iff (.pipeOut [] ⟨text "in"⟩ ⟨text "out"⟩ ⟨text "err"⟩ 0o644) ⟨⟨text "cat"⟩⟩ noInput plain (by decide)

end OksSystem
