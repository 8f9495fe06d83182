import OksSystem.Executable.Launch

/-!
# What a launch leaves as it was

* `Proc.core` : the process id, the dispositions and the mask; the calls on descriptors keep it (`keeps_pipe`, …);
* `core_afterFork` : in the parent the branches after the `fork` put the mask back and keep the rest;
* `keeps_start`, `keeps_pipeIn`, … : the launchers but `start_and_forget` and `pipe_out` keep it.
-/

namespace OksSystem
open ByteBuffer EStateM

def Proc.core (s : Proc) : Pid × (Signal → Disposition) × SigMask := (s.pid, s.disposition, s.mask)

variable {α : Type} {ans : Answers} {exe : Executable}

/-! ## The system calls -/

theorem keeps_throwSysCall (name action : Str) : Keeps Proc.core (throwSysCall name action : Launch α) :=
  fun _ => rfl

theorem keeps_pipe (p : PipeName) (answer : Option Errno) : Keeps Proc.core (pipe p answer) := by
  intro s
  cases answer with
  | none => rfl
  | some e => rfl

theorem keeps_close (fd : Nat) : Keeps Proc.core (close fd) := .modify fun _ => rfl

theorem keeps_copyFd (rs : List ReadResult) : Keeps Proc.core (copyFd rs) := by
  intro s
  rw [run_copyFd]
  rfl

theorem keeps_join (p : Process) (answer : Except Errno WaitStatus) (throwNonZero : Bool) :
    Keeps Proc.core (p.join answer throwNonZero) := by
  intro s
  by_cases h : p.processId = s.pid
  · rw [Process.run_join_self answer throwNonZero h]
    rfl
  · rw [Process.run_join answer throwNonZero h]
    rcases answer with e | code | sig | sig
    · rfl
    · change Proc.core (Result.state (if _ then _ else _)) = _
      split_ifs <;> rfl
    · rfl
    · rfl

/-! ## The launchers -/

/-- In the parent the mask is put back to `oldSet`, whatever `fork` answered. -/
theorem core_afterFork {oldSet : SigMask} {child : Launch Unit} {parent : Pid → Launch α} {failed : Launch α}
    (hchild : ans.fork ≠ .child) (hparent : ∀ pid, Keeps Proc.core (parent pid)) (hfailed : Keeps Proc.core failed)
    (s : Proc) : ((afterFork ans oldSet child parent failed).run s).state.core = (s.pid, s.disposition, oldSet) := by
  cases hf : ans.fork with
  | child => exact absurd hf hchild
  | parent pid =>
    rw [run_afterFork_parent hf]
    exact hparent pid _
  | failed e =>
    rw [run_afterFork_failed hf]
    exact hfailed _

theorem keeps_start (params : List Str) (hchild : ans.fork ≠ .child) : Keeps Proc.core (exe.start params ans) :=
  fun _ => core_afterFork hchild (fun _ => .pure _) (keeps_throwSysCall _ _) _

theorem keeps_startEnvs (params : List Str) (envs : List (Str × Str)) (hchild : ans.fork ≠ .child) :
    Keeps Proc.core (exe.startEnvs params envs ans) :=
  fun _ => core_afterFork hchild (fun _ => .pure _) (keeps_throwSysCall _ _) _

/-- `start_and_forget` leaves SIGCLD ignored. -/
theorem core_startAndForget (params : List Str) (hchild : ans.fork ≠ .child) (s : Proc) :
    ((exe.startAndForget params ans).run s).state.core =
      (s.pid, Function.update s.disposition .sigcld .ign, s.mask) :=
  core_afterFork hchild (fun _ => .pure _) (keeps_throwSysCall _ _) _

theorem keeps_pipeInFork (params : List Str) (hchild : ans.fork ≠ .child) :
    Keeps Proc.core (exe.pipeInFork params ans) := by
  refine .bind (keeps_pipe _ _) fun input => .bind (keeps_pipe _ _) fun data => .bind (keeps_pipe _ _) fun error => ?_
  intro s
  exact core_afterFork hchild
    (fun _ => .bind (keeps_close _) fun _ => .bind (keeps_close _) fun _ => .bind (keeps_close _) fun _ => .pure _)
    (.pure _) _

theorem keeps_pipeInJoin (params : List Str) (p : Executable.Piping) (waited : Except Errno WaitStatus)
    (output : PipeName → List ReadResult) : Keeps Proc.core (exe.pipeInJoin params p waited output) := by
  unfold Executable.pipeInJoin
  refine .bind (keeps_join _ _ _) fun status => .bind (keeps_copyFd _) fun _ => .bind (keeps_copyFd _) fun out =>
    .bind (keeps_copyFd _) fun _ => .bind (keeps_close _) fun _ => .bind (keeps_close _) fun _ =>
    .bind (keeps_close _) fun _ => ?_
  split_ifs
  · exact .pure out
  · exact .bind .get fun _ => .throw _

theorem keeps_pipeIn (params : List Str) (hchild : ans.fork ≠ .child) : Keeps Proc.core (exe.pipeIn params ans) := by
  refine .bind (keeps_pipeInFork params hchild) fun p => ?_
  cases p with
  | none => exact .pure []
  | some p => exact keeps_pipeInJoin params p _ _

end OksSystem
