import OksSystem.Descriptor.Basic
import OksSystem.Process.Join

/-!
# The launchers of `Executable`

* `Descriptor.with` : a `Descriptor` on the stack, from its constructor to its destructor;
* `Answers` : what the system calls of one launch answer, and what the child does;
* `exec`, `start`, `startAndForget`, `pipeIn`, `pipeOut` and their overloads with an environment;
* `run_with_some`, `run_with_none`, `run_afterFork_failed`, `run_afterFork_parent` : running the parts of a launch.

The child's branch is in the same functions: it runs when `fork` answers `child`.
-/

namespace OksSystem
open ByteBuffer EStateM

/-! ## Descriptors -/

structure Descriptor where
  fd : Nat
  name : Str
  deriving DecidableEq, Repr

namespace Descriptor

/-- The constructor, with what `::open` answers. The `fchmod` after it changes the file, not the process. -/
def «open» (file : File) (flags perm : Nat) : Option Errno → Launch Descriptor
  | some e => do
    modify fun s => { s with errno := e }
    throw (.issue (.openFile e file.fullName))
  | none => modifyGet fun s =>
    (⟨s.fds.lowest, file.fullName⟩, { s with fds := s.fds.alloc (.file file.fullName flags perm) })

/-- A descriptor on the stack: its destructor closes it at the end of `body`. -/
def «with» {α : Type} (file : File) (flags perm : Nat) (answer : Option Errno) (body : Descriptor → Launch α) :
    Launch α := do
  let d ← Descriptor.open file flags perm answer
  cleanup Leave.unwinds (fun s => { s with fds := s.fds.close d.fd }) (body d)

end Descriptor

/-! ## What happens around a launch -/

/-- What the child does once it runs its program. -/
structure Child where
  status : WaitStatus
  /-- What the reads on the three pipes give. -/
  output : PipeName → List ReadResult

structure Answers where
  pipe : PipeName → Option Errno
  openInput : Option Errno
  openOutput : Option Errno
  openError : Option Errno
  fork : Forked
  execve : Option Errno
  waitpid : Option Errno
  child : Child

/-- What `waitpid` gives for the child. -/
def Answers.waited (ans : Answers) : Except Errno WaitStatus :=
  match ans.waitpid with
  | some e => .error e
  | none => .ok ans.child.status

/-! ## The launchers -/

structure Executable extends File

/-- EXIT_FAILURE. -/
def exitFailure : Nat := 1

/-- Blocks all signals; the mask before it is `old_set`. -/
def blockSignals : Launch SigMask := pthreadSigmask sigfillset

/-- Restores the original signal mask. -/
def restoreSignals (oldSet : SigMask) : Launch Unit := do
  let _ ← pthreadSigmask oldSet.signals

/-- The child's branch: `signals` are put to their default, the mask is restored, and an exception of `body` ends it. -/
def childBranch (signals : List Signal) (oldSet : SigMask) (body : Launch Unit) : Launch Unit := do
  signals.forM fun sig => signal sig .dfl
  restoreSignals oldSet
  tryCatch body fun
    | .issue _ => throw (.exit exitFailure)
    | leave => throw leave

/-- The branches after the `fork`. -/
def afterFork {α : Type} (ans : Answers) (oldSet : SigMask) (child : Launch Unit) (parent : Pid → Launch α)
    (failed : Launch α) : Launch α := do
  match ← fork ans.fork with
  | .child =>
    child
    restoreSignals oldSet
    failed
  | .parent childId =>
    restoreSignals oldSet
    parent childId
  | .failed _ =>
    restoreSignals oldSet
    failed

/-- `throw OksSystemCallIssue(ERS_HERE, errno, "fork", "")`. -/
def throwFork {α : Type} : Launch α := throwSysCall (text "fork") []

namespace Executable

/-- `execv` and `execve` return only when they fail. -/
def exec (argv : List Str) (env : Option (List Str)) (ans : Answers) : Launch Unit :=
  match ans.execve with
  | none => throw (.exec argv env)
  | some e => do
    modify fun s => { s with errno := e }
    throw (.issue (.execution e (argv.headD []) (-1)))

/-- `exec(params)`, its allocations taken to succeed. -/
def execParams (exe : Executable) (params : List Str) (ans : Answers) : Launch Unit :=
  exec (cstr exe.fullName :: params.map cstr) none ans

/-- `exec(params,envs)`: each entry of the environment is a key, '=' and its value. -/
def execEnvs (exe : Executable) (params : List Str) (envs : List (Str × Str)) (ans : Answers) : Launch Unit :=
  exec (cstr exe.fullName :: params.map cstr) (some (envs.map fun e => cstr (e.1 ++ text "=" ++ e.2))) ans

/-- `to_string(params)`. -/
def toString (exe : Executable) (params : List Str) : Str := exe.fullName ++ params.flatMap (text " " ++ ·)

def start (exe : Executable) (params : List Str) (ans : Answers) : Launch Process := do
  let oldSet ← blockSignals
  afterFork ans oldSet (childBranch [.sigterm, .sigint] oldSet (exe.execParams params ans))
    (fun childId => return ⟨childId, exe.toString params⟩) throwFork

def startEnvs (exe : Executable) (params : List Str) (envs : List (Str × Str)) (ans : Answers) : Launch Process := do
  let oldSet ← blockSignals
  afterFork ans oldSet (childBranch [.sigterm, .sigint] oldSet (exe.execEnvs params envs ans))
    (fun childId => return ⟨childId, []⟩) throwFork

def startAndForget (exe : Executable) (params : List Str) (ans : Answers) : Launch Process := do
  let oldSet ← blockSignals
  signal .sigcld .ign
  afterFork ans oldSet (childBranch [.sigterm, .sigint, .sigcld] oldSet (exe.execParams params ans))
    (fun childId => return ⟨childId, exe.toString params⟩) throwFork

/-- The two overloads of `pipe_out`, with the `exec` of the child. -/
def redirected (exe : Executable) (params : List Str) (exec : Launch Unit) (inputFile outputFile errorFile : File)
    (perm : Nat) (ans : Answers) : Launch Process := do
  let oldSet ← blockSignals
  Descriptor.with inputFile (Descriptor.flags true false) perm ans.openInput fun input =>
  Descriptor.with outputFile (Descriptor.flags false true) perm ans.openOutput fun output =>
  Descriptor.with errorFile (Descriptor.flags false true) perm ans.openError fun error =>
    afterFork ans oldSet
      (childBranch [.sigterm, .sigint] oldSet do
        dup2 input.fd 0
        dup2 output.fd 1
        dup2 error.fd 2
        close input.fd
        close output.fd
        close error.fd
        exec)
      (fun childId => return ⟨childId, exe.toString params⟩) throwFork

def pipeOut (exe : Executable) (params : List Str) (inputFile outputFile errorFile : File) (perm : Nat)
    (ans : Answers) : Launch Process :=
  exe.redirected params (exe.execParams params ans) inputFile outputFile errorFile perm ans

def pipeOutEnvs (exe : Executable) (params : List Str) (envs : List (Str × Str))
    (inputFile outputFile errorFile : File) (perm : Nat) (ans : Answers) : Launch Process :=
  exe.redirected params (exe.execEnvs params envs ans) inputFile outputFile errorFile perm ans

/-- What `pipe_in` holds when it waits for the child. -/
structure Piping where
  child : Process
  input : Pipe
  data : Pipe
  error : Pipe

/-- `pipe_in` up to its call of `join`: `none` when `fork` failed. -/
def pipeInFork (exe : Executable) (params : List Str) (ans : Answers) : Launch (Option Piping) := do
  let input ← pipe .input (ans.pipe .input)
  let data ← pipe .data (ans.pipe .data)
  let error ← pipe .error (ans.pipe .error)
  let oldSet ← blockSignals
  afterFork ans oldSet
    (childBranch [.sigterm, .sigint] oldSet do
      dup2 input.writeEnd 0
      dup2 data.writeEnd 1
      dup2 error.writeEnd 2
      exe.execParams params ans)
    (fun childId => do
      close input.writeEnd
      close data.writeEnd
      close error.writeEnd
      return some ⟨⟨childId, exe.toString params⟩, input, data, error⟩)
    (return none)

/-- `pipe_in` from its call of `join` on, with what `waitpid` answers. -/
def pipeInJoin (exe : Executable) (params : List Str) (p : Piping) (waited : Except Errno WaitStatus)
    (output : PipeName → List ReadResult) : Launch Str := do
  let childStatus ← p.child.join waited false
  let _inStream ← copyFd (output .input)
  let outStream ← copyFd (output .data)
  let _errStream ← copyFd (output .error)
  close p.input.readEnd
  close p.data.readEnd
  close p.error.readEnd
  if childStatus = 0 then return outStream
  throw (.issue (.execution (← get).errno (exe.toString params) childStatus))

def pipeIn (exe : Executable) (params : List Str) (ans : Answers) : Launch Str := do
  match ← exe.pipeInFork params ans with
  | none => return []
  | some p => exe.pipeInJoin params p ans.waited ans.child.output

end Executable

/-! ## Running a launch in the parent -/

variable {α : Type} {ans : Answers} {s : Proc}

theorem run_with_some {file : File} {flags perm : Nat} {e : Errno} (body : Descriptor → Launch α) :
    (Descriptor.with file flags perm (some e) body).run s =
      .error (.issue (.openFile e file.fullName)) { s with errno := e } := rfl

theorem run_with_none {file : File} {flags perm : Nat} (body : Descriptor → Launch α) :
    (Descriptor.with file flags perm none body).run s =
      (cleanup Leave.unwinds (fun s' => { s' with fds := s'.fds.close s.fds.lowest })
        (body ⟨s.fds.lowest, file.fullName⟩)).run { s with fds := s.fds.alloc (.file file.fullName flags perm) } := rfl

theorem run_blockSignals : blockSignals.run s = .ok s.mask { s with mask := .ofSet sigfillset } := rfl

theorem run_restoreSignals (oldSet : SigMask) : (restoreSignals oldSet).run s = .ok () { s with mask := oldSet } := by
  rw [← SigMask.ofSet_signals oldSet]
  unfold restoreSignals
  rw [run_bind_ok (run_pthreadSigmask _), SigMask.ofSet_signals]
  rfl

theorem run_afterFork_failed {oldSet : SigMask} {child : Launch Unit} {parent : Pid → Launch α} {failed : Launch α}
    {e : Errno} (h : ans.fork = .failed e) : (afterFork ans oldSet child parent failed).run s =
      failed.run { s with mask := oldSet, errno := e } := by
  have hfork : (fork (.failed e)).run s = .ok (.failed e) { s with errno := e } := rfl
  unfold afterFork
  rw [h, run_bind_ok hfork, run_bind_ok (run_restoreSignals oldSet)]

theorem run_afterFork_parent {oldSet : SigMask} {child : Launch Unit} {parent : Pid → Launch α} {failed : Launch α}
    {pid : Pid} (h : ans.fork = .parent pid) : (afterFork ans oldSet child parent failed).run s =
      (parent pid).run { s with mask := oldSet } := by
  have hfork : (fork (.parent pid)).run s = .ok (.parent pid) s := rfl
  unfold afterFork
  rw [h, run_bind_ok hfork, run_bind_ok (run_restoreSignals oldSet)]

end OksSystem
