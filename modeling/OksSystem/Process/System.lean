import Mathlib.Logic.Function.Basic
import OksSystem.Lib.FdTable
import OksSystem.Lib.Outcome
import OksSystem.File.Basic

/-!
# The calling process and its system calls

`Proc` is what the launchers read and change of the process that runs them. They run in `Launch`, which keeps the process
also when an exception leaves them. What a system call answers is an argument of it.

* `SigMask` : the signals a thread can block, `SigMask.ofSet` : what `pthread_sigmask` makes of a set;
* `Leave` : the ways not to return (an exception, `execve`, `_exit`);
* `pthreadSigmask`, `signal`, `fork`, `pipe`, `dup2`, `close`, `copyFd` : the calls, each with its `run_` lemma.
-/

namespace OksSystem
open ByteBuffer

/-- `pid_t`. -/
abbrev Pid := Int

/-! ## Signals -/

/-- The signals 32 and 33, which the threads library keeps for itself; bit `n - 1` is signal `n`. -/
def reservedSignals : BitVec 64 := 1#64 <<< 31 ||| 1#64 <<< 32

/-- `pthread_sigmask` leaves them and SIGKILL and SIGSTOP out of every mask. -/
def unblockable : BitVec 64 := 1#64 <<< 8 ||| 1#64 <<< 18 ||| reservedSignals

structure SigMask where
  signals : BitVec 64
  blockable : signals &&& unblockable = 0#64
  deriving DecidableEq, Repr

/-- The mask after `pthread_sigmask(SIG_SETMASK, set)`. -/
def SigMask.ofSet (set : BitVec 64) : SigMask where
  signals := set &&& ~~~unblockable
  blockable := by
    rw [BitVec.and_assoc, BitVec.and_comm (~~~unblockable), BitVec.and_not_self]
    exact BitVec.and_zero

@[simp] theorem SigMask.ofSet_signals (m : SigMask) : SigMask.ofSet m.signals = m := by
  obtain ⟨set, h⟩ := m
  unfold ofSet
  congr 1
  apply BitVec.eq_of_getLsbD_eq
  intro i hi
  have hbit := congrArg (fun b => b.getLsbD i) h
  simp only [BitVec.getLsbD_and, BitVec.getLsbD_zero] at hbit
  rw [BitVec.getLsbD_and, BitVec.getLsbD_not]
  cases hset : set.getLsbD i <;> simp_all

/-- The set `sigfillset` makes. -/
def sigfillset : BitVec 64 := ~~~reservedSignals

/-- The signals the launchers set the disposition of. -/
inductive Signal where
  | sigterm
  | sigint
  | sigcld
  deriving DecidableEq, Repr

inductive Disposition where
  | dfl
  | ign
  | handler (address : Nat)
  deriving DecidableEq, Repr

/-! ## The process -/

/-- The three pipes of `pipe_in`. -/
inductive PipeName where
  | input
  | data
  | error
  deriving DecidableEq, Repr

/-- What an open descriptor refers to. -/
inductive OpenFile where
  | file (name : Str) (flags perm : Nat)
  | readEnd (p : PipeName)
  | writeEnd (p : PipeName)
  | other (n : Nat)
  deriving DecidableEq, Repr

structure Proc where
  pid : Pid
  /-- The process id in `Process::s_instance`. -/
  instance? : Option Pid
  instance_eq : ∀ p ∈ instance?, p = pid
  mask : SigMask
  disposition : Signal → Disposition
  fds : FdTable OpenFile
  errno : Errno

inductive Leave where
  | issue (i : Issue)
  /-- The process runs another program from here on. -/
  | exec (argv : List Str) (env : Option (List Str))
  | exit (status : Nat)
  deriving DecidableEq, Repr

/-- Only an exception runs the destructors. -/
def Leave.unwinds : Leave → Bool
  | .issue _ => true
  | _ => false

abbrev Launch (α : Type) := EStateM Leave Proc α

/-! ## System calls -/

def pthreadSigmask (set : BitVec 64) : Launch SigMask :=
  modifyGet fun s => (s.mask, { s with mask := .ofSet set })

def signal (sig : Signal) (d : Disposition) : Launch Unit :=
  modify fun s => { s with disposition := Function.update s.disposition sig d }

/-- What `fork` returns; in the parent the process id of the child. -/
inductive Forked where
  | failed (error : Errno)
  | child
  | parent (pid : Pid)
  deriving DecidableEq, Repr

def fork (answer : Forked) : Launch Forked := do
  if let .failed e := answer then modify fun s => { s with errno := e }
  return answer

/-- `throw OksSystemCallIssue(ERS_HERE, errno, name, action)`. -/
def throwSysCall {α : Type} (name action : Str) : Launch α := do
  throw (.issue (.osSystemCall (← get).errno name action))

structure Pipe where
  readEnd : Nat
  writeEnd : Nat
  deriving DecidableEq, Repr

/-- `pipe(p)`, and the exception thrown when it fails. -/
def pipe (p : PipeName) : Option Errno → Launch Pipe
  | some e => do
    modify fun s => { s with errno := e }
    throwSysCall (text "pipe") []
  | none => modifyGet fun s =>
    let t := s.fds.alloc (.readEnd p)
    (⟨s.fds.lowest, t.lowest⟩, { s with fds := t.alloc (.writeEnd p) })

def close (fd : Nat) : Launch Unit := modify fun s => { s with fds := s.fds.close fd }

def dup2 (old new : Nat) : Launch Unit := modify fun s => { s with fds := s.fds.dup2 old new }

/-- What one `read` of at most 256 bytes gives: bytes, or -1. -/
inductive ReadResult where
  | bytes (chunk : Str) (size : 0 < chunk.length ∧ chunk.length ≤ 256)
  | error (e : Errno)
  deriving Repr

/-- What `copy_fd` puts into its stream: it stops at the first `read` that gives no byte. -/
def copied : List ReadResult → Str
  | .bytes chunk _ :: rs => chunk ++ copied rs
  | _ => []

/-- The error of that `read`. -/
def readError : List ReadResult → Option Errno
  | .bytes _ _ :: rs => readError rs
  | .error e :: _ => some e
  | [] => none

/-- `copy_fd`, with what the reads on the descriptor give until the end of file. -/
def copyFd : List ReadResult → Launch Str
  | .bytes chunk _ :: rs => do return chunk ++ (← copyFd rs)
  | .error e :: _ => do
    modify fun s => { s with errno := e }
    return []
  | [] => return []

/-! ## What they do -/

variable {α : Type} {s : Proc}

theorem run_pthreadSigmask (set : BitVec 64) :
    (pthreadSigmask set).run s = .ok s.mask { s with mask := .ofSet set } := rfl

theorem run_close (fd : Nat) : (close fd).run s = .ok () { s with fds := s.fds.close fd } := rfl

theorem run_pipe_some (p : PipeName) (e : Errno) : (pipe p (some e)).run s =
    .error (.issue (.osSystemCall e (text "pipe") [])) { s with errno := e } := rfl

theorem run_copyFd (rs : List ReadResult) :
    (copyFd rs).run s = .ok (copied rs) { s with errno := (readError rs).getD s.errno } := by
  induction rs with
  | nil => rfl
  | cons r rs ih =>
    cases r with
    | bytes chunk h =>
      unfold copyFd
      rw [EStateM.run_bind_ok ih]
      rfl
    | error e => rfl

end OksSystem
