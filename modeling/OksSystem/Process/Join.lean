import OksSystem.Process.System

/-!
# `Process` and `join`

* `Process` : a process id and a name to display;
* `instancePid` : the process id of `Process::instance()`;
* `WaitStatus`, `waitpid`, `Process.join`; `run_join` : what `join` makes of each answer of `waitpid`.
-/

namespace OksSystem
open ByteBuffer

structure Process where
  processId : Pid
  processName : Str
  deriving DecidableEq, Repr

/-- The statuses `waitpid` gives without WCONTINUED. -/
inductive WaitStatus where
  | exited (code : Fin 256)
  | signaled (sig : Nat)
  | stopped (sig : Nat)
  deriving DecidableEq, Repr

/-- The process id of `Process::instance()`, whose object the first call makes. -/
def instancePid : Launch Pid := do
  match (← get).instance? with
  | some p => return p
  | none =>
    modify fun s => { s with instance? := some s.pid, instance_eq := by simp }
    return (← get).pid

/-- `errno = 0; waitpid(pid,&status,0)`: `none` is -1, or another id than `pid` when that stands for a group. -/
def waitpid (answer : Except Errno WaitStatus) : Launch (Option WaitStatus) := do
  match answer with
  | .error e => modify fun s => { s with errno := e }; return none
  | .ok st => modify fun s => { s with errno := 0 }; return some st

namespace Process

def toString (p : Process) : Str :=
  (if p.processName.isEmpty then [] else p.processName ++ text " ") ++ text "pid: " ++ text (Int.repr p.processId)

def join (p : Process) (answer : Except Errno WaitStatus) (throwNonZero : Bool) : Launch Nat := do
  if p.processId = (← instancePid) then throw (.issue .precondition)
  match ← waitpid answer with
  | none => throwSysCall (text "waitpid") (text "on process " ++ p.toString)
  | some (.exited code) =>
    if throwNonZero = false ∨ code = 0 then return code.val
    throw (.issue (.termination (← get).errno code.val))
  | some (.signaled sig) => throw (.issue (.signal (← get).errno sig))
  | some (.stopped sig) => throw (.issue (.signal (← get).errno sig))

end Process

/-- The process with `errno` set, and its `Process::instance()` made. -/
def Proc.waited (s : Proc) (errno : Errno) : Proc :=
  { s with instance? := some s.pid, instance_eq := by simp, errno := errno }

@[simp] theorem Proc.waited_fds (s : Proc) (errno : Errno) : (s.waited errno).fds = s.fds := rfl

theorem run_instancePid (s : Proc) :
    instancePid.run s = .ok s.pid { s with instance? := some s.pid, instance_eq := by simp } := by
  obtain ⟨pid, instance?, hi, mask, disposition, fds, errno⟩ := s
  cases instance? with
  | none => rfl
  | some p =>
    have hp : p = pid := hi p rfl
    subst hp
    rfl

namespace Process

variable {p : Process} {s : Proc}

theorem run_join_self (answer : Except Errno WaitStatus) (throwNonZero : Bool) (h : p.processId = s.pid) :
    (p.join answer throwNonZero).run s = .error (.issue .precondition) (s.waited s.errno) := by
  unfold join
  rw [EStateM.run_bind_ok (run_instancePid s), if_pos h]
  rfl

theorem run_join (answer : Except Errno WaitStatus) (throwNonZero : Bool) (h : p.processId ≠ s.pid) :
    (p.join answer throwNonZero).run s = match answer with
      | .error e => .error (.issue (.osSystemCall e (text "waitpid") (text "on process " ++ p.toString))) (s.waited e)
      | .ok (.exited code) =>
        if throwNonZero = false ∨ code = 0 then .ok code.val (s.waited 0)
        else .error (.issue (.termination 0 code.val)) (s.waited 0)
      | .ok (.signaled sig) => .error (.issue (.signal 0 sig)) (s.waited 0)
      | .ok (.stopped sig) => .error (.issue (.signal 0 sig)) (s.waited 0) := by
  unfold join
  rw [EStateM.run_bind_ok (run_instancePid s), if_neg h]
  rcases answer with e | code | sig | sig
  · rfl
  · change EStateM.run (if throwNonZero = false ∨ code = 0 then pure code.val else do
      throw (Leave.issue (.termination (← get).errno code.val)) : Launch Nat) (s.waited 0) = if _ then _ else _
    split_ifs
    · rfl
    · rfl
  · rfl
  · rfl

/-- Exactly the status of a child that exited is returned, when no exception is asked for. -/
theorem run_join_exited (code : Fin 256) (h : p.processId ≠ s.pid) :
    (p.join (.ok (.exited code)) false).run s = .ok code.val (s.waited 0) := by
  rw [run_join _ _ h]
  exact if_pos (Or.inl rfl)

/-- `join` throws when the child did not exit, and changes no descriptor. -/
theorem run_join_throws {answer : Except Errno WaitStatus}
    (h : p.processId = s.pid ∨ ∀ code, answer ≠ .ok (.exited code)) :
    ∃ i s', (p.join answer false).run s = .error (.issue i) s' ∧ s'.fds = s.fds := by
  by_cases hself : p.processId = s.pid
  · exact ⟨_, _, run_join_self answer false hself, rfl⟩
  · rw [run_join answer false hself]
    rcases answer with e | code | sig | sig
    · exact ⟨_, _, rfl, rfl⟩
    · exact absurd rfl (h.resolve_left hself code)
    · exact ⟨_, _, rfl, rfl⟩
    · exact ⟨_, _, rfl, rfl⟩

end Process

end OksSystem
