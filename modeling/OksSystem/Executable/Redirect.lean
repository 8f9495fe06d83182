import OksSystem.Executable.SignalMask

/-!
# The standard descriptors of the child of `pipe_out`

The child copies the descriptors of the three files to 0, 1 and 2 and then closes the ones it copied from. A descriptor
that was opened at 0, 1 or 2 is closed with them.

* `childTable` : the descriptor table with which the child of `pipe_out` calls `exec`, `run_redirected_child`;
* `Redirected` : 0, 1 and 2 refer to the three files;
* `redirected_childTable_iff` : they do exactly when 0, 1 and 2 were open when `pipe_out` was called;
* `pipeOut_redirects_iff` : the same for both overloads.
-/

namespace OksSystem
open ByteBuffer EStateM

/-- `fd` refers to `file`, opened in whatever way. -/
def RefersTo (t : FdTable OpenFile) (fd : Nat) (file : File) : Prop :=
  ∃ flags perm, t.get fd = some (.file file.fullName flags perm)

structure Redirected (t : FdTable OpenFile) (inputFile outputFile errorFile : File) : Prop where
  input : RefersTo t 0 inputFile
  output : RefersTo t 1 outputFile
  error : RefersTo t 2 errorFile

/-- Standard input, output and error are open. -/
def StandardOpen (t : FdTable OpenFile) : Prop := ∀ fd < 3, fd ∈ t.openFds

/-! ## The table of the child -/

section childTable

variable (inputFile outputFile errorFile : File) (perm : Nat) (t : FdTable OpenFile)

/-- After the first, the second and the third `Descriptor`. -/
def withInput : FdTable OpenFile := t.alloc (.file inputFile.fullName (Descriptor.flags true false) perm)

def withOutput : FdTable OpenFile :=
  (withInput inputFile perm t).alloc (.file outputFile.fullName (Descriptor.flags false true) perm)

def withError : FdTable OpenFile :=
  (withOutput inputFile outputFile perm t).alloc (.file errorFile.fullName (Descriptor.flags false true) perm)

/-- The three numbers `open` gave. -/
def inputFd : Nat := t.lowest

def outputFd : Nat := (withInput inputFile perm t).lowest

def errorFd : Nat := (withOutput inputFile outputFile perm t).lowest

/-- After the calls of `dup2`. -/
def dupped : FdTable OpenFile :=
  (((withError inputFile outputFile errorFile perm t).dup2 (inputFd t) 0).dup2 (outputFd inputFile perm t) 1).dup2
    (errorFd inputFile outputFile perm t) 2

/-- The table with which the child calls `exec`. -/
def childTable : FdTable OpenFile :=
  (((dupped inputFile outputFile errorFile perm t).close (inputFd t)).close (outputFd inputFile perm t)).close
    (errorFd inputFile outputFile perm t)

/-- Whatever was opened at the lowest free number is closed again. -/
theorem get_childTable_inputFd : (childTable inputFile outputFile errorFile perm t).get (inputFd t) = none := by
  unfold childTable
  rw [FdTable.get_close, FdTable.get_close, FdTable.get_close, if_pos rfl]
  split_ifs <;> rfl

variable {t}

theorem three_le_of_get (h : StandardOpen t) {fd : Nat} (hfd : t.get fd = none) : 3 ≤ fd := by
  by_contra hlt
  exact h fd (by omega) hfd

theorem get_withInput (n : Nat) : (withInput inputFile perm t).get n =
    if n = inputFd t then some (.file inputFile.fullName (Descriptor.flags true false) perm) else t.get n :=
  FdTable.get_alloc ..

theorem get_withOutput (n : Nat) : (withOutput inputFile outputFile perm t).get n =
    if n = outputFd inputFile perm t then some (.file outputFile.fullName (Descriptor.flags false true) perm)
    else (withInput inputFile perm t).get n :=
  FdTable.get_alloc ..

theorem get_withError (n : Nat) : (withError inputFile outputFile errorFile perm t).get n =
    if n = errorFd inputFile outputFile perm t then
      some (.file errorFile.fullName (Descriptor.flags false true) perm)
    else (withOutput inputFile outputFile perm t).get n :=
  FdTable.get_alloc ..

/-- `outputFd` is free in the table it was taken from, and is not the number before it. -/
theorem get_outputFd : t.get (outputFd inputFile perm t) = none ∧ outputFd inputFile perm t ≠ inputFd t := by
  have h := FdTable.get_lowest (withInput inputFile perm t)
  change (withInput inputFile perm t).get (outputFd inputFile perm t) = none at h
  rw [get_withInput] at h
  split_ifs at h with he
  exact ⟨h, he⟩

theorem get_errorFd : t.get (errorFd inputFile outputFile perm t) = none ∧
    errorFd inputFile outputFile perm t ≠ inputFd t ∧
    errorFd inputFile outputFile perm t ≠ outputFd inputFile perm t := by
  have h := FdTable.get_lowest (withOutput inputFile outputFile perm t)
  change (withOutput inputFile outputFile perm t).get (errorFd inputFile outputFile perm t) = none at h
  rw [get_withOutput, get_withInput] at h
  split_ifs at h with he hi
  exact ⟨h, hi, he⟩

/-- With 0, 1 and 2 open the files get numbers from 3 on, and the calls of `close` leave the copies alone. -/
theorem redirected_of_standardOpen (h : StandardOpen t) :
    Redirected (childTable inputFile outputFile errorFile perm t) inputFile outputFile errorFile := by
  obtain ⟨ho, hoi⟩ := get_outputFd inputFile perm (t := t)
  obtain ⟨he, hei, heo⟩ := get_errorFd inputFile outputFile perm (t := t)
  have h3i : 3 ≤ inputFd t := three_le_of_get h (FdTable.get_lowest t)
  have h3o := three_le_of_get h ho
  have h3e := three_le_of_get h he
  have hchild : ∀ n < 3, (childTable inputFile outputFile errorFile perm t).get n =
      (dupped inputFile outputFile errorFile perm t).get n := by
    intro n hn
    unfold childTable
    rw [FdTable.get_close, FdTable.get_close, FdTable.get_close, if_neg (by omega), if_neg (by omega),
      if_neg (by omega)]
  have hopen : ∀ n, (withError inputFile outputFile errorFile perm t).get n =
      if n = errorFd inputFile outputFile perm t then
        some (.file errorFile.fullName (Descriptor.flags false true) perm)
      else if n = outputFd inputFile perm t then
        some (.file outputFile.fullName (Descriptor.flags false true) perm)
      else if n = inputFd t then some (.file inputFile.fullName (Descriptor.flags true false) perm)
      else t.get n := by
    intro n
    rw [get_withError, get_withOutput, get_withInput]
  -- each number from 3 on keeps its entry through the calls of `dup2`
  constructor
  · refine ⟨Descriptor.flags true false, perm, ?_⟩
    rw [hchild 0 (by omega)]
    unfold dupped
    simp [FdTable.get_dup2, hopen, hoi.symm, hei.symm]
  · refine ⟨Descriptor.flags false true, perm, ?_⟩
    rw [hchild 1 (by omega)]
    unfold dupped
    simp [FdTable.get_dup2, hopen, heo.symm, show outputFd inputFile perm t ≠ 0 by omega]
  · refine ⟨Descriptor.flags false true, perm, ?_⟩
    rw [hchild 2 (by omega)]
    unfold dupped
    simp [FdTable.get_dup2, hopen, show errorFd inputFile outputFile perm t ≠ 0 by omega,
      show errorFd inputFile outputFile perm t ≠ 1 by omega]

/-- **The child's descriptors 0, 1 and 2 are the three files exactly when the caller had 0, 1 and 2 open.** The lowest
free number is the input file's; if it is below 3 it ends up closed. -/
theorem redirected_childTable_iff :
    Redirected (childTable inputFile outputFile errorFile perm t) inputFile outputFile errorFile ↔ StandardOpen t := by
  refine ⟨fun h fd hfd hnone => ?_, redirected_of_standardOpen inputFile outputFile errorFile perm⟩
  have hle : inputFd t ≤ fd := t.lowest_le hnone
  have hclosed := get_childTable_inputFd inputFile outputFile errorFile perm t
  obtain ⟨⟨_, _, h0⟩, ⟨_, _, h1⟩, ⟨_, _, h2⟩⟩ := h
  have hcases : inputFd t = 0 ∨ inputFd t = 1 ∨ inputFd t = 2 := by omega
  rcases hcases with hi | hi | hi <;> rw [hi] at hclosed <;> simp_all

end childTable

/-! ## Running the child -/

variable {ans : Answers}

/-- How the child leaves a launch whose `exec` is called with these arguments. -/
def Answers.execs (ans : Answers) (argv : List Str) (env : Option (List Str)) : Leave :=
  match ans.execve with
  | none => .exec argv env
  | some _ => .exit exitFailure

/-- The child calls `exec` with the descriptor table `childTable`, whatever `execve` answers. -/
theorem run_redirected_child (exe : Executable) (params argv : List Str) (env : Option (List Str))
    (inputFile outputFile errorFile : File) (perm : Nat) (hopens : ans.Opens) (hfork : ans.fork = .child) (s : Proc) :
    ∃ s', (exe.redirected params (Executable.exec argv env ans) inputFile outputFile errorFile perm ans).run s =
      .error (ans.execs argv env) s' ∧ s'.fds = childTable inputFile outputFile errorFile perm s.fds := by
  obtain ⟨hi, ho, he⟩ := hopens
  unfold Executable.redirected Answers.execs Executable.exec
  rw [hi, ho, he]
  unfold afterFork
  rw [hfork]
  cases ans.execve with
  | none => exact ⟨_, rfl, rfl⟩
  | some e => exact ⟨_, rfl, rfl⟩

/-- What `exec` is called with in `pipe_out(params,envs,…)`: each variable is its name, '=' and its value. -/
def environment (envs : List (Str × Str)) : List Str := envs.map fun e => cstr (e.1 ++ text "=" ++ e.2)

/-- **The child of either `pipe_out` calls `exec` with 0, 1 and 2 on the three files exactly when the caller had 0, 1 and
2 open.** -/
theorem pipeOut_redirects_iff (exe : Executable) (params : List Str) (envs : List (Str × Str))
    (inputFile outputFile errorFile : File) (perm : Nat) (ans : Answers) (s : Proc) (hopens : ans.Opens)
    (hfork : ans.fork = .child) :
    (∃ s', (exe.pipeOut params inputFile outputFile errorFile perm ans).run s =
        .error (ans.execs (cstr exe.fullName :: params.map cstr) none) s' ∧
      (Redirected s'.fds inputFile outputFile errorFile ↔ StandardOpen s.fds)) ∧
    (∃ s', (exe.pipeOutEnvs params envs inputFile outputFile errorFile perm ans).run s =
        .error (ans.execs (cstr exe.fullName :: params.map cstr) (some (environment envs))) s' ∧
      (Redirected s'.fds inputFile outputFile errorFile ↔ StandardOpen s.fds)) := by
  constructor
  · obtain ⟨s', hrun, hfds⟩ := run_redirected_child exe params (cstr exe.fullName :: params.map cstr) none
      inputFile outputFile errorFile perm hopens hfork s
    refine ⟨s', hrun, ?_⟩
    rw [hfds]
    exact redirected_childTable_iff ..
  · obtain ⟨s', hrun, hfds⟩ := run_redirected_child exe params (cstr exe.fullName :: params.map cstr)
      (some (environment envs)) inputFile outputFile errorFile perm hopens hfork s
    refine ⟨s', hrun, ?_⟩
    rw [hfds]
    exact redirected_childTable_iff ..

/-- A daemon: standard input is closed. -/
def daemon : Proc := { plain with fds := ⟨[none, some (.other 1), some (.other 2)]⟩ }

def inChild : Answers := { allSucceed with fork := .child }

/-- A daemon's child has no standard input at all. -/
theorem pipeOut_closes_input :
    ¬ ∀ (exe : Executable) (params : List Str) (inputFile outputFile errorFile : File) (perm : Nat) (ans : Answers)
      (s : Proc), ans.Opens → ans.fork = .child →
        Redirected ((exe.pipeOut params inputFile outputFile errorFile perm ans).run s).state.fds
          inputFile outputFile errorFile := by
  intro h
  obtain ⟨⟨_, _, hget⟩, _, _⟩ :=
    h ⟨⟨text "cat"⟩⟩ [] ⟨text "in"⟩ ⟨text "out"⟩ ⟨text "err"⟩ 0o644 inChild daemon ⟨rfl, rfl, rfl⟩ rfl
  have hnone : ((Executable.pipeOut ⟨⟨text "cat"⟩⟩ [] ⟨text "in"⟩ ⟨text "out"⟩ ⟨text "err"⟩ 0o644 inChild).run
      daemon).state.fds.get 0 = none := by rfl
  rw [hnone] at hget
  exact absurd hget (by simp)

theorem pipeOut_redirects_iff_daemon :
    (∃ s', (Executable.pipeOut ⟨⟨text "cat"⟩⟩ [] ⟨text "in"⟩ ⟨text "out"⟩ ⟨text "err"⟩ 0o644 inChild).run daemon =
        .error (inChild.execs (cstr (text "cat") :: [].map cstr) none) s' ∧
      (Redirected s'.fds ⟨text "in"⟩ ⟨text "out"⟩ ⟨text "err"⟩ ↔ StandardOpen daemon.fds)) ∧
    (∃ s', (Executable.pipeOutEnvs ⟨⟨text "cat"⟩⟩ [] [] ⟨text "in"⟩ ⟨text "out"⟩ ⟨text "err"⟩ 0o644 inChild).run
        daemon = .error (inChild.execs (cstr (text "cat") :: [].map cstr) (some (environment []))) s' ∧
      (Redirected s'.fds ⟨text "in"⟩ ⟨text "out"⟩ ⟨text "err"⟩ ↔ StandardOpen daemon.fds)) :=
  pipeOut_redirects_iff ⟨⟨text "cat"⟩⟩ [] [] ⟨text "in"⟩ ⟨text "out"⟩ ⟨text "err"⟩ 0o644 inChild daemon
    ⟨rfl, rfl, rfl⟩ rfl

end OksSystem
