import OksSystem.Executable.PipeIn

/-!
# Complete copies of a descriptor

* `Source`, `copyFdInto` : `copy_fd` with the stream it writes to and what it leaves of the descriptor;
* `copiesAll_iff` : the copy is complete iff no `read` fails before the end of the file;
* `Answers.succeeds_of_ok` : what has to go well for `pipe_in` to return something of a child;
* `copied_complete_iff` : **both hand on a part as if it were the whole after a failing `read`, and only then**.
-/

namespace OksSystem
open ByteBuffer EStateM

/-- A descriptor being read: what is left before the end of the file, and whether a `read` has met the end. -/
structure Source where
  reads : List ReadResult
  ended : Bool

/-- The loop over the characters in the buffer. -/
def putChars (target buffer : Str) : Str := buffer.foldl (fun t c => t ++ [c]) target

/-- `copy_fd(fd, target)`: it returns at a `read` that gives no byte, be it the end of the file or an error. -/
def copyFdInto : List ReadResult → Str → Source × Str
  | [], target => (⟨[], true⟩, target)
  | .error _ :: rs, target => (⟨rs, false⟩, target)
  | .bytes buffer _ :: rs, target => copyFdInto rs (putChars target buffer)

theorem putChars_eq (target buffer : Str) : putChars target buffer = target ++ buffer := by
  unfold putChars
  induction buffer generalizing target with
  | nil => rw [List.foldl_nil, List.append_nil]
  | cons c buffer ih => rw [List.foldl_cons, ih, List.append_assoc, List.singleton_append]

/-- What `copy_fd` leaves of the stream, whatever the stream held. -/
theorem copyFdInto_target (rs : List ReadResult) (target : Str) : (copyFdInto rs target).2 = target ++ copied rs := by
  induction rs generalizing target with
  | nil => exact (List.append_nil target).symm
  | cons r rs ih =>
    cases r with
    | bytes buffer h =>
      unfold copyFdInto copied
      rw [ih, putChars_eq, List.append_assoc]
    | error e => exact (List.append_nil target).symm

/-- `copy_fd` does not tell which of the two made it return. -/
theorem copyFdInto_source (rs : List ReadResult) (target : Str) :
    (copyFdInto rs target).1 = ⟨[], true⟩ ↔ ∀ e, .error e ∉ rs := by
  induction rs generalizing target with
  | nil => exact iff_of_true rfl fun e => List.not_mem_nil
  | cons r rs ih =>
    cases r with
    | bytes buffer h =>
      unfold copyFdInto
      rw [ih]
      simp
    | error e =>
      refine iff_of_false (fun h => ?_) fun h => h e List.mem_cons_self
      exact Bool.false_ne_true (congrArg Source.ended h)

/-- Without a failing `read` everything is copied. -/
theorem uninterrupted_of_no_error : ∀ rs : List ReadResult, (∀ e, .error e ∉ rs) → Uninterrupted rs
  | [], _ => trivial
  | .bytes _ _ :: rs, h => uninterrupted_of_no_error rs fun e he => h e (List.mem_cons_of_mem _ he)
  | .error e :: _, h => absurd List.mem_cons_self (h e)

/-- The stream has received all bytes of the file, and its end was met. -/
def CopiesAll (rs : List ReadResult) (target : Str) : Prop :=
  copyFdInto rs target = (⟨[], true⟩, target ++ delivered rs)

theorem copiesAll_iff (rs : List ReadResult) (target : Str) : CopiesAll rs target ↔ ∀ e, .error e ∉ rs := by
  unfold CopiesAll
  rw [Prod.ext_iff, copyFdInto_source, copyFdInto_target, List.append_cancel_left_eq, copied_eq_delivered_iff]
  exact and_iff_left_of_imp (uninterrupted_of_no_error rs)

/-! ## In `pipe_in` -/

variable {exe : Executable} {params : List Str} {ans : Answers} {s : Proc} {pid : Pid}

/-- A child is forked and waited for, and exits with 0. -/
def Answers.Succeeds (ans : Answers) (s : Proc) : Prop :=
  ans.Forks s ∧ ans.waitpid = none ∧ ans.child.status = .exited 0

theorem run_pipeIn_succeeds (exe : Executable) (params : List Str) (h : ans.Succeeds s) :
    ∃ s', (exe.pipeIn params ans).run s = .ok (copied (ans.child.output .data)) s' := by
  obtain ⟨⟨hpipe, pid, hpid, hfork⟩, hwait, hstatus⟩ := h
  obtain ⟨s', -, hrun⟩ := run_pipeIn_exited exe params hpipe hfork hpid hwait hstatus
  exact ⟨s', hrun.trans (if_pos rfl)⟩

/-- `pipe_in` returns something of its child only if that succeeded. -/
theorem Answers.succeeds_of_ok {out : Str} {s' : Proc} (hfork : ans.fork = .parent pid)
    (h : (exe.pipeIn params ans).run s = .ok out s') : ans.Succeeds s := by
  have hpipe : ∀ p, ans.pipe p = none := by
    by_contra hnot
    obtain ⟨i, s₁, hrun, -⟩ := run_pipeIn_pipe exe params s hnot
    rw [hrun] at h
    cases h
  have hjoined : pid ≠ s.pid ∧ ∃ code, ans.waited = .ok (.exited code) := by
    by_contra hnot
    rw [not_and_or, not_not, not_exists, ← s.awaiting_pid] at hnot
    obtain ⟨i, s₁, hjoin, -⟩ := Process.run_join_throws (p := (s.piping exe params pid).child) hnot
    rw [run_pipeIn_parent hpipe hfork, run_pipeInJoin_error hjoin] at h
    cases h
  obtain ⟨hpid, code, hcode⟩ := hjoined
  obtain ⟨hwait, hstatus⟩ := Answers.waited_eq_ok_iff.1 hcode
  obtain ⟨s₁, -, hrun⟩ := run_pipeIn_exited exe params hpipe hfork hpid hwait hstatus
  by_cases hzero : code.val = 0
  · obtain rfl : code = 0 := Fin.ext hzero
    exact ⟨⟨hpipe, pid, hpid, hfork⟩, hwait, hstatus⟩
  · rw [hrun, if_neg hzero] at h
    cases h

/-- What `pipe_in` returns of a child is all of its standard output. -/
def PipesAll (exe : Executable) (params : List Str) (ans : Answers) (s : Proc) : Prop :=
  ∀ pid, ans.fork = .parent pid → ∀ out s', (exe.pipeIn params ans).run s = .ok out s' →
    out = delivered (ans.child.output .data)

theorem pipesAll_iff (exe : Executable) (params : List Str) (ans : Answers) (s : Proc) :
    PipesAll exe params ans s ↔ (ans.Succeeds s → Uninterrupted (ans.child.output .data)) := by
  constructor
  · intro h hs
    obtain ⟨s', hrun⟩ := run_pipeIn_succeeds exe params hs
    obtain ⟨⟨-, pid, -, hfork⟩, -⟩ := hs
    exact (copied_eq_delivered_iff _).1 (h pid hfork _ _ hrun)
  · intro h pid hfork out s' hout
    have hs := Answers.succeeds_of_ok hfork hout
    obtain ⟨s₁, hrun⟩ := run_pipeIn_succeeds exe params hs
    rw [hrun] at hout
    cases hout
    exact (copied_eq_delivered_iff _).2 (h hs)

/-- **A copy is complete, and the end of the file met, iff no `read` fails before; `pipe_in` returns all of the standard
output of a child iff no bytes come after a failing `read`, or it throws.** -/
theorem copied_complete_iff (rs : List ReadResult) (target : Str) (exe : Executable) (params : List Str) (ans : Answers)
    (s : Proc) : (CopiesAll rs target ↔ ∀ e, .error e ∉ rs) ∧
      (PipesAll exe params ans s ↔ (ans.Succeeds s → Uninterrupted (ans.child.output .data))) :=
  ⟨copiesAll_iff rs target, pipesAll_iff exe params ans s⟩

/-- Two chunks, with an interrupted `read` (EINTR) between them. -/
def interrupted : List ReadResult := [.bytes (text "a") (by decide), .error 4, .bytes (text "b") (by decide)]

/-- The second chunk is lost, and `pipe_in` succeeds. -/
theorem interrupted_copy_ends : ¬ (∀ rs target, CopiesAll rs target) ∧ ¬ ∀ exe params ans s, PipesAll exe params ans s := by
  constructor
  · intro h
    exact (copiesAll_iff _ _).1 (h interrupted []) 4 (by simp [interrupted])
  · intro h
    let ans := { allSucceed with child := ⟨.exited 0, fun _ => interrupted⟩ }
    have hall := (pipesAll_iff ⟨⟨text "ls"⟩⟩ [] ans plain).1 (h _ _ _ _)
    have hs : ans.Succeeds plain := ⟨⟨fun _ => rfl, _, by decide, rfl⟩, rfl, rfl⟩
    have hlost : text "b" ++ [] = [] := hall hs
    exact absurd hlost (by decide)

end OksSystem
