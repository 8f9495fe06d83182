import OksSystem.Executable.SignalMask

/-!
# What `pipe_in` returns and what it leaves open

* `Proc.piped`, `Proc.newPipe` : the process after a successful `pipe`, and the two descriptors it gave;
* `run_pipeInFork_parent`, `run_pipeInJoin_exited` : the two halves of `pipe_in` when nothing goes wrong in them;
* `openFds_closed` : they leave open what was open before;
* `copied_eq_delivered_iff` : `copy_fd` copies all there is when no read error cuts it off;
* `PipeInSound` : what a call of `pipe_in` should keep to, `pipeIn_sound_iff` : when it does.
-/

namespace OksSystem
open ByteBuffer EStateM

/-! ## The descriptors of the pipes -/

/-- What a successful `pipe` gives. -/
def Proc.newPipe (s : Proc) (p : PipeName) : Pipe := ⟨s.fds.lowest, (s.fds.alloc (.readEnd p)).lowest⟩

def Proc.piped (s : Proc) (p : PipeName) : Proc := { s with fds := (s.fds.alloc (.readEnd p)).alloc (.writeEnd p) }

def Proc.closed (s : Proc) (fd : Nat) : Proc := { s with fds := s.fds.close fd }

/-- The process with the three pipes of `pipe_in`. -/
def Proc.allPiped (s : Proc) : Proc := ((s.piped .input).piped .data).piped .error

/-- What `pipe_in` holds when it waits for the child `pid`. -/
def Proc.piping (s : Proc) (exe : Executable) (params : List Str) (pid : Pid) : Executable.Piping where
  child := ⟨pid, exe.toString params⟩
  input := s.newPipe .input
  data := (s.piped .input).newPipe .data
  error := ((s.piped .input).piped .data).newPipe .error

/-- Both descriptors of `p` are new in `fds'`, and nothing else is. -/
structure Pipe.NewIn (p : Pipe) (fds fds' : Set Nat) : Prop where
  readEnd : p.readEnd ∉ fds
  writeEnd : p.writeEnd ∉ fds
  ends : p.readEnd ≠ p.writeEnd
  opened : ∀ fd, fd ∈ fds' ↔ fd = p.readEnd ∨ fd = p.writeEnd ∨ fd ∈ fds

variable {s : Proc} {exe : Executable} {params : List Str} {ans : Answers} {pid : Pid}

theorem Proc.newPipe_newIn (s : Proc) (p : PipeName) : (s.newPipe p).NewIn s.fds.openFds (s.piped p).fds.openFds := by
  have hw := (s.fds.alloc (.readEnd p)).lowest_notMem
  rw [FdTable.openFds_alloc, Set.mem_insert_iff, not_or] at hw
  refine ⟨s.fds.lowest_notMem, hw.2, fun h => hw.1 h.symm, fun fd => ?_⟩
  unfold Proc.piped Proc.newPipe
  rw [FdTable.openFds_alloc, FdTable.openFds_alloc, Set.mem_insert_iff, Set.mem_insert_iff]
  exact or_left_comm

theorem Pipe.NewIn.ne {p : Pipe} {fds fds' : Set Nat} (h : p.NewIn fds fds') : fds' ≠ fds := by
  intro heq
  exact h.readEnd (heq ▸ (h.opened _).2 (.inl rfl))

/-- A pipe that was opened before the descriptors `fds` were is still open. -/
theorem Pipe.NewIn.mem {p : Pipe} {fds fds' : Set Nat} (h : p.NewIn fds fds') {fd : Nat} (hfd : fd ∈ fds) : fd ∈ fds' :=
  (h.opened fd).2 (.inr (.inr hfd))

@[simp] theorem Proc.mem_openFds_closed {fd n : Nat} :
    n ∈ (s.closed fd).fds.openFds ↔ n ∈ s.fds.openFds ∧ n ≠ fd := by
  unfold Proc.closed
  rw [FdTable.openFds_close]
  exact Iff.rfl

/-- The process with the write ends closed, before `join`. -/
@[irreducible] def Proc.awaiting (s : Proc) : Proc :=
  ((s.allPiped.closed (s.newPipe .input).writeEnd).closed ((s.piped .input).newPipe .data).writeEnd).closed
    (((s.piped .input).piped .data).newPipe .error).writeEnd

@[simp] theorem Proc.piped_pid (p : PipeName) : (s.piped p).pid = s.pid := rfl

@[simp] theorem Proc.closed_pid (fd : Nat) : (s.closed fd).pid = s.pid := rfl

@[simp] theorem Proc.awaiting_pid : s.awaiting.pid = s.pid := by
  unfold Proc.awaiting Proc.allPiped
  simp only [Proc.closed_pid, Proc.piped_pid]

theorem mem_openFds_awaiting {fd : Nat} : fd ∈ s.awaiting.fds.openFds ↔
    fd = (s.newPipe .input).readEnd ∨ fd = ((s.piped .input).newPipe .data).readEnd ∨
      fd = (((s.piped .input).piped .data).newPipe .error).readEnd ∨ fd ∈ s.fds.openFds := by
  have h1 := s.newPipe_newIn .input
  have h2 := (s.piped .input).newPipe_newIn .data
  have h3 := ((s.piped .input).piped .data).newPipe_newIn .error
  unfold Proc.awaiting Proc.allPiped
  rw [Proc.mem_openFds_closed, Proc.mem_openFds_closed, Proc.mem_openFds_closed, h3.opened, h2.opened, h1.opened]
  have hr2 := h2.readEnd
  have hw2 := h2.writeEnd
  have hr3 := h3.readEnd
  have hw3 := h3.writeEnd
  rw [h1.opened] at hr2 hw2
  rw [h2.opened, h1.opened] at hr3 hw3
  have hr1 := h1.readEnd
  have hw1 := h1.writeEnd
  have he1 := h1.ends
  have he2 := h2.ends
  have he3 := h3.ends
  grind

/-- Closing the read ends too leaves open what was open before. -/
theorem openFds_closed : (((s.awaiting.fds.close (s.newPipe .input).readEnd).close
    ((s.piped .input).newPipe .data).readEnd).close
    (((s.piped .input).piped .data).newPipe .error).readEnd).openFds = s.fds.openFds := by
  have h1 := s.newPipe_newIn .input
  have h2 := (s.piped .input).newPipe_newIn .data
  have h3 := ((s.piped .input).piped .data).newPipe_newIn .error
  have hr2 := h2.readEnd
  have hr3 := h3.readEnd
  rw [h1.opened] at hr2
  rw [h2.opened, h1.opened] at hr3
  have hr1 := h1.readEnd
  ext fd
  rw [FdTable.openFds_close, FdTable.openFds_close, FdTable.openFds_close, Set.mem_sdiff, Set.mem_sdiff, Set.mem_sdiff,
    mem_openFds_awaiting]
  simp only [Set.mem_singleton_iff]
  grind

/-! ## Running `pipe_in` -/

theorem run_pipe (p : PipeName) : (pipe p none).run s = .ok (s.newPipe p) (s.piped p) := rfl

/-- The part of `pipe_in` that opens the pipes, when they open. -/
theorem run_pipeInFork (hpipe : ∀ p, ans.pipe p = none) : (exe.pipeInFork params ans).run s =
    (afterFork ans s.mask
      (childBranch [.sigterm, .sigint] s.mask do
        dup2 (s.piping exe params 0).input.writeEnd 0
        dup2 (s.piping exe params 0).data.writeEnd 1
        dup2 (s.piping exe params 0).error.writeEnd 2
        exe.execParams params ans)
      (fun childId => do
        close (s.piping exe params childId).input.writeEnd
        close (s.piping exe params childId).data.writeEnd
        close (s.piping exe params childId).error.writeEnd
        return some (s.piping exe params childId))
      (return none)).run { s.allPiped with mask := .ofSet sigfillset } := by
  unfold Executable.pipeInFork
  rw [hpipe, hpipe, hpipe, run_bind_ok (run_pipe _), run_bind_ok (run_pipe _), run_bind_ok (run_pipe _),
    run_bind_ok run_blockSignals]
  rfl

theorem run_pipeInFork_parent (hpipe : ∀ p, ans.pipe p = none) (hfork : ans.fork = .parent pid) :
    (exe.pipeInFork params ans).run s = .ok (some (s.piping exe params pid)) s.awaiting := by
  rw [run_pipeInFork hpipe, run_afterFork_parent hfork]
  unfold Proc.awaiting
  rfl

theorem run_pipeInFork_failed {e : Errno} (hpipe : ∀ p, ans.pipe p = none) (hfork : ans.fork = .failed e) :
    (exe.pipeInFork params ans).run s = .ok none { s.allPiped with errno := e } := by
  rw [run_pipeInFork hpipe, run_afterFork_failed hfork]
  rfl

/-- The process once the three streams are copied and the read ends closed. -/
def Proc.drained (s : Proc) (p : Executable.Piping) (output : PipeName → List ReadResult) : Proc :=
  { ((s.closed p.input.readEnd).closed p.data.readEnd).closed p.error.readEnd with
    errno := (readError (output .error)).getD
      ((readError (output .data)).getD ((readError (output .input)).getD s.errno)) }

theorem Proc.drained_fds (p : Executable.Piping) (output : PipeName → List ReadResult) : (s.drained p output).fds =
    ((s.fds.close p.input.readEnd).close p.data.readEnd).close p.error.readEnd := rfl

theorem run_pipeInJoin {waited : Except Errno WaitStatus} {output : PipeName → List ReadResult}
    {p : Executable.Piping} {s₁ : Proc} {status : Nat} (hjoin : (p.child.join waited false).run s = .ok status s₁) :
    (exe.pipeInJoin params p waited output).run s =
      if status = 0 then .ok (copied (output .data)) (s₁.drained p output)
      else .error (.issue (.execution (s₁.drained p output).errno (exe.toString params) status))
        (s₁.drained p output) := by
  unfold Executable.pipeInJoin
  rw [run_bind_ok hjoin, run_bind_ok (run_copyFd _), run_bind_ok (run_copyFd _), run_bind_ok (run_copyFd _),
    run_bind_ok (run_close _), run_bind_ok (run_close _), run_bind_ok (run_close _)]
  split_ifs
  · rfl
  · rfl

/-- An exception of `join` leaves the three read ends open. -/
theorem run_pipeInJoin_error {waited : Except Errno WaitStatus} {output : PipeName → List ReadResult}
    {p : Executable.Piping} {s₁ : Proc} {l : Leave} (hjoin : (p.child.join waited false).run s = .error l s₁) :
    (exe.pipeInJoin params p waited output).run s = .error l s₁ := by
  unfold Executable.pipeInJoin
  exact run_bind_error hjoin

/-! ## What the reads deliver -/

/-- All bytes the reads deliver. -/
def delivered : List ReadResult → Str
  | .bytes chunk _ :: rs => chunk ++ delivered rs
  | .error _ :: rs => delivered rs
  | [] => []

/-- No bytes come after a read error. -/
def Uninterrupted : List ReadResult → Prop
  | .bytes _ _ :: rs => Uninterrupted rs
  | .error _ :: rs => delivered rs = []
  | [] => True

theorem copied_eq_delivered_iff (rs : List ReadResult) : copied rs = delivered rs ↔ Uninterrupted rs := by
  induction rs with
  | nil => exact Iff.of_eq (eq_true rfl)
  | cons r rs ih =>
    cases r with
    | bytes chunk h =>
      unfold copied delivered Uninterrupted
      rw [List.append_cancel_left_eq]
      exact ih
    | error e => exact eq_comm

/-! ## Soundness -/

/-- The three pipes open and a child is forked, another process than the caller. -/
def Answers.Forks (ans : Answers) (s : Proc) : Prop :=
  (∀ p, ans.pipe p = none) ∧ ∃ pid, pid ≠ s.pid ∧ ans.fork = .parent pid

/-- A call of `pipe_in` returns the output of a successful child, throws in all other cases, and leaks no descriptor. -/
structure PipeInSound (exe : Executable) (params : List Str) (ans : Answers) (s : Proc) : Prop where
  returns : ∀ out s', (exe.pipeIn params ans).run s = .ok out s' →
    ans.Forks s ∧ ans.child.status = .exited 0 ∧ out = delivered (ans.child.output .data)
  throws : ¬ (ans.Forks s ∧ ans.child.status = .exited 0) → ∃ i s', (exe.pipeIn params ans).run s = .error (.issue i) s'
  closed : ((exe.pipeIn params ans).run s).state.fds.openFds = s.fds.openFds

/-- `pipe_in` has nothing to release, or comes to the end: the first `pipe` fails, or a child is forked and `waitpid`
gives its exit status (and no read error cuts off the output of a successful one). -/
def Answers.Benign (ans : Answers) (s : Proc) : Prop :=
  ans.pipe .input ≠ none ∨ ans.Forks s ∧ ans.waitpid = none ∧
    ∃ code, ans.child.status = .exited code ∧ (code = 0 → Uninterrupted (ans.child.output .data))

theorem Answers.waited_eq_ok_iff {status : WaitStatus} :
    ans.waited = .ok status ↔ ans.waitpid = none ∧ ans.child.status = status := by
  unfold Answers.waited
  cases ans.waitpid with
  | some e => exact iff_of_false nofun nofun
  | none => exact ⟨fun h => ⟨rfl, Except.ok.inj h⟩, fun h => congrArg Except.ok h.2⟩

theorem run_pipeIn_parent (hpipe : ∀ p, ans.pipe p = none) (hfork : ans.fork = .parent pid) :
    (exe.pipeIn params ans).run s =
      (exe.pipeInJoin params (s.piping exe params pid) ans.waited ans.child.output).run s.awaiting := by
  unfold Executable.pipeIn
  rw [run_bind_ok (run_pipeInFork_parent hpipe hfork)]

/-- A failing `pipe` throws, and the pipes opened before it stay open. -/
theorem run_pipeInFork_pipe (h : ¬ ∀ p, ans.pipe p = none) : ∃ i s',
    (exe.pipeInFork params ans).run s = .error (.issue i) s' ∧
      (s'.fds.openFds = s.fds.openFds ↔ ans.pipe .input ≠ none) := by
  have h1 := s.newPipe_newIn .input
  have h2 := (s.piped .input).newPipe_newIn .data
  unfold Executable.pipeInFork
  cases hi : ans.pipe .input with
  | some e => exact ⟨_, _, run_bind_error (run_pipe_some .input e), iff_of_true rfl (Option.some_ne_none e)⟩
  | none =>
    rw [run_bind_ok (run_pipe _)]
    cases hd : ans.pipe .data with
    | some e => exact ⟨_, _, run_bind_error (run_pipe_some .data e), iff_of_false h1.ne (not_not.2 rfl)⟩
    | none =>
      rw [run_bind_ok (run_pipe _)]
      cases he : ans.pipe .error with
      | some e =>
        refine ⟨_, _, run_bind_error (run_pipe_some .error e), iff_of_false (fun heq => ?_) (not_not.2 rfl)⟩
        exact h1.readEnd (heq ▸ h2.mem ((h1.opened _).2 (.inl rfl)))
      | none =>
        refine absurd (fun p => ?_) h
        cases p with
        | input => exact hi
        | data => exact hd
        | error => exact he

theorem run_pipeIn_pipe (exe : Executable) (params : List Str) (s : Proc) (h : ¬ ∀ p, ans.pipe p = none) : ∃ i s',
    (exe.pipeIn params ans).run s = .error (.issue i) s' ∧
      (s'.fds.openFds = s.fds.openFds ↔ ans.pipe .input ≠ none) := by
  obtain ⟨i, s', hfork, hfds⟩ := @run_pipeInFork_pipe s exe params ans h
  exact ⟨i, s', run_bind_error hfork, hfds⟩

theorem openFds_awaiting_ne (s : Proc) : s.awaiting.fds.openFds ≠ s.fds.openFds := by
  intro heq
  exact (s.newPipe_newIn .input).readEnd (heq ▸ mem_openFds_awaiting.2 (.inl rfl))

/-- Returning the empty string after a failed `fork` is not sound. -/
theorem not_sound_of_failed {e : Errno} (hpipe : ∀ p, ans.pipe p = none) (hfork : ans.fork = .failed e) :
    ¬ PipeInSound exe params ans s := by
  intro h
  have hrun : (exe.pipeIn params ans).run s = .ok [] { s.allPiped with errno := e } := by
    unfold Executable.pipeIn
    rw [run_bind_ok (run_pipeInFork_failed hpipe hfork)]
    rfl
  obtain ⟨⟨-, pid, -, hpid⟩, -⟩ := h.returns _ _ hrun
  rw [hfork] at hpid
  cases hpid

/-- Neither is an exception of `join`. -/
theorem not_sound_of_throws (hpipe : ∀ p, ans.pipe p = none) (hfork : ans.fork = .parent pid)
    (h : pid = s.pid ∨ ∀ code, ans.waited ≠ .ok (.exited code)) : ¬ PipeInSound exe params ans s := by
  intro hsound
  rw [← s.awaiting_pid] at h
  obtain ⟨i, s', hjoin, hfds⟩ := Process.run_join_throws (p := (s.piping exe params pid).child) h
  have hclosed := hsound.closed
  rw [run_pipeIn_parent hpipe hfork, run_pipeInJoin_error hjoin, Result.state_error, hfds] at hclosed
  exact openFds_awaiting_ne s hclosed

/-- `pipe_in` after a child that exited: only its code and its standard output count. -/
theorem run_pipeIn_exited (exe : Executable) (params : List Str) {code : Fin 256} (hpipe : ∀ p, ans.pipe p = none)
    (hfork : ans.fork = .parent pid) (hpid : pid ≠ s.pid) (hwait : ans.waitpid = none)
    (hstatus : ans.child.status = .exited code) : ∃ s',
    s'.fds.openFds = s.fds.openFds ∧ (exe.pipeIn params ans).run s =
      if code.val = 0 then .ok (copied (ans.child.output .data)) s'
      else .error (.issue (.execution s'.errno (exe.toString params) code.val)) s' := by
  have hjoin : ((s.piping exe params pid).child.join ans.waited false).run s.awaiting =
      .ok code.val (s.awaiting.waited 0) := by
    rw [← s.awaiting_pid] at hpid
    rw [Answers.waited_eq_ok_iff.2 ⟨hwait, hstatus⟩]
    exact Process.run_join_exited code hpid
  refine ⟨_, ?_, (run_pipeIn_parent hpipe hfork).trans (run_pipeInJoin hjoin)⟩
  rw [Proc.drained_fds, Proc.waited_fds]
  exact openFds_closed

theorem sound_of_exited {code : Fin 256} (hpipe : ∀ p, ans.pipe p = none) (hfork : ans.fork = .parent pid)
    (hpid : pid ≠ s.pid) (hwait : ans.waitpid = none) (hstatus : ans.child.status = .exited code) :
    PipeInSound exe params ans s ↔ (code = 0 → Uninterrupted (ans.child.output .data)) := by
  obtain ⟨s₁, hclosed, hrun⟩ := run_pipeIn_exited exe params hpipe hfork hpid hwait hstatus
  have hforks : ans.Forks s := ⟨hpipe, pid, hpid, hfork⟩
  constructor
  · rintro h rfl
    rw [if_pos (show (0 : Fin 256).val = 0 from rfl)] at hrun
    exact (copied_eq_delivered_iff _).1 (h.returns _ _ hrun).2.2
  · intro h
    by_cases hc : code = 0
    · subst hc
      rw [if_pos (show (0 : Fin 256).val = 0 from rfl)] at hrun
      refine ⟨fun out s' ho => ?_, fun hnot => absurd ⟨hforks, hstatus⟩ hnot, ?_⟩
      · rw [hrun] at ho
        cases ho
        exact ⟨hforks, hstatus, (copied_eq_delivered_iff _).2 (h rfl)⟩
      · rw [hrun]
        exact hclosed
    · have hc' : code.val ≠ 0 := fun h0 => hc (Fin.ext h0)
      rw [if_neg hc'] at hrun
      refine ⟨fun out s' ho => ?_, fun _ => ⟨_, _, hrun⟩, ?_⟩
      · rw [hrun] at ho
        cases ho
      · rw [hrun]
        exact hclosed

/-- An exception of `pipe` is sound if it is the first one. -/
theorem sound_of_pipe (hpipe : ¬ ∀ p, ans.pipe p = none) : PipeInSound exe params ans s ↔ ans.pipe .input ≠ none := by
  obtain ⟨i, s', hrun, hfds⟩ := run_pipeIn_pipe exe params s hpipe
  rw [← hfds]
  refine ⟨fun h => ?_, fun h => ⟨fun out s₁ ho => ?_, fun _ => ⟨i, s', hrun⟩, ?_⟩⟩
  · have hclosed := h.closed
    rwa [hrun] at hclosed
  · rw [hrun] at ho
    cases ho
  · rwa [hrun]

theorem sound_of_parent (hpipe : ∀ p, ans.pipe p = none) (hfork : ans.fork = .parent pid) :
    PipeInSound exe params ans s ↔ pid ≠ s.pid ∧ ans.waitpid = none ∧
      ∃ code, ans.child.status = .exited code ∧ (code = 0 → Uninterrupted (ans.child.output .data)) := by
  by_cases hex : pid ≠ s.pid ∧ ans.waitpid = none ∧ ∃ code, ans.child.status = .exited code
  · obtain ⟨hpid, hwait, code, hstatus⟩ := hex
    rw [sound_of_exited hpipe hfork hpid hwait hstatus]
    refine ⟨fun h => ⟨hpid, hwait, code, hstatus, h⟩, ?_⟩
    rintro ⟨-, -, code', hstatus', h⟩
    obtain rfl := WaitStatus.exited.inj (hstatus.symm.trans hstatus')
    exact h
  · refine iff_of_false (not_sound_of_throws hpipe hfork ?_) ?_
    · by_contra hnot
      rw [not_or, not_forall] at hnot
      obtain ⟨hpid, code, hcode⟩ := hnot
      obtain ⟨hwait, hstatus⟩ := Answers.waited_eq_ok_iff.1 (not_not.1 hcode)
      exact hex ⟨hpid, hwait, code, hstatus⟩
    · rintro ⟨hpid, hwait, code, hstatus, -⟩
      exact hex ⟨hpid, hwait, code, hstatus⟩

/-- **`pipe_in` is sound exactly when the first `pipe` fails, or it comes to its end after the child exited**: it leaks
when a later `pipe`, `fork` or `waitpid` fails and when a signal ends the child, and a failed `fork` is no error. -/
theorem pipeIn_sound_iff (exe : Executable) (params : List Str) (ans : Answers) (s : Proc) (hchild : ans.fork ≠ .child) :
    PipeInSound exe params ans s ↔ ans.Benign s := by
  unfold Answers.Benign Answers.Forks
  by_cases hpipe : ∀ p, ans.pipe p = none
  · have hinput : ¬ ans.pipe .input ≠ none := not_not.2 (hpipe .input)
    rw [or_iff_right hinput, and_iff_right hpipe]
    cases hfork : ans.fork with
    | child => exact absurd hfork hchild
    | failed e => exact iff_of_false (not_sound_of_failed hpipe hfork) nofun
    | parent pid =>
      rw [sound_of_parent hpipe hfork]
      refine and_congr_left fun _ => ⟨fun hpid => ⟨pid, hpid, rfl⟩, ?_⟩
      rintro ⟨pid', hpid, h⟩
      rwa [Forked.parent.inj h]
  · rw [sound_of_pipe hpipe]
    exact (or_iff_left fun h => hpipe h.1.1).symm

/-- No descriptor is left for the pipe of the standard output (EMFILE). -/
def noDataPipe : Answers := { allSucceed with pipe := fun p => if p = .data then some 24 else none }

/-- After a failed second `pipe` the first one stays open. -/
theorem pipeIn_leaks : ¬ ∀ (exe : Executable) (params : List Str) (ans : Answers) (s : Proc), ans.fork ≠ .child →
    PipeInSound exe params ans s := by
  intro h
  have hclosed := (h ⟨⟨text "ls"⟩⟩ [] noDataPipe plain (by decide)).closed
  have hopen : 3 ∈ plain.fds.openFds := hclosed ▸ (show FdTable.get _ 3 ≠ none by decide)
  exact hopen rfl

theorem pipeIn_sound_iff_noDataPipe :
    PipeInSound ⟨⟨text "ls"⟩⟩ [] noDataPipe plain ↔ noDataPipe.Benign plain :=
  pipeIn_sound_iff ⟨⟨text "ls"⟩⟩ [] noDataPipe plain (by decide)

end OksSystem
