import OksSystem.Lib.Run
import OksSystem.Executable.PipeIn

/-!
# The status of a child

A process that launches children and waits for them, and the kernel's table of these children. While SIGCLD is ignored a
child that ends leaves no status, and `waitpid` on it fails with ECHILD. Other processes come and go, and an id is given out
again once no process has it.

* `World` : the process, its children, the other processes, and the `pipe_in` that is waiting for its child;
* `Event`, `Step`, `world` : the calls of the process, the ends of its children and what others do, in any order;
* `sigcld_iff` : SIGCLD is ignored from the first `start_and_forget` on;
* `children_cases` : all that a step can do to a child; `zombie_of_exit`, `gone_of_exit` : what is left of one that ended;
* `status_obtained_iff` : the status of a child can be had if no `start_and_forget` was called before it ended.
-/

namespace OksSystem
open ByteBuffer EStateM

/-- What the kernel knows of a child. -/
inductive ChildState where
  | running
  | zombie (status : WaitStatus)
  /-- Waited for, or ended without leaving a status. -/
  | gone

def ChildState.there : ChildState → Bool
  | .gone => false
  | _ => true

/-- A call of `pipe_in` that waits for its child. -/
structure PipeInCall where
  exe : Executable
  params : List Str
  holds : Executable.Piping

structure World where
  proc : Proc
  children : Pid → Option ChildState
  pipeIn : Option PipeInCall
  /-- The ids of the processes that are not its children; its own is one of them. -/
  others : Pid → Bool
  /-- The ids of the processes, children or not, that belong to other users and may not be signalled. -/
  foreign : Pid → Bool

inductive Event where
  | start (exe : Executable) (params : List Str) (ans : Answers)
  | startAndForget (exe : Executable) (params : List Str) (ans : Answers)
  /-- A call of `pipe_in`, up to its call of `join`. -/
  | pipeInFork (exe : Executable) (params : List Str) (ans : Answers)
  /-- The rest of the call, and how it ended. -/
  | pipeInJoin (c : PipeInCall) (r : Result Leave Proc Str)
  | join (p : Process) (throwNonZero : Bool) (r : Result Leave Proc Nat)
  /-- `join` on an id that is not positive, which `waitpid` takes for a group of children, and the child it has found. -/
  | joinGroup (p : Process) (throwNonZero : Bool) (found : Option Pid) (r : Result Leave Proc Nat)
  /-- A child ends. -/
  | exit (pid : Pid) (status : WaitStatus)
  /-- Other processes start and end, and children and others change their users. -/
  | elsewhere

namespace World

variable (w : World)

/-- A process has the id; that of a child is free once the child is gone. -/
def there (pid : Pid) : Bool := w.others pid || (w.children pid).any ChildState.there

/-- A child gets an id that no process has. -/
def CanFork : Forked → Prop
  | .failed _ => True
  | .child => False
  | .parent pid => 0 < pid ∧ w.there pid = false ∧ w.foreign pid = false

def forked : Forked → Pid → Option ChildState
  | .parent pid => Function.update w.children pid (some .running)
  | _ => w.children

/-- What `waitpid` answers; 10 is ECHILD. -/
def waitpid (pid : Pid) : Except Errno WaitStatus :=
  match w.children pid with
  | some (.zombie status) => .ok status
  | _ => .error 10

/-- `waitpid(-1,..)` fails only when there is no child left, for another group the kernel knows which children are in it. -/
def Finds (pid : Pid) : Option Pid → Prop
  | some child => ∃ status, w.children child = some (.zombie status)
  | none => pid = -1 → ∀ child, (w.children child).any ChildState.there = false

/-- The children after that. -/
def reaped (pid : Pid) : Pid → Option ChildState :=
  match w.children pid with
  | some (.zombie _) => Function.update w.children pid (some .gone)
  | _ => w.children

/-- The children after the end of one. -/
def ended (pid : Pid) (status : WaitStatus) : Pid → Option ChildState :=
  Function.update w.children pid
    (some (if w.proc.disposition .sigcld = .ign then .gone else .zombie status))

end World

/-- One call of the process, or the end of a child. A call that waits does so until the child has ended. -/
inductive World.Step : World → Event → World → Prop
  | start {w exe params ans} (hidle : w.pipeIn = none) (hfork : w.CanFork ans.fork) :
      Step w (.start exe params ans)
        { w with proc := ((exe.start params ans).run w.proc).state, children := w.forked ans.fork }
  | startAndForget {w exe params ans} (hidle : w.pipeIn = none) (hfork : w.CanFork ans.fork) :
      Step w (.startAndForget exe params ans)
        { w with proc := ((exe.startAndForget params ans).run w.proc).state, children := w.forked ans.fork }
  | pipeInFork {w exe params ans p s} (hidle : w.pipeIn = none) (hfork : w.CanFork ans.fork)
      (hrun : (exe.pipeInFork params ans).run w.proc = .ok (some p) s) :
      Step w (.pipeInFork exe params ans)
        { w with proc := s, children := w.forked ans.fork, pipeIn := some ⟨exe, params, p⟩ }
  | pipeInFails {w exe params ans} (hidle : w.pipeIn = none) (hfork : w.CanFork ans.fork)
      (hrun : ∀ p s, (exe.pipeInFork params ans).run w.proc ≠ .ok (some p) s) :
      Step w (.pipeInFork exe params ans) { w with proc := ((exe.pipeInFork params ans).run w.proc).state }
  | pipeInJoin {w c output r} (hwaits : w.pipeIn = some c) (hended : w.children c.holds.child.processId ≠ some .running)
      (hr : r = (c.exe.pipeInJoin c.params c.holds (w.waitpid c.holds.child.processId) output).run w.proc) :
      Step w (.pipeInJoin c r)
        { w with proc := r.state, children := w.reaped c.holds.child.processId, pipeIn := none }
  | join {w p throwNonZero r} (hidle : w.pipeIn = none) (hid : 0 < p.processId)
      (hended : w.children p.processId ≠ some .running)
      (hr : r = (p.join (w.waitpid p.processId) throwNonZero).run w.proc) :
      Step w (.join p throwNonZero r) { w with proc := r.state, children := w.reaped p.processId }
  -- `join` throws also when `waitpid` has returned the id of a child, and `errno` is 0 then
  | joinGroup {w p throwNonZero found r} (hidle : w.pipeIn = none) (hid : p.processId ≤ 0)
      (hfound : w.Finds p.processId found)
      (hr : r = (p.join (.error (if found = none then 10 else 0)) throwNonZero).run w.proc) :
      Step w (.joinGroup p throwNonZero found r) { w with proc := r.state, children := found.elim w.children w.reaped }
  | exit {w pid status} (hrunning : w.children pid = some .running) (hstatus : ∀ sig, status ≠ .stopped sig) :
      Step w (.exit pid status) { w with children := w.ended pid status }
  | elsewhere {w others foreign} (hself : others w.proc.pid = true) (hpids : ∀ pid, others pid = true → 0 < pid)
      (hchildren : ∀ pid, others pid = true → (w.children pid).any ChildState.there = false)
      (huser : foreign w.proc.pid = false) : Step w .elsewhere { w with others := others, foreign := foreign }

/-- The runs of a process that starts with the default disposition of SIGCLD and without children. -/
def world : LTS World Event where
  init w := w.proc.disposition .sigcld = .dfl ∧ (∀ pid, w.children pid = none) ∧ w.pipeIn = none ∧
    0 < w.proc.pid ∧ w.others w.proc.pid = true
  step := World.Step

/-- A call of `start_and_forget`. -/
def Event.Forgets : Event → Prop
  | .startAndForget .. => True
  | _ => False

/-- A call that waits for `pid`. -/
def Event.WaitsFor (pid : Pid) : Event → Prop
  | .pipeInJoin c _ => c.holds.child.processId = pid
  | .join p _ _ => p.processId = pid
  | .joinGroup _ _ found _ => found = some pid
  | _ => False

/-- A call that forks a child, which gets the id `pid`. -/
def Event.Launches (pid : Pid) : Event → Prop
  | .start _ _ ans => ans.fork = .parent pid
  | .startAndForget _ _ ans => ans.fork = .parent pid
  | .pipeInFork _ _ ans => (∀ p, ans.pipe p = none) ∧ ans.fork = .parent pid
  | _ => False

/-! ## What a step does to the process -/

variable {w w' : World} {e : Event} {is pre post : List Event} {pid : Pid} {st : WaitStatus}

theorem World.CanFork.ne_child {a : Forked} (h : w.CanFork a) : a ≠ .child := by
  rintro rfl
  exact h

theorem World.Step.pid_eq (h : w.Step e w') : w'.proc.pid = w.proc.pid := by
  cases h with
  | start _ hfork => exact congrArg (·.1) (keeps_start _ hfork.ne_child _)
  | startAndForget _ hfork => exact congrArg (·.1) (core_startAndForget _ hfork.ne_child _)
  | @pipeInFork exe params ans p s _ hfork hrun =>
    have hcore : ((exe.pipeInFork params ans).run w.proc).state.core = w.proc.core :=
      keeps_pipeInFork params hfork.ne_child w.proc
    rw [hrun] at hcore
    exact congrArg (·.1) hcore
  | pipeInFails _ hfork _ => exact congrArg (·.1) (keeps_pipeInFork _ hfork.ne_child _)
  | pipeInJoin _ _ hr => exact hr ▸ congrArg (·.1) (keeps_pipeInJoin _ _ _ _ _)
  | join _ _ _ hr => exact hr ▸ congrArg (·.1) (keeps_join _ _ _ _)
  | joinGroup _ _ _ hr => exact hr ▸ congrArg (·.1) (keeps_join _ _ _ _)
  | exit _ _ => rfl
  | elsewhere _ _ _ _ => rfl

/-- Only `start_and_forget` changes the disposition of SIGCLD. -/
theorem World.Step.sigcld_iff (h : w.Step e w') : w'.proc.disposition .sigcld = .ign ↔
    e.Forgets ∨ w.proc.disposition .sigcld = .ign := by
  have hkept : ∀ {s : Proc}, s.core = w.proc.core →
      (s.disposition .sigcld = .ign ↔ False ∨ w.proc.disposition .sigcld = .ign) := by
    intro s hs
    have hd : s.disposition = w.proc.disposition := congrArg (·.2.1) hs
    rw [hd, false_or]
  cases h with
  | start _ hfork => exact hkept (keeps_start _ hfork.ne_child _)
  | startAndForget _ hfork =>
    refine iff_of_true ?_ (.inl trivial)
    exact congrArg (fun c => c.2.1 .sigcld) (core_startAndForget _ hfork.ne_child _)
  | @pipeInFork exe params ans p s _ hfork hrun =>
    have hcore : ((exe.pipeInFork params ans).run w.proc).state.core = w.proc.core :=
      keeps_pipeInFork params hfork.ne_child w.proc
    rw [hrun] at hcore
    exact hkept hcore
  | pipeInFails _ hfork _ => exact hkept (keeps_pipeInFork _ hfork.ne_child _)
  | pipeInJoin _ _ hr => exact hkept (hr ▸ keeps_pipeInJoin _ _ _ _ _)
  | join _ _ _ hr => exact hkept (hr ▸ keeps_join _ _ _ _)
  | joinGroup _ _ _ hr => exact hkept (hr ▸ keeps_join _ _ _ _)
  | exit _ _ => exact hkept rfl
  | elsewhere _ _ _ _ => exact hkept rfl

theorem sigcld_iff (h : world.Run is w) : w.proc.disposition .sigcld = .ign ↔ ∃ e ∈ is, e.Forgets := by
  induction h with
  | init h => simp [h.1]
  | snoc _ hs ih =>
    rw [World.Step.sigcld_iff hs, ih]
    simp only [List.mem_append, List.mem_singleton]
    grind

/-! ## What it does to the children -/

theorem World.children_of_not_there (h : w.there pid = false) :
    w.others pid = false ∧ (w.children pid = none ∨ w.children pid = some .gone) := by
  obtain ⟨hothers, hchild⟩ := Bool.or_eq_false_iff.1 h
  refine ⟨hothers, ?_⟩
  rcases hw : w.children pid with _ | _ | status | _
  · exact .inl rfl
  · simp [hw, ChildState.there] at hchild
  · simp [hw, ChildState.there] at hchild
  · exact .inr rfl

/-- A `pipe_in` that has forked has made its three pipes. -/
theorem pipes_of_pipeInFork {exe : Executable} {params : List Str} {ans : Answers} {s s' : Proc} {x : Option Executable.Piping}
    (h : (exe.pipeInFork params ans).run s = .ok x s') : ∀ p, ans.pipe p = none := by
  by_contra hpipe
  obtain ⟨i, s₁, hrun, -⟩ := @run_pipeInFork_pipe s exe params ans hpipe
  cases h.symm.trans hrun

theorem World.forked_cases {a : Forked} (hfork : w.CanFork a) (pid : Pid) :
    (w.forked a pid = w.children pid ∧ a ≠ .parent pid) ∨
      (a = .parent pid ∧ w.there pid = false ∧ w.forked a pid = some .running) := by
  cases a with
  | parent pid' =>
    by_cases h : pid' = pid
    · subst h
      exact .inr ⟨rfl, hfork.2.1, Function.update_self ..⟩
    · exact .inl ⟨Function.update_of_ne (Ne.symm h) _ _, fun heq => h (Forked.parent.inj heq)⟩
  | child => exact .inl ⟨rfl, nofun⟩
  | failed e => exact .inl ⟨rfl, nofun⟩

theorem World.reaped_cases (w : World) (pid' pid : Pid) : w.reaped pid' pid = w.children pid ∨
    (pid' = pid ∧ (∃ st, w.children pid = some (.zombie st)) ∧ w.reaped pid' pid = some .gone) := by
  unfold World.reaped
  rcases hw : w.children pid' with _ | _ | status | _
  · exact .inl rfl
  · exact .inl rfl
  · by_cases hp : pid' = pid
    · subst hp
      exact .inr ⟨rfl, ⟨status, hw⟩, Function.update_self ..⟩
    · exact .inl (Function.update_of_ne (Ne.symm hp) _ _)
  · exact .inl rfl

/-- All that a step can do to a child: it is launched under a free id, it ends, or a call waits for it. -/
theorem World.Step.children_cases (h : w.Step e w') (pid : Pid) :
    (w'.children pid = w.children pid ∧ ¬ e.Launches pid) ∨
      (e.Launches pid ∧ w.there pid = false ∧ w'.children pid = some .running) ∨
      (∃ st, e = .exit pid st ∧ w.children pid = some .running ∧
        w'.children pid = some (if w.proc.disposition .sigcld = .ign then .gone else .zombie st)) ∨
      (e.WaitsFor pid ∧ (∃ st, w.children pid = some (.zombie st)) ∧ w'.children pid = some .gone) := by
  have hreaped : ∀ pid', (w.reaped pid' pid = w.children pid ∧ ¬ False) ∨
      (pid' = pid ∧ (∃ st, w.children pid = some (.zombie st)) ∧ w.reaped pid' pid = some .gone) :=
    fun pid' => (w.reaped_cases pid' pid).imp_left fun h => ⟨h, id⟩
  cases h with
  | start _ hfork => exact (World.forked_cases hfork pid).imp_right .inl
  | startAndForget _ hfork => exact (World.forked_cases hfork pid).imp_right .inl
  | pipeInFork _ hfork hrun =>
    refine (World.forked_cases hfork pid).imp (fun h => ⟨h.1, fun hnew => h.2 hnew.2⟩) fun h => .inl ?_
    exact ⟨⟨pipes_of_pipeInFork hrun, h.1⟩, h.2⟩
  | pipeInFails _ _ hrun => exact .inl ⟨rfl, fun hnew => hrun _ _ (run_pipeInFork_parent hnew.1 hnew.2)⟩
  | pipeInJoin _ _ _ => exact (hreaped _).imp_right fun h => .inr (.inr h)
  | join _ _ _ _ => exact (hreaped _).imp_right fun h => .inr (.inr h)
  | @joinGroup p throwNonZero found r _ _ _ _ =>
    cases found with
    | none => exact .inl ⟨rfl, id⟩
    | some child => exact (hreaped child).imp_right fun h => .inr (.inr ⟨congrArg some h.1, h.2⟩)
  | @exit pid' status hrunning _ =>
    by_cases hp : pid = pid'
    · subst hp
      exact .inr (.inr (.inl ⟨status, rfl, hrunning, Function.update_self ..⟩))
    · exact .inl ⟨Function.update_of_ne hp _ _, id⟩
  | elsewhere _ _ _ _ => exact .inl ⟨rfl, id⟩

/-- A status that is left stays until a call waits for it. -/
theorem World.Step.zombie (h : w.Step e w') (hc : w.children pid = some (.zombie st)) (hwait : ¬ e.WaitsFor pid) :
    w'.children pid = some (.zombie st) := by
  rcases h.children_cases pid with ⟨heq, -⟩ | ⟨-, hfree, -⟩ | ⟨st', -, hrunning, -⟩ | ⟨hwaits, -⟩
  · rw [heq, hc]
  · rcases (World.children_of_not_there hfree).2 with hnone | hgone
    · cases hc.symm.trans hnone
    · cases hc.symm.trans hgone
  · cases hc.symm.trans hrunning
  · exact absurd hwaits hwait

/-- While SIGCLD is ignored no child leaves a status. -/
theorem World.Step.gone_or_running (h : w.Step e w') (hign : w.proc.disposition .sigcld = .ign)
    (hc : w.children pid = some .gone ∨ w.children pid = some .running) :
    w'.children pid = some .gone ∨ w'.children pid = some .running := by
  rcases h.children_cases pid with ⟨heq, -⟩ | ⟨-, -, heq⟩ | ⟨st, -, -, heq⟩ | ⟨-, -, heq⟩
  · rwa [heq]
  · exact .inr heq
  · exact .inl (heq.trans (by rw [if_pos hign]))
  · exact .inl heq

/-- A child leaves its status if no `start_and_forget` came before its end. -/
theorem zombie_of_exit (h : world.Run (pre ++ .exit pid st :: post) w) (hwait : ∀ e ∈ post, ¬ e.WaitsFor pid)
    (hforgets : ¬ ∃ e ∈ pre, e.Forgets) : w.children pid = some (.zombie st) := by
  refine h.after (fun w₀ w₁ hr hs => ?_) (fun w₀ e w₁ hc he hs => World.Step.zombie hs hc he) hwait
  cases hs with
  | exit _ _ =>
    change Function.update _ _ _ _ = _
    rw [Function.update_self, if_neg fun hign => hforgets ((sigcld_iff hr).1 hign)]

/-- And none if one did; another child may have its id by now. -/
theorem gone_of_exit (h : world.Run (pre ++ .exit pid st :: post) w) (hforgets : ∃ e ∈ pre, e.Forgets) :
    w.children pid = some .gone ∨ w.children pid = some .running := by
  refine (h.ever_after (Q := fun w => w.proc.disposition .sigcld = .ign ∧
    (w.children pid = some .gone ∨ w.children pid = some .running)) (fun w₀ w₁ hr hs => ?_) fun w₀ e w₁ hc hs => ?_).2
  · have hign := (sigcld_iff hr).2 hforgets
    cases hs with
    | exit _ _ =>
      refine ⟨hign, .inl ?_⟩
      change Function.update _ _ _ _ = _
      rw [Function.update_self, if_pos hign]
  · exact ⟨(World.Step.sigcld_iff hs).2 (.inr hc.1), World.Step.gone_or_running hs hc.1 hc.2⟩

theorem World.Step.others_self (h : w.Step e w') (hself : w.others w.proc.pid = true) : w'.others w'.proc.pid = true := by
  rw [h.pid_eq]
  cases h with
  | elsewhere hself' _ _ _ => exact hself'
  | _ => exact hself

/-- No child has the process id of the process itself. -/
theorem World.Step.children_self (h : w.Step e w') (hself : w.others w.proc.pid = true)
    (hnone : w.children w.proc.pid = none) : w'.children w'.proc.pid = none := by
  rw [h.pid_eq]
  rcases h.children_cases w.proc.pid with ⟨heq, -⟩ | ⟨-, hfree, -⟩ | ⟨st, -, hrunning, -⟩ | ⟨-, ⟨st, hzombie⟩, -⟩
  · exact heq.trans hnone
  · exact absurd (World.children_of_not_there hfree).1 (by simp [hself])
  · cases hnone.symm.trans hrunning
  · cases hnone.symm.trans hzombie

theorem children_self (h : world.Run is w) : w.children w.proc.pid = none :=
  (LTS.Run.invariant (T := world) (I := fun w => w.others w.proc.pid = true ∧ w.children w.proc.pid = none)
    (fun _ hw => ⟨hw.2.2.2.2, hw.2.1 _⟩)
    (fun _ _ _ hw hs => ⟨World.Step.others_self hs hw.1, World.Step.children_self hs hw.1 hw.2⟩) h).2

/-! ## What the calls get -/

/-- The call of `pipe_in` ends as it should after an exit with `code`. -/
def Reports (code : Fin 256) (r : Result Leave Proc Str) : Prop :=
  (code = 0 ∧ ∃ out s, r = .ok out s) ∨
    code ≠ 0 ∧ ∃ e command s, r = .error (.issue (.execution e command code.val)) s

/-- `join` returns the code of a child that left its status, and throws when there is none. -/
theorem join_zombie {p : Process} {code : Fin 256} (hself : p.processId ≠ w.proc.pid)
    (hc : w.children p.processId = some (.zombie (.exited code))) :
    (p.join (w.waitpid p.processId) false).run w.proc = .ok code.val (w.proc.waited 0) := by
  unfold World.waitpid
  rw [hc]
  exact Process.run_join_exited code hself

theorem join_gone {p : Process} (hself : p.processId ≠ w.proc.pid) (hc : w.children p.processId = some .gone) :
    (p.join (w.waitpid p.processId) false).run w.proc =
      .error (.issue (.osSystemCall 10 (text "waitpid") (text "on process " ++ p.toString))) (w.proc.waited 10) := by
  unfold World.waitpid
  rw [hc]
  exact Process.run_join (.error 10) false hself

theorem pipeInJoin_zombie {c : PipeInCall} {code : Fin 256} {output : PipeName → List ReadResult}
    (hself : c.holds.child.processId ≠ w.proc.pid)
    (hc : w.children c.holds.child.processId = some (.zombie (.exited code))) :
    Reports code ((c.exe.pipeInJoin c.params c.holds (w.waitpid c.holds.child.processId) output).run w.proc) := by
  rw [run_pipeInJoin (join_zombie hself hc)]
  by_cases h0 : code = 0
  · subst h0
    exact .inl ⟨rfl, _, _, rfl⟩
  · have hval : code.val ≠ 0 := fun h => h0 (Fin.ext h)
    rw [if_neg hval]
    exact .inr ⟨h0, _, _, _, rfl⟩

theorem pipeInJoin_gone {c : PipeInCall} {code : Fin 256} {output : PipeName → List ReadResult}
    (hself : c.holds.child.processId ≠ w.proc.pid) (hc : w.children c.holds.child.processId = some .gone) :
    ¬ Reports code ((c.exe.pipeInJoin c.params c.holds (w.waitpid c.holds.child.processId) output).run w.proc) := by
  rw [run_pipeInJoin_error (join_gone hself hc)]
  rintro (⟨-, out, s, h⟩ | ⟨-, e, command, s, h⟩)
  · cases h
  · cases h

/-- **The exit code of a child reaches the call that waits for it exactly when no `start_and_forget` was called before the
child ended**, be it `join` or the one inside `pipe_in`. -/
theorem status_obtained_iff {code : Fin 256} (h : world.Run (pre ++ .exit pid (.exited code) :: post) w)
    (hwait : ∀ e ∈ post, ¬ e.WaitsFor pid) :
    (∀ p r w', p.processId = pid → world.step w (.join p false r) w' →
      ((∃ s, r = .ok code.val s) ↔ ∀ e ∈ pre, ¬ e.Forgets)) ∧
    (∀ c r w', c.holds.child.processId = pid → world.step w (.pipeInJoin c r) w' →
      (Reports code r ↔ ∀ e ∈ pre, ¬ e.Forgets)) := by
  by_cases hforgets : ∃ e ∈ pre, e.Forgets
  · have hnot : ¬ ∀ e ∈ pre, ¬ e.Forgets := by simpa using hforgets
    -- the call waits until the child that has the id now has ended
    have hleft : w.children pid ≠ some .running → w.children pid = some .gone := (gone_of_exit h hforgets).resolve_right
    have hself : w.children pid = some .gone → pid ≠ w.proc.pid := by
      rintro hgone rfl
      cases (children_self h).symm.trans hgone
    constructor
    · rintro p r w' rfl hs
      cases hs with
      | join _ _ hended hr =>
        refine iff_of_false ?_ hnot
        rw [hr, join_gone (hself (hleft hended)) (hleft hended)]
        rintro ⟨s, hs⟩
        cases hs
    · rintro c r w' rfl hs
      cases hs with
      | pipeInJoin _ hended hr =>
        subst hr
        exact iff_of_false (pipeInJoin_gone (hself (hleft hended)) (hleft hended)) hnot
  · have hall : ∀ e ∈ pre, ¬ e.Forgets := by simpa using hforgets
    have hleft := zombie_of_exit h hwait hforgets
    have hself : pid ≠ w.proc.pid := by
      rintro rfl
      cases (children_self h).symm.trans hleft
    constructor
    · rintro p r w' rfl hs
      cases hs with
      | join _ _ _ hr =>
        subst hr
        exact iff_of_true ⟨_, join_zombie hself hleft⟩ hall
    · rintro c r w' rfl hs
      cases hs with
      | pipeInJoin _ _ hr =>
        subst hr
        exact iff_of_true (pipeInJoin_zombie hself hleft) hall

/-! ## A run that loses a status -/

def shell : Executable := ⟨⟨text "/bin/sh"⟩⟩

def forks (pid : Pid) : Answers := { allSucceed with fork := .parent pid }

/-- The process `plain` without children, and no other process. -/
def alone : World := ⟨plain, fun _ => none, none, fun pid => pid == 100, fun _ => false⟩

def afterStart : World :=
  { alone with proc := ((shell.start [] (forks 101)).run plain).state, children := alone.forked (.parent 101) }

def afterForget : World :=
  { afterStart with
    proc := ((shell.startAndForget [] (forks 102)).run afterStart.proc).state
    children := afterStart.forked (.parent 102) }

/-- The child of `start` has exited with 7. -/
def afterExit : World := { afterForget with children := afterForget.ended 101 (.exited 7) }

theorem step_start : alone.Step (.start shell [] (forks 101)) afterStart :=
  .start rfl ⟨by decide, rfl, rfl⟩

theorem step_forget : afterStart.Step (.startAndForget shell [] (forks 102)) afterForget :=
  .startAndForget rfl ⟨by decide, rfl, rfl⟩

theorem step_exit : afterForget.Step (.exit 101 (.exited 7)) afterExit := .exit rfl fun _ => WaitStatus.noConfusion

theorem run_start : world.Run [.start shell [] (forks 101)] afterStart :=
  LTS.Run.snoc (.init (T := world) (s := alone) ⟨rfl, fun _ => rfl, rfl, by decide, rfl⟩) step_start

theorem run_exit : world.Run [.start shell [] (forks 101), .startAndForget shell [] (forks 102),
    .exit 101 (.exited 7)] afterExit := (run_start.snoc step_forget).snoc step_exit

/-- `start`, `start_and_forget`, and the child of `start` exits with 7: `join` on it throws. -/
theorem join_loses_status : ¬ ∀ (pre post : List Event) (pid : Pid) (code : Fin 256) (w w' : World) (p : Process)
    (r : Result Leave Proc Nat), world.Run (pre ++ .exit pid (.exited code) :: post) w →
      (∃ exe params ans, .start exe params ans ∈ pre ∧ ans.fork = .parent pid) →
      (∀ e ∈ post, ¬ e.WaitsFor pid) → p.processId = pid → world.step w (.join p false r) w' →
      ∃ s, r = .ok code.val s := by
  intro h
  have hleft : afterExit.children 101 = some .gone := rfl
  have hself : 101 ≠ afterExit.proc.pid := by
    rw [step_exit.pid_eq, step_forget.pid_eq, step_start.pid_eq]
    decide
  obtain ⟨s, hs⟩ := h [.start shell [] (forks 101), .startAndForget shell [] (forks 102)] [] 101 7 afterExit _ ⟨101, []⟩ _
    run_exit ⟨shell, [], forks 101, List.mem_cons_self, rfl⟩ (fun _ he => absurd he List.not_mem_nil) rfl
    (.join rfl (by decide) (by rw [hleft]; exact fun hc => by cases hc) rfl)
  rw [join_gone hself hleft] at hs
  cases hs

theorem status_obtained_iff_exit :
    (∃ s, ((⟨101, []⟩ : Process).join (afterExit.waitpid 101) false).run afterExit.proc = .ok 7 s) ↔
      ∀ e ∈ [Event.start shell [] (forks 101), .startAndForget shell [] (forks 102)], ¬ e.Forgets := by
  have hrun : world.Run ([.start shell [] (forks 101), .startAndForget shell [] (forks 102)] ++
    .exit 101 (.exited 7) :: []) afterExit := run_exit
  have hleft : afterExit.children 101 = some .gone := rfl
  have hjoin : world.step afterExit (.join ⟨101, []⟩ false _) _ :=
    .join rfl (by decide) (by rw [hleft]; exact fun hc => by cases hc) rfl
  exact (status_obtained_iff hrun fun _ he => absurd he List.not_mem_nil).1 ⟨101, []⟩ _ _ rfl hjoin

end OksSystem
