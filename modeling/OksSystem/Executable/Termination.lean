import OksSystem.Executable.Children

/-!
# Terminating a child

`terminate` asks with one `::kill` whether the process exists and sends SIGTERM with another one. The child can end in
between.

* `kill`, `Process.sendSignal`, `Process.isThere`, `Process.terminate` : the members that signal a process;
* `World.kill` : what `::kill` answers; `Lost`, `isThere_iff` : when `exists` is false, told by what happened to the child;
* `Control`, `Action`, `control` : a process that also terminates its children, with `terminate` in its two halves;
* `terminate_throws_iff` : when `terminate` throws.
-/

namespace OksSystem
open ByteBuffer EStateM

/-- ESRCH. -/
def eSrch : Errno := 3

/-- EPERM. -/
def ePerm : Errno := 1

def sigterm : Nat := 15

/-- `::kill(pid,sig)`: whether it succeeds. -/
def kill (answer : Option Errno) : Launch Bool := do
  if let some e := answer then modify fun s => { s with errno := e }
  return answer.isNone

namespace Process

/-- `signal(signal_number)`, with what `::kill` answers to that signal. -/
def sendSignal (p : Process) (signalNumber : Nat) (answer : Nat → Option Errno) : Launch Unit := do
  if !(← kill (answer signalNumber)) then throwSysCall (text "kill") (text "on process " ++ p.toString)

/-- `exists()`. -/
def isThere (answer : Nat → Option Errno) : Launch Bool := kill (answer 0)

/-- `terminate()`, with what `::kill` answers at the first and at the second call. -/
def terminate (p : Process) (first second : Nat → Option Errno) : Launch Unit := do
  if ← isThere first then p.sendSignal sigterm second

variable {p : Process} {s : Proc} {answer first second : Nat → Option Errno}

theorem run_isThere : (isThere answer).run s =
    .ok (answer 0).isNone { s with errno := (answer 0).getD s.errno } := by
  unfold isThere kill
  cases answer 0 with
  | none => rfl
  | some e => rfl

theorem run_sendSignal (signalNumber : Nat) : (p.sendSignal signalNumber answer).run s =
    match answer signalNumber with
    | none => .ok () s
    | some e => .error (.issue (.osSystemCall e (text "kill") (text "on process " ++ p.toString))) { s with errno := e } := by
  unfold sendSignal kill
  cases answer signalNumber with
  | none => rfl
  | some e => rfl

/-- The two halves of `terminate`. -/
theorem run_terminate : (p.terminate first second).run s =
    if first 0 = none then (p.sendSignal sigterm second).run s
    else .ok () { s with errno := (first 0).getD s.errno } := by
  unfold terminate
  rw [run_bind_ok run_isThere]
  cases first 0 with
  | none => rfl
  | some e => rfl

end Process

/-! ## What `::kill` finds -/

/-- `::kill` on the process `pid`, `0 < pid`: it may not signal a process of another user. -/
def World.kill (w : World) (pid : Pid) (_signalNumber : Nat) : Option Errno :=
  if w.there pid = false then some eSrch else if w.foreign pid = true then some ePerm else none

variable {w w' : World} {is pre post mid : List Event} {pid : Pid} {st : WaitStatus} {e : Event} {sig : Nat}

theorem World.kill_eq_eSrch : w.kill pid sig = some eSrch ↔ w.there pid = false := by
  unfold World.kill
  split_ifs with hthere hforeign
  · exact iff_of_true rfl hthere
  · exact iff_of_false (by decide) hthere
  · exact iff_of_false nofun hthere

theorem World.kill_eq_ePerm : w.kill pid sig = some ePerm ↔ w.there pid ≠ false ∧ w.foreign pid = true := by
  unfold World.kill
  split_ifs with hthere hforeign
  · exact iff_of_false (by decide) fun h => h.1 hthere
  · exact iff_of_true rfl ⟨hthere, hforeign⟩
  · exact iff_of_false nofun fun h => hforeign h.2

theorem World.kill_eq_none : w.kill pid sig = none ↔ w.there pid ≠ false ∧ w.foreign pid = false := by
  unfold World.kill
  split_ifs with hthere hforeign
  · exact iff_of_false nofun fun h => h.1 hthere
  · exact iff_of_false nofun fun h => Bool.noConfusion (h.2.symm.trans hforeign)
  · exact iff_of_true rfl ⟨hthere, eq_false_of_ne_true hforeign⟩

/-- No process has the id of a child any more. -/
theorem World.there_eq_false_iff (hc : w.children pid ≠ none) :
    w.there pid = false ↔ w.children pid = some .gone ∧ w.others pid = false := by
  constructor
  · intro h
    obtain ⟨hothers, hchild⟩ := World.children_of_not_there h
    exact ⟨hchild.resolve_left hc, hothers⟩
  · rintro ⟨hgone, hothers⟩
    unfold World.there
    rw [hgone, hothers]
    rfl

/-- A call that waits for a child leaves nothing of it. -/
theorem World.Step.gone_of_waitsFor (h : w.Step e w') (hwait : e.WaitsFor pid) (hc : w.children pid ≠ none)
    (hended : w.children pid ≠ some .running) : w'.children pid = some .gone := by
  have hreaped : w.reaped pid pid = some .gone := by
    unfold World.reaped
    rcases hw : w.children pid with _ | _ | status | _
    · exact absurd hw hc
    · exact absurd hw hended
    · exact Function.update_self ..
    · exact hw
  cases h with
  | pipeInJoin _ _ _ =>
    obtain rfl : _ = pid := hwait
    exact hreaped
  | join _ _ _ _ =>
    obtain rfl : _ = pid := hwait
    exact hreaped
  | joinGroup _ _ _ _ =>
    obtain rfl : _ = some pid := hwait
    exact hreaped
  | start _ _ => exact hwait.elim
  | startAndForget _ _ => exact hwait.elim
  | pipeInFork _ _ _ => exact hwait.elim
  | pipeInFails _ _ _ => exact hwait.elim
  | exit _ _ => exact hwait.elim
  | elsewhere _ _ _ _ => exact hwait.elim

theorem Event.WaitsFor.not_launches (h : e.WaitsFor pid) : ¬ e.Launches pid := by
  cases e with
  | pipeInJoin _ _ => exact id
  | join _ _ _ => exact id
  | joinGroup _ _ _ _ => exact id
  | _ => exact h.elim

/-- A child that is gone stays so until another one gets its id. -/
theorem World.Step.gone (h : w.Step e w') (hc : w.children pid = some .gone) (hnew : ¬ e.Launches pid) :
    w'.children pid = some .gone := by
  rcases h.children_cases pid with ⟨heq, -⟩ | ⟨hlaunches, -⟩ | ⟨st, -, hrunning, -⟩ | ⟨-, -, heq⟩
  · exact heq.trans hc
  · exact absurd hlaunches hnew
  · cases hc.symm.trans hrunning
  · exact heq

/-- And one that ended is a zombie or gone. -/
theorem World.Step.ended (h : w.Step e w') (hc : w.children pid ≠ none ∧ w.children pid ≠ some .running)
    (hnew : ¬ e.Launches pid) : w'.children pid ≠ none ∧ w'.children pid ≠ some .running := by
  rcases h.children_cases pid with ⟨heq, -⟩ | ⟨hlaunches, -⟩ | ⟨st, -, hrunning, -⟩ | ⟨-, -, heq⟩
  · rwa [heq]
  · exact absurd hlaunches hnew
  · exact absurd hrunning hc.2
  · rw [heq]
    exact ⟨nofun, nofun⟩

/-- A child `pid` ended in this run, and no other one has got its id since. -/
def EndsLast (pid : Pid) (is pre post : List Event) : Prop :=
  (∃ st, is = pre ++ .exit pid st :: post) ∧ ∀ e ∈ post, ¬ e.Launches pid

theorem EndsLast.snoc (h : EndsLast pid is pre post) (hnew : ¬ e.Launches pid) :
    EndsLast pid (is ++ [e]) pre (post ++ [e]) := by
  obtain ⟨⟨st, rfl⟩, hpost⟩ := h
  refine ⟨⟨st, by simp⟩, ?_⟩
  rw [List.forall_mem_append, List.forall_mem_singleton]
  exact ⟨hpost, hnew⟩

/-- A zombie has ended. -/
theorem endsLast_of_zombie (h : world.Run is w) (hc : w.children pid = some (.zombie st)) :
    ∃ pre post, EndsLast pid is pre post := by
  induction h generalizing st with
  | init h =>
    rw [h.2.1] at hc
    cases hc
  | @snoc is w₀ e w hr hs ih =>
    rcases hs.children_cases pid with ⟨heq, hnew⟩ | ⟨-, -, heq⟩ | ⟨st', rfl, -⟩ | ⟨-, -, heq⟩
    · obtain ⟨pre, post, hends⟩ := ih (heq ▸ hc)
      exact ⟨pre, post ++ [e], hends.snoc hnew⟩
    · cases heq.symm.trans hc
    · exact ⟨is, [], ⟨st', rfl⟩, List.forall_mem_nil _⟩
    · cases heq.symm.trans hc

/-- The child that had the id `pid` last ended without leaving a status, or a call waited for it. -/
def Lost (pid : Pid) (is : List Event) : Prop :=
  ∃ pre post, EndsLast pid is pre post ∧ ((∃ e ∈ pre, e.Forgets) ∨ ∃ e ∈ post, e.WaitsFor pid)

theorem Lost.snoc (h : Lost pid is) (hnew : ¬ e.Launches pid) : Lost pid (is ++ [e]) := by
  obtain ⟨pre, post, hends, hor⟩ := h
  refine ⟨pre, post ++ [e], hends.snoc hnew, hor.imp_right ?_⟩
  rintro ⟨e', he, hwait⟩
  exact ⟨e', List.mem_append_left _ he, hwait⟩

theorem lost_of_gone (h : world.Run is w) (hc : w.children pid = some .gone) : Lost pid is := by
  induction h with
  | init h =>
    rw [h.2.1] at hc
    cases hc
  | @snoc is w₀ e w hr hs ih =>
    rcases hs.children_cases pid with ⟨heq, hnew⟩ | ⟨-, -, heq⟩ | ⟨st, rfl, -, heq⟩ | ⟨hwait, ⟨st, hz⟩, -⟩
    · exact (ih (heq ▸ hc)).snoc hnew
    · cases heq.symm.trans hc
    · rw [heq] at hc
      split_ifs at hc with hign
      · exact ⟨is, [], ⟨⟨st, rfl⟩, List.forall_mem_nil _⟩, .inl ((sigcld_iff hr).1 hign)⟩
      · cases hc
    · obtain ⟨pre, post, hends⟩ := endsLast_of_zombie hr hz
      exact ⟨pre, post ++ [e], hends.snoc hwait.not_launches, .inr ⟨e, by simp, hwait⟩⟩

theorem gone_of_lost (h : world.Run is w) (hlost : Lost pid is) : w.children pid = some .gone := by
  obtain ⟨pre, post, ⟨⟨st, rfl⟩, hnew⟩, hforgets | ⟨e, he, hwait⟩⟩ := hlost
  · refine h.after (fun w₀ w₁ hr hs => ?_) (fun _ _ _ hc hnew hs => World.Step.gone hs hc hnew) hnew
    cases hs with
    | exit _ _ =>
      change Function.update _ _ _ _ = _
      rw [Function.update_self, if_pos ((sigcld_iff hr).2 hforgets)]
  · obtain ⟨p₁, p₂, rfl⟩ := List.append_of_mem he
    have hsplit : pre ++ .exit pid st :: (p₁ ++ e :: p₂) = (pre ++ .exit pid st :: p₁) ++ e :: p₂ := by simp
    rw [hsplit] at h
    obtain ⟨hnew₁, -, hnew₂⟩ : (∀ e ∈ p₁, ¬ e.Launches pid) ∧ ¬ e.Launches pid ∧ ∀ e ∈ p₂, ¬ e.Launches pid := by
      simpa only [List.forall_mem_append, List.forall_mem_cons] using hnew
    refine h.after (fun w₀ w₁ hr hs => ?_) (fun _ _ _ hc hnew hs => World.Step.gone hs hc hnew) hnew₂
    have hended : w₀.children pid ≠ none ∧ w₀.children pid ≠ some .running := by
      refine hr.after (fun w₂ w₃ _ hs => ?_) (fun _ _ _ hc hnew hs => World.Step.ended hs hc hnew) hnew₁
      cases hs with
      | exit _ _ =>
        change Function.update _ _ _ _ ≠ _ ∧ Function.update _ _ _ _ ≠ _
        rw [Function.update_self]
        split_ifs <;> exact ⟨nofun, nofun⟩
    exact World.Step.gone_of_waitsFor hs hwait hended.1 hended.2

/-- The process, and the one whose existence a `terminate` has just found. -/
structure Control where
  world : World
  terminating : Option Process

inductive Action where
  | event (e : Event)
  /-- The first `::kill` of `terminate`. -/
  | checks (p : Process)
  /-- The second one, and how the call ended. -/
  | signals (p : Process) (r : Result Leave Proc Unit)

/-- Not a call of the process. -/
def Event.Outside : Event → Prop
  | .exit .. => True
  | .elsewhere => True
  | _ => False

/-- Between the two halves of a `terminate` the process does nothing else. It is called on one process: `::kill` takes an id
that is not positive for a group. -/
inductive Control.Step : Control → Action → Control → Prop
  | event {c e w} (hfree : c.terminating = none ∨ e.Outside) (hs : c.world.Step e w) :
      Step c (.event e) { c with world := w }
  | checks {c p found s} (hfree : c.terminating = none) (hidle : c.world.pipeIn = none) (hid : 0 < p.processId)
      (hr : (Process.isThere (c.world.kill p.processId)).run c.world.proc = .ok found s) :
      Step c (.checks p)
        { world := { c.world with proc := s }, terminating := if found then some p else none }
  | signals {c p r} (hp : c.terminating = some p)
      (hr : r = (p.sendSignal sigterm (c.world.kill p.processId)).run c.world.proc) :
      Step c (.signals p r) { world := { c.world with proc := r.state }, terminating := none }

def control : LTS Control Action where
  init c := world.init c.world ∧ c.terminating = none
  step := Control.Step

def Action.Forgets : Action → Prop
  | .event e => e.Forgets
  | _ => False

variable {c₀ c c' : Control} {as : List Action} {a : Action} {p : Process}

theorem Control.Step.sigcld_iff (h : c.Step a c') : c'.world.proc.disposition .sigcld = .ign ↔
    a.Forgets ∨ c.world.proc.disposition .sigcld = .ign := by
  cases h with
  | event _ hs => exact World.Step.sigcld_iff hs
  | checks _ _ _ hr =>
    rw [Process.run_isThere] at hr
    obtain ⟨-, rfl⟩ := Result.ok.inj hr
    exact (or_iff_right not_false).symm
  | @signals p r _ hr =>
    have hd : r.state.disposition = c.world.proc.disposition := by
      rw [hr, Process.run_sendSignal]
      split <;> rfl
    change r.state.disposition .sigcld = .ign ↔ _
    rw [hd]
    exact (or_iff_right not_false).symm

theorem control_sigcld_iff (h : control.Run as c) :
    c.world.proc.disposition .sigcld = .ign ↔ ∃ a ∈ as, a.Forgets := by
  induction h with
  | init h => simp [h.1.1]
  | snoc _ hs ih =>
    rw [Control.Step.sigcld_iff hs, ih]
    simp only [List.mem_append, List.mem_singleton]
    grind

/-- A `terminate` that goes on to its second half has found the process and changed nothing. -/
theorem Control.Step.found (hs : c.Step (.checks p) c') (hp : c'.terminating = some p) :
    c.world.kill p.processId 0 = none ∧ c' = ⟨c.world, some p⟩ := by
  cases hs with
  | @checks _ found s _ _ _ hr =>
    rw [Process.run_isThere] at hr
    cases hk : c.world.kill p.processId 0 with
    | none =>
      rw [hk] at hr
      obtain ⟨rfl, rfl⟩ := Result.ok.inj hr
      exact ⟨rfl, rfl⟩
    | some err =>
      rw [hk] at hr
      obtain ⟨rfl, -⟩ := Result.ok.inj hr
      cases hp

theorem terminating_of_events (h : control.Path c as c') (hevents : ∀ a ∈ as, ∃ e, a = .event e) :
    c'.terminating = c.terminating := by
  refine h.keeps (Q := fun c' => c'.terminating = c.terminating) (fun c₁ a c₂ hc ha hs => ?_) hevents rfl
  obtain ⟨e, rfl⟩ := ha
  cases hs with
  | event _ _ => exact hc

/-- While a `terminate` is under way a child can only end. -/
theorem Control.Step.between (hs : c.Step (.event e) c') (hp : c.terminating = some p) (pid : Pid) :
    c'.terminating = some p ∧ c'.world.proc = c.world.proc ∧
      ((c'.world.children pid = c.world.children pid ∧ ∀ st, e ≠ .exit pid st) ∨
        ∃ st, e = .exit pid st ∧ c.world.children pid = some .running ∧ c'.world.children pid =
          some (if c.world.proc.disposition .sigcld = .ign then .gone else .zombie st)) := by
  cases hs with
  | @event _ w hfree hs =>
    refine ⟨hp, ?_⟩
    rw [hp] at hfree
    cases hs with
    | @exit pid' st hrunning hstatus =>
      refine ⟨rfl, ?_⟩
      by_cases hpid : pid = pid'
      · subst hpid
        exact .inr ⟨st, rfl, hrunning, Function.update_self ..⟩
      · refine .inl ⟨Function.update_of_ne hpid _ _, fun st' heq => hpid ?_⟩
        injection heq with heq
        exact heq.symm
    | elsewhere _ _ _ _ => exact ⟨rfl, .inl ⟨rfl, fun _ => nofun⟩⟩
    | _ => exact hfree.elim nofun False.elim

/-- A child is gone by the second half of a `terminate` if it was at the first, or ends in between while SIGCLD is ignored. -/
theorem gone_between (pid : Pid) (h : control.Path c as c') (hp : c.terminating = some p)
    (hevents : ∀ a ∈ as, ∃ e, a = .event e) (hc : c.world.children pid ≠ none) :
    c'.world.children pid ≠ none ∧ (c'.world.children pid = some .gone ↔ c.world.children pid = some .gone ∨
      (∃ st, .event (.exit pid st) ∈ as) ∧ c.world.proc.disposition .sigcld = .ign) := by
  induction h with
  | nil c => exact ⟨hc, (or_iff_left fun h => h.1.elim fun _ h => absurd h List.not_mem_nil).symm⟩
  | @cons c a c₁ as c' hs _ ih =>
    obtain ⟨e, rfl⟩ := hevents a List.mem_cons_self
    have hlater : ∀ a ∈ as, ∃ e, a = .event e := fun a ha => hevents a (List.mem_cons_of_mem _ ha)
    obtain ⟨hp₁, hproc, ⟨heq, hne⟩ | ⟨st, rfl, hrunning, heq⟩⟩ := Control.Step.between hs hp pid
    · obtain ⟨hsome, hiff⟩ := ih hp₁ hlater (heq ▸ hc)
      refine ⟨hsome, hiff.trans ?_⟩
      rw [heq, hproc]
      refine or_congr_right (and_congr_left fun _ => exists_congr fun st => ?_)
      rw [List.mem_cons]
      refine (or_iff_right fun h => hne st ?_).symm
      injection h with h
      exact h.symm
    · obtain ⟨hsome, hiff⟩ := ih hp₁ hlater (by rw [heq]; exact Option.some_ne_none _)
      refine ⟨hsome, hiff.trans ?_⟩
      rw [heq, hproc, hrunning]
      by_cases hign : c.world.proc.disposition .sigcld = .ign
      · rw [if_pos hign]
        exact iff_of_true (.inl rfl) (.inr ⟨⟨st, List.mem_cons_self⟩, hign⟩)
      · exact iff_of_false (by simp [hign]) (by simp [hign])

/-- The exception of `signal` with this `errno`. -/
def Process.KillThrows (p : Process) (err : Errno) (r : Result Leave Proc Unit) : Prop :=
  ∃ s, r = .error (.issue (.osSystemCall err (text "kill") (text "on process " ++ p.toString))) s

/-- What `signal` makes of the answer of `::kill`. -/
theorem sendSignal_iff {answer : Nat → Option Errno} {r : Result Leave Proc Unit} {s : Proc}
    (hr : r = (p.sendSignal sig answer).run s) :
    ((∃ s, r = .ok () s) ↔ answer sig = none) ∧ ∀ err, p.KillThrows err r ↔ answer sig = some err := by
  rw [Process.run_sendSignal] at hr
  cases hanswer : answer sig with
  | none =>
    rw [hanswer] at hr
    exact ⟨iff_of_true ⟨_, hr⟩ rfl, fun err => iff_of_false (fun ⟨_, h⟩ => nomatch hr.symm.trans h) nofun⟩
  | some e =>
    rw [hanswer] at hr
    refine ⟨iff_of_false (fun ⟨_, h⟩ => nomatch hr.symm.trans h) nofun, fun err => ⟨?_, ?_⟩⟩
    · rintro ⟨s', h⟩
      cases hr.symm.trans h
      rfl
    · rintro ⟨⟩
      exact ⟨_, hr⟩

/-- Between the halves of a `terminate` the child ends without leaving anything, and no other process gets its id. -/
def Vanishes (pid : Pid) (pre mid : List Action) (w : World) : Prop :=
  ((∃ st, .event (.exit pid st) ∈ mid) ∧ ∃ a ∈ pre, a.Forgets) ∧ w.others pid = false

/-- The process that `terminate` is called for. -/
def child : Process := ⟨101, []⟩

/-- `terminate` has found it, and it exits with 7. -/
def found : Control := ⟨afterForget, some child⟩

def left : Control := ⟨afterExit, some child⟩

theorem run_forget :
    control.Run [.event (.start shell [] (forks 101)), .event (.startAndForget shell [] (forks 102))] ⟨afterForget, none⟩ := by
  have h₀ : control.Run [] ⟨alone, none⟩ := .init ⟨⟨rfl, fun _ => rfl, rfl, by decide, rfl⟩, rfl⟩
  exact (h₀.snoc (.event (.inl rfl) step_start)).snoc (.event (.inl rfl) step_forget)

theorem path_left : control.Path ⟨afterForget, none⟩ [.checks child, .event (.exit 101 (.exited 7))] left := by
  have hchecks : Control.Step ⟨afterForget, none⟩ (.checks child) found :=
    @Control.Step.checks _ child true afterForget.proc rfl rfl (by decide) rfl
  exact .cons hchecks (.single (.event (.inr trivial) step_exit))

end OksSystem
