import Mathlib.Order.Fin.Basic
import OksSystem.Executable.PipeIn
import OksSystem.Executable.Redirect
import OksSystem.Lib.SortedMap

/-!
# The environment of a launched program

`start` and `pipe_out` hand an environment to `execve`; `pipe_in` sets the variables in the calling process instead.

* `setenv`, `Environment.set`, `Environment.setAll` : setting variables, `Caller` : a process with its environment;
* `startCaller`, `pipeOutCaller`, `pipeInCaller` : the launchers that take an environment, in a `Caller`;
* `HandsOver` : the program gets exactly the entries, and the caller keeps its environment;
* `handsOver_startEnvs`, `handsOver_pipeOutEnvs` : two of the launchers do so; `handsOver_pipeInEnvs_iff` : when
  `pipe_in` does;
* `launchers_agree_iff` : when all three do.
-/

namespace OksSystem
open ByteBuffer EStateM

def equalsSign : Byte := 61

/-- A variable in an environment. -/
def entry (name value : Str) : Str := name ++ equalsSign :: value

/-- `::setenv(name, value, 1)` : the first entry with the name is replaced, or the variable is put at the end. -/
def setenv (name value : Str) : List Str → List Str
  | [] => [entry name value]
  | e :: environ =>
    if name ++ [equalsSign] <+: e then entry name value :: environ else e :: setenv name value environ

/-! ## The launchers in a process with an environment -/

structure Caller where
  proc : Proc
  environ : List Str

abbrev CallerM (α : Type) := EStateM Leave Caller α

variable {α : Type}

/-- What changes the process but not its environment. -/
def onProc (x : Launch α) : CallerM α := zoom Caller.proc (fun c p => { c with proc := p }) x

namespace Environment

/-- EINVAL. -/
def einval : Errno := 22

/-- What `::setenv` fails with. -/
def setError (name : Str) (answer : Option Errno) : Option Errno :=
  if name = [] ∨ name.contains equalsSign then some einval else answer

/-- `set(key, value)`, with what else `::setenv` answers. -/
def set (key value : Str) (answer : Option Errno) : CallerM Unit :=
  match setError (cstr key) answer with
  | none => modify fun c => { c with environ := setenv (cstr key) (cstr value) c.environ }
  | some e => onProc do
    modify fun s => { s with errno := e }
    throwSysCall (text "setenv") (cstr (text "while setting " ++ key ++ text " to " ++ value))

/-- `set(values)`. -/
def setAll (values : SortedMap Str Str) (answers : Str → Option Errno) : CallerM Unit :=
  values.entries.forM fun e => set e.1 e.2 (answers e.1)

end Environment

namespace Executable

variable (exe : Executable) (params : List Str) (envs : SortedMap Str Str)

/-- `start(params,envs)`. -/
def startCaller (ans : Answers) : CallerM Process := onProc (exe.startEnvs params envs.entries ans)

/-- `pipe_out(params,envs,…)`. -/
def pipeOutCaller (inputFile outputFile errorFile : File) (perm : Nat) (ans : Answers) : CallerM Process :=
  onProc (exe.pipeOutEnvs params envs.entries inputFile outputFile errorFile perm ans)

/-- `pipe_in(params,envs)`. -/
def pipeInCaller (answers : Str → Option Errno) (ans : Answers) : CallerM Str := do
  Environment.setAll envs answers
  onProc (exe.pipeIn params ans)

end Executable

/-- All calls of the child up to `execve` succeed. -/
structure Answers.Willing (ans : Answers) : Prop where
  pipe : ∀ p, ans.pipe p = none
  opens : ans.Opens
  fork : ans.fork = .child
  execve : ans.execve = none

/-- The program that is launched has exactly the entries for its environment, and the caller keeps its own. `sets` are the
answers of `setenv`. -/
structure HandsOver (environ entries : List Str) (launch : (sets : Str → Option Errno) → Answers → CallerM α) : Prop where
  caller : ∀ sets ans s, s.environ = environ → ans.fork ≠ .child → ((launch sets ans).run s).state.environ = environ
  program : ∀ sets ans s argv env s', s.environ = environ → ans.fork = .child →
    (launch sets ans).run s = .error (.exec argv env) s' → (env.getD s'.environ).Perm entries
  starts : ∀ ans s, s.environ = environ → ans.Willing →
    ∃ argv env s', (launch (fun _ => none) ans).run s = .error (.exec argv env) s'

variable {exe : Executable} {params : List Str} {envs : SortedMap Str Str} {ans : Answers} {c : Caller}
  {environ : List Str}

/-! ## Running a launcher in a caller -/

theorem environ_onProc (x : Launch α) (c : Caller) : ((onProc x).run c).state.environ = c.environ := by
  unfold onProc
  rw [state_zoom]

/-- An exception in the caller is one of the process. -/
theorem run_onProc_error {x : Launch α} {e : Leave} {c' : Caller} (h : (onProc x).run c = .error e c') :
    x.run c.proc = .error e c'.proc ∧ c'.environ = c.environ := by
  have henviron := environ_onProc x c
  rw [h] at henviron
  cases hx : x.run c.proc with
  | ok a p =>
    have hrun : (onProc x).run c = _ := run_zoom_ok hx
    rw [hrun] at h
    cases h
  | error e' p =>
    have hrun : (onProc x).run c = _ := run_zoom_error hx
    rw [hrun] at h
    cases h
    exact ⟨rfl, henviron⟩

theorem execs_eq_exec {argv argv' : List Str} {env env' : Option (List Str)}
    (h : ans.execs argv env = .exec argv' env') : env' = env := by
  unfold Answers.execs at h
  cases hans : ans.execve with
  | none =>
    rw [hans] at h
    cases h
    rfl
  | some e =>
    rw [hans] at h
    cases h

/-! ## `start` and `pipe_out` -/

theorem run_startEnvs_child (exe : Executable) (params : List Str) (es : List (Str × Str)) (hfork : ans.fork = .child)
    (s : Proc) :
    ∃ s', (exe.startEnvs params es ans).run s =
      .error (ans.execs (cstr exe.fullName :: params.map cstr) (some (environment es))) s' := by
  unfold Executable.startEnvs Executable.execEnvs Answers.execs Executable.exec afterFork
  rw [hfork]
  cases ans.execve with
  | none => exact ⟨_, rfl⟩
  | some e => exact ⟨_, rfl⟩

/-- A launcher that leaves the environment of the caller alone. -/
theorem handsOver_onProc {x : Answers → Launch α} {entries : List Str} (environ : List Str)
    (hprogram : ∀ ans s argv env s', ans.fork = .child → (x ans).run s = .error (.exec argv env) s' → env = some entries)
    (hstarts : ∀ ans s, ans.Willing → ∃ argv env s', (x ans).run s = .error (.exec argv env) s') :
    HandsOver environ entries fun _ ans => onProc (x ans) := by
  constructor
  · rintro - ans s rfl -
    exact environ_onProc _ s
  · rintro - ans s argv env s' rfl hfork hrun
    obtain ⟨hrun, -⟩ := run_onProc_error hrun
    rw [hprogram ans s.proc argv env s'.proc hfork hrun]
    exact .refl _
  · rintro ans s rfl hwilling
    obtain ⟨argv, env, s', hrun⟩ := hstarts ans s.proc hwilling
    exact ⟨argv, env, _, run_zoom_error hrun⟩

theorem handsOver_startEnvs (exe : Executable) (params : List Str) (envs : SortedMap Str Str) (environ : List Str) :
    HandsOver environ (environment envs.entries) fun _ ans => exe.startCaller params envs ans := by
  apply handsOver_onProc environ
  · intro ans s argv env s' hfork hrun
    obtain ⟨p, hp⟩ := run_startEnvs_child exe params envs.entries hfork s
    rw [hp] at hrun
    exact execs_eq_exec (Result.error.inj hrun).1
  · intro ans s hwilling
    obtain ⟨p, hp⟩ := run_startEnvs_child exe params envs.entries hwilling.fork s
    unfold Answers.execs at hp
    rw [hwilling.execve] at hp
    exact ⟨_, _, _, hp⟩

/-- A program is run while a descriptor is held only if the file opens. -/
theorem exec_of_with {file : File} {flags perm : Nat} {answer : Option Errno} {body : Descriptor → Launch α}
    {s s' : Proc} {argv : List Str} {env : Option (List Str)}
    (h : (Descriptor.with file flags perm answer body).run s = .error (.exec argv env) s') :
    answer = none ∧ ∃ d t t', (body d).run t = .error (.exec argv env) t' := by
  cases answer with
  | some e =>
    rw [run_with_some] at h
    cases h
  | none =>
    rw [run_with_none, run_cleanup] at h
    refine ⟨rfl, ⟨s.fds.lowest, file.fullName⟩, { s with fds := s.fds.alloc (.file file.fullName flags perm) }, ?_⟩
    cases hbody : (body ⟨s.fds.lowest, file.fullName⟩).run { s with fds := s.fds.alloc (.file file.fullName flags perm) } with
    | ok a t =>
      rw [hbody] at h
      cases h
    | error e t =>
      rw [hbody] at h
      obtain rfl : e = .exec argv env := (Result.error.inj h).1
      exact ⟨t, rfl⟩

theorem opens_of_exec {execs : Launch Unit} {i o e : File} {perm : Nat} {s s' : Proc} {argv : List Str}
    {env : Option (List Str)}
    (h : (exe.redirected params execs i o e perm ans).run s = .error (.exec argv env) s') : ans.Opens := by
  unfold Executable.redirected at h
  rw [run_bind_ok run_blockSignals] at h
  obtain ⟨hi, input, s₁, s₁', h⟩ := exec_of_with h
  obtain ⟨ho, output, s₂, s₂', h⟩ := exec_of_with h
  obtain ⟨he, -⟩ := exec_of_with h
  exact ⟨hi, ho, he⟩

theorem handsOver_pipeOutEnvs (exe : Executable) (params : List Str) (envs : SortedMap Str Str)
    (inputFile outputFile errorFile : File) (perm : Nat) (environ : List Str) :
    HandsOver environ (environment envs.entries) fun _ ans =>
      exe.pipeOutCaller params envs inputFile outputFile errorFile perm ans := by
  have hchild {ans : Answers} (hopens : ans.Opens) (hfork : ans.fork = .child) (s : Proc) :=
    run_redirected_child exe params (cstr exe.fullName :: params.map cstr) (some (environment envs.entries))
      inputFile outputFile errorFile perm hopens hfork s
  apply handsOver_onProc environ
  · intro ans s argv env s' hfork hrun
    obtain ⟨p, hp, -⟩ := hchild (opens_of_exec hrun) hfork s
    have heq := hp.symm.trans hrun
    exact execs_eq_exec (Result.error.inj heq).1
  · intro ans s hwilling
    obtain ⟨p, hp, -⟩ := hchild hwilling.opens hwilling.fork s
    unfold Answers.execs at hp
    rw [hwilling.execve] at hp
    exact ⟨_, _, _, hp⟩

/-! ## `pipe_in` -/

theorem run_pipeIn_child (exe : Executable) (params : List Str) (hpipe : ∀ p, ans.pipe p = none)
    (hfork : ans.fork = .child) (s : Proc) :
    ∃ s', (exe.pipeIn params ans).run s =
      .error (ans.execs (cstr exe.fullName :: params.map cstr) none) s' := by
  unfold Executable.pipeIn
  rw [run_bind, run_pipeInFork hpipe]
  unfold Executable.execParams Answers.execs Executable.exec afterFork
  rw [hfork]
  cases ans.execve with
  | none => exact ⟨_, rfl⟩
  | some e => exact ⟨_, rfl⟩

theorem pipes_of_exec {s s' : Proc} {argv : List Str} {env : Option (List Str)}
    (h : (exe.pipeIn params ans).run s = .error (.exec argv env) s') : ∀ p, ans.pipe p = none := by
  by_contra hnot
  obtain ⟨i, s'', hrun, -⟩ := run_pipeIn_pipe exe params s hnot
  rw [hrun] at h
  cases h

/-! ## Setting variables -/

/-- A variable that is there, and only once, is there as before. -/
theorem setenv_eq_self {name value : Str} {environ : List Str} (hmem : entry name value ∈ environ)
    (honly : ∀ e ∈ environ, name ++ [equalsSign] <+: e → e = entry name value) : setenv name value environ = environ := by
  induction environ with
  | nil => cases hmem
  | cons e environ ih =>
    unfold setenv
    split_ifs with hname
    · rw [honly e List.mem_cons_self hname]
    · rcases List.mem_cons.1 hmem with rfl | hmem
      · exact absurd ⟨value, by simp [entry]⟩ hname
      · rw [ih hmem fun e he => honly e (List.mem_cons_of_mem _ he)]

/-- What `environ` is after all variables are set. -/
def setEntries (es : List (Str × Str)) (environ : List Str) : List Str :=
  es.foldl (fun environ e => setenv (cstr e.1) (cstr e.2) environ) environ

/-- The names and values that `setenv` takes as they are. -/
def Settable (es : List (Str × Str)) : Prop := ∀ e ∈ es, e.1 ≠ [] ∧ equalsSign ∉ e.1 ∧ 0 ∉ e.1 ∧ 0 ∉ e.2

theorem run_set_none {e : Str × Str} (h : e.1 ≠ [] ∧ equalsSign ∉ e.1 ∧ 0 ∉ e.1 ∧ 0 ∉ e.2) (c : Caller) :
    (Environment.set e.1 e.2 none).run c = .ok () { c with environ := setenv (cstr e.1) (cstr e.2) c.environ } := by
  unfold Environment.set Environment.setError
  rw [cstr_of_notMem h.2.2.1, if_neg (by simp [h.1, h.2.1])]
  rfl

theorem run_setEntries_none {es : List (Str × Str)} (h : Settable es) (c : Caller) :
    (es.forM fun e => Environment.set e.1 e.2 none).run c = .ok () { c with environ := setEntries es c.environ } := by
  induction es generalizing c with
  | nil => rfl
  | cons e es ih =>
    change (Environment.set e.1 e.2 none >>= fun _ => es.forM _).run c = _
    rw [run_bind_ok (run_set_none (h e List.mem_cons_self) c), ih fun f hf => h f (List.mem_cons_of_mem e hf)]
    rfl

/-- Setting variables that are there already changes nothing, also when it fails on the way. -/
theorem setEntries_cases {es : List (Str × Str)} (h : ∀ e ∈ es, setenv (cstr e.1) (cstr e.2) environ = environ)
    (sets : Str → Option Errno) (hc : c.environ = environ) : ∃ c' : Caller, c'.environ = environ ∧
      ((es.forM fun e => Environment.set e.1 e.2 (sets e.1)).run c = .ok () c' ∨
        ∃ i, (es.forM fun e => Environment.set e.1 e.2 (sets e.1)).run c = .error (.issue i) c') := by
  induction es generalizing c with
  | nil => exact ⟨c, hc, .inl rfl⟩
  | cons e es ih =>
    have hset : ∃ c₁ : Caller, c₁.environ = environ ∧ ((Environment.set e.1 e.2 (sets e.1)).run c = .ok () c₁ ∨
        ∃ i, (Environment.set e.1 e.2 (sets e.1)).run c = .error (.issue i) c₁) := by
      unfold Environment.set
      cases Environment.setError (cstr e.1) (sets e.1) with
      | some err => exact ⟨{ c with proc := { c.proc with errno := err } }, hc, .inr ⟨_, rfl⟩⟩
      | none => exact ⟨_, (congrArg _ hc).trans (h e List.mem_cons_self), .inl rfl⟩
    change ∃ c' : Caller, c'.environ = environ ∧
      ((Environment.set e.1 e.2 (sets e.1) >>= fun _ => es.forM _).run c = .ok () c' ∨
        ∃ i, (Environment.set e.1 e.2 (sets e.1) >>= fun _ => es.forM _).run c = .error (.issue i) c')
    obtain ⟨c₁, hc₁, hrun | ⟨i, hrun⟩⟩ := hset
    · rw [run_bind_ok hrun]
      exact ih (fun f hf => h f (List.mem_cons_of_mem e hf)) hc₁
    · exact ⟨c₁, hc₁, .inr ⟨i, run_bind_error hrun⟩⟩

theorem run_setAll_none (h : Settable envs.entries) (c : Caller) :
    (Environment.setAll envs fun _ => none).run c = .ok () { c with environ := setEntries envs.entries c.environ } :=
  run_setEntries_none h c

theorem setAll_cases (h : ∀ e ∈ envs.entries, setenv (cstr e.1) (cstr e.2) environ = environ)
    (sets : Str → Option Errno) (hc : c.environ = environ) : ∃ c' : Caller, c'.environ = environ ∧
      ((Environment.setAll envs sets).run c = .ok () c' ∨
        ∃ i, (Environment.setAll envs sets).run c = .error (.issue i) c') :=
  setEntries_cases h sets hc

/-! ## The entries of a map -/

theorem name_of_starts {name k v : Str} (hname : equalsSign ∉ name) (hk : equalsSign ∉ k)
    (h : name ++ [equalsSign] <+: entry k v) : name = k := by
  obtain ⟨t, ht⟩ := h
  rw [List.append_assoc, List.singleton_append] at ht
  have hsplit := congrArg (List.splitOn equalsSign) ht
  unfold entry at hsplit
  rw [List.splitOn_append_cons_self_of_not_mem hname, List.splitOn_append_cons_self_of_not_mem hk] at hsplit
  exact (List.cons.inj hsplit).1

theorem environment_eq {es : List (Str × Str)} (h : Settable es) : environment es = es.map fun e => entry e.1 e.2 := by
  refine List.map_congr_left fun e he => ?_
  obtain ⟨-, -, hname, hvalue⟩ := h e he
  have hentry : e.1 ++ text "=" ++ e.2 = entry e.1 e.2 := by
    rw [List.append_assoc]
    rfl
  rw [hentry]
  refine cstr_of_notMem fun h0 => ?_
  rcases List.mem_append.1 h0 with h0 | h0
  · exact hname h0
  · rcases List.mem_cons.1 h0 with h0 | h0
    · exact absurd h0 (by decide)
    · exact hvalue h0

/-- Where the environment is the entries, setting one of them changes nothing. -/
theorem setenv_of_perm (h : Settable envs.entries) (hperm : environ.Perm (environment envs.entries)) :
    ∀ e ∈ envs.entries, setenv (cstr e.1) (cstr e.2) environ = environ := by
  intro e he
  obtain ⟨-, heq, hname, hvalue⟩ := h e he
  rw [environment_eq h] at hperm
  rw [cstr_of_notMem hname, cstr_of_notMem hvalue]
  refine setenv_eq_self (hperm.mem_iff.2 (List.mem_map.2 ⟨e, he, rfl⟩)) fun x hx hprefix => ?_
  obtain ⟨f, hf, rfl⟩ := List.mem_map.1 (hperm.mem_iff.1 hx)
  have hkey : e.1 = f.1 := name_of_starts heq (h f hf).2.1 hprefix
  have hvalues : envs.get? e.1 = some f.2 := SortedMap.get?_eq_some_iff.2 (hkey ▸ hf)
  rw [SortedMap.get?_eq_some_iff.2 he] at hvalues
  rw [hkey, Option.some.inj hvalues]

/-- The program of `pipe_in` gets the environment of the caller. -/
theorem env_of_pipeIn {c c' : Caller} {argv : List Str} {env : Option (List Str)} (hfork : ans.fork = .child)
    (hrun : (onProc (exe.pipeIn params ans)).run c = .error (.exec argv env) c') :
    env = none ∧ c'.environ = c.environ := by
  obtain ⟨hrun, henviron⟩ := run_onProc_error hrun
  obtain ⟨p, hp⟩ := run_pipeIn_child exe params (pipes_of_exec hrun) hfork c.proc
  exact ⟨execs_eq_exec (Result.error.inj (hp.symm.trans hrun)).1, henviron⟩

theorem handsOver_pipeInEnvs_of_perm (exe : Executable) (params : List Str) (h : Settable envs.entries)
    (hperm : environ.Perm (environment envs.entries)) :
    HandsOver environ (environment envs.entries) fun sets ans => exe.pipeInCaller params envs sets ans := by
  have hkeep := setenv_of_perm h hperm
  constructor
  · rintro sets ans s hs -
    unfold Executable.pipeInCaller
    obtain ⟨c', hc', hset | ⟨i, hset⟩⟩ := setAll_cases hkeep sets hs
    · rw [state_bind_of_ok hset, environ_onProc, hc']
    · rw [run_bind_error hset]
      exact hc'
  · intro sets ans s argv env s' hs hfork hrun
    unfold Executable.pipeInCaller at hrun
    obtain ⟨c', hc', hset | ⟨i, hset⟩⟩ := setAll_cases hkeep sets hs
    · rw [run_bind_ok hset] at hrun
      obtain ⟨henv, henviron⟩ := env_of_pipeIn hfork hrun
      rw [henv, Option.getD_none, henviron, hc']
      exact hperm
    · rw [run_bind_error hset] at hrun
      cases hrun
  · intro ans s hs hwilling
    unfold Executable.pipeInCaller
    rw [run_bind_ok (run_setAll_none h s)]
    obtain ⟨p, hp⟩ := run_pipeIn_child exe params hwilling.pipe hwilling.fork s.proc
    unfold Answers.execs at hp
    rw [hwilling.execve] at hp
    exact ⟨_, _, _, run_zoom_error hp⟩

theorem perm_of_handsOver_pipeInEnvs (exe : Executable) (params : List Str) (h : Settable envs.entries)
    (hands : HandsOver environ (environment envs.entries) fun sets ans => exe.pipeInCaller params envs sets ans) :
    environ.Perm (environment envs.entries) := by
  have hset := run_setAll_none h ⟨plain, environ⟩
  -- a `fork` that fails leaves the caller with the variables set
  have hcaller := hands.caller (fun _ => none) { allSucceed with fork := .failed 11 } ⟨plain, environ⟩ rfl (by simp)
  have hkept : setEntries envs.entries environ = environ := by
    unfold Executable.pipeInCaller at hcaller
    rw [state_bind_of_ok hset, environ_onProc] at hcaller
    exact hcaller
  -- and so the child, which runs the program with them
  have hwilling : inChild.Willing := ⟨fun _ => rfl, ⟨rfl, rfl, rfl⟩, rfl, rfl⟩
  obtain ⟨argv, env, c', hrun⟩ := hands.starts inChild ⟨plain, environ⟩ rfl hwilling
  have hperm := hands.program (fun _ => none) inChild ⟨plain, environ⟩ argv env c' rfl rfl hrun
  unfold Executable.pipeInCaller at hrun
  rw [run_bind_ok hset] at hrun
  obtain ⟨henv, henviron⟩ := env_of_pipeIn hwilling.fork hrun
  rw [henv, Option.getD_none, henviron] at hperm
  exact hkept ▸ hperm

/-- **`pipe_in` hands the environment over exactly when it is the caller's own.** -/
theorem handsOver_pipeInEnvs_iff (exe : Executable) (params : List Str) (h : Settable envs.entries) (environ : List Str) :
    HandsOver environ (environment envs.entries) (fun sets ans => exe.pipeInCaller params envs sets ans) ↔
      environ.Perm (environment envs.entries) :=
  ⟨perm_of_handsOver_pipeInEnvs exe params h, handsOver_pipeInEnvs_of_perm exe params h⟩

/-- **The launchers that take an environment all hand it over exactly when the caller's environment is that environment.** -/
theorem launchers_agree_iff (exe : Executable) (params : List Str) (envs : SortedMap Str Str) (h : Settable envs.entries)
    (environ : List Str) :
    (HandsOver environ (environment envs.entries) (fun _ ans => exe.startCaller params envs ans) ∧
      (∀ inputFile outputFile errorFile perm, HandsOver environ (environment envs.entries) fun _ ans =>
        exe.pipeOutCaller params envs inputFile outputFile errorFile perm ans) ∧
      HandsOver environ (environment envs.entries) fun sets ans => exe.pipeInCaller params envs sets ans) ↔
    environ.Perm (environment envs.entries) := by
  rw [← handsOver_pipeInEnvs_iff exe params h environ]
  refine ⟨fun hands => hands.2.2, fun hands => ⟨?_, ?_, hands⟩⟩
  · exact handsOver_startEnvs exe params envs environ
  · intro inputFile outputFile errorFile perm
    exact handsOver_pipeOutEnvs exe params envs inputFile outputFile errorFile perm environ

/-- One variable. -/
def lang : SortedMap Str Str := ⟨[(text "LANG", text "C")], List.pairwise_singleton _ _⟩

theorem settable_lang : Settable lang.entries := by
  intro e he
  obtain rfl := List.mem_singleton.1 he
  decide

theorem launchers_agree_iff_lang :
    HandsOver [text "LANG=C"] (environment lang.entries) (fun _ ans => Executable.startCaller ⟨⟨text "ls"⟩⟩ [] lang ans) ∧
      (∀ inputFile outputFile errorFile perm, HandsOver [text "LANG=C"] (environment lang.entries) fun _ ans =>
        Executable.pipeOutCaller ⟨⟨text "ls"⟩⟩ [] lang inputFile outputFile errorFile perm ans) ∧
      HandsOver [text "LANG=C"] (environment lang.entries) fun sets ans =>
        Executable.pipeInCaller ⟨⟨text "ls"⟩⟩ [] lang sets ans :=
  (launchers_agree_iff ⟨⟨text "ls"⟩⟩ [] lang settable_lang [text "LANG=C"]).2 (by decide)

/-- A caller that has another variable keeps the new one, and the program gets both. -/
theorem pipeIn_sets_variables : ¬ ∀ (exe : Executable) (params : List Str) (envs : SortedMap Str Str) (environ : List Str),
    Settable envs.entries →
      HandsOver environ (environment envs.entries) fun sets ans => exe.pipeInCaller params envs sets ans := by
  intro h
  have hands := h ⟨⟨text "ls"⟩⟩ [] lang [text "PATH=/bin"] settable_lang
  rw [handsOver_pipeInEnvs_iff _ _ settable_lang] at hands
  exact absurd hands (by decide)

end OksSystem
