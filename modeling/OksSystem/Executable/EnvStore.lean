import OksSystem.Executable.Variables
import OksSystem.Lib.Run

/-!
# The environment over many calls

* `EnvCall`, `environments` : `set` and the launchers in one process, any number of calls, which may throw;
* `EnvCall.assigned` : the variables that a call sets, up to the first that `::setenv` refuses;
* `Reads` : an environment that holds a map of names and values; `reads_path` : runs of calls update the map;
* `WellFormed` : every name has one entry; `wellFormed_setPairs` : setting variables keeps this;
* `environment_refines` : **a variable has the value assigned last, in the process and in the programs it launches.**
-/

namespace OksSystem
open ByteBuffer EStateM

/-- `launch` is any member that changes the process but not its environment; `pipe_in` sets the variables of its child in it. -/
inductive EnvCall where
  | set (key value : Str) (answer : Option Errno)
  | setAll (values : SortedMap Str Str) (answers : Str → Option Errno)
  | launch (x : Launch Unit)
  | pipeIn (exe : Executable) (params : List Str) (envs : SortedMap Str Str) (answers : Str → Option Errno) (ans : Answers)

def EnvCall.after (c : Caller) : EnvCall → Caller
  | set key value answer => ((Environment.set key value answer).run c).state
  | setAll values answers => ((Environment.setAll values answers).run c).state
  | launch x => ((onProc x).run c).state
  | pipeIn exe params envs answers ans => ((exe.pipeInCaller params envs answers ans).run c).state

def environments : LTS Caller EnvCall where
  init _ := True
  step c i c' := i.after c = c'

/-! ## The variables that are set -/

/-- `::setenv` takes the variable, whose name and value NUL may end early. -/
def takes (answers : Str → Option Errno) (e : Str × Str) : Bool := Environment.setError (cstr e.1) (answers e.1) = none

def assignedAll (es : List (Str × Str)) (answers : Str → Option Errno) : List (Str × Str) :=
  (es.takeWhile (takes answers)).map fun e => (cstr e.1, cstr e.2)

def EnvCall.assigned : EnvCall → List (Str × Str)
  | set key value answer => assignedAll [(key, value)] fun _ => answer
  | setAll values answers => assignedAll values.entries answers
  | launch _ => []
  | pipeIn _ _ envs answers _ => assignedAll envs.entries answers

variable {name value n : Str} {environ : List Str} {es fs : List (Str × Str)} {answers : Str → Option Errno}
  {c c' : Caller} {is : List EnvCall} {σ : Str → Option Str}

theorem run_set_of_takes {e : Str × Str} (h : takes answers e = true) (c : Caller) :
    (Environment.set e.1 e.2 (answers e.1)).run c =
      .ok () { c with environ := setenv (cstr e.1) (cstr e.2) c.environ } := by
  unfold Environment.set
  rw [show Environment.setError (cstr e.1) (answers e.1) = none from of_decide_eq_true h]
  rfl

theorem run_set_of_not_takes {e : Str × Str} (h : ¬ takes answers e = true) (c : Caller) :
    ∃ i c', (Environment.set e.1 e.2 (answers e.1)).run c = .error (.issue i) c' ∧ c'.environ = c.environ := by
  unfold Environment.set
  cases herror : Environment.setError (cstr e.1) (answers e.1) with
  | none => exact absurd (decide_eq_true herror) h
  | some err => exact ⟨_, _, rfl, rfl⟩

/-- What the loop throws is an exception of the library. -/
theorem issue_of_sets {l : Leave} (h : (es.forM fun e => Environment.set e.1 e.2 (answers e.1)).run c = .error l c') :
    ∃ i, l = .issue i := by
  induction es generalizing c with
  | nil => cases h
  | cons e es ih =>
    change (Environment.set e.1 e.2 (answers e.1) >>= fun _ => es.forM _).run c = _ at h
    by_cases he : takes answers e = true
    · rw [run_bind_ok (run_set_of_takes he c)] at h
      exact ih h
    · obtain ⟨i, c₁, hrun, -⟩ := run_set_of_not_takes he c
      rw [run_bind_error hrun] at h
      exact ⟨i, (Result.error.inj h).1.symm⟩

theorem environ_sets (es : List (Str × Str)) (answers : Str → Option Errno) (c : Caller) :
    ((es.forM fun e => Environment.set e.1 e.2 (answers e.1)).run c).state.environ =
      setPairs (assignedAll es answers) c.environ := by
  induction es generalizing c with
  | nil => rfl
  | cons e es ih =>
    have hbind : ((e :: es).forM fun e => Environment.set e.1 e.2 (answers e.1)) =
        (Environment.set e.1 e.2 (answers e.1) >>= fun _ => es.forM fun e => Environment.set e.1 e.2 (answers e.1)) := rfl
    rw [hbind]
    unfold assignedAll
    by_cases he : takes answers e = true
    · rw [run_bind_ok (run_set_of_takes he c), ih, List.takeWhile_cons_of_pos he, List.map_cons, setPairs_cons]
      rfl
    · obtain ⟨l, c', hrun, henviron⟩ := run_set_of_not_takes he c
      rw [run_bind_error hrun, List.takeWhile_cons_of_neg he, Result.state_error, henviron]
      rfl

theorem environ_setAll (values : SortedMap Str Str) (answers : Str → Option Errno) (c : Caller) :
    ((Environment.setAll values answers).run c).state.environ = setPairs (assignedAll values.entries answers) c.environ :=
  environ_sets values.entries answers c

/-- **What a call does to the environment.** -/
theorem environ_after (i : EnvCall) (c : Caller) : (i.after c).environ = setPairs i.assigned c.environ := by
  cases i with
  | set key value answer =>
    have hsingle : ((Environment.set key value answer).run c).state =
        (([(key, value)].forM fun e => Environment.set e.1 e.2 answer).run c).state := by
      show _ = ((Environment.set key value answer >>= fun _ => pure ()).run c).state
      rw [run_bind]
      cases (Environment.set key value answer).run c <;> rfl
    show ((Environment.set key value answer).run c).state.environ = _
    rw [hsingle]
    exact environ_sets [(key, value)] (fun _ => answer) c
  | setAll values answers => exact environ_setAll values answers c
  | launch x => exact environ_onProc x c
  | pipeIn exe params envs answers ans =>
    show ((exe.pipeInCaller params envs answers ans).run c).state.environ = setPairs (assignedAll envs.entries answers) c.environ
    rw [← environ_setAll]
    unfold Executable.pipeInCaller
    rw [run_bind]
    cases (Environment.setAll envs answers).run c with
    | ok a c₁ => exact environ_onProc _ c₁
    | error l c₁ => rfl

theorem setPairs_append (es fs : List (Str × Str)) (environ : List Str) :
    setPairs (es ++ fs) environ = setPairs fs (setPairs es environ) := List.foldl_append

theorem environ_path (h : environments.Path c is c') : c'.environ = setPairs (is.flatMap EnvCall.assigned) c.environ := by
  induction h with
  | nil c => rfl
  | @cons c i c₁ is c' hs _ ih =>
    have hstep : i.after c = c₁ := hs
    rw [ih, ← hstep, environ_after, List.flatMap_cons, setPairs_append]

/-- The names that are set have no `=`. -/
theorem notMem_of_assignedAll {e : Str × Str} (h : e ∈ assignedAll es answers) : equalsSign ∉ e.1 := by
  obtain ⟨f, hf, rfl⟩ := List.mem_map.1 h
  have htakes : takes answers f = true := List.mem_takeWhile_imp hf
  intro hmem
  have herror : Environment.setError (cstr f.1) (answers f.1) = some Environment.einval :=
    if_pos (.inr (List.contains_iff_mem.2 hmem))
  have hnone : Environment.setError (cstr f.1) (answers f.1) = none := of_decide_eq_true htakes
  rw [hnone] at herror
  cases herror

theorem notMem_of_assigned {i : EnvCall} {e : Str × Str} (h : e ∈ i.assigned) : equalsSign ∉ e.1 := by
  cases i with
  | set key value answer => exact notMem_of_assignedAll h
  | setAll values answers => exact notMem_of_assignedAll h
  | launch x => exact absurd h List.not_mem_nil
  | pipeIn exe params envs answers ans => exact notMem_of_assignedAll h

/-! ## The map of names and values -/

/-- The environment holds the map. -/
def Reads (environ : List Str) (σ : Str → Option Str) : Prop := ∀ n, equalsSign ∉ n → getenv n environ = σ n

/-- The map with some values assigned, the last of a name to stay. -/
def assign (es : List (Str × Str)) (σ : Str → Option Str) : Str → Option Str :=
  es.foldl (fun σ e => Function.update σ e.1 (some e.2)) σ

theorem Reads.setenv (h : Reads environ σ) (hname : equalsSign ∉ name) (value : Str) :
    Reads (OksSystem.setenv name value environ) (Function.update σ name (some value)) := by
  intro n hn
  by_cases hne : n = name
  · rw [hne, Function.update_self]
    exact getenv_setenv_self name value environ
  · rw [Function.update_of_ne hne, getenv_setenv_ne hname hn (Ne.symm hne)]
    exact h n hn

theorem Reads.setPairs (h : Reads environ σ) (hes : ∀ e ∈ es, equalsSign ∉ e.1) :
    Reads (OksSystem.setPairs es environ) (assign es σ) := by
  induction es generalizing environ σ with
  | nil => exact h
  | cons e es ih =>
    have hnext := h.setenv (hes e List.mem_cons_self) e.2
    exact ih hnext fun f hf => hes f (List.mem_cons_of_mem e hf)

theorem reads_path (h : environments.Path c is c') (hc : Reads c.environ σ) :
    Reads c'.environ (assign (is.flatMap EnvCall.assigned) σ) := by
  rw [environ_path h]
  refine hc.setPairs fun e he => ?_
  obtain ⟨i, -, hi⟩ := List.mem_flatMap.1 he
  exact notMem_of_assigned hi

/-! ## One entry for a name -/

/-- What stands in front of the first `=`. -/
def nameOf (e : Str) : Str := e.takeWhile (· != equalsSign)

/-- Every entry has a name, and no two the same. -/
structure WellFormed (environ : List Str) : Prop where
  named : ∀ e ∈ environ, equalsSign ∈ e
  nodup : (environ.map nameOf).Nodup

theorem nameOf_entry (hname : equalsSign ∉ name) (value : Str) : nameOf (entry name value) = name := by
  unfold nameOf entry
  rw [List.takeWhile_append_of_pos fun b hb => by simpa using fun heq : b = equalsSign => hname (heq ▸ hb),
    List.takeWhile_cons_of_neg (by simp), List.append_nil]

theorem starts_iff {e : Str} (hname : equalsSign ∉ name) (he : equalsSign ∈ e) :
    name ++ [equalsSign] <+: e ↔ nameOf e = name := by
  constructor
  · intro h
    rw [eq_entry_of_starts h, nameOf_entry hname]
  · rintro rfl
    obtain ⟨before, after, rfl, hbefore⟩ := List.eq_append_cons_of_mem he
    rw [show before ++ equalsSign :: after = entry before after from rfl, nameOf_entry hbefore]
    exact prefix_entry before after

/-- A name that is there keeps its place, and a new one comes last. -/
theorem map_nameOf_setenv (hname : equalsSign ∉ name) (henv : ∀ e ∈ environ, equalsSign ∈ e) (value : Str) :
    (setenv name value environ).map nameOf =
      if name ∈ environ.map nameOf then environ.map nameOf else environ.map nameOf ++ [name] := by
  induction environ with
  | nil =>
    show [nameOf (entry name value)] = _
    rw [nameOf_entry hname, if_neg (by simp)]
    rfl
  | cons e environ ih =>
    have he := starts_iff hname (henv e List.mem_cons_self)
    unfold setenv
    by_cases heq : nameOf e = name
    · rw [if_pos (he.2 heq), if_pos (by rw [List.map_cons, heq]; exact List.mem_cons_self), List.map_cons,
        nameOf_entry hname, List.map_cons, heq]
    · have hmem : name ∈ (e :: environ).map nameOf ↔ name ∈ environ.map nameOf := by
        rw [List.map_cons, List.mem_cons, or_iff_right (Ne.symm heq)]
      rw [if_neg (mt he.1 heq), List.map_cons, ih fun f hf => henv f (List.mem_cons_of_mem e hf), if_congr hmem rfl rfl]
      split_ifs <;> rfl

theorem mem_setenv {e : Str} (h : e ∈ setenv name value environ) : e = entry name value ∨ e ∈ environ := by
  induction environ with
  | nil => exact .inl (List.mem_singleton.1 h)
  | cons f environ ih =>
    unfold setenv at h
    split_ifs at h
    · rcases List.mem_cons.1 h with h | h
      · exact .inl h
      · exact .inr (List.mem_cons_of_mem f h)
    · rcases List.mem_cons.1 h with rfl | h
      · exact .inr List.mem_cons_self
      · exact (ih h).imp_right (List.mem_cons_of_mem f)

theorem WellFormed.setenv (h : WellFormed environ) (hname : equalsSign ∉ name) (value : Str) :
    WellFormed (OksSystem.setenv name value environ) where
  named e he := by
    rcases mem_setenv he with rfl | he
    · exact List.mem_append_right _ List.mem_cons_self
    · exact h.named e he
  nodup := by
    rw [map_nameOf_setenv hname h.named]
    split_ifs with hmem
    · exact h.nodup
    · rw [← List.concat_eq_append]
      exact h.nodup.concat hmem

theorem wellFormed_setPairs (h : WellFormed environ) (hes : ∀ e ∈ es, equalsSign ∉ e.1) :
    WellFormed (setPairs es environ) := by
  induction es generalizing environ with
  | nil => exact h
  | cons e es ih =>
    exact ih (h.setenv (hes e List.mem_cons_self) e.2) fun f hf => hes f (List.mem_cons_of_mem e hf)

/-! ## The process and its children -/

theorem get_of_reads (h : Reads environ σ) {key : Str} (hkey : equalsSign ∉ cstr key) :
    Environment.get key environ = ((σ (cstr key)).map cstr).getD [] := by
  unfold Environment.get
  rw [h (cstr key) hkey]
  cases σ (cstr key) <;> rfl

/-- The program of `pipe_in(params,envs)` has the environment of the process, once the variables are set in it. -/
theorem environ_pipeIn_child {exe : Executable} {params : List Str} {envs : SortedMap Str Str} {ans : Answers}
    {argv : List Str} {env : Option (List Str)} (hfork : ans.fork = .child)
    (h : (exe.pipeInCaller params envs answers ans).run c = .error (.exec argv env) c') :
    env.getD c'.environ = setPairs (assignedAll envs.entries answers) c.environ := by
  have hset := environ_setAll envs answers c
  unfold Executable.pipeInCaller at h
  rw [run_bind] at h
  cases hrun : (Environment.setAll envs answers).run c with
  | error l c₁ =>
    obtain ⟨i, rfl⟩ := issue_of_sets hrun
    rw [hrun] at h
    cases h
  | ok a c₁ =>
    rw [hrun] at h hset
    obtain ⟨hx, henviron⟩ := run_onProc_error h
    obtain ⟨p, hp⟩ := run_pipeIn_child exe params (pipes_of_exec hx) hfork c₁.proc
    obtain rfl := execs_eq_exec (Result.error.inj (hp.symm.trans hx)).1
    rw [Option.getD_none, henviron]
    exact hset

/-- **After any calls of `set` and of the launchers, `get` gives the value assigned last to a variable, or the one it had
at first; no name gets two entries; and the program of a `pipe_in` that follows reads the same, with the variables of its own
call set last.** -/
theorem environment_refines (h : environments.Path c is c') :
    (WellFormed c.environ → WellFormed c'.environ) ∧
      (∀ key, equalsSign ∉ cstr key → Environment.get key c'.environ =
        ((assign (is.flatMap EnvCall.assigned) (fun n => getenv n c.environ) (cstr key)).map cstr).getD []) ∧
      ∀ exe params envs answers ans argv env c'', ans.fork = .child →
        (Executable.pipeInCaller exe params envs answers ans).run c' = .error (.exec argv env) c'' →
          ∀ key, equalsSign ∉ cstr key → Environment.get key (env.getD c''.environ) =
            ((assign (is.flatMap EnvCall.assigned ++ assignedAll envs.entries answers) (fun n => getenv n c.environ)
              (cstr key)).map cstr).getD [] := by
  have hassigned : ∀ e ∈ is.flatMap EnvCall.assigned, equalsSign ∉ e.1 := fun e he => by
    obtain ⟨i, -, hi⟩ := List.mem_flatMap.1 he
    exact notMem_of_assigned hi
  have hreads : Reads c'.environ (assign (is.flatMap EnvCall.assigned) fun n => getenv n c.environ) :=
    reads_path h fun _ _ => rfl
  refine ⟨?_, fun key hkey => get_of_reads hreads hkey, ?_⟩
  · intro hc
    rw [environ_path h]
    exact wellFormed_setPairs hc hassigned
  · intro exe params envs answers ans argv env c'' hfork hrun key hkey
    rw [environ_pipeIn_child hfork hrun]
    have hnames : ∀ e ∈ assignedAll envs.entries answers, equalsSign ∉ e.1 := fun e he => notMem_of_assignedAll he
    have hchild := hreads.setPairs hnames
    unfold assign at hchild ⊢
    rw [List.foldl_append]
    exact get_of_reads hchild hkey

/-- A variable that is set for one child, and then changed. -/
theorem environment_refines_lang : ∃ c', environments.Path ⟨plain, []⟩
    [.pipeIn ⟨⟨text "/bin/ls"⟩⟩ [] lang (fun _ => none) allSucceed, .set (text "LANG") (text "de") none] c' ∧
      Environment.get (text "LANG") c'.environ = text "de" ∧ WellFormed c'.environ := by
  have hpath : environments.Path ⟨plain, []⟩
      [.pipeIn ⟨⟨text "/bin/ls"⟩⟩ [] lang (fun _ => none) allSucceed, .set (text "LANG") (text "de") none] _ :=
    .cons rfl (.single rfl)
  obtain ⟨hformed, hget, -⟩ := environment_refines hpath
  exact ⟨_, hpath, (hget (text "LANG") (by decide)).trans rfl, hformed ⟨by simp, List.nodup_nil⟩⟩

end OksSystem
