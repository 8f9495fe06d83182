import OksSystem.Executable.Environ

/-!
# Setting a collection of variables

* `getenv`, `Environment.get` : the value of the first entry with the name;
* `getenv_setenv_self`, `getenv_setenv_ne`, `setenv_eq_self_iff` : what setting one variable does to the others;
* `SetsOnly` : some variables have their values and all others are as before;
* `setAll_sets` : **`set(values)` sets all variables, or those in front of the first that fails**.
-/

namespace OksSystem
open ByteBuffer EStateM

/-- `::getenv(name)`. -/
def getenv (name : Str) : List Str → Option Str
  | [] => none
  | e :: environ => if name ++ [equalsSign] <+: e then some (e.drop (name.length + 1)) else getenv name environ

/-- `get(key)`. -/
def Environment.get (key : Str) (environ : List Str) : Str :=
  match getenv (cstr key) environ with
  | none => []
  | some value => cstr value

variable {name value n : Str} {environ environ' : List Str} {es : List (Str × Str)} {answers : Str → Option Errno}

/-! ## One variable -/

theorem prefix_entry (name value : Str) : name ++ [equalsSign] <+: entry name value := by
  refine ⟨value, ?_⟩
  rw [List.append_assoc, List.singleton_append]
  rfl

theorem drop_entry (name value : Str) : (entry name value).drop (name.length + 1) = value := by
  unfold entry
  rw [List.drop_length_add_append, List.drop_one, List.tail_cons]

theorem eq_entry_of_starts {e : Str} (h : name ++ [equalsSign] <+: e) : e = entry name (e.drop (name.length + 1)) := by
  obtain ⟨value, rfl⟩ := h
  have heq : name ++ [equalsSign] ++ value = entry name value := by
    rw [List.append_assoc, List.singleton_append]
    rfl
  rw [heq, drop_entry]

theorem getenv_setenv_self (name value : Str) (environ : List Str) : getenv name (setenv name value environ) = some value := by
  induction environ with
  | nil =>
    unfold setenv getenv
    rw [if_pos (prefix_entry name value), drop_entry]
  | cons e environ ih =>
    unfold setenv
    split_ifs with hname
    · unfold getenv
      rw [if_pos (prefix_entry name value), drop_entry]
    · unfold getenv
      rw [if_neg hname, ih]

/-- Other variables keep their values. -/
theorem getenv_setenv_ne (hname : equalsSign ∉ name) (hn : equalsSign ∉ n) (hne : name ≠ n) (value : Str)
    (environ : List Str) : getenv n (setenv name value environ) = getenv n environ := by
  have hnot : ∀ v, ¬ n ++ [equalsSign] <+: entry name v := fun v hprefix => hne (name_of_starts hn hname hprefix).symm
  induction environ with
  | nil =>
    unfold setenv getenv
    rw [if_neg (hnot value)]
    rfl
  | cons e environ ih =>
    unfold setenv
    split_ifs with hprefix
    · have he : ¬ n ++ [equalsSign] <+: e := by
        rw [eq_entry_of_starts hprefix]
        exact hnot _
      unfold getenv
      rw [if_neg (hnot value), if_neg he]
    · unfold getenv
      rw [ih]

/-- A variable that has the value already is set to it without a change, and no other is. -/
theorem setenv_eq_self_iff : setenv name value environ = environ ↔ getenv name environ = some value := by
  induction environ with
  | nil =>
    unfold setenv getenv
    simp
  | cons e environ ih =>
    unfold setenv getenv
    by_cases hprefix : name ++ [equalsSign] <+: e
    · rw [if_pos hprefix, if_pos hprefix]
      constructor
      · intro h
        rw [← (List.cons.inj h).1, drop_entry]
      · intro h
        rw [← Option.some.inj h, ← eq_entry_of_starts hprefix]
    · rw [if_neg hprefix, if_neg hprefix, ← ih]
      exact ⟨fun h => (List.cons.inj h).2, fun h => congrArg (e :: ·) h⟩

theorem get_of_getenv (hname : 0 ∉ name) (hvalue : 0 ∉ value) (h : getenv name environ = some value) :
    Environment.get name environ = value := by
  unfold Environment.get
  rw [cstr_of_notMem hname, h]
  exact cstr_of_notMem hvalue

/-! ## A list of variables -/

/-- The variables `es` are set, and no others changed. -/
structure SetsOnly (es : List (Str × Str)) (environ environ' : List Str) : Prop where
  values : ∀ e ∈ es, getenv e.1 environ' = some e.2
  others : ∀ n, equalsSign ∉ n → (∀ e ∈ es, e.1 ≠ n) → getenv n environ' = getenv n environ

/-- `::setenv` takes the variable. -/
def Sets (answers : Str → Option Errno) (e : Str × Str) : Prop := Environment.setError e.1 (answers e.1) = none

/-- No NUL ends the name or the value early. -/
def NulFree (e : Str × Str) : Prop := 0 ∉ e.1 ∧ 0 ∉ e.2

theorem Sets.notMem {e : Str × Str} (h : Sets answers e) : equalsSign ∉ e.1 := by
  intro hmem
  have herror : Environment.setError e.1 (answers e.1) = some Environment.einval :=
    if_pos (.inr (List.contains_iff_mem.2 hmem))
  rw [h] at herror
  cases herror

theorem run_set_of_sets {e : Str × Str} (hsets : Sets answers e) (hnul : NulFree e) (c : Caller) :
    (Environment.set e.1 e.2 (answers e.1)).run c = .ok () { c with environ := setenv e.1 e.2 c.environ } := by
  unfold Environment.set
  rw [cstr_of_notMem hnul.1, cstr_of_notMem hnul.2, show Environment.setError e.1 (answers e.1) = none from hsets]
  rfl

theorem run_set_of_fails {e : Str × Str} (hfails : ¬ Sets answers e) (hnul : NulFree e) (c : Caller) :
    ∃ l c', (Environment.set e.1 e.2 (answers e.1)).run c = .error l c' ∧ c'.environ = c.environ := by
  unfold Environment.set
  rw [cstr_of_notMem hnul.1]
  cases herror : Environment.setError e.1 (answers e.1) with
  | none => exact absurd herror hfails
  | some err => exact ⟨_, _, rfl, rfl⟩

/-- `environ` after some variables are set. -/
def setPairs (es : List (Str × Str)) (environ : List Str) : List Str :=
  es.foldl (fun environ e => setenv e.1 e.2 environ) environ

theorem setPairs_cons (e : Str × Str) (es : List (Str × Str)) (environ : List Str) :
    setPairs (e :: es) environ = setPairs es (setenv e.1 e.2 environ) := rfl

theorem getenv_setPairs_ne (hes : ∀ e ∈ es, equalsSign ∉ e.1) (hn : equalsSign ∉ n) (hne : ∀ e ∈ es, e.1 ≠ n) :
    getenv n (setPairs es environ) = getenv n environ := by
  induction es generalizing environ with
  | nil => rfl
  | cons e es ih =>
    rw [setPairs_cons, ih (fun f hf => hes f (List.mem_cons_of_mem e hf)) fun f hf => hne f (List.mem_cons_of_mem e hf)]
    exact getenv_setenv_ne (hes e List.mem_cons_self) hn (hne e List.mem_cons_self) _ _

variable (environ) in
/-- With the names in order none is set twice. -/
theorem setsOnly_setPairs (hes : ∀ e ∈ es, equalsSign ∉ e.1) (horder : es.Pairwise fun e f => e.1 < f.1) :
    SetsOnly es environ (setPairs es environ) := by
  refine ⟨?_, fun n hn hne => getenv_setPairs_ne hes hn hne⟩
  induction es generalizing environ with
  | nil => exact fun e he => absurd he List.not_mem_nil
  | cons e es ih =>
    obtain ⟨hfirst, hrest⟩ := List.pairwise_cons.1 horder
    have hes' : ∀ f ∈ es, equalsSign ∉ f.1 := fun f hf => hes f (List.mem_cons_of_mem e hf)
    intro f hf
    rw [setPairs_cons]
    rcases List.mem_cons.1 hf with rfl | hf
    · rw [getenv_setPairs_ne hes' (hes f List.mem_cons_self) fun g hg => (hfirst g hg).ne']
      exact getenv_setenv_self _ _ _
    · exact ih _ hes' hrest f hf

/-- Setting them changes nothing iff they all have their values already. -/
theorem setPairs_eq_self_iff (hes : ∀ e ∈ es, equalsSign ∉ e.1) (horder : es.Pairwise fun e f => e.1 < f.1) :
    setPairs es environ = environ ↔ ∀ e ∈ es, getenv e.1 environ = some e.2 := by
  constructor
  · intro h e he
    rw [← (setsOnly_setPairs environ hes horder).values e he, h]
  · intro h
    clear hes horder
    induction es with
    | nil => rfl
    | cons e es ih =>
      rw [setPairs_cons, setenv_eq_self_iff.2 (h e List.mem_cons_self)]
      exact ih fun f hf => h f (List.mem_cons_of_mem e hf)

/-! ## The loop -/

variable (answers) in
/-- The loop sets the variables one by one, up to the first that fails. -/
theorem run_sets (hnul : ∀ e ∈ es, NulFree e) (c : Caller) :
    (es.forM fun e => Environment.set e.1 e.2 (answers e.1)).run c =
        .ok () { c with environ := setPairs es c.environ } ∧ (∀ e ∈ es, Sets answers e) ∨
      ∃ before e after l c', es = before ++ e :: after ∧ (∀ f ∈ before, Sets answers f) ∧ ¬ Sets answers e ∧
        (es.forM fun e => Environment.set e.1 e.2 (answers e.1)).run c = .error l c' ∧
        c'.environ = setPairs before c.environ := by
  induction es generalizing c with
  | nil => exact .inl ⟨rfl, fun e he => absurd he List.not_mem_nil⟩
  | cons e es ih =>
    have hbind : ((e :: es).forM fun e => Environment.set e.1 e.2 (answers e.1)) =
        (Environment.set e.1 e.2 (answers e.1) >>= fun _ => es.forM fun e => Environment.set e.1 e.2 (answers e.1)) := rfl
    have hp := hnul e List.mem_cons_self
    rw [hbind]
    by_cases he : Sets answers e
    · rw [run_bind_ok (run_set_of_sets he hp c)]
      rcases ih (fun f hf => hnul f (List.mem_cons_of_mem e hf)) { c with environ := setenv e.1 e.2 c.environ } with
        ⟨hrun, hall⟩ | ⟨before, f, after, l, c', rfl, hbefore, hf, hrun, henviron⟩
      · exact .inl ⟨hrun, List.forall_mem_cons.2 ⟨he, hall⟩⟩
      · exact .inr ⟨e :: before, f, after, l, c', rfl, List.forall_mem_cons.2 ⟨he, hbefore⟩, hf, hrun, henviron⟩
    · obtain ⟨l, c', hrun, henviron⟩ := run_set_of_fails he hp c
      exact .inr ⟨[], e, es, l, c', rfl, fun f hf => absurd hf List.not_mem_nil, he, run_bind_error hrun, henviron⟩

/-- **If `set(values)` returns, `get` gives the values and no other variable has changed; if it throws, this holds of the
variables in front of the first failing one, so that the environment is as before iff they had their values already.** -/
theorem setAll_sets (values : SortedMap Str Str) (hnul : ∀ e ∈ values.entries, NulFree e) (answers : Str → Option Errno)
    (c : Caller) :
    (∀ c', (Environment.setAll values answers).run c = .ok () c' →
      SetsOnly values.entries c.environ c'.environ ∧ ∀ e ∈ values.entries, Environment.get e.1 c'.environ = e.2) ∧
    ∀ l c', (Environment.setAll values answers).run c = .error l c' →
      ∃ before e after, values.entries = before ++ e :: after ∧ (∀ f ∈ before, Sets answers f) ∧ ¬ Sets answers e ∧
        SetsOnly before c.environ c'.environ ∧
        (c'.environ = c.environ ↔ ∀ f ∈ before, getenv f.1 c.environ = some f.2) := by
  have hrun := run_sets answers hnul c
  unfold Environment.setAll
  constructor
  · intro c' hc'
    rcases hrun with ⟨hok, hall⟩ | ⟨before, e, after, l, c₁, -, -, -, herror, -⟩
    · rw [hok] at hc'
      cases hc'
      have hsets := setsOnly_setPairs c.environ (fun e he => (hall e he).notMem) values.sorted
      exact ⟨hsets, fun e he => get_of_getenv (hnul e he).1 (hnul e he).2 (hsets.values e he)⟩
    · rw [herror] at hc'
      cases hc'
  · intro l c' hc'
    rcases hrun with ⟨hok, -⟩ | ⟨before, e, after, l', c₁, hsplit, hbefore, he, herror, henviron⟩
    · rw [hok] at hc'
      cases hc'
    · rw [herror] at hc'
      cases hc'
      have horder : before.Pairwise fun e f => e.1 < f.1 := (List.pairwise_append.1 (hsplit ▸ values.sorted)).1
      have hnot : ∀ f ∈ before, equalsSign ∉ f.1 := fun f hf => (hbefore f hf).notMem
      rw [henviron]
      exact ⟨before, e, after, hsplit, hbefore, he, setsOnly_setPairs _ hnot horder, setPairs_eq_self_iff hnot horder⟩

theorem nulFree_lang : ∀ e ∈ lang.entries, NulFree e := by
  intro e he
  obtain rfl := List.mem_singleton.1 he
  unfold NulFree
  decide

theorem setAll_sets_lang : ∃ c', (Environment.setAll lang fun _ => none).run ⟨plain, []⟩ = .ok () c' ∧
    Environment.get (text "LANG") c'.environ = text "C" := by
  obtain ⟨returns, -⟩ := setAll_sets lang nulFree_lang (fun _ => none) ⟨plain, []⟩
  exact ⟨⟨plain, [text "LANG=C"]⟩, rfl, (returns _ rfl).2 (text "LANG", text "C") List.mem_cons_self⟩

/-- A variable, and a name that `::setenv` refuses behind it. -/
def badName : SortedMap Str Str := ⟨[(text "A", text "1"), (text "B=", text "2")], by decide⟩

/-- The first one stays set. -/
theorem setAll_keeps_part : ¬ ∀ (values : SortedMap Str Str) (answers : Str → Option Errno) (c : Caller) (l : Leave)
    (c' : Caller), (∀ e ∈ values.entries, NulFree e) → (Environment.setAll values answers).run c = .error l c' →
      c'.environ = c.environ := by
  intro h
  have hnul : ∀ e ∈ badName.entries, NulFree e := by
    intro e he
    unfold NulFree
    revert e
    decide
  have hsame := h badName (fun _ => none) ⟨plain, []⟩ _ _ hnul rfl
  exact absurd hsame (by decide)

end OksSystem
