import OksSystem.File.Canonical

/-!
# What the constructor makes of any name

* `expanded` : the expansion of a name with a tilde in front (`run_expandHome`);
* `longName` : the path that `set_name` gives to `realpath`, or the exception instead (`run_new_longName`);
* `Settled` : the names that the constructor leaves as they are (`run_new_self_iff`);
* `Refused` : the names it throws on (`run_new_refused_iff`);
* `child` : an entry of a directory (`run_child`).
-/

namespace OksSystem
open ByteBuffer EStateM FileTree Pieces

namespace File

variable {host : Host} {m m' : Machine} {path s l : Str} {f : File}

/-! ## Home directories -/

/-- The home directory of the user with a name, or of the caller. -/
def homeOf (users : UserDb) (userName : Str) : Except Issue Str :=
  (if userName = [] then .ok (User.current users) else User.ofName users userName).bind fun user =>
    match (User.home users).run user with
    | .ok home _ => .ok home
    | .error e _ => .error e

def expanded (users : UserDb) (path : Str) : Except Issue Str :=
  match find path slash 0 with
  | none => .error .outOfRange
  | some i => (homeOf users (substr path 1 (i - 1))).map (· ++ path.drop i)

/-- The expansion of a name asks for users, and changes nothing. -/
theorem run_expandHome (host : Host) (m : Machine) (h : path.head? = some tilde) : (expandHome host path).run m =
    match expanded host.users path with
    | .ok s => .ok s m
    | .error e => .error (.issue e) m := by
  have hne : path ≠ [] := by
    rintro rfl
    simp at h
  unfold expandHome expanded
  simp only [if_neg hne, if_neg (not_not.2 h)]
  cases find path slash 0 with
  | none => rfl
  | some i =>
    unfold homeOf
    by_cases huser : substr path 1 (i - 1) = []
    · simp only [if_pos huser, pure_bind, Except.bind]
      generalize (User.home host.users).run (User.current host.users) = home
      cases home <;> rfl
    · simp only [if_neg huser]
      cases User.ofName host.users (substr path 1 (i - 1)) with
      | error e => rfl
      | ok user =>
        simp only [pure_bind, Except.bind]
        generalize (User.home host.users).run user = home
        cases home <;> rfl

/-- What follows the first slash of a name does not matter for its expansion. -/
theorem expanded_append {users : UserDb} (h : expanded users path = .ok s) (ext : Str) :
    expanded users (path ++ ext) = .ok (s ++ ext) := by
  unfold expanded at h ⊢
  cases hfind : find path slash 0 with
  | none =>
    rw [hfind] at h
    cases h
  | some i =>
    have hi : i < path.length := (find_eq_some hfind).2.1
    have huser : substr (path ++ ext) 1 (i - 1) = substr path 1 (i - 1) := by
      unfold substr
      rw [List.drop_append_of_le_length (by omega), List.take_append_of_le_length (by rw [List.length_drop]; omega)]
    simp only [hfind] at h
    simp only [find_append hfind, huser, List.drop_append_of_le_length (Nat.le_of_lt hi)]
    cases hhome : homeOf users (substr path 1 (i - 1)) with
    | error e =>
      rw [hhome] at h
      cases h
    | ok home =>
      rw [hhome] at h
      obtain rfl := Except.ok.inj h
      show Except.ok (home ++ (path.drop i ++ ext)) = Except.ok (home ++ path.drop i ++ ext)
      rw [List.append_assoc]

/-! ## The path that is resolved -/

/-- `getcwd` fails. -/
def noWorkingDirectory : Issue :=
  .osSystemCall (errnoOf .noEntry) (text "getcwd") (cstr (text "getting the current working directory"))

/-- The path that `set_name` gives to `realpath`. -/
def longName (host : Host) (m : Machine) (name : Str) : Except Stop Str :=
  if name = [] then .error (.issue .precondition)
  else if name.head? = some slash then .ok name
  else if name.head? = some tilde then (expanded host.users name).mapError .issue
  else if m.tree.IsDir m.cwd then .ok (render m.cwd ++ slash :: name)
  else .error (.issue noWorkingDirectory)

theorem run_new_longName (host : Host) (m : Machine) (name : Str) : (new host name).run m = match longName host m name with
    | .ok l => .ok ⟨m.stored l⟩ m
    | .error e => .error e m := by
  unfold longName
  cases name with
  | nil => rw [if_pos rfl]; rfl
  | cons c rest =>
    rw [if_neg (List.cons_ne_nil c rest), List.head?_cons]
    by_cases hslash : c = slash
    · rw [if_pos (congrArg some hslash), hslash]
      exact run_new host m ⟨rest, rfl⟩
    rw [if_neg fun h => hslash (Option.some.inj h)]
    by_cases htilde : c = tilde
    · have hhead : (c :: rest).head? = some tilde := congrArg some htilde
      have hrun := run_expandHome host m hhead
      rw [if_pos (congrArg some htilde)]
      unfold new setName
      simp only [if_neg hslash, if_pos htilde]
      cases hexp : expanded host.users (c :: rest) with
      | error e =>
        rw [hexp] at hrun
        exact run_bind_error (run_bind_error hrun)
      | ok s =>
        rw [hexp] at hrun
        exact run_bind_ok ((run_bind_ok hrun).trans rfl)
    · rw [if_neg fun h => htilde (Option.some.inj h)]
      split_ifs with hcwd
      · have hlong : (new host (c :: rest)).run m = _ :=
          run_new_longPath hcwd (List.cons_ne_nil c rest) fun h => htilde (Option.some.inj h)
        unfold longPath at hlong
        rwa [List.head?_cons, if_neg fun h => hslash (Option.some.inj h)] at hlong
      · have hwd : workingDirectory.run m = .error (.issue noWorkingDirectory) m := by
          show (if m.tree.IsDir m.cwd then _ else _ : FileM Str).run m = _
          rw [if_neg hcwd]
          rfl
        unfold new setName
        simp only [if_neg hslash, if_neg htilde]
        exact run_bind_error (run_bind_error hwd)

/-! ## Names that the constructor leaves as they are -/

/-- An absolute name, or one that is its own expansion, which `realpath` does not change. -/
def Settled (host : Host) (m : Machine) (path : Str) : Prop :=
  (path.head? = some slash ∨ path.head? = some tilde ∧ expanded host.users path = .ok path) ∧
    ∀ r, m.realpath path = some r → r = path

/-- `set_name` throws before it gets to `realpath`. -/
def Refused (host : Host) (m : Machine) (path : Str) : Prop :=
  if path.head? = some slash then False
  else if path.head? = some tilde then ∃ e, expanded host.users path = .error e
  else path = [] ∨ ¬ m.tree.IsDir m.cwd

theorem stored_eq_self_iff : m.stored path = path ↔ ∀ r, m.realpath path = some r → r = path := by
  unfold Machine.stored
  cases m.realpath path <;> simp

/-- What is stored is absolute, or the path that did not resolve. -/
theorem absolute_stored_or (m : Machine) (l : Str) : Absolute (m.stored l) ∨ m.stored l = l := by
  cases hres : m.resolve l with
  | ok q =>
    rw [stored_of_resolve hres]
    exact .inl (absolute_render q)
  | error e => exact .inr (stored_of_error hres)

theorem head_absolute (h : Absolute path) : path.head? = some slash := by
  obtain ⟨s, rfl⟩ := h
  rfl

/-- **The constructor leaves a name as it is exactly when it is settled.** -/
theorem run_new_self_iff (host : Host) (m : Machine) (path : Str) :
    (new host path).run m = .ok ⟨path⟩ m ↔ Settled host m path := by
  have hself : ∀ l, (Result.ok ⟨m.stored l⟩ m : Result Stop Machine File) = .ok ⟨path⟩ m ↔ m.stored l = path := by
    intro l
    simp
  rw [run_new_longName]
  unfold longName Settled
  rw [← stored_eq_self_iff]
  by_cases hnil : path = []
  · simp [hnil]
  by_cases hslash : path.head? = some slash
  · rw [if_neg hnil, if_pos hslash]
    simp [hself, hslash]
  by_cases htilde : path.head? = some tilde
  · rw [if_neg hnil, if_neg hslash, if_pos htilde]
    cases hexp : expanded host.users path with
    | error e => simp [hslash, Except.mapError]
    | ok l =>
      refine (hself l).trans ⟨fun h => ?_, fun h => ?_⟩
      · rcases absolute_stored_or m l with habs | hl
        · rw [h] at habs
          exact absurd (head_absolute habs) hslash
        · obtain rfl : l = path := hl.symm.trans h
          exact ⟨.inr ⟨htilde, rfl⟩, h⟩
      · obtain ⟨hhead | ⟨-, hl⟩, hstored⟩ := h
        · exact absurd hhead hslash
        · rwa [Except.ok.inj hl]
  · rw [if_neg hnil, if_neg hslash, if_neg htilde]
    refine iff_of_false (fun h => ?_) fun h => ?_
    · split_ifs at h
      · have habs := absolute_stored m ((absolute_render m.cwd).append (slash :: path))
        rw [(hself _).1 h] at habs
        exact hslash (head_absolute habs)
    · rcases h.1 with hhead | ⟨hhead, -⟩
      · exact hslash hhead
      · exact htilde hhead

theorem run_new_refused_iff (host : Host) (m : Machine) (path : Str) :
    (∃ e, (new host path).run m = .error e m) ↔ Refused host m path := by
  rw [run_new_longName]
  unfold longName Refused
  by_cases hnil : path = []
  · simp [hnil]
  by_cases hslash : path.head? = some slash
  · simp [hnil, hslash]
  by_cases htilde : path.head? = some tilde
  · rw [if_neg hnil, if_neg hslash, if_pos htilde, if_neg hslash, if_pos htilde]
    cases expanded host.users path <;> simp [Except.mapError]
  · rw [if_neg hnil, if_neg hslash, if_neg htilde, if_neg hslash, if_neg htilde]
    split_ifs with hcwd <;> simp [hnil, hcwd]

/-! ## Children -/

/-- `child(name)`. -/
def child (host : Host) (name : Str) (f : File) : FileM File := new host (f.fullName ++ slash :: name)

/-- A file with a settled name has children of every name. -/
theorem run_child (h : Settled host m f.fullName) (name : Str) :
    (child host name f).run m = .ok ⟨m.stored (f.fullName ++ slash :: name)⟩ m := by
  have hne : f.fullName ≠ [] := by
    rintro hnil
    rw [hnil] at h
    simp [Settled] at h
  have hhead : (f.fullName ++ slash :: name).head? = f.fullName.head? := by
    obtain ⟨c, rest, hc⟩ := List.exists_cons_of_ne_nil hne
    rw [hc]
    rfl
  unfold child
  rw [run_new_longName]
  unfold longName
  rw [if_neg (by simp), hhead]
  rcases h.1 with hslash | ⟨htilde, hexp⟩
  · rw [if_pos hslash]
  · have hslash : f.fullName.head? ≠ some slash := by
      rw [htilde]
      decide
    rw [if_neg hslash, if_pos htilde, expanded_append hexp]
    rfl

end File

end OksSystem
