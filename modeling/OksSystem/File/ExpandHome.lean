import OksSystem.File.Names
import OksSystem.User.Observers

/-!
# Names with a tilde

* `accountOf` : the entry of the user database for the user that a name with a tilde refers to;
* `homeOf_ok_iff` : what the members of `User` make of it; `homeOf_error` : the exception if they find nothing;
* `expanded_tilde` : `expand_home` cuts a name at its first slash, and throws without one;
* `expands_home_iff` : **the home directory is expanded iff a slash follows the user and `home()` finds the entry**.
-/

namespace OksSystem
open ByteBuffer EStateM FileTree Pieces

/-- The entry for a user: that of the caller, or the one with the name. -/
def accountOf (users : UserDb) (userName : Str) : Looked :=
  if userName = [] then users.getpwuid users.getuid else users.getpwnam (cstr userName)

namespace File

variable {users : UserDb} {host : Host} {m : Machine} {userName rest home : Str} {user : User}

/-- An exception of a failed call. -/
def CallIssue (i : Issue) : Prop := ∃ error call action, i = .osSystemCall error call action

/-- `home()` on a user whose fields are still to be filled in. -/
def homeRead (users : UserDb) (user : User) : Except Issue Str :=
  match (User.home users).run user with
  | .ok home _ => .ok home
  | .error e _ => .error e

theorem homeRead_some {pwd : Passwd} (hnew : user.userHome = []) (h : User.entry users user = some pwd) :
    homeRead users user = .ok pwd.pwDir := by
  have hrun : (User.home users).run user = .ok pwd.pwDir (User.filled users user) := by
    unfold User.home
    rw [run_bind_ok (run_get _), if_pos hnew, run_bind_ok (User.run_resolve_some h), User.filled_of_some h]
    rfl
  unfold homeRead
  rw [hrun]

theorem homeRead_none (hnew : user.userHome = []) (h : User.entry users user = none) :
    ∃ i, CallIssue i ∧ homeRead users user = .error i := by
  obtain ⟨error, call, action, hresolve⟩ := User.run_resolve_none h
  have hrun : (User.home users).run user = .error (.osSystemCall error call action) user := by
    unfold User.home
    rw [run_bind_ok (run_get _), if_pos hnew, run_bind_error hresolve]
  refine ⟨_, ⟨error, call, action, rfl⟩, ?_⟩
  unfold homeRead
  rw [hrun]

theorem homeRead_ok_iff (hnew : user.userHome = []) :
    homeRead users user = .ok home ↔ ∃ pwd, User.entry users user = some pwd ∧ pwd.pwDir = home := by
  cases h : User.entry users user with
  | none =>
    obtain ⟨i, -, hread⟩ := homeRead_none hnew h
    simp [hread]
  | some pwd => simp [homeRead_some hnew h]

theorem homeRead_error {i : Issue} (hnew : user.userHome = []) (h : homeRead users user = .error i) : CallIssue i := by
  cases hentry : User.entry users user with
  | none =>
    obtain ⟨j, hj, hread⟩ := homeRead_none hnew hentry
    rw [hread] at h
    exact Except.error.inj h ▸ hj
  | some pwd =>
    rw [homeRead_some hnew hentry] at h
    cases h

theorem entry_eq_some_iff {pwd : Passwd} :
    User.entry users user = some pwd ↔ users.sysconf = none ∧ users.getpwuid user.userId = .entry pwd := by
  unfold User.entry
  cases users.sysconf with
  | some e => simp
  | none => cases users.getpwuid user.userId <;> simp

variable (users) in
/-- What `User(s_name)` makes of a name. -/
theorem ofName_ok_iff : User.ofName users userName = .ok user ↔ users.sysconf = none ∧
    ∃ pwd, users.getpwnam (cstr userName) = .entry pwd ∧ user = { User.ofId pwd.pwUid with userName := userName } := by
  unfold User.ofName
  cases users.sysconf with
  | some e => simp
  | none => cases users.getpwnam (cstr userName) <;> simp [eq_comm]

theorem ofName_error {i : Issue} (h : User.ofName users userName = .error i) : CallIssue i := by
  unfold User.ofName at h
  cases hsys : users.sysconf with
  | some e =>
    simp only [hsys] at h
    exact Except.error.inj h ▸ ⟨_, _, _, rfl⟩
  | none =>
    simp only [hsys] at h
    cases hlook : users.getpwnam (cstr userName) with
    | entry pwd =>
      simp only [hlook] at h
      cases h
    | absent e =>
      simp only [hlook] at h
      exact Except.error.inj h ▸ ⟨_, _, _, rfl⟩
    | failed res =>
      simp only [hlook] at h
      exact Except.error.inj h ▸ ⟨_, _, _, rfl⟩

/-- The entry whose home directory `expand_home` takes: a name is only used to find the id. -/
def ownEntry (users : UserDb) (userName : Str) (pwd : Passwd) : Looked :=
  users.getpwuid (if userName = [] then users.getuid else pwd.pwUid)

theorem homeOf_ok_iff {pwd : Passwd} (h : accountOf users userName = .entry pwd) :
    homeOf users userName = .ok home ↔
      users.sysconf = none ∧ ∃ own, ownEntry users userName pwd = .entry own ∧ own.pwDir = home := by
  unfold accountOf at h
  unfold homeOf ownEntry
  change ((if userName = [] then _ else _ : Except Issue User).bind (homeRead users) = .ok home) ↔ _
  by_cases hname : userName = []
  · rw [if_pos hname]
    change homeRead users (User.current users) = .ok home ↔ _
    rw [homeRead_ok_iff rfl]
    simp only [entry_eq_some_iff, if_pos hname, and_assoc, exists_and_left]
    rfl
  · rw [if_neg hname] at h ⊢
    simp only [if_neg hname]
    cases huser : User.ofName users userName with
    | error i =>
      have hsys : users.sysconf ≠ none := by
        intro hsys
        have hok := (ofName_ok_iff users).2 ⟨hsys, pwd, h, rfl⟩
        rw [huser] at hok
        cases hok
      simp [Except.bind, hsys]
    | ok user =>
      obtain ⟨hsys, pwd', hpwd, rfl⟩ := (ofName_ok_iff _).1 huser
      rw [h] at hpwd
      cases hpwd
      change homeRead users _ = .ok home ↔ _
      rw [homeRead_ok_iff rfl]
      simp only [entry_eq_some_iff, hsys, true_and]
      rfl

theorem homeOf_error {i : Issue} (h : homeOf users userName = .error i) : CallIssue i := by
  change ((if userName = [] then _ else _ : Except Issue User).bind (homeRead users) = .error i) at h
  split_ifs at h
  · exact homeRead_error rfl h
  · cases huser : User.ofName users userName with
    | error j =>
      rw [huser] at h
      exact Except.error.inj h ▸ ofName_error huser
    | ok user =>
      rw [huser] at h
      obtain ⟨-, pwd, -, rfl⟩ := (ofName_ok_iff _).1 huser
      exact homeRead_error rfl h

/-! ## The two cuts -/

variable (users) in
/-- Without a slash behind the user, the second cut starts at `npos`. -/
theorem expanded_no_slash (huser : slash ∉ userName) : expanded users (tilde :: userName) = .error .outOfRange := by
  have hnone : find (tilde :: userName) slash 0 = none := by
    rw [find_eq_none_iff, List.mem_cons]
    rintro (h | h)
    · exact absurd h (by decide)
    · exact huser h
  unfold expanded
  simp only [hnone]

variable (users) in
/-- With one, both cuts are right. -/
theorem expanded_slash (huser : slash ∉ userName) (path : Str) :
    expanded users (tilde :: (userName ++ slash :: path)) = (homeOf users userName).map (· ++ slash :: path) := by
  have hnot : slash ∉ tilde :: userName := by
    rw [List.mem_cons]
    rintro (h | h)
    · exact absurd h (by decide)
    · exact huser h
  have hfind : find (tilde :: (userName ++ slash :: path)) slash 0 = some (userName.length + 1) :=
    find_append_cons hnot
  have huserName : substr (tilde :: (userName ++ slash :: path)) 1 (userName.length + 1 - 1) = userName := by
    show ((userName ++ slash :: path).drop 0).take userName.length = userName
    rw [List.drop_zero, List.take_left]
  have hrest : (tilde :: (userName ++ slash :: path)).drop (userName.length + 1) = slash :: path := by
    rw [List.drop_succ_cons, List.drop_left]
  unfold expanded
  simp only [hfind, huserName, hrest]

theorem run_new_tilde (host : Host) (m : Machine) (name : Str) :
    (new host (tilde :: name)).run m = match expanded host.users (tilde :: name) with
      | .ok l => .ok ⟨m.stored l⟩ m
      | .error i => .error (.issue i) m := by
  rw [run_new_longName]
  unfold longName
  rw [if_neg (List.cons_ne_nil _ _), if_neg (by show some tilde ≠ some slash; decide), if_pos List.head?_cons]
  cases expanded host.users (tilde :: name) <;> rfl

/-! ## When the name is expanded -/

/-- The name of a user's file is expanded with `home`, and the constructor accepts it. -/
def ExpandsHome (host : Host) (m : Machine) (userName rest home : Str) : Prop :=
  (expandHome host (tilde :: (userName ++ rest))).run m = .ok (home ++ rest) m ∧
    (new host (tilde :: (userName ++ rest))).run m = .ok ⟨m.stored (home ++ rest)⟩ m

/-- The constructor throws nothing but what a failed call leads to. -/
def OnlyCallIssues (host : Host) (m : Machine) (name : Str) : Prop :=
  ∀ e m', (new host name).run m = .error e m' → ∃ i, e = .issue i ∧ CallIssue i

theorem expandsHome_iff_expanded : ExpandsHome host m userName rest home ↔
    expanded host.users (tilde :: (userName ++ rest)) = .ok (home ++ rest) := by
  unfold ExpandsHome
  rw [run_expandHome host m List.head?_cons, run_new_tilde]
  cases expanded host.users (tilde :: (userName ++ rest)) with
  | error i => simp
  | ok l =>
    constructor
    · rintro ⟨h, -⟩
      cases h
      rfl
    · intro h
      obtain rfl := Except.ok.inj h
      exact ⟨rfl, rfl⟩

/-- **The home directory of a known user is put in front of the rest iff there is a rest and `home()` finds that
directory; nothing but failed calls is reported iff there is a rest.** -/
theorem expands_home_iff (host : Host) (m : Machine) (userName rest : Str) (huser : slash ∉ userName)
    (hrest : rest = [] ∨ rest.head? = some slash) :
    (∀ pwd, accountOf host.users userName = .entry pwd → (ExpandsHome host m userName rest pwd.pwDir ↔
      rest ≠ [] ∧ host.users.sysconf = none ∧
        ∃ own, ownEntry host.users userName pwd = .entry own ∧ own.pwDir = pwd.pwDir)) ∧
      (OnlyCallIssues host m (tilde :: (userName ++ rest)) ↔ rest ≠ []) := by
  cases rest with
  | nil =>
    rw [List.append_nil]
    have hexp := expanded_no_slash host.users huser
    constructor
    · intro pwd _
      rw [expandsHome_iff_expanded, List.append_nil, hexp]
      simp
    · refine iff_of_false (fun h => ?_) fun h => h rfl
      have hrun := run_new_tilde host m userName
      rw [hexp] at hrun
      obtain ⟨i, heq, error, call, action, rfl⟩ := h _ _ hrun
      cases heq
  | cons c path =>
    obtain rfl : c = slash := by
      rcases hrest with h | h
      · cases h
      · exact Option.some.inj h
    have hexp := expanded_slash host.users huser path
    constructor
    · intro pwd hpwd
      rw [expandsHome_iff_expanded, hexp, ← homeOf_ok_iff hpwd]
      cases homeOf host.users userName <;> simp [Except.map]
    · refine iff_of_true (fun e m' h => ?_) (List.cons_ne_nil slash path)
      rw [run_new_tilde, hexp] at h
      cases hhome : homeOf host.users userName with
      | ok home =>
        rw [hhome] at h
        cases h
      | error i =>
        rw [hhome] at h
        cases h
        exact ⟨i, rfl, homeOf_error hhome⟩

/-- One user, `joe`. -/
def joes : UserDb where
  sysconf := none
  getuid := 7
  getpwnam := fun name => if name = text "joe" then .entry ⟨7, name, text "/home/joe", []⟩ else .absent 0
  getpwuid := fun userId => if userId = 7 then .entry ⟨7, text "joe", text "/home/joe", []⟩ else .absent 0

theorem expands_home_iff_joe : ExpandsHome { quiet with users := joes } bare (text "joe") (text "/x") (text "/home/joe") := by
  obtain ⟨hknown, -⟩ := expands_home_iff { quiet with users := joes } bare (text "joe") (text "/x") (by decide) (by decide)
  exact (hknown ⟨7, text "joe", text "/home/joe", []⟩ rfl).2 ⟨by decide, rfl, ⟨7, text "joe", text "/home/joe", []⟩, rfl, rfl⟩

/-- `~joe` is not expanded. -/
theorem bare_tilde_throws : ¬ ∀ (host : Host) (m : Machine) (userName rest : Str) (pwd : Passwd), slash ∉ userName →
    (rest = [] ∨ rest.head? = some slash) → accountOf host.users userName = .entry pwd →
    ExpandsHome host m userName rest pwd.pwDir := by
  intro h
  have hjoe := h { quiet with users := joes } bare (text "joe") [] ⟨7, text "joe", text "/home/joe", []⟩ (by decide) (.inl rfl) rfl
  rw [expandsHome_iff_expanded] at hjoe
  rw [List.append_nil, expanded_no_slash _ (by decide)] at hjoe
  cases hjoe

end File

end OksSystem
