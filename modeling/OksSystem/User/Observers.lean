import OksSystem.User.Basic

/-!
# Looking at a user

The members that look at a `User` fill in its fields from the user database, and `resolve_safe` fills in "unknown" where
`resolve` throws.

* `Call` : the calls on a user, `after` a list of them;
* `entry` : what the user database has about it, `filled` : the object once its fields are filled in;
* `after_of_fills`, `after_of_not_fills` : the object after a list of calls is `filled` or still the object as built;
* `outcome_filled_iff` : which calls show the difference between the two;
* `looks_unchanged_iff` : every call has the outcome it has on the object as built exactly when no call that shows the
  difference comes after a call that fills in the fields.
-/

namespace OksSystem
open ByteBuffer EStateM

namespace User

inductive Call where
  | name
  | nameSafe
  | home
  | realName
  /-- `operator<<`. -/
  | output
  deriving DecidableEq, Repr

def Call.run (db : UserDb) : Call → EStateM Issue User Str
  | name => User.name db
  | nameSafe => User.nameSafe db
  | home => User.home db
  | realName => User.realName db
  | output => User.output db

/-- The string a call returns, `none` when it throws. -/
def outcome (db : UserDb) (c : Call) (u : User) : Option Str :=
  match (c.run db).run u with
  | .ok s _ => some s
  | .error _ _ => none

/-- The object after the calls `cs`. -/
def after (db : UserDb) (cs : List Call) (u : User) : User := cs.foldl (fun v c => ((c.run db).run v).state) u

/-- A user built from an id or from a name of the user database. -/
def Built (db : UserDb) (u : User) : Prop := (∃ userId, u = ofId userId) ∨ ∃ name, ofName db name = .ok u

/-- The calls whose outcome is compared. -/
def Call.Reports : Call → Prop
  | name => True
  | home => True
  | realName => True
  | nameSafe => False
  | output => False

/-- Each `name()`, `home()` and `real_name()` of `cs` has the outcome it has as the first call. -/
def LooksUnchanged (db : UserDb) (u : User) (cs : List Call) : Prop :=
  ∀ pre c post, cs = pre ++ c :: post → c.Reports → outcome db c (after db pre u) = outcome db c u

/-! ## What the user database has about a user -/

/-- What `resolve` finds. -/
def entry (db : UserDb) (u : User) : Option Passwd :=
  match db.sysconf with
  | some _ => none
  | none =>
    match db.getpwuid u.userId with
    | .entry pwd => some pwd
    | .absent _ => none
    | .failed _ => none

/-- The object once `resolve` or `resolve_safe` has filled it in. -/
def filled (db : UserDb) (u : User) : User :=
  match entry db u with
  | some pwd => ⟨u.userId, pwd.pwName, pwd.pwDir, pwd.pwGecos⟩
  | none => ⟨u.userId, text "unknown", text "unknown", text "unknown"⟩

/-- On the object as built, the call fills in the fields. -/
def Call.Fills (db : UserDb) (u : User) : Call → Prop
  | name => u.userName = [] ∧ entry db u ≠ none
  | nameSafe => u.userName = []
  | home => entry db u ≠ none
  | realName => entry db u ≠ none
  | output => u.userName = []

/-- The call has another outcome once the fields are filled in. -/
def Call.Feels (db : UserDb) (u : User) : Call → Prop
  | name => ∀ pwd ∈ entry db u, u.userName ≠ [] ∧ u.userName ≠ pwd.pwName
  | home => entry db u = none
  | realName => entry db u = none
  | nameSafe => False
  | output => False

variable {db : UserDb} {u : User}

theorem run_resolve_some {pwd : Passwd} (h : entry db u = some pwd) : (resolve db).run u = .ok () (filled db u) := by
  unfold filled
  rw [h]
  unfold entry at h
  split at h
  · exact absurd h (by simp)
  · rename_i hsys
    split at h
    · rename_i pwd' hlook
      obtain rfl := Option.some.inj h
      unfold resolve
      simp [hsys, hlook]
    · exact absurd h (by simp)
    · exact absurd h (by simp)

theorem run_resolve_none (h : entry db u = none) :
    ∃ error call action, (resolve db).run u = .error (.osSystemCall error call action) u := by
  unfold entry at h
  unfold resolve
  split at h
  · rename_i hsys
    simp [hsys]
  · rename_i hsys
    split at h
    · exact absurd h (by simp)
    · rename_i hlook
      simp [hsys, hlook]
    · rename_i hlook
      simp [hsys, hlook]

theorem run_resolveSafe : (resolveSafe db).run u = .ok () (filled db u) := by
  unfold resolveSafe filled entry
  cases hsys : db.sysconf with
  | some e => rfl
  | none => cases hlook : db.getpwuid u.userId <;> simp [hlook]

@[simp] theorem filled_userId : (filled db u).userId = u.userId := by
  unfold filled
  split <;> rfl

@[simp] theorem entry_filled : entry db (filled db u) = entry db u := by
  unfold entry
  rw [filled_userId]

@[simp] theorem filled_filled : filled db (filled db u) = filled db u := by
  rw [filled.eq_def, entry_filled, filled_userId]
  rfl

theorem filled_of_some {pwd : Passwd} (h : entry db u = some pwd) :
    filled db u = ⟨u.userId, pwd.pwName, pwd.pwDir, pwd.pwGecos⟩ := by
  unfold filled
  rw [h]

theorem filled_of_none (h : entry db u = none) :
    filled db u = ⟨u.userId, text "unknown", text "unknown", text "unknown"⟩ := by
  unfold filled
  rw [h]

/-! ## One call -/

/-- A member that reads the field `f`, which `x` fills in when it is empty. -/
theorem run_read (f : User → Str) (x : EStateM Issue User Unit) :
    (do if f (← get) = [] then x
        return f (← get) : EStateM Issue User Str).run u =
      if f u = [] then
        match x.run u with
        | .ok _ v => .ok (f v) v
        | .error i v => .error i v
      else .ok (f u) u := by
  split_ifs with h
  · simp only [EStateM.run_bind, EStateM.run_get, h, if_true]
    cases x.run u <;> rfl
  · simp only [EStateM.run_bind, EStateM.run_get, h, if_false]
    rfl

/-- What a member that reads the field `f` does when `resolve` fills it in. -/
def Reads (db : UserDb) (c : Call) (f : User → Str) : Prop :=
  c.run db = do if f (← get) = [] then resolve db
                return f (← get)

theorem reads_name : Reads db .name userName := rfl

theorem reads_home : Reads db .home userHome := rfl

theorem reads_realName : Reads db .realName userRealName := rfl

variable {c : Call} {f : User → Str}

/-- On an object whose field is empty. -/
theorem Reads.of_empty (hc : Reads db c f) (hf : f u = []) :
    outcome db c u = (if entry db u = none then none else some (f (filled db u))) ∧
    ((c.run db).run u).state = if entry db u = none then u else filled db u := by
  unfold outcome
  rw [hc, run_read, if_pos hf]
  cases h : entry db u with
  | none =>
    obtain ⟨error, call, action, hrun⟩ := run_resolve_none h
    simp [hrun]
  | some pwd => simp [run_resolve_some h]

/-- On an object whose field is there. -/
theorem Reads.of_ne (hc : Reads db c f) (hf : f u ≠ []) :
    outcome db c u = some (f u) ∧ ((c.run db).run u).state = u := by
  unfold outcome
  rw [hc, run_read, if_neg hf]
  exact ⟨rfl, rfl⟩

/-- An object that is filled in stays as it is. -/
theorem Reads.of_filled (hc : Reads db c f) (hf : entry db u = none → f (filled db u) ≠ []) :
    outcome db c (filled db u) = some (f (filled db u)) ∧ ((c.run db).run (filled db u)).state = filled db u := by
  by_cases h : f (filled db u) = []
  · have he : entry db (filled db u) ≠ none := fun he => hf (by simpa using he) h
    obtain ⟨hout, hstate⟩ := hc.of_empty h
    rw [hout, hstate, if_neg he, if_neg he, filled_filled]
    exact ⟨rfl, rfl⟩
  · exact hc.of_ne h

theorem run_nameSafe : (nameSafe db).run u =
    if u.userName = [] then .ok (filled db u).userName (filled db u) else .ok u.userName u := by
  unfold nameSafe
  rw [run_read userName, run_resolveSafe]

theorem state_output : ((output db).run u).state = ((nameSafe db).run u).state := by
  unfold output
  rw [EStateM.run_bind, EStateM.run_get]
  show (((nameSafe db) >>= _).run u).state = _
  rw [EStateM.run_bind]
  cases (nameSafe db).run u <;> rfl

theorem state_nameSafe : ((nameSafe db).run u).state = if u.userName = [] then filled db u else u := by
  rw [run_nameSafe]
  split_ifs <;> rfl

theorem filled_ne_nil (h : entry db u = none) : (filled db u).userName ≠ [] ∧ (filled db u).userHome ≠ [] ∧
    (filled db u).userRealName ≠ [] := by
  have hunknown : text "unknown" ≠ [] := by decide
  rw [filled_of_none h]
  exact ⟨hunknown, hunknown, hunknown⟩

/-! ## A list of calls -/

/-- Only the constructors have run: home and real name are not there yet. -/
structure Fresh (u : User) : Prop where
  home : u.userHome = []
  realName : u.userRealName = []

theorem Built.fresh (h : Built db u) : Fresh u := by
  obtain ⟨userId, rfl⟩ | ⟨name, h⟩ := h
  · exact ⟨rfl, rfl⟩
  · unfold ofName at h
    split at h
    · exact absurd h (by simp)
    · split at h
      · obtain rfl := Except.ok.inj h
        exact ⟨rfl, rfl⟩
      · exact absurd h (by simp)
      · exact absurd h (by simp)

theorem Fresh.state_of_fills (hu : Fresh u) (h : c.Fills db u) : ((c.run db).run u).state = filled db u := by
  cases c with
  | name => rw [(reads_name.of_empty h.1).2, if_neg h.2]
  | nameSafe => exact state_nameSafe.trans (if_pos h)
  | home => rw [(reads_home.of_empty hu.home).2, if_neg h]
  | realName => rw [(reads_realName.of_empty hu.realName).2, if_neg h]
  | output => exact state_output.trans (state_nameSafe.trans (if_pos h))

theorem Fresh.state_of_not_fills (hu : Fresh u) (h : ¬ c.Fills db u) : ((c.run db).run u).state = u := by
  cases c with
  | name =>
    by_cases hname : u.userName = []
    · have he : entry db u = none := by
        by_contra he
        exact h ⟨hname, he⟩
      rw [(reads_name.of_empty hname).2, if_pos he]
    · exact (reads_name.of_ne hname).2
  | nameSafe => exact state_nameSafe.trans (if_neg h)
  | home => rw [(reads_home.of_empty hu.home).2, if_pos (not_not.1 h)]
  | realName => rw [(reads_realName.of_empty hu.realName).2, if_pos (not_not.1 h)]
  | output => exact state_output.trans (state_nameSafe.trans (if_neg h))

theorem state_filled (c : Call) : ((c.run db).run (filled db u)).state = filled db u := by
  have hname : ((nameSafe db).run (filled db u)).state = filled db u := by
    rw [state_nameSafe, filled_filled]
    split_ifs <;> rfl
  cases c with
  | name => exact (reads_name.of_filled fun h => (filled_ne_nil h).1).2
  | nameSafe => exact hname
  | home => exact (reads_home.of_filled fun h => (filled_ne_nil h).2.1).2
  | realName => exact (reads_realName.of_filled fun h => (filled_ne_nil h).2.2).2
  | output => exact state_output.trans hname

theorem after_cons (c : Call) (cs : List Call) : after db (c :: cs) u = after db cs ((c.run db).run u).state := rfl

theorem after_filled (cs : List Call) : after db cs (filled db u) = filled db u := by
  induction cs with
  | nil => rfl
  | cons c cs ih => rw [after_cons, state_filled, ih]

variable {cs : List Call}

theorem after_of_not_fills (hu : Fresh u) (h : ∀ c ∈ cs, ¬ c.Fills db u) : after db cs u = u := by
  induction cs with
  | nil => rfl
  | cons c cs ih =>
    rw [after_cons, hu.state_of_not_fills (h c List.mem_cons_self)]
    exact ih fun c hc => h c (List.mem_cons_of_mem _ hc)

theorem after_of_fills (hu : Fresh u) (h : ∃ c ∈ cs, c.Fills db u) : after db cs u = filled db u := by
  induction cs with
  | nil =>
    obtain ⟨c, hc, -⟩ := h
    exact absurd hc List.not_mem_nil
  | cons c cs ih =>
    rw [after_cons]
    by_cases hc : c.Fills db u
    · rw [hu.state_of_fills hc, after_filled]
    · rw [hu.state_of_not_fills hc]
      obtain ⟨d, hd, hfills⟩ := h
      rcases List.mem_cons.1 hd with rfl | hd
      · exact absurd hfills hc
      · exact ih ⟨d, hd, hfills⟩

/-! ## What a call shows -/

/-- A member other than `name()`: the difference shows exactly when `resolve` finds nothing. -/
theorem Reads.outcome_iff (hc : Reads db c f) (hf : f u = []) (hfill : entry db u = none → f (filled db u) ≠ []) :
    outcome db c (filled db u) = outcome db c u ↔ entry db u ≠ none := by
  rw [(hc.of_filled hfill).1, (hc.of_empty hf).1]
  split_ifs with he
  · simp [he]
  · simp [he]

/-- On an object that a call fills in, `c` shows it exactly when it is one of those that `Feels` names. -/
theorem outcome_filled_iff (hu : Fresh u) {d : Call} (hd : d.Fills db u) (hc : c.Reports) :
    outcome db c (filled db u) = outcome db c u ↔ ¬ c.Feels db u := by
  cases c with
  | home => exact reads_home.outcome_iff hu.home fun h => (filled_ne_nil h).2.1
  | realName => exact reads_realName.outcome_iff hu.realName fun h => (filled_ne_nil h).2.2
  | nameSafe => exact hc.elim
  | output => exact hc.elim
  | name =>
    by_cases hname : u.userName = []
    · rw [reads_name.outcome_iff hname fun h => (filled_ne_nil h).1]
      unfold Call.Feels
      cases he : entry db u with
      | none => simp
      | some pwd => simp [hname]
    · -- the name was given to the constructor, and only `resolve` writes over it
      have he : entry db u ≠ none := by
        cases d with
        | name => exact hd.2
        | nameSafe => exact absurd hd hname
        | home => exact hd
        | realName => exact hd
        | output => exact absurd hd hname
      obtain ⟨pwd, hpwd⟩ := Option.ne_none_iff_exists'.1 he
      rw [(reads_name.of_filled fun h => absurd h he).1, (reads_name.of_ne hname).1, filled_of_some hpwd]
      unfold Call.Feels
      simp [hpwd, hname, eq_comm]

/-- **What a call shows of the calls before it.** -/
theorem outcome_after_iff (hu : Fresh u) (hc : c.Reports) :
    outcome db c (after db cs u) = outcome db c u ↔ (c.Feels db u → ∀ d ∈ cs, ¬ d.Fills db u) := by
  by_cases h : ∃ d ∈ cs, d.Fills db u
  · obtain ⟨d, hd, hfills⟩ := h
    rw [after_of_fills hu ⟨d, hd, hfills⟩, outcome_filled_iff hu hfills hc]
    exact ⟨fun hn hf => absurd hf hn, fun hall hf => hall hf d hd hfills⟩
  · have hnone : ∀ d ∈ cs, ¬ d.Fills db u := fun d hd hfills => h ⟨d, hd, hfills⟩
    rw [after_of_not_fills hu hnone]
    exact iff_of_true rfl fun _ => hnone

/-- No call that shows the difference comes after one that fills in the fields. -/
def Undisturbed (db : UserDb) (u : User) (cs : List Call) : Prop :=
  ∀ pre c post, cs = pre ++ c :: post → c.Feels db u → ∀ d ∈ pre, ¬ d.Fills db u

/-- **Every `name()`, `home()` and `real_name()` has the outcome of a first call exactly when the calls are
undisturbed.** -/
theorem looks_unchanged_iff (db : UserDb) (u : User) (cs : List Call) (hu : Built db u) :
    LooksUnchanged db u cs ↔ Undisturbed db u cs := by
  unfold LooksUnchanged Undisturbed
  refine forall_congr' fun pre => forall_congr' fun c => forall_congr' fun post => imp_congr_right fun _ => ?_
  by_cases hc : c.Reports
  · rw [← outcome_after_iff hu.fresh hc]
    exact ⟨fun h => h hc, fun h _ => h⟩
  · have hfeels : ¬ c.Feels db u := by
      cases c with
      | nameSafe => exact id
      | output => exact id
      | name => exact absurd trivial hc
      | home => exact absurd trivial hc
      | realName => exact absurd trivial hc
    exact iff_of_true (fun h => absurd h hc) fun h => absurd h hfeels

/-- Two names for one id, and no entry for any other id. -/
def aliases : UserDb where
  sysconf := none
  getuid := 0
  getpwnam := fun name =>
    if name = text "root" ∨ name = text "toor" then .entry ⟨0, name, text "/root", []⟩ else .absent 0
  getpwuid := fun userId => if userId = 0 then .entry ⟨0, text "root", text "/root", []⟩ else .absent 0

def toor : User := { ofId 0 with userName := text "toor" }

theorem ofName_toor : ofName aliases (text "toor") = .ok toor := by decide

/-- `name()` throws for an id without an entry, and returns "unknown" after `name_safe()`. -/
theorem nameSafe_changes_name : ¬ ∀ (db : UserDb) (u : User) (cs : List Call), Built db u → LooksUnchanged db u cs := by
  intro h
  have := h aliases (ofId 5) [.nameSafe, .name] (.inl ⟨5, rfl⟩) [.nameSafe] .name [] rfl trivial
  exact absurd this (by decide)

theorem looks_unchanged_iff_toor : LooksUnchanged aliases toor [.home, .name] ↔ Undisturbed aliases toor [.home, .name] :=
  looks_unchanged_iff aliases toor [.home, .name] (.inr ⟨text "toor", ofName_toor⟩)

end User

end OksSystem
