import OksSystem.File.Names

/-!
# Lists of directories

* `Path` : the members `add`, `parse_path_list`, `to_string` and `which`;
* `run_add`, `run_ofString` : what a path holds that is parsed from a text;
* `run_which` : what is found in it;
* `parse_which_toString` : a path is its list of components, and printing undoes parsing.
-/

namespace OksSystem
open ByteBuffer EStateM FileTree Pieces File

structure Path where
  directories : FileList
  deriving DecidableEq, Repr

namespace Path

/-! ## The members -/

def pathSeparator : Byte := colon

/-- `Path()`. -/
def empty : Path := ⟨⟨[], 0⟩⟩

variable (host : Host)

def add (dir : File) (p : Path) : FileM Path := return ⟨← p.directories.pushBack host dir⟩

/-- One turn of the loop of `parse_path_list`. -/
def addName (p : Path) (name : Str) : FileM Path := do
  if name = [] then return p
  let directory ← new host name
  p.add host directory

def parsePathList (pathList : Str) (p : Path) : FileM Path := forRest pathSeparator pathList (addName host) p

/-- `Path(path_list)`. -/
def ofString (pathList : Str) : FileM Path := empty.parsePathList host pathList

/-- What `write_to` writes. -/
def toString (p : Path) : Str := stream pathSeparator true (p.directories.items.map fullName)

/-- The loop of `which`. The child is returned by value. -/
def whichIn (name : Str) : List File → FileM File
  | [] => throwIssue (.notFound (cstr name))
  | dir :: dirs => do
    let child ← dir.child host name
    if ← exists? child then copy host child else whichIn name dirs

def which (name : Str) (p : Path) : FileM File := whichIn host name p.directories.items

/-- The non-empty components of a list of directories. -/
def components (pathList : Str) : List Str := (pathList.splitOn pathSeparator).filter (· ≠ [])

/-- The constructor leaves the names that it stores as they are. -/
def KeepsStored (m : Machine) : Prop :=
  ∀ name f, (new host name).run m = .ok f m → (new host f.fullName).run m = .ok f m

/-- The directory has a child with the name. -/
def HasChild (m : Machine) (name : Str) (dir : File) : Prop :=
  ∃ child, (dir.child host name).run m = .ok child m ∧ (m.stat child.fullName).toBool = true

/-- Where home directories are absolute, stored names are too. -/
theorem keepsStored_of_homes {host : Host} {m : Machine}
    (h : ∀ path s, expanded host.users path = .ok s → Absolute s) : KeepsStored host m := by
  intro name f hf
  rw [run_new_longName] at hf
  cases hlong : longName host m name with
  | error e =>
    rw [hlong] at hf
    cases hf
  | ok l =>
    rw [hlong] at hf
    obtain rfl : f = ⟨m.stored l⟩ := by
      cases hf
      rfl
    have habs : Absolute l := by
      unfold longName at hlong
      split_ifs at hlong with hnil hslash htilde hcwd
      · cases hlong
        exact List.head?_eq_some_iff.1 hslash
      · cases hexp : expanded host.users name with
        | error e =>
          rw [hexp] at hlong
          cases hlong
        | ok s =>
          rw [hexp] at hlong
          cases hlong
          exact h name l hexp
      · cases hlong
        exact (absolute_render m.cwd).append _
    exact run_copy host habs (Sub.refl m.tree)

/-! ## Parsing -/

variable {host : Host} {m : Machine} {p : Path}

theorem run_add {dir : File} (hp : ∀ f ∈ p.directories.items, (copy host f).run m = .ok f m)
    (hdir : (copy host dir).run m = .ok dir m) :
    ∃ p', (p.add host dir).run m = .ok p' m ∧ p'.directories.items = p.directories.items ++ [dir] := by
  obtain ⟨v, hrun, hitems⟩ := run_pushBack hp hdir
  exact ⟨⟨v⟩, run_bind_ok hrun, hitems⟩

theorem run_addNames {names : List Str} (hp : ∀ f ∈ p.directories.items, (copy host f).run m = .ok f m)
    (hnames : ∀ c ∈ names, c ≠ [] → ∃ f, (new host c).run m = .ok f m ∧ (copy host f).run m = .ok f m) :
    ∃ p' fs, (names.foldlM (addName host) p).run m = .ok p' m ∧ p'.directories.items = p.directories.items ++ fs ∧
      List.Forall₂ (fun c f => (new host c).run m = .ok f m) (names.filter (· ≠ [])) fs ∧
      ∀ f ∈ fs, (copy host f).run m = .ok f m := by
  induction names generalizing p with
  | nil => exact ⟨p, [], rfl, by simp, .nil, fun f hf => absurd hf List.not_mem_nil⟩
  | cons c names ih =>
    have hrest := fun d hd => hnames d (List.mem_cons_of_mem c hd)
    rw [List.foldlM_cons]
    by_cases hc : c = []
    · have hrun : (addName host p c).run m = .ok p m := by
        unfold addName
        rw [if_pos hc]
        rfl
      obtain ⟨p', fs, hrun', hitems, hfs, hcopies⟩ := ih hp hrest
      refine ⟨p', fs, (run_bind_ok hrun).trans hrun', hitems, ?_, hcopies⟩
      rwa [List.filter_cons_of_neg (by simpa using hc)]
    · obtain ⟨f, hf, hcopy⟩ := hnames c List.mem_cons_self hc
      obtain ⟨p₁, hadd, hitems₁⟩ := run_add hp hcopy
      have hrun : (addName host p c).run m = .ok p₁ m := by
        unfold addName
        rw [if_neg hc]
        exact (run_bind_ok hf).trans hadd
      have hp₁ : ∀ g ∈ p₁.directories.items, (copy host g).run m = .ok g m := by
        rw [hitems₁]
        intro g hg
        rcases List.mem_append.1 hg with hg | hg
        · exact hp g hg
        · rwa [List.mem_singleton.1 hg]
      obtain ⟨p', fs, hrun', hitems, hfs, hcopies⟩ := ih hp₁ hrest
      refine ⟨p', f :: fs, (run_bind_ok hrun).trans hrun', ?_, ?_, List.forall_mem_cons.2 ⟨hcopy, hcopies⟩⟩
      · rw [hitems, hitems₁, List.append_assoc, List.singleton_append]
      · rw [List.filter_cons_of_pos (by simpa using hc)]
        exact .cons hf hfs

/-- The path of a text holds the file of each component. -/
theorem run_ofString {s : Str}
    (h : ∀ c ∈ components s, ∃ f, (new host c).run m = .ok f m ∧ (copy host f).run m = .ok f m) :
    ∃ p, (ofString host s).run m = .ok p m ∧
      List.Forall₂ (fun c f => (new host c).run m = .ok f m) (components s) p.directories.items ∧
      ∀ f ∈ p.directories.items, (copy host f).run m = .ok f m := by
  have hnil : ∀ p : Path, addName host p [] = pure p := fun p => rfl
  have hnames : ∀ c ∈ s.splitOn pathSeparator, c ≠ [] → _ :=
    fun c hc hne => h c (List.mem_filter.2 ⟨hc, by simpa using hne⟩)
  obtain ⟨p, fs, hrun, hitems, hfs, hcopies⟩ :=
    run_addNames (p := empty) (fun f hf => absurd hf List.not_mem_nil) hnames
  refine ⟨p, ?_, ?_⟩
  · unfold ofString parsePathList
    rw [forRest_eq_foldlM hnil]
    exact hrun
  · rw [hitems]
    exact ⟨hfs, hcopies⟩

/-! ## Searching -/

/-- `which` gives the child of the first directory that has it, or no directory has it and it throws. -/
def Finds (host : Host) (m : Machine) (p : Path) (name : Str) : Prop :=
  (∃ pre dir post child, p.directories.items = pre ++ dir :: post ∧ (∀ d ∈ pre, ¬ HasChild host m name d) ∧
    (dir.child host name).run m = .ok child m ∧ (m.stat child.fullName).toBool = true ∧
    (p.which host name).run m = .ok child m) ∨
  (∀ d ∈ p.directories.items, ¬ HasChild host m name d) ∧
    (p.which host name).run m = .error (.issue (.notFound (cstr name))) m

theorem run_whichIn (hkeep : KeepsStored host m) (name : Str) {dirs : List File}
    (hdirs : ∀ d ∈ dirs, Settled host m d.fullName) :
    (∃ pre dir post child, dirs = pre ++ dir :: post ∧ (∀ d ∈ pre, ¬ HasChild host m name d) ∧
      (dir.child host name).run m = .ok child m ∧ (m.stat child.fullName).toBool = true ∧
      (whichIn host name dirs).run m = .ok child m) ∨
    (∀ d ∈ dirs, ¬ HasChild host m name d) ∧
      (whichIn host name dirs).run m = .error (.issue (.notFound (cstr name))) m := by
  induction dirs with
  | nil => exact .inr ⟨fun d hd => absurd hd List.not_mem_nil, rfl⟩
  | cons dir dirs ih =>
    have hchild := run_child (hdirs dir List.mem_cons_self) name
    generalize (⟨m.stored (dir.fullName ++ slash :: name)⟩ : File) = child at hchild
    have hrun : (whichIn host name (dir :: dirs)).run m =
        if (m.stat child.fullName).toBool then (copy host child).run m else (whichIn host name dirs).run m := by
      rw [whichIn, run_bind_ok hchild, run_bind_ok (run_exists? child)]
      split_ifs <;> rfl
    rw [hrun]
    by_cases hexists : (m.stat child.fullName).toBool = true
    · rw [if_pos hexists]
      exact .inl ⟨[], dir, dirs, child, rfl, fun d hd => absurd hd List.not_mem_nil, hchild, hexists,
        hkeep _ child hchild⟩
    · have hnot : ¬ HasChild host m name dir := by
        rintro ⟨c, hc, hc'⟩
        rw [hchild] at hc
        cases hc
        exact hexists hc'
      rw [if_neg hexists]
      rcases ih fun d hd => hdirs d (List.mem_cons_of_mem dir hd) with
        ⟨pre, d, post, c, rfl, hpre, hc, hc', hwhich⟩ | ⟨hnone, hwhich⟩
      · exact .inl ⟨dir :: pre, d, post, c, rfl, List.forall_mem_cons.2 ⟨hnot, hpre⟩, hc, hc', hwhich⟩
      · exact .inr ⟨List.forall_mem_cons.2 ⟨hnot, hnone⟩, hwhich⟩

/-! ## Printing -/

theorem components_toString (hcolon : ∀ f ∈ p.directories.items, pathSeparator ∉ f.fullName)
    (hne : ∀ f ∈ p.directories.items, f.fullName ≠ []) :
    components p.toString = p.directories.items.map fullName := by
  unfold components toString
  by_cases hnil : p.directories.items = []
  · rw [hnil]
    rfl
  · rw [splitOn_stream (by simpa using hcolon) (by simpa using hnil), List.filter_eq_self]
    simpa using hne

/-- **A path is the list of its non-empty components, and printing undoes parsing.** -/
theorem parse_which_toString (host : Host) (m : Machine) (hkeep : KeepsStored host m) :
    (∀ s : Str, (∀ c ∈ components s, ∃ f, (new host c).run m = .ok f m) →
      ∃ p, (ofString host s).run m = .ok p m ∧
        List.Forall₂ (fun c f => (new host c).run m = .ok f m) (components s) p.directories.items ∧
        ∀ name : Str, p.Finds host m name) ∧
    ∀ p : Path, (∀ f ∈ p.directories.items, (new host f.fullName).run m = .ok f m) →
      (∀ f ∈ p.directories.items, pathSeparator ∉ f.fullName) →
      ∃ p', (ofString host p.toString).run m = .ok p' m ∧ p'.directories.items = p.directories.items := by
  constructor
  · intro s hs
    have haccept : ∀ c ∈ components s, ∃ f, (new host c).run m = .ok f m ∧ (copy host f).run m = .ok f m := by
      intro c hc
      obtain ⟨f, hf⟩ := hs c hc
      exact ⟨f, hf, hkeep c f hf⟩
    obtain ⟨p, hrun, hitems, hcopies⟩ := run_ofString haccept
    exact ⟨p, hrun, hitems, fun name => run_whichIn hkeep name fun d hd => (run_new_self_iff ..).1 (hcopies d hd)⟩
  · intro p hp hcolon
    have hne : ∀ f ∈ p.directories.items, f.fullName ≠ [] := by
      intro f hf hnil
      have hnew := hp f hf
      rw [hnil] at hnew
      cases hnew
    have hcomponents := components_toString hcolon hne
    have haccept : ∀ c ∈ components p.toString,
        ∃ f, (new host c).run m = .ok f m ∧ (copy host f).run m = .ok f m := by
      rw [hcomponents]
      intro c hc
      obtain ⟨f, hf, rfl⟩ := List.mem_map.1 hc
      exact ⟨f, hp f hf, hp f hf⟩
    obtain ⟨p', hrun, hitems, -⟩ := run_ofString haccept
    rw [hcomponents, List.forall₂_map_left_iff] at hitems
    have hunique : Relator.RightUnique fun (f g : File) => (new host f.fullName).run m = .ok g m := by
      intro f g g' hg hg'
      rw [hg] at hg'
      cases hg'
      rfl
    exact ⟨p', hrun, List.right_unique_forall₂' hunique hitems (List.forall₂_same.2 hp)⟩

theorem keepsStored_quiet : KeepsStored quiet bare := by
  refine keepsStored_of_homes fun path s hs => ?_
  -- there is no user to have a home
  have hhome : ∀ user, ∃ e, homeOf quiet.users user = .error e := by
    intro user
    unfold homeOf
    split_ifs
    · exact ⟨_, rfl⟩
    · exact ⟨_, rfl⟩
  unfold expanded at hs
  split at hs
  · cases hs
  · rename_i i _
    obtain ⟨e, he⟩ := hhome (substr path 1 (i - 1))
    rw [he] at hs
    cases hs

theorem parse_which_toString_quiet :
    (∃ p, (ofString quiet (text ":/tmp::/etc")).run bare = .ok p bare ∧
      List.Forall₂ (fun c f => (new quiet c).run bare = .ok f bare) (components (text ":/tmp::/etc")) p.directories.items ∧
      ∀ name : Str, p.Finds quiet bare name) ∧
    ∃ p', (ofString quiet (toString ⟨⟨[⟨text "/tmp"⟩, ⟨text "/etc"⟩], 2⟩⟩)).run bare = .ok p' bare ∧
      p'.directories.items = [⟨text "/tmp"⟩, ⟨text "/etc"⟩] := by
  obtain ⟨hparse, hprint⟩ := parse_which_toString quiet bare keepsStored_quiet
  refine ⟨hparse (text ":/tmp::/etc") ?_, hprint ⟨⟨[⟨text "/tmp"⟩, ⟨text "/etc"⟩], 2⟩⟩ ?_ (by decide)⟩
  · have hcomponents : components (text ":/tmp::/etc") = [text "/tmp", text "/etc"] := by decide
    rw [hcomponents]
    simp only [List.forall_mem_cons]
    exact ⟨⟨⟨text "/tmp"⟩, rfl⟩, ⟨⟨text "/etc"⟩, rfl⟩, fun c hc => absurd hc List.not_mem_nil⟩
  · simp only [List.forall_mem_cons]
    exact ⟨rfl, rfl, fun c hc => absurd hc List.not_mem_nil⟩

end Path

end OksSystem
