import OksSystem.File.Stored
import OksSystem.Lib.Lexical

/-!
# Which stored names are canonical

* `Canonical` : absolute, no empty, '.' or '..' component, no slash at the end;
* `longPath` : the path that `set_name` gives to `realpath`, and stores when that fails (`run_new_longPath`);
* `canonical_longPath_iff` : when it is canonical as it is written;
* `equals_iff` : two spellings of one path in a tree without links compare equal exactly when both resolve;
* `new_canonical_iff` : when the stored name is canonical, and when two of them are equal.
-/

namespace OksSystem
open ByteBuffer EStateM FileTree

/-! ## Canonical path names -/

/-- No component is empty, '.' or '..'. -/
def Proper (s : Str) : Prop := ∀ c ∈ s.splitOn slash, c ≠ [] ∧ c ≠ [dot] ∧ c ≠ [dot, dot]

instance : DecidablePred Proper := fun _ => inferInstanceAs (Decidable (∀ _ ∈ _, _ ∧ _))

def Canonical (path : Str) : Prop := path = [slash] ∨ path.head? = some slash ∧ Proper path.tail

instance : DecidablePred Canonical := fun _ => inferInstanceAs (Decidable (_ ∨ _ ∧ _))

theorem canonical_render (p : List Name) : Canonical (render p) := by
  unfold render
  split_ifs with hp
  · exact .inl rfl
  · obtain ⟨n, p, rfl⟩ := List.exists_cons_of_ne_nil hp
    refine .inr ⟨rfl, ?_⟩
    show Proper (n.1 ++ slashed p)
    unfold Proper
    rw [splitOn_append_slashed n.2.2.2.2.1]
    intro c hc
    obtain ⟨k, -, rfl⟩ := List.mem_map.1 (show c ∈ (n :: p).map Subtype.val from hc)
    exact ⟨k.2.1, k.2.2.1, k.2.2.2.1⟩

/-! ## The path that is resolved -/

variable {m : Machine} {name other : Str} {host : Host}

/-- The path that `set_name` makes of a name. -/
def longPath (cwd : List Name) (name : Str) : Str :=
  if name.head? = some slash then name else render cwd ++ slash :: name

/-- The name needs no change: relative names need a working directory other than the root. -/
def WellSpelled (cwd : List Name) (name : Str) : Prop :=
  if name.head? = some slash then Canonical name else cwd ≠ [] ∧ Proper name

theorem absolute_longPath (cwd : List Name) (name : Str) : Absolute (longPath cwd name) := by
  unfold longPath
  split_ifs with h
  · obtain ⟨s, rfl⟩ := List.head?_eq_some_iff.1 h
    exact ⟨s, rfl⟩
  · exact (absolute_render cwd).append _

/-- What `set_name` stores when `realpath` fails. -/
theorem canonical_longPath_iff (cwd : List Name) (name : Str) : Canonical (longPath cwd name) ↔ WellSpelled cwd name := by
  unfold longPath WellSpelled
  split_ifs with h
  · rfl
  · by_cases hcwd : cwd = []
    · -- the root and the slash after it make an empty component
      subst hcwd
      refine iff_of_false ?_ fun hw => hw.1 rfl
      show ¬ Canonical (slash :: ([] ++ slash :: name))
      rintro (hroot | ⟨-, hproper⟩)
      · simp at hroot
      · unfold Proper at hproper
        rw [List.tail_cons, List.splitOn_append_cons_self_of_not_mem List.not_mem_nil] at hproper
        exact (hproper [] List.mem_cons_self).1 rfl
    · obtain ⟨n, p, rfl⟩ := List.exists_cons_of_ne_nil hcwd
      have hlong : render (n :: p) ++ slash :: name = slash :: (n.1 ++ slashed p ++ slash :: name) := by
        unfold render
        rw [if_neg hcwd]
        show slash :: n.1 ++ slashed p ++ slash :: name = _
        simp
      have hproper : Proper (n.1 ++ slashed p ++ slash :: name) ↔ Proper name := by
        unfold Proper
        rw [List.splitOn_append_cons_self, splitOn_append_slashed n.2.2.2.2.1]
        refine ⟨fun hall c hc => hall c (by simp [hc]), fun hall c hc => ?_⟩
        have hmem : c ∈ (n :: p).map Subtype.val ∨ c ∈ name.splitOn slash := by
          rw [← List.mem_append]
          exact hc
        rcases hmem with hmem | hmem
        · obtain ⟨k, -, rfl⟩ := List.mem_map.1 hmem
          exact ⟨k.2.1, k.2.2.1, k.2.2.2.1⟩
        · exact hall c hmem
      rw [hlong]
      unfold Canonical
      rw [List.head?_cons, List.tail_cons, hproper]
      simp

/-! ## Stored names -/

theorem run_new_longPath (hcwd : m.tree.IsDir m.cwd) (hname : name ≠ []) (htilde : name.head? ≠ some tilde) :
    (File.new host name).run m = .ok ⟨m.stored (longPath m.cwd name)⟩ m := by
  obtain ⟨c, s, rfl⟩ := List.exists_cons_of_ne_nil hname
  have hc : c ≠ tilde := fun h => htilde (congrArg some h)
  have hwd : (File.workingDirectory).run m = .ok (render m.cwd) m := by
    show (if m.tree.IsDir m.cwd then pure (render m.cwd) else _ : FileM Str).run m = _
    rw [if_pos hcwd]
    rfl
  unfold longPath
  rw [List.head?_cons]
  by_cases hslash : c = slash
  · rw [if_pos (congrArg some hslash), hslash]
    exact File.run_new host m ⟨s, rfl⟩
  · rw [if_neg fun h => hslash (Option.some.inj h)]
    unfold File.new File.setName
    simp only [if_neg hslash, if_neg hc, EStateM.run_bind, hwd]
    rfl

/-- **A stored name is canonical exactly when the path resolves or is spelled canonically.** -/
theorem canonical_stored_iff (m : Machine) (name : Str) : Canonical (m.stored (longPath m.cwd name)) ↔
    (m.realpath (longPath m.cwd name)).isSome ∨ WellSpelled m.cwd name := by
  unfold Machine.realpath
  cases hres : m.resolve (longPath m.cwd name) with
  | ok q =>
    rw [stored_of_resolve hres]
    exact iff_of_true (canonical_render q) (.inl rfl)
  | error e =>
    rw [stored_of_error hres, canonical_longPath_iff]
    simp [Except.toOption]

/-! ## Comparing files -/

/-- `equals(other)`. -/
def File.equals (f other : File) : Bool := f.fullName = other.fullName

/-- The lexical normal form of the path that a name denotes. -/
def normalForm (cwd : List Name) (name : Str) : List Name := lexical [] (comps (cstr (longPath cwd name)))

theorem lexical_of_machine (hfree : m.tree.LinkFree) {s : Str} {q : List Name}
    (hq : m.resolve (longPath m.cwd s) = .ok q) : q = normalForm m.cwd s := by
  rw [resolve_of_absolute m (absolute_longPath m.cwd s)] at hq
  exact lexical_of_resolve hfree hq

/-- A path that does not resolve is neither another one that does nor the canonical name of a node. -/
theorem stored_ne_of_error {s s' : Str} {q : List Name} {e : Failure} (hq : m.resolve (longPath m.cwd s) = .ok q)
    (he : m.resolve (longPath m.cwd s') = .error e) :
    m.stored (longPath m.cwd s) ≠ m.stored (longPath m.cwd s') ∧ longPath m.cwd s ≠ longPath m.cwd s' := by
  have hrender := resolve_render (real_of_resolve (absolute_longPath m.cwd s) hq)
  constructor
  · intro heq
    rw [stored_of_resolve hq, stored_of_error he] at heq
    rw [heq, he] at hrender
    exact absurd hrender (by simp)
  · intro heq
    rw [heq, he] at hq
    exact absurd hq (by simp)

/-- In a tree without links two spellings of one path are stored alike exactly when both resolve, or neither needs to. -/
theorem equals_iff (hfree : m.tree.LinkFree) (hnf : normalForm m.cwd name = normalForm m.cwd other) :
    File.equals ⟨m.stored (longPath m.cwd name)⟩ ⟨m.stored (longPath m.cwd other)⟩ = true ↔
      (m.realpath (longPath m.cwd name)).isSome ∧ (m.realpath (longPath m.cwd other)).isSome ∨
        longPath m.cwd name = longPath m.cwd other := by
  unfold File.equals Machine.realpath
  rw [decide_eq_true_iff]
  cases hname : m.resolve (longPath m.cwd name) with
  | ok p =>
    cases hother : m.resolve (longPath m.cwd other) with
    | ok q =>
      have hsame : p = q := (lexical_of_machine hfree hname).trans (hnf.trans (lexical_of_machine hfree hother).symm)
      rw [stored_of_resolve hname, stored_of_resolve hother, hsame]
      exact iff_of_true rfl (.inl ⟨rfl, rfl⟩)
    | error e =>
      obtain ⟨hstored, hpath⟩ := stored_ne_of_error hname hother
      exact iff_of_false hstored (by simp [hpath, Except.toOption])
  | error e =>
    cases hother : m.resolve (longPath m.cwd other) with
    | ok q =>
      obtain ⟨hstored, hpath⟩ := stored_ne_of_error hother hname
      exact iff_of_false hstored.symm (by simp [hpath.symm, Except.toOption])
    | error e' =>
      rw [stored_of_error hname, stored_of_error hother]
      simp [Except.toOption]

/-- **The stored name is canonical exactly when the path resolves or is spelled canonically, and files of one normal form
are equal exactly when both paths resolve or are spelled alike.** -/
theorem new_canonical_iff (host : Host) (m : Machine) (hcwd : m.tree.IsDir m.cwd) (name : Str) (hname : name ≠ [])
    (htilde : name.head? ≠ some tilde) : ∃ f, (File.new host name).run m = .ok f m ∧
      (Canonical f.fullName ↔ (m.realpath (longPath m.cwd name)).isSome ∨ WellSpelled m.cwd name) ∧
      ∀ other : Str, other ≠ [] → other.head? ≠ some tilde → m.tree.LinkFree →
        normalForm m.cwd name = normalForm m.cwd other → ∃ g, (File.new host other).run m = .ok g m ∧
          (f.equals g = true ↔
            (m.realpath (longPath m.cwd name)).isSome ∧ (m.realpath (longPath m.cwd other)).isSome ∨
              longPath m.cwd name = longPath m.cwd other) := by
  refine ⟨_, run_new_longPath hcwd hname htilde, canonical_stored_iff m name, ?_⟩
  intro other hother htilde' hfree hnf
  exact ⟨_, run_new_longPath hcwd hother htilde', equals_iff hfree hnf⟩

/-- The root alone. -/
def bare : Machine := ⟨.ofRoot 0o755, [], 0⟩

theorem isDir_bare : bare.tree.IsDir bare.cwd := ⟨_, rfl⟩

/-- A host that decides nothing, without users. -/
def quiet : Host where
  users := ⟨none, 0, fun _ => .absent 0, fun _ => .absent 0⟩
  readdir := fun _ names => names
  readdir_subperm := fun _ _ => ⟨_, List.Perm.refl _, List.Sublist.refl _⟩
  opendir := fun _ => none
  closedir := fun _ => none
  remove := fun _ => none

/-- A directory that is still to be made, with a slash at the end. -/
theorem new_keeps_slash : ¬ ∀ (host : Host) (m : Machine) (name : Str), m.tree.IsDir m.cwd → name ≠ [] →
    name.head? ≠ some tilde → ∀ f, (File.new host name).run m = .ok f m → Canonical f.fullName := by
  intro h
  have hnew := h quiet bare (text "/tmp/") isDir_bare (by decide) (by decide) ⟨text "/tmp/"⟩ rfl
  exact absurd hnew (by decide)

theorem linkFree_ofRoot (d : Perm) : (FileTree.ofRoot d : Tree).LinkFree := by
  intro p target
  show (if p = [] then some (.dir d) else none : Option (Node Name Perm Inode)) ≠ _
  split_ifs <;> simp

theorem new_canonical_iff_slash : ∃ f g, (File.new quiet (text "/tmp/")).run bare = .ok f bare ∧
    (File.new quiet (text "/tmp")).run bare = .ok g bare ∧
    (Canonical f.fullName ↔ (bare.realpath (longPath bare.cwd (text "/tmp/"))).isSome ∨
      WellSpelled bare.cwd (text "/tmp/")) ∧
    (f.equals g = true ↔
      (bare.realpath (longPath bare.cwd (text "/tmp/"))).isSome ∧ (bare.realpath (longPath bare.cwd (text "/tmp"))).isSome ∨
        longPath bare.cwd (text "/tmp/") = longPath bare.cwd (text "/tmp")) := by
  obtain ⟨f, hf, hcanonical, hequals⟩ :=
    new_canonical_iff quiet bare isDir_bare (text "/tmp/") (by decide) (by decide)
  obtain ⟨g, hg, hiff⟩ := hequals (text "/tmp") (by decide) (by decide) (linkFree_ofRoot _) (by decide)
  exact ⟨f, g, hf, hg, hcanonical, hiff⟩

end OksSystem
