import OksSystem.File.Scratch
import OksSystem.Lib.Moves

/-!
# `rename`

* `Renamer` : a host with what `rename` refuses; `Machine.rename` : the call; `File.rename` : the member;
* `moves` : calls of `rename` between any names, which may throw; `lost` : how many nodes one of them replaces;
* `renames_keep` : **whatever is renamed, no node is lost but those that were replaced**;
* `rename_back` : **what is renamed to a free name and back is as it was**;
* `published` : **what was made in a scratch directory is found under its new name, and nothing before it is renamed**.
-/

namespace OksSystem
open ByteBuffer EStateM FileTree Pieces

/-- What else decides whether a file is renamed. -/
structure Renamer where
  rename : Nat → Option Errno

/-- `::rename`. -/
def Machine.rename (m : Machine) (path path' : Str) : Except Errno Tree :=
  if cstr path = [] ∨ cstr path' = [] then .error (errnoOf .noEntry)
  else match m.tree.rename maxLinks (m.start (cstr path)) (comps (cstr path)) (m.start (cstr path')) (comps (cstr path')) with
    | .error e => .error (errnoOf e)
    | .ok t => .ok t

/-- `RenameFileIssue`. -/
structure RenameFileIssue where
  error : Errno
  source : Str
  dest : Str
  deriving DecidableEq, Repr

abbrev RenameM (α : Type) := EStateM RenameFileIssue Machine α

namespace File

/-! ## The member -/

/-- `::rename(source,dest)` : the error if the call fails. -/
def renameNode (r : Renamer) (other f : File) : RenameM (Option Errno) := modifyGet fun m =>
  match r.rename m.clock, m.rename f.fullName other.fullName with
  | some e, _ | none, .error e => (some e, m.ticked)
  | none, .ok t => (none, m.withTree t)

def rename (r : Renamer) (other f : File) : RenameM Unit := do
  match ← renameNode r other f with
  | none => return
  | some e => throw ⟨e, cstr f.fullName, cstr other.fullName⟩

variable {m m' : Machine} {r : Renamer} {f other : File} {t : Tree} {dir dir' : List Name} {n n' : Name}

theorem renameNode_cases (r : Renamer) (other f : File) (m : Machine) :
    (∃ t, r.rename m.clock = none ∧ m.rename f.fullName other.fullName = .ok t ∧
        (renameNode r other f).run m = .ok none (m.withTree t)) ∨
      ∃ e, (r.rename m.clock = some e ∨ m.rename f.fullName other.fullName = .error e) ∧
        (renameNode r other f).run m = .ok (some e) m.ticked := by
  unfold renameNode
  rw [EStateM.run_modifyGet]
  cases hr : r.rename m.clock with
  | some e => exact .inr ⟨e, .inl rfl, rfl⟩
  | none =>
    cases ht : m.rename f.fullName other.fullName with
    | error e => exact .inr ⟨e, .inr rfl, rfl⟩
    | ok t => exact .inl ⟨t, rfl, rfl, rfl⟩

/-- `rename` returns and the tree is the one that `::rename` leaves, or it throws and the tree is as it was. -/
theorem rename_cases (r : Renamer) (other f : File) (m : Machine) :
    (∃ t, r.rename m.clock = none ∧ m.rename f.fullName other.fullName = .ok t ∧
        (rename r other f).run m = .ok () (m.withTree t)) ∨
      ∃ e, (r.rename m.clock = some e ∨ m.rename f.fullName other.fullName = .error e) ∧
        (rename r other f).run m = .error ⟨e, cstr f.fullName, cstr other.fullName⟩ m.ticked := by
  rcases renameNode_cases r other f m with ⟨t, hr, ht, hnode⟩ | ⟨e, hwhy, hnode⟩
  · exact .inl ⟨t, hr, ht, run_bind_ok hnode⟩
  · exact .inr ⟨e, hwhy, run_bind_ok hnode⟩

theorem rename_eq_ok {path path' : Str} (h : m.rename path path' = .ok t) :
    m.tree.rename maxLinks (m.start (cstr path)) (comps (cstr path)) (m.start (cstr path')) (comps (cstr path')) = .ok t := by
  unfold Machine.rename at h
  split_ifs at h
  split at h
  · exact absurd h (by simp)
  · rename_i t' ht
    rw [ht, ← Except.ok.inj h]

/-! ## Any calls -/

/-- Calls of `i.1.rename(i.2)`, which may throw. -/
def moves (r : Renamer) : LTS Machine (File × File) where
  init _ := True
  step m i m' := ((rename r i.2 i.1).run m).state = m'

/-- How many nodes the call replaces. -/
def lost (r : Renamer) (m : Machine) (i : File × File) : Nat :=
  match r.rename m.clock, m.rename i.1.fullName i.2.fullName with
  | none, .ok _ => m.tree.replaced maxLinks (m.start (cstr i.1.fullName)) (comps (cstr i.1.fullName))
    (m.start (cstr i.2.fullName)) (comps (cstr i.2.fullName))
  | _, _ => 0

theorem lost_le_one (r : Renamer) (m : Machine) (i : File × File) : lost r m i ≤ 1 := by
  unfold lost
  split
  · unfold replaced
    split
    · split_ifs <;> simp
    · simp
  · simp

theorem keeps_step {i : File × File} (h : (moves r).step m i m') : Keeps m.tree m'.tree (lost r m i) := by
  have hstate : ((rename r i.2 i.1).run m).state = m' := h
  unfold lost
  rcases rename_cases r i.2 i.1 m with ⟨t, hr, ht, hrun⟩ | ⟨e, hwhy, hrun⟩
  · rw [hrun, Result.state_ok] at hstate
    rw [hr, ht, ← hstate]
    exact keeps_rename (rename_eq_ok ht)
  · rw [hrun, Result.state_error] at hstate
    have hnone : lost r m i = 0 := by
      unfold lost
      rcases hwhy with hr | ht
      · rw [hr]
      · rw [ht]
        cases r.rename m.clock <;> rfl
    unfold lost at hnone
    rw [hnone, ← hstate]
    exact Keeps.refl _

/-- **Whatever is renamed, through any links and whether or not the calls throw: the nodes are those that were there before,
perhaps at other names, without one for each call that replaced one.** -/
theorem renames_keep {xs : List (Machine × File × File)} (h : (moves r).Along m xs m') :
    Keeps m.tree m'.tree (xs.map fun x => lost r x.1 x.2).sum := by
  induction h with
  | nil m => exact Keeps.refl m.tree
  | cons hs _ ih => exact (keeps_step hs).trans ih

/-- Nothing is refused. -/
def grants : Renamer := ⟨fun _ => none⟩

/-- `/tmp` and `/a`. -/
def shelf : Machine where
  tree := (bare.tree.insert [] nameTmp (.dir 0o755) isDir_bare rfl).insert [] nameA (.dir 0o700) (by decide) rfl
  cwd := []
  clock := 0

/-- One directory replaces the other, and gets its old name back. -/
theorem renames_keep_shelf : ∃ m₁ m₂, (moves grants).Along shelf
    [(shelf, ⟨render [nameA]⟩, ⟨render [nameTmp]⟩), (m₁, ⟨render [nameTmp]⟩, ⟨render [nameA]⟩)] m₂ ∧
      m₂.tree.node [nameA] = some (.dir 0o700) ∧ m₂.tree.node [nameTmp] = none ∧ Keeps shelf.tree m₂.tree 1 := by
  let m₁ : Machine := ((rename grants ⟨render [nameTmp]⟩ ⟨render [nameA]⟩).run shelf).state
  have halong : (moves grants).Along shelf [(shelf, ⟨render [nameA]⟩, ⟨render [nameTmp]⟩),
      (m₁, ⟨render [nameTmp]⟩, ⟨render [nameA]⟩)] _ := .cons rfl (.cons rfl (.nil _))
  have hlost : lost grants shelf (⟨render [nameA]⟩, ⟨render [nameTmp]⟩) = 1 := by decide
  have hlost' : lost grants m₁ (⟨render [nameTmp]⟩, ⟨render [nameA]⟩) = 0 := by decide
  have hkeep := renames_keep halong
  simp only [List.map_cons, List.map_nil, List.sum_cons, List.sum_nil, hlost, hlost'] at hkeep
  exact ⟨m₁, _, halong, by decide, by decide, hkeep⟩

/-! ## Canonical names -/

theorem rename_render {p q : List Name} :
    m.rename (render p) (render q) = .ok t ↔
      m.tree.rename maxLinks [] (comps (render p)) [] (comps (render q)) = .ok t := by
  unfold Machine.rename
  rw [cstr_of_notMem (nul_notMem_render p), cstr_of_notMem (nul_notMem_render q),
    if_neg (not_or.2 ⟨render_ne_nil p, render_ne_nil q⟩), start_render, start_render]
  cases m.tree.rename maxLinks [] (comps (render p)) [] (comps (render q)) <;> simp

/-- A node is renamed to a free name. -/
theorem run_rename (hr : r.rename m.clock = none) (hmov : Movable m.tree dir n dir' n')
    (hnew : m.tree.node (dir' ++ [n']) = none) :
    (rename r ⟨render (dir' ++ [n'])⟩ ⟨render (dir ++ [n])⟩).run m =
      .ok () (m.withTree (m.tree.move dir n dir' n' hmov)) := by
  have ht : m.rename (render (dir ++ [n])) (render (dir' ++ [n'])) = .ok (m.tree.move dir n dir' n' hmov) :=
    rename_render.2 (rename_of_lookup (lookup_render hmov.isDir_dir) (lookup_render hmov.isDir) rfl hmov hnew)
  rcases rename_cases r ⟨render (dir' ++ [n'])⟩ ⟨render (dir ++ [n])⟩ m with ⟨t, -, ht', hrun⟩ | ⟨e, he | he, -⟩
  · rw [hrun]
    cases ht.symm.trans ht'
    rfl
  · rw [hr] at he
    cases he
  · cases ht.symm.trans he

/-- **What is renamed to a free name, and back, is as it was**, and so is everything else. -/
theorem rename_back (hr : r.rename m.clock = none) (hr' : r.rename (m.clock + 1) = none) (hmov : Movable m.tree dir n dir' n')
    (hnew : m.tree.node (dir' ++ [n']) = none) :
    ∃ m₁ m₂, (rename r ⟨render (dir' ++ [n'])⟩ ⟨render (dir ++ [n])⟩).run m = .ok () m₁ ∧
      (∀ s, m₁.tree.node (dir' ++ [n'] ++ s) = m.tree.node (dir ++ [n] ++ s)) ∧ m₁.tree.node (dir ++ [n]) = none ∧
      (rename r ⟨render (dir ++ [n])⟩ ⟨render (dir' ++ [n'])⟩).run m₁ = .ok () m₂ ∧
      ∀ q, m₂.tree.node q = m.tree.node q := by
  let m₁ := m.withTree (m.tree.move dir n dir' n' hmov)
  have hfree : m₁.tree.node (dir ++ [n]) = none := node_move_from hmov List.prefix_rfl
  exact ⟨m₁, m₁.withTree (m₁.tree.move dir' n' dir n (movable_back hmov)), run_rename hr hmov hnew, node_move_to hmov,
    hfree, run_rename hr' (movable_back hmov) hfree, move_back hmov hnew⟩

/-- One directory is moved into the other. -/
theorem rename_back_shelf : ∃ m₁ m₂,
    (rename grants ⟨render ([nameTmp] ++ [nameA])⟩ ⟨render ([] ++ [nameA])⟩).run shelf = .ok () m₁ ∧
      (∀ s, m₁.tree.node ([nameTmp] ++ [nameA] ++ s) = shelf.tree.node ([] ++ [nameA] ++ s)) ∧
      m₁.tree.node ([] ++ [nameA]) = none ∧
      (rename grants ⟨render ([] ++ [nameA])⟩ ⟨render ([nameTmp] ++ [nameA])⟩).run m₁ = .ok () m₂ ∧
      ∀ q, m₂.tree.node q = shelf.tree.node q :=
  rename_back rfl rfl (by decide) rfl

/-! ## A scratch directory that is published -/

/-- A rename that returns has found something under the canonical name. -/
theorem node_of_rename {p q : List Name} (hfree : m.tree.LinkFreeTo p)
    (h : (rename r ⟨render q⟩ ⟨render p⟩).run m = .ok () m') : r.rename m.clock = none ∧ m.tree.node p ≠ none := by
  rcases rename_cases r ⟨render q⟩ ⟨render p⟩ m with ⟨t, hr, ht, -⟩ | ⟨e, -, hrun⟩
  · obtain ⟨dir, n, slashes, dir', n', slashes', hlook, -, hthere, -⟩ := rename_spec (rename_render.1 ht)
    rw [lookup_render_free hfree hlook]
    exact ⟨hr, hthere⟩
  · cases h.symm.trans hrun

section Scratch

variable {t₀ : Tree} {a b q : List Name} {k : Name}

/-- Nothing is under a free name that is apart from the scratch directory. -/
theorem Scratch.free (h : Scratch t₀ (a ++ [n]) t) (hnew' : t₀.node (b ++ [k]) = none) (hapart : ¬ a ++ [n] <+: q)
    (hq : b ++ [k] <+: q) : t.node q = none := by
  rw [h.outside q hapart, t₀.node_eq_none_of_prefix hq hnew']

/-- What is in the scratch directory can move to such a name. -/
theorem Scratch.movable (h : Scratch t₀ (a ++ [n]) t) (hdir' : t₀.IsDir b) (hnew' : t₀.node (b ++ [k]) = none)
    (hne : a ++ [n] ≠ b ++ [k]) (hinto : ¬ a ++ [n] <+: b) (hover : ¬ b ++ [k] <+: a) (hthere : t.node (a ++ [n]) ≠ none) :
    Movable t a n b k where
  there := hthere
  isDir := by
    obtain ⟨d, hd⟩ := hdir'
    exact ⟨d, by rw [h.outside b hinto, hd]⟩
  ne := hne
  notInto := hinto
  notOver := hover
  bare := by
    rw [entries_eq_nil_iff]
    intro j
    have hbelow : b ++ [k] <+: b ++ [k] ++ [j] := List.prefix_append _ [j]
    exact h.free hnew' (not_prefix_of_apart hne hinto hover hbelow) hbelow

end Scratch

/-- **Whatever is done on paths from a new name on, and then `rename` to another free name: until then there is nothing under
that name; the call returns exactly when there is something to rename and the host lets it; and then all that was made is under
that name, and the rest of the file system is as it was at first.** -/
theorem published (c : FifoCreator) (r : Renamer) (m m' : Machine) (a b : List Name) (n k : Name)
    (hdir : m.tree.IsDir a) (hnew : m.tree.node (a ++ [n]) = none) (hdir' : m.tree.IsDir b)
    (hnew' : m.tree.node (b ++ [k]) = none) (hne : a ++ [n] ≠ b ++ [k]) (is : List (Op × List Name))
    (hin : ∀ i ∈ is, a ++ [n] <+: i.2) (hrun : (work c).Path m is m') :
    (∀ s, m'.tree.node (b ++ [k] ++ s) = none) ∧
      ((∃ m'', (rename r ⟨render (b ++ [k])⟩ ⟨render (a ++ [n])⟩).run m' = .ok () m'') ↔
        r.rename m'.clock = none ∧ m'.tree.node (a ++ [n]) ≠ none) ∧
      ∀ m'', (rename r ⟨render (b ++ [k])⟩ ⟨render (a ++ [n])⟩).run m' = .ok () m'' →
        (∀ s, m''.tree.node (b ++ [k] ++ s) = m'.tree.node (a ++ [n] ++ s)) ∧
          ∀ q, ¬ b ++ [k] <+: q → m''.tree.node q = m.tree.node q := by
  have hm' : Scratch m.tree (a ++ [n]) m'.tree :=
    scratch_path (by rwa [List.dropLast_concat]) (by simp) hin hrun (.refl fun _ => linkFreeTo_of_free hdir hnew)
  have hinto : ¬ a ++ [n] <+: b := not_prefix_of_free hdir' hnew
  have hover : ¬ b ++ [k] <+: a := not_prefix_of_free hdir hnew'
  have hfree' : ∀ q, b ++ [k] <+: q → m'.tree.node q = none := fun q hq =>
    hm'.free hnew' (not_prefix_of_apart hne hinto hover hq) hq
  have hmov : m'.tree.node (a ++ [n]) ≠ none → Movable m'.tree a n b k := hm'.movable hdir' hnew' hne hinto hover
  refine ⟨fun s => hfree' _ (List.prefix_append _ s), ⟨?_, ?_⟩, ?_⟩
  · rintro ⟨m'', h⟩
    exact node_of_rename (hm'.linkFreeTo _ List.prefix_rfl) h
  · rintro ⟨hr, hthere⟩
    exact ⟨_, run_rename hr (hmov hthere) (hfree' _ List.prefix_rfl)⟩
  · intro m'' h
    obtain ⟨hr, hthere⟩ := node_of_rename (hm'.linkFreeTo _ List.prefix_rfl) h
    rw [run_rename hr (hmov hthere) (hfree' _ List.prefix_rfl)] at h
    obtain ⟨-, rfl⟩ := Result.ok.inj h
    refine ⟨node_move_to (hmov hthere), fun q hq => ?_⟩
    by_cases ha : a ++ [n] <+: q
    · rw [m.tree.node_eq_none_of_prefix ha hnew]
      exact node_move_from (hmov hthere) ha
    · rw [← hm'.outside q ha]
      exact node_move_of_not (hmov hthere) hq ha

/-- A pipe below two new directories. -/
theorem published_tmp : ∃ m', (work ready).Path bare
    [(.makePath 2 0o755, [nameTmp, nameA]), (.makeFifo 0o622, [nameTmp, nameA, nameTmp])] m' ∧
    ((∃ m'', (rename grants ⟨render ([] ++ [nameA])⟩ ⟨render ([] ++ [nameTmp])⟩).run m' = .ok () m'') ↔
      grants.rename m'.clock = none ∧ m'.tree.node ([] ++ [nameTmp]) ≠ none) := by
  have hpath : (work ready).Path bare
      [(.makePath 2 0o755, [nameTmp, nameA]), (.makeFifo 0o622, [nameTmp, nameA, nameTmp])] _ :=
    .cons rfl (.cons rfl (.nil _))
  obtain ⟨-, hiff, -⟩ := published ready grants bare _ [] [] nameTmp nameA
    isDir_bare rfl isDir_bare rfl (by decide) _ (by decide) hpath
  exact ⟨_, hpath, hiff⟩

end File

end OksSystem
