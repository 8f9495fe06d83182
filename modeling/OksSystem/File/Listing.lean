import OksSystem.File.Rename

/-!
# A directory is a set of names

* `Names` : what a call, returning or not, does to a set of names; `within` : the calls on the names of one directory;
* `makes_op`, `deletes_op`, `permissions_op` : what a call does to the name it is for;
* `names_op`, `names_rename`, `names_path` : what it does to all of them, and so does every run;
* `run_directory_names` : what `directory` lists;
* `listing_refines` : **after any calls `directory` lists the names that those which returned have left, each once**.
-/

namespace OksSystem
open ByteBuffer EStateM FileTree Pieces

namespace File

/-! ## Sets of names -/

def Op.makes : Op → Bool
  | makeDir _ | makePath _ _ | makeFifo _ => true
  | permissions _ | unlink | rmdir | remove _ => false

def Op.deletes : Op → Bool
  | unlink | rmdir | remove _ => true
  | makeDir _ | makePath _ _ | makeFifo _ | permissions _ => false

inductive Act where
  | op (op : Op) (n : Name)
  | rename (n k : Name)

/-- What a call does to the names; it returns or not. -/
inductive Names : Set Name → Act × Bool → Set Name → Prop where
  | made {S op n} (h : op.makes = true) : Names S (.op op n, true) ({n} ∪ S)
  /-- `chmod` can fail after `mkdir` or `mkfifo`. -/
  | left {S S' op n} (h : op.makes = true) (hS : S' = S ∨ S' = {n} ∪ S) : Names S (.op op n, false) S'
  | deleted {S op n} (h : op.deletes = true) (hn : n ∈ S) : Names S (.op op n, true) (S \ {n})
  | kept {S op n} (h : op.deletes = true) : Names S (.op op n, false) S
  | set {S perm n} (hn : n ∈ S) : Names S (.op (.permissions perm) n, true) S
  | unset {S perm n} : Names S (.op (.permissions perm) n, false) S
  | renamed {S n k} (hn : n ∈ S) : Names S (.rename n k, true) ({k} ∪ S \ {n})
  | unnamed {S n k} : Names S (.rename n k, false) S

def nameSets : LTS (Set Name) (Act × Bool) where
  init _ := True
  step := Names

/-! ## The calls -/

/-- The call returns or not, and leaves the machine. -/
def Ends {ε : Type} (x : Result ε Machine Unit) (returned : Bool) (m' : Machine) : Prop :=
  x.thrown.isNone = returned ∧ x.state = m'

/-- Calls on the names of the directory `p`. -/
def within (c : FifoCreator) (r : Renamer) (p : List Name) : LTS Machine (Act × Bool) where
  init _ := True
  step m i m' := match i.1 with
    | .op op n => Ends ((op.run c ⟨render (p ++ [n])⟩).run m) i.2 m'
    | .rename n k => Ends ((rename r ⟨render (p ++ [k])⟩ ⟨render (p ++ [n])⟩).run m) i.2 m'

def namesIn (m : Machine) (p : List Name) : Set Name := {n | m.tree.node (p ++ [n]) ≠ none}

variable {m m' : Machine} {c : FifoCreator} {r : Renamer} {host : Host} {p q : List Name} {n k : Name} {perm : Mode}

theorem Ends.triple {ε : Type} {x : EStateM ε Machine Unit} {b : Bool} {Q E : Machine → Prop} (h : Ends (x.run m) b m')
    (hx : Triple (· = m) x (fun _ => Q) E) : (b = true ∧ Q m') ∨ b = false ∧ E m' := by
  have hrun := hx m rfl
  obtain ⟨hb, hstate⟩ := h
  revert hrun hb hstate
  cases x.run m with
  | ok a m₁ =>
    rintro hQ rfl rfl
    exact .inl ⟨rfl, hQ⟩
  | error e m₁ =>
    rintro hE rfl rfl
    exact .inr ⟨rfl, hE⟩

theorem sibling_unique {j j' : Name} (h : p ++ [j] <+: p ++ [j']) : j = j' :=
  List.singleton_inj.1 (List.append_cancel_left (h.eq_of_length (by simp)))

theorem not_prefix_self (p : List Name) (j : Name) : ¬ p ++ [j] <+: p := fun h => by simpa using h.length_le

/-! ## The name a call is for -/

/-- A call that returns leaves a node at `q`, and one that throws has deleted none. -/
def Makes (q : List Name) (x : FileM Unit) : Prop := ∀ m : Machine, m.tree.LinkFree →
  Triple (· = m) x (fun _ m' => m'.tree.node q ≠ none) fun m' => m.tree.node q ≠ none → m'.tree.node q ≠ none

/-- A call that returns has deleted the node at `q`, and one that throws has not. -/
def Deletes (q : List Name) (x : FileM Unit) : Prop := ∀ m : Machine, m.tree.LinkFree →
  Triple (· = m) x (fun _ m' => m.tree.node q ≠ none ∧ m'.tree.node q = none)
    fun m' => m'.tree.node q ≠ none ↔ m.tree.node q ≠ none

theorem there_of_resolve (hfree : m.tree.LinkFree) (h : m.resolve (render p) = .ok q) : m.tree.node p ≠ none := by
  obtain rfl := resolve_render_free (hfree.linkFreeTo _) h
  exact (real_of_resolve (absolute_render q) h).node_ne_none

theorem exists_render_iff (hfree : m.tree.LinkFree) : (m.stat (render p)).toBool = true ↔ m.tree.node p ≠ none := by
  constructor
  · intro h
    obtain ⟨q, hq⟩ := resolve_of_exists h
    exact there_of_resolve hfree hq
  · intro h
    obtain ⟨x, hx⟩ := Option.ne_none_iff_exists'.1 h
    rw [stat_render (hfree.real h) hx]
    rfl

theorem makes_makeDir (c : Creator) (perm : Mode) (q : List Name) : Makes q (makeDir c perm ⟨render q⟩) := by
  intro m hfree
  refine (triple_makeDir c perm ⟨render q⟩ hfree).mono (fun _ => id) ?_ fun m' hg => hg.tree.node_ne_none
  rintro _ m' ⟨hg, hdir | hother⟩
  · obtain ⟨x, hx, -⟩ := hdir
    exact there_of_resolve (hg.tree.linkFree hfree) hx
  · obtain ⟨x, hx, -⟩ := hother
    exact hg.tree.node_ne_none (there_of_resolve hfree hx)

theorem makes_makePath (c : Creator) (depth : Nat) (perm : Mode) (q : List Name) :
    Makes q (makePath c depth perm ⟨render q⟩) := by
  intro m hfree
  refine (triple_makePath c depth perm (absolute_render q) hfree).mono (fun _ => id) ?_ fun m' hg => hg.tree.node_ne_none
  rintro _ m' ⟨hg, ⟨x, hx⟩, -⟩
  exact there_of_resolve (hg.tree.linkFree hfree) hx

theorem LeavesFifo.linkFree {path : Str} {d : Perm} (h : LeavesFifo m m' path q d) (hfree : m.tree.LinkFree) :
    m'.tree.LinkFree := by
  intro s target hs
  by_cases hsq : s = q
  · rw [hsq, h.node] at hs
    exact absurd hs (by simp)
  · rw [h.others s hsq] at hs
    exact hfree s target hs

theorem makes_makeFifo (c : FifoCreator) (perm : Mode) (q : List Name) : Makes q (makeFifo c perm ⟨render q⟩) := by
  intro m hfree
  rcases makeFifo_cases c perm ⟨render q⟩ hfree with ⟨m', x, hrun, -, hleaves, -⟩ | ⟨stop, m', x, k, e, hrun, -, -, hleaves⟩ |
    ⟨stop, m', hrun, htree, -⟩
  · exact Triple.of_run_ok hrun (there_of_resolve (hleaves.linkFree hfree) hleaves.resolve)
  · exact Triple.of_run_error hrun fun _ => there_of_resolve (hleaves.linkFree hfree) hleaves.resolve
  · exact Triple.of_run_error hrun fun hq => by rwa [htree]

theorem removeNode_cases (host : Host) (call : Tree → Nat → List Name → List (Comp Name) → Except Failure Tree) (f : File)
    (m : Machine) :
    (∃ t, m.remove call f.fullName = .ok t ∧ (removeNode host call f).run m = .ok none (m.withTree t)) ∨
      ∃ e, (removeNode host call f).run m = .ok (some e) m.ticked := by
  have hticked : m.ticked.remove call f.fullName = m.remove call f.fullName := rfl
  unfold removeNode
  rw [run_bind_ok run_tick, run_bind_ok (run_get _), hticked]
  cases host.remove m.clock with
  | some e => exact .inr ⟨e, rfl⟩
  | none =>
    cases m.remove call f.fullName with
    | error e => exact .inr ⟨e, rfl⟩
    | ok t => exact .inl ⟨t, rfl, rfl⟩

theorem deletes_deleting {call : Tree → Nat → List Name → List (Comp Name) → Except Failure Tree} {fails : Errno → Stop}
    (hcall : ∀ (m : Machine) (t : Tree), m.tree.LinkFree → m.remove call (render q) = .ok t →
      m.tree.node q ≠ none ∧ t.node q = none) :
    Deletes q (do if let some e ← removeNode host call ⟨render q⟩ then throw (fails e)) := by
  intro m hfree
  rcases removeNode_cases host call ⟨render q⟩ m with ⟨t, ht, hrun⟩ | ⟨e, hrun⟩
  · exact Triple.of_run_ok (run_bind_ok hrun) (hcall m t hfree ht)
  · exact Triple.of_run_error (run_bind_ok hrun) Iff.rfl

theorem deletes_unlink (host : Host) (q : List Name) : Deletes q (File.unlink host ⟨render q⟩) := by
  refine deletes_deleting fun m t hfree ht => ?_
  obtain ⟨dir, n, slashes, hnil, hlook, hthere, -, rfl⟩ := unlink_spec (remove_render.1 ht)
  obtain rfl := lookup_render_free (hfree.linkFreeTo _) hlook
  exact ⟨hthere, node_erase_self hnil⟩

theorem deletes_rmdir (host : Host) (q : List Name) : Deletes q (File.rmdir host ⟨render q⟩) := by
  refine deletes_deleting fun m t hfree ht => ?_
  obtain ⟨dir, n, slashes, hnil, hlook, hdir, rfl⟩ := rmdir_spec (remove_render.1 ht)
  obtain rfl := lookup_render_free (hfree.linkFreeTo _) hlook
  exact ⟨hdir.real.node_ne_none, node_erase_self hnil⟩

/-- `remove` deletes its own node last. -/
theorem deletes_remove (host : Host) (depth : Nat) (q : List Name) : Deletes q (remove host depth ⟨render q⟩) := by
  intro m hfree
  cases depth with
  | zero => exact Triple.throw _ fun _ h => h ▸ Iff.rfl
  | succ depth =>
    unfold remove
    refine Triple.bind ((triple_isDirectory ⟨render q⟩ m).mono (fun _ => id) (fun _ _ => And.left) fun _ h => h ▸ Iff.rfl)
      fun b => Triple.ite (fun _ => ?_) fun _ => deletes_unlink host q m hfree
    refine Triple.bind ((triple_directory host m (absolute_render q)).mono (fun _ => id) (fun _ _ => id)
      fun _ h => h ▸ Iff.rfl) fun v => Triple.of_forall ?_
    rintro _ ⟨rfl, names, hnames, hitems⟩
    -- the loop only removes below the directory
    let J : Machine → Prop := fun m₁ => m₁.tree.LinkFree ∧ m₁.tree.node q = m.tree.node q
    refine Triple.bind (Q := fun _ => J) (Triple.mono (P := J) (E := J) (Triple.forM fun g hg => ?_)
      (fun _ h => h ▸ ⟨hfree, rfl⟩) (fun _ _ => id) fun m₁ h => by rw [h.2]) fun _ => Triple.of_forall fun m₁ hm₁ => ?_
    · obtain ⟨name, hname, rfl⟩ := hitems g hg
      obtain ⟨n, hn, hdir, rfl⟩ := entry_of_listed (hfree.linkFreeTo q) hnames hname
      have hnot := not_prefix_self q n
      refine Triple.of_forall fun m₁ hm₁ => ?_
      have hrefl : Scratch m₁.tree (q ++ [n]) m₁.tree := .refl fun p _ => hm₁.1.linkFreeTo p
      exact (stays_child (hfree.linkFreeTo _) List.prefix_rfl hdir hn (stays_remove host depth List.prefix_rfl)).mono
        (fun _ h => h ▸ hrefl) (fun _ _ h => ⟨h.linkFree hm₁.1, (h.outside q hnot).trans hm₁.2⟩)
        fun _ h => ⟨h.linkFree hm₁.1, (h.outside q hnot).trans hm₁.2⟩
    · refine (deletes_rmdir host q m₁ hm₁.1).mono (fun _ => id) (fun _ m₂ h => ?_) fun m₂ h => ?_
      · rwa [hm₁.2] at h
      · rwa [hm₁.2] at h

/-- `permissions` makes and deletes nothing. -/
theorem triple_permissions (c : Creator) (perm : Mode) (hfree : m.tree.LinkFree) (q : List Name) :
    Triple (· = m) (setPermissions c perm ⟨render q⟩)
      (fun _ m' => m.tree.node q ≠ none ∧ (m'.tree.node q ≠ none ↔ m.tree.node q ≠ none))
      fun m' => m'.tree.node q ≠ none ↔ m.tree.node q ≠ none := by
  have hrun := run_permissions (m := m) ⟨render q⟩
  unfold setPermissions
  cases hstat : m.stat (render q) with
  | error e =>
    rw [show (⟨render q⟩ : File).fullName = render q from rfl, hstat] at hrun
    exact Triple.of_run_error (run_bind_error hrun) Iff.rfl
  | ok md =>
    rw [show (⟨render q⟩ : File).fullName = render q from rfl, hstat] at hrun
    obtain ⟨x, -, hx, -, -⟩ := stat_eq_ok hstat
    have hthere := there_of_resolve hfree hx
    refine Triple.bind_ok hrun (Triple.ite (fun _ => ?_) fun _ => Triple.of_run_ok rfl ⟨hthere, Iff.rfl⟩)
    rcases chmodNode_cases c perm ⟨render q⟩ m with ⟨y, -, hchmod⟩ | ⟨e, -, hchmod⟩
    · exact Triple.of_run_ok (run_bind_ok hchmod) ⟨hthere, node_modify_ne_none⟩
    · exact Triple.of_run_error (run_bind_ok hchmod) Iff.rfl

theorem makes_op (c : FifoCreator) {op : Op} (h : op.makes = true) (q : List Name) : Makes q (op.run c ⟨render q⟩) := by
  cases op with
  | makeDir perm => exact makes_makeDir c.toCreator perm q
  | makePath depth perm => exact makes_makePath c.toCreator depth perm q
  | makeFifo perm => exact makes_makeFifo c perm q
  | permissions perm => exact absurd h (by simp [Op.makes])
  | unlink => exact absurd h (by simp [Op.makes])
  | rmdir => exact absurd h (by simp [Op.makes])
  | remove depth => exact absurd h (by simp [Op.makes])

theorem deletes_op (c : FifoCreator) {op : Op} (h : op.deletes = true) (q : List Name) :
    Deletes q (op.run c ⟨render q⟩) := by
  cases op with
  | makeDir perm => exact absurd h (by simp [Op.deletes])
  | makePath depth perm => exact absurd h (by simp [Op.deletes])
  | makeFifo perm => exact absurd h (by simp [Op.deletes])
  | permissions perm => exact absurd h (by simp [Op.deletes])
  | unlink => exact deletes_unlink c.toHost q
  | rmdir => exact deletes_rmdir c.toHost q
  | remove depth => exact deletes_remove c.toHost depth q

theorem Op.kinds (op : Op) : op.makes = true ∨ op.deletes = true ∨ ∃ perm, op = .permissions perm := by
  cases op <;> simp [makes, deletes]

/-! ## All the names -/

/-- The other names stay as they are. -/
def SameBut (n : Name) (m m' : Machine) (p : List Name) : Prop := ∀ k, k ≠ n → (k ∈ namesIn m' p ↔ k ∈ namesIn m p)

theorem SameBut.eq_union (h : SameBut n m m' p) (hn : n ∈ namesIn m' p) : namesIn m' p = {n} ∪ namesIn m p := by
  ext k
  rw [Set.mem_union, Set.mem_singleton_iff]
  by_cases hk : k = n
  · simpa only [hk, true_or, iff_true] using hn
  · rw [h k hk, or_iff_right hk]

theorem SameBut.eq_diff (h : SameBut n m m' p) (hn : n ∉ namesIn m' p) : namesIn m' p = namesIn m p \ {n} := by
  ext k
  rw [Set.mem_sdiff, Set.mem_singleton_iff]
  by_cases hk : k = n
  · simpa only [hk, not_true_eq_false, and_false, iff_false] using hn
  · rw [h k hk, and_iff_left hk]

theorem SameBut.eq (h : SameBut n m m' p) (hn : n ∈ namesIn m' p ↔ n ∈ namesIn m p) : namesIn m' p = namesIn m p := by
  ext k
  by_cases hk : k = n
  · rw [hk, hn]
  · exact h k hk

theorem names_op {op : Op} {b : Bool} (hfree : m.tree.LinkFree) (hothers : SameBut n m m' p)
    (h : Ends ((op.run c ⟨render (p ++ [n])⟩).run m) b m') : Names (namesIn m p) (.op op n, b) (namesIn m' p) := by
  rcases op.kinds with hmakes | hdeletes | ⟨perm, rfl⟩
  · rcases h.triple (makes_op c hmakes (p ++ [n]) m hfree) with ⟨rfl, hthere⟩ | ⟨rfl, hkeep⟩
    · rw [hothers.eq_union hthere]
      exact .made hmakes
    · by_cases hn : n ∈ namesIn m' p
      · exact .left hmakes (.inr (hothers.eq_union hn))
      · exact .left hmakes (.inl (hothers.eq (iff_of_false hn fun hn' => hn (hkeep hn'))))
  · rcases h.triple (deletes_op c hdeletes (p ++ [n]) m hfree) with ⟨rfl, hthere, hgone⟩ | ⟨rfl, hiff⟩
    · rw [hothers.eq_diff (not_not.2 hgone)]
      exact .deleted hdeletes hthere
    · rw [hothers.eq hiff]
      exact .kept hdeletes
  · rcases h.triple (triple_permissions c.toCreator perm hfree (p ++ [n])) with ⟨rfl, hthere, hiff⟩ | ⟨rfl, hiff⟩
    · rw [hothers.eq hiff]
      exact .set hthere
    · rw [hothers.eq hiff]
      exact .unset

/-- The names after a move from `n` to `k`. -/
theorem names_move_within {t : Tree} (hmov : Movable t p n p k) :
    {j | (t.move p n p k hmov).node (p ++ [j]) ≠ none} = {k} ∪ {j | t.node (p ++ [j]) ≠ none} \ {n} := by
  ext j
  rw [Set.mem_union, Set.mem_singleton_iff, Set.mem_sdiff, Set.mem_singleton_iff, Set.mem_ofPred_eq, Set.mem_ofPred_eq]
  by_cases hj : j = k
  · have hto := node_move_to hmov []
    rw [List.append_nil, List.append_nil] at hto
    rw [hj, hto]
    exact iff_of_true hmov.there (.inl rfl)
  by_cases hj' : j = n
  · rw [hj', node_move_from hmov List.prefix_rfl]
    refine iff_of_false (fun h => h rfl) ?_
    rintro (hnk | ⟨-, hne⟩)
    · exact hj (hj'.trans hnk)
    · exact hne rfl
  · rw [node_move_of_not hmov (fun hpre => hj (sibling_unique hpre).symm) fun hpre => hj' (sibling_unique hpre).symm]
    constructor
    · exact fun h => .inr ⟨h, hj'⟩
    · exact fun h => (h.resolve_left hj).1

/-- What `rename` within a directory does. -/
theorem names_rename {b : Bool} (hfree : m.tree.LinkFree) (hdir : m.tree.IsDir p)
    (h : Ends ((rename r ⟨render (p ++ [k])⟩ ⟨render (p ++ [n])⟩).run m) b m') :
    m'.tree.LinkFree ∧ m'.tree.IsDir p ∧ Names (namesIn m p) (.rename n k, b) (namesIn m' p) := by
  obtain ⟨rfl, rfl⟩ := h
  rcases rename_cases r ⟨render (p ++ [k])⟩ ⟨render (p ++ [n])⟩ m with ⟨t, -, ht, hrun⟩ | ⟨e, -, hrun⟩
  · rw [hrun]
    obtain ⟨dir, n', slashes, dir', k', slashes', hlook, hlook', hthere, hcase⟩ := rename_spec (rename_render.1 ht)
    obtain ⟨rfl, hn⟩ := List.append_inj' (lookup_render_free (hfree.linkFreeTo _) hlook) rfl
    obtain ⟨rfl, hk⟩ := List.append_inj' (lookup_render_free (hfree.linkFreeTo _) hlook') rfl
    obtain rfl := List.singleton_inj.1 hn
    obtain rfl := List.singleton_inj.1 hk
    have hnames : ∀ S, S = {k} ∪ namesIn m p \ {n} → Names (namesIn m p) (.rename n k, true) S := by
      rintro S rfl
      exact .renamed hthere
    rcases hcase with ⟨hsame, rfl⟩ | ⟨hmov, rfl⟩
    · refine ⟨hfree, hdir, hnames _ ?_⟩
      obtain rfl : n = k := List.singleton_inj.1 (List.append_cancel_left hsame)
      rw [Set.union_sdiff_self, Set.union_eq_right.2 (Set.singleton_subset_iff.2 hthere)]
      rfl
    · exact ⟨(keeps_move hmov).linkFree hfree, (isDir_move hmov (not_prefix_self p k) (not_prefix_self p n)).2 hdir,
        hnames _ (names_move_within hmov)⟩
  · rw [hrun]
    exact ⟨hfree, hdir, .unnamed⟩

theorem names_step {i : Act × Bool} (hfree : m.tree.LinkFree) (hdir : m.tree.IsDir p) (h : (within c r p).step m i m') :
    m'.tree.LinkFree ∧ m'.tree.IsDir p ∧ Names (namesIn m p) i (namesIn m' p) := by
  obtain ⟨act, b⟩ := i
  cases act with
  | op op n =>
    have hends : Ends ((op.run c ⟨render (p ++ [n])⟩).run m) b m' := h
    have hscratch : Scratch m.tree (p ++ [n]) m'.tree := by
      rw [← hends.2]
      exact (stays_op c (by rwa [List.dropLast_concat]) (by simp) op List.prefix_rfl).state
        (Scratch.refl fun p _ => hfree.linkFreeTo p)
    have hothers : SameBut n m m' p := fun k hk => by
      show m'.tree.node (p ++ [k]) ≠ none ↔ m.tree.node (p ++ [k]) ≠ none
      rw [hscratch.outside (p ++ [k]) fun hpre => hk (sibling_unique hpre).symm]
    refine ⟨hscratch.linkFree hfree, ?_, names_op hfree hothers hends⟩
    obtain ⟨d, hd⟩ := hdir
    exact ⟨d, by rw [hscratch.outside p (not_prefix_self p n), hd]⟩
  | rename n k => exact names_rename hfree hdir h

theorem names_path {is : List (Act × Bool)} (hfree : m.tree.LinkFree) (hdir : m.tree.IsDir p)
    (h : (within c r p).Path m is m') :
    m'.tree.LinkFree ∧ m'.tree.IsDir p ∧ nameSets.Path (namesIn m p) is (namesIn m' p) := by
  induction h with
  | nil m => exact ⟨hfree, hdir, .nil _⟩
  | cons hs _ ih =>
    obtain ⟨hfree', hdir', hnames⟩ := names_step hfree hdir hs
    obtain ⟨hfree'', hdir'', hpath⟩ := ih hfree' hdir'
    exact ⟨hfree'', hdir'', .cons hnames hpath⟩

/-! ## What is listed -/

/-- `directory` lists every name once. -/
theorem run_directory_names (hhost : Willing host) (hfree : m.tree.LinkFree) (hdir : m.tree.IsDir p) :
    ∃ v m', (directory host ⟨render p⟩).run m = .ok v m' ∧ v.items.Nodup ∧
      ∀ g, g ∈ v.items ↔ ∃ n ∈ namesIn m p, g = ⟨render (p ++ [n])⟩ := by
  obtain ⟨v, hitems, hrun⟩ := run_directory_ok host (absolute_render p) (hhost.opendir m.clock) (opendir_render hdir)
  rw [hhost.closedir] at hrun
  obtain ⟨ns, hperm, hns⟩ := exists_names hhost m p m.clock
  have hstored : ∀ n ∈ ns, (⟨m.stored (childPath p n)⟩ : File) = ⟨render (p ++ [n])⟩ := fun n hn =>
    congrArg File.mk (stored_childPath (hfree.linkFreeTo _) hdir (hperm.mem_iff.1 hn))
  have hfiles : v.items = ns.map fun n => ⟨render (p ++ [n])⟩ := by
    rw [hitems, hns, List.map_map]
    exact List.map_congr_left hstored
  refine ⟨v, m.ticked, hrun, ?_, fun g => ?_⟩
  · rw [hfiles]
    refine List.Nodup.map_on (fun n _ n' _ heq => ?_) (hperm.nodup_iff.2 (m.tree.nodup p))
    have hcomps := congrArg (fun g : File => comps g.fullName) heq
    simpa only [comps_render_append, List.append_cancel_left_eq, List.cons.injEq, Comp.name.injEq, and_true] using hcomps
  · rw [hfiles, List.mem_map]
    constructor
    · rintro ⟨n, hn, rfl⟩
      exact ⟨n, (m.tree.mem_entries p n).1 (hperm.mem_iff.1 hn), rfl⟩
    · rintro ⟨n, hn, rfl⟩
      exact ⟨n, hperm.mem_iff.2 ((m.tree.mem_entries p n).2 hn), rfl⟩

/-- **After any calls on the names of a directory, which may throw, `directory` lists exactly the names that the calls which
returned have left, each once**, and `exists` tells the same of every name. Only a call to make something that throws leaves it
open whether its name is there: the name is made, and then `chmod` refused. -/
theorem listing_refines (c : FifoCreator) (r : Renamer) (m m' : Machine) (hfree : m.tree.LinkFree) (p : List Name)
    (hdir : m.tree.IsDir p) (is : List (Act × Bool)) (h : (within c r p).Path m is m') :
    ∃ S, nameSets.Path {n | m.tree.node (p ++ [n]) ≠ none} is S ∧
      (∀ host, Willing host → ∃ v m'', (directory host ⟨render p⟩).run m' = .ok v m'' ∧ v.items.Nodup ∧
        ∀ g, g ∈ v.items ↔ ∃ n ∈ S, g = ⟨render (p ++ [n])⟩) ∧
      ∀ n, ∃ b, (exists? ⟨render (p ++ [n])⟩).run m' = .ok b m' ∧ (b = true ↔ n ∈ S) := by
  obtain ⟨hfree', hdir', hpath⟩ := names_path hfree hdir h
  refine ⟨namesIn m' p, hpath, fun host hhost => run_directory_names hhost hfree' hdir', fun n => ⟨_, run_exists? _, ?_⟩⟩
  exact exists_render_iff hfree'

/-- A directory is made and renamed, and a pipe takes its first name. -/
theorem listing_refines_tmp : ∃ (m' : Machine) (S : Set Name), (within ready grants []).Path bare
    [(.op (.makeDir 0o755) nameTmp, true), (.rename nameTmp nameA, true), (.op (.makeFifo 0o622) nameTmp, true)] m' ∧
    ∃ v m'', (directory ready.toHost ⟨render []⟩).run m' = .ok v m'' ∧ v.items.Nodup ∧
      ∀ g, g ∈ v.items ↔ ∃ n ∈ S, g = ⟨render ([] ++ [n])⟩ := by
  have hpath : (within ready grants []).Path bare
      [(.op (.makeDir 0o755) nameTmp, true), (.rename nameTmp nameA, true), (.op (.makeFifo 0o622) nameTmp, true)] _ :=
    .cons ⟨rfl, rfl⟩ (.cons ⟨rfl, rfl⟩ (.cons ⟨rfl, rfl⟩ (.nil _)))
  obtain ⟨S, -, hlist, -⟩ := listing_refines ready grants bare _ (linkFree_ofRoot _) [] isDir_bare _ hpath
  exact ⟨_, S, hpath, hlist ready.toHost willing_ready⟩

end File

end OksSystem
