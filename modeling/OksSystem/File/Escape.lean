import Mathlib.Logic.Relation
import OksSystem.File.Remove

/-!
# What `remove` deletes outside the directory

An entry that is a link gets the name of what it points to, so `remove` goes on there.

* `Follows` : an entry of a directory and what the constructor makes of it; `Leaf` : what `remove` deletes at once;
* `LeavesInside` : the condition under which `remove` on `d` deletes nothing outside `d`;
* `Kept`, `remove_kept` : the invariant of the recursion under that condition;
* `remove_reaches` : some order of the entries takes `remove` to any leaf it can reach;
* `staysInside_iff` : **nothing outside is deleted iff every leaf that entries lead to is inside**.
-/

namespace OksSystem
open ByteBuffer EStateM FileTree File

/-! ## Where the entries lead -/

/-- The constructor makes `q` of an entry of the directory `p`. -/
def Follows (t : Tree) (p q : List Name) : Prop :=
  t.IsDir p ∧ ∃ n ∈ t.entries p, t.resolve maxLinks p [.name n] = .ok q

/-- A node that `remove` deletes without going on from it. -/
def Leaf (t : Tree) (p : List Name) : Prop :=
  (∃ a, t.node p = some (.other a) ∧ a.type.dirBit = false) ∨ (t.IsDir p ∧ t.entries p = [])

/-- The leaves that entries lead to from `d` are in the subtree of `d`. -/
def LeavesInside (t : Tree) (d : List Name) : Prop :=
  ∀ x, Relation.ReflTransGen (Follows t) d x → Leaf t x → d <+: x

theorem Leaf.real {t : Tree} {p : List Name} (h : Leaf t p) : t.Real p := by
  rcases h with ⟨a, ha, -⟩ | ⟨hdir, -⟩
  · exact ⟨_, ha, by simp⟩
  · exact hdir.real

section Tree

variable {t t₀ : Tree} {d p q : List Name}

theorem Follows.mono (hsub : Sub t t₀) (h : Follows t p q) : Follows t₀ p q := by
  obtain ⟨hdir, n, hn, hres⟩ := h
  exact ⟨hsub.isDir hdir, n, hsub.entries hn, resolve_mono hsub hres⟩

theorem Follows.real (h : Follows t p q) : t.Real q := by
  obtain ⟨hdir, n, -, hres⟩ := h
  exact resolve_real hdir.real hres

theorem real_of_reach (hd : t.IsDir d) (h : Relation.ReflTransGen (Follows t) d p) : t.Real p := by
  cases h with
  | refl => exact hd.real
  | tail _ hstep => exact hstep.real

/-- An entry that is no link leads to itself. -/
theorem resolve_entry {n : Name} (h : t.Real (p ++ [n])) : t.resolve maxLinks p [.name n] = .ok (p ++ [n]) := by
  have hnames : t.resolve maxLinks p ([n].map .name ++ []) = _ := resolve_names h
  rwa [resolve_nil] at hnames

/-- Only a link leads out of the subtree of `d`. -/
theorem exists_link (h : Relation.ReflTransGen (Follows t) d p) (hp : ¬ d <+: p) :
    ∃ l target, d <+: l ∧ t.node l = some (.link target) := by
  induction h with
  | refl => exact absurd List.prefix_rfl hp
  | @tail q p _ hstep ih =>
    by_cases hq : d <+: q
    · obtain ⟨-, n, hn, hres⟩ := hstep
      have hin : d <+: q ++ [n] := hq.trans (List.prefix_append q [n])
      rw [t.mem_entries] at hn
      obtain ⟨m, hm⟩ := Option.ne_none_iff_exists'.1 hn
      by_cases hlink : ∃ target, m = .link target
      · obtain ⟨target, rfl⟩ := hlink
        exact ⟨q ++ [n], target, hin, hm⟩
      · rw [resolve_entry ⟨m, hm, fun target heq => hlink ⟨target, heq⟩⟩] at hres
        cases hres
        exact absurd hin hp
    · exact ih hq

end Tree

/-! ## Nothing outside is deleted -/

/-- What `remove` on `d` leaves of the tree `t₀`. -/
structure Kept (t₀ : Tree) (d : List Name) (t : Tree) : Prop where
  sub : Sub t t₀
  outside : ∀ p, ¬ d <+: p → t.node p = t₀.node p
  links : ∀ p target, t₀.node p = some (.link target) → t.node p = some (.link target)

namespace Kept

variable {t t₀ : Tree} {d p q : List Name} {n : Name}

theorem refl (t : Tree) (d : List Name) : Kept t d t := ⟨Sub.refl t, fun _ _ => rfl, fun _ _ => id⟩

/-- A node in the subtree of `d` that is no link can go. -/
theorem erase (h : Kept t₀ d t) (hin : d <+: p ++ [n]) (hreal : t₀.Real (p ++ [n])) (hnil : t.entries (p ++ [n]) = []) :
    Kept t₀ d (t.erase p n hnil) := by
  refine ⟨(erase_sub hnil).trans h.sub, fun q hq => ?_, fun q target hq => ?_⟩
  · have hne : q ≠ p ++ [n] := fun heq => hq (heq ▸ hin)
    rw [node_erase_of_ne hnil hne]
    exact h.outside q hq
  · rw [node_erase_of_ne hnil]
    · exact h.links q target hq
    · rintro rfl
      obtain ⟨m, hm, hnot⟩ := hreal
      rw [hm] at hq
      exact hnot target (Option.some.inj hq)

/-- A directory that entries lead to and that has become empty is in the subtree of `d`. -/
theorem inside_of_empty (h : Kept t₀ d t) (hleaves : LeavesInside t₀ d)
    (hreach : Relation.ReflTransGen (Follows t₀) d q) (hdir : t.IsDir q) (hnil : t.entries q = []) : d <+: q := by
  by_contra hout
  -- `q` had an entry, which is gone, so that entry is `d`
  have hentries : t₀.entries q ≠ [] := fun hnil₀ =>
    hout (hleaves q hreach (.inr ⟨h.sub.isDir hdir, hnil₀⟩))
  obtain ⟨n, hn⟩ := List.exists_mem_of_ne_nil _ hentries
  rw [t₀.mem_entries] at hn
  have hgone := (t.entries_eq_nil_iff q).1 hnil n
  have hin : d <+: q ++ [n] := by
    by_contra hnot
    rw [h.outside _ hnot] at hgone
    exact hn hgone
  rcases List.prefix_concat_iff.1 hin with hd | hin
  · -- but a link in the subtree of `d` is still there
    obtain ⟨l, target, hdl, hl⟩ := exists_link hreach hout
    have hlink : t.node l ≠ none := h.links l target hl ▸ Option.some_ne_none _
    exact t.node_ne_none_of_prefix hdl hlink (hd ▸ hgone)
  · exact hout hin

end Kept

section Level

variable {m m' : Machine} {t t₀ : Tree} {d p q : List Name} {path : Str}

theorem resolve_render_sub (hsub : Sub m.tree t₀) (hreal : t₀.Real p) (h : m.resolve (render p) = .ok q) : q = p := by
  have hres := resolve_sub (m := { m with tree := t₀ }) (absolute_render p) hsub h
  rw [resolve_render hreal] at hres
  exact (Except.ok.inj hres).symm

theorem stat_render_sub {md : Mode} (hsub : Sub m.tree t₀) (hreal : t₀.Real p) (h : m.stat (render p) = .ok md) :
    ∃ n, m.tree.node p = some n ∧ md = mode n := by
  obtain ⟨q, n, hq, hn, rfl⟩ := stat_eq_ok h
  obtain rfl := resolve_render_sub hsub hreal hq
  exact ⟨n, hn, rfl⟩

/-- The entries that `directory` makes files of. -/
theorem opendir_render_sub {names : List Str} (hsub : Sub m.tree t₀) (hreal : t₀.Real p)
    (h : m.opendir (render p) = .ok names) :
    m.tree.IsDir p ∧ ∀ name ∈ proper names, ∃ n ∈ m.tree.entries p, name = n.1 := by
  obtain ⟨q, hq, hdir, rfl⟩ := opendir_eq_ok h
  obtain rfl := resolve_render_sub hsub hreal hq
  refine ⟨hdir, fun name hname => ?_⟩
  obtain ⟨hmem, hproper⟩ := List.mem_filter.1 hname
  simp only [List.mem_cons, List.mem_map] at hmem
  rcases hmem with rfl | rfl | ⟨n, hn, rfl⟩
  · simp at hproper
  · simp at hproper
  · exact ⟨n, hn, rfl⟩

/-- The canonical name of a node looks up nothing but the node. -/
theorem lookup_render_sub {n : Name} {slashes : Bool} (hsub : Sub t t₀) (hreal : t₀.Real p)
    (h : lookup t maxLinks [] (comps (render p)) = .ok (q, .name n, slashes)) : p = q ++ [n] := by
  rcases List.eq_nil_or_concat' p with rfl | ⟨p, k, rfl⟩
  · rw [comps_root] at h
    cases h
  · have hdir : t₀.IsDir p := hreal.isDir_parent (List.cons_ne_nil k [])
    rw [comps_render_append, lookup_empty t.root] at h
    obtain ⟨rfl, hk⟩ := lookup_names_of_sub [] hsub hdir.real h
    cases hk
    rfl

/-- What `remove` unlinks is a leaf. -/
theorem leaf_of_stat {md : Mode} (hsub : Sub m.tree t₀) (hreal : t₀.Real p) (hstat : m.stat (render p) = .ok md)
    (hbit : (md &&& sIfdir != 0) = false) : Leaf t₀ p := by
  obtain ⟨n, hn, rfl⟩ := stat_render_sub hsub hreal hstat
  have hn₀ := hsub _ _ hn
  cases n with
  | dir perm =>
    rw [mode_dir] at hbit
    cases hbit
  | link target =>
    obtain ⟨k, hk, hnot⟩ := hreal
    exact absurd (Option.some.inj (hk.symm.trans hn₀)) (hnot target)
  | other a =>
    rw [mode_other] at hbit
    exact .inl ⟨a, hn₀, hbit⟩

/-- A child that still exists when its turn comes is a step on the way. -/
theorem follows_of_exists {n : Name} (hdir : m.tree.IsDir p) (hn : n ∈ m.tree.entries p) (hsub : Sub m'.tree m.tree)
    (hexists : (m'.stat (m.stored (childPath p n))).toBool = true) :
    ∃ q, Follows m.tree p q ∧ m.stored (childPath p n) = render q := by
  obtain ⟨q, hq⟩ := resolve_of_exists hexists
  obtain ⟨hres, hstored⟩ := resolve_stored_sub (absolute_childPath p n) hsub hq
  rw [resolve_child hdir] at hres
  exact ⟨q, ⟨hdir, n, hn, hres⟩, hstored⟩

end Level

/-- **Under the condition the invariant holds throughout.** -/
theorem remove_kept (host : Host) {t₀ : Tree} {d : List Name} (hd : t₀.IsDir d) (hleaves : LeavesInside t₀ d)
    (depth : Nat) {p : List Name} (hreach : Relation.ReflTransGen (Follows t₀) d p) :
    Triple (fun m => Kept t₀ d m.tree) (remove host depth ⟨render p⟩) (fun _ m => Kept t₀ d m.tree)
      (fun m => Kept t₀ d m.tree) := by
  induction depth generalizing p with
  | zero => exact Triple.throw _ fun _ => id
  | succ depth ih =>
    have hreal := real_of_reach hd hreach
    apply triple_remove (f := ⟨render p⟩) (J := fun m m' => Kept t₀ d m'.tree ∧ Sub m'.tree m.tree) (absolute_render p)
    · exact fun _ => id
    · intro m t md hm hstat hbit ht
      have hleaf := leaf_of_stat hm.sub hreal hstat hbit
      obtain ⟨q, k, slashes, hnil, hlook, -, -, rfl⟩ := unlink_spec (remove_render.1 ht)
      obtain rfl := lookup_render_sub hm.sub hreal hlook
      exact hm.erase (hleaves _ hreach hleaf) hreal hnil
    · exact fun m hm => ⟨⟨hm, Sub.refl m.tree⟩, fun _ => And.left⟩
    · intro m names hm hnames name hname
      obtain ⟨hdir, hproper⟩ := opendir_render_sub hm.sub hreal hnames
      obtain ⟨n, hn, rfl⟩ := hproper name hname
      have habs := absolute_childPath p n
      apply Triple.of_forall
      rintro m' ⟨hm', hsub⟩
      refine Triple.bind_ok (run_copy host habs hsub) (Triple.bind_ok (run_exists? _) (Triple.ite ?_ ?_))
      · intro hexists
        obtain ⟨q, hstep, hstored⟩ := follows_of_exists hdir hn hsub hexists
        change Triple _ (remove host depth ⟨m.stored (childPath p n)⟩) _ _
        rw [hstored]
        have hkept : Triple (· = m') (remove host depth ⟨render q⟩) (fun _ m => Kept t₀ d m.tree)
            (fun m => Kept t₀ d m.tree) :=
          (ih (hreach.tail (hstep.mono hm.sub))).mono (fun _ h => h ▸ hm') (fun _ _ => id) fun _ => id
        have hless : Triple (· = m') (remove host depth ⟨render q⟩) (fun _ m₁ => Sub m₁.tree m.tree)
            (fun m₁ => Sub m₁.tree m.tree) :=
          (remove_sub host m.tree depth (absolute_render q)).mono (fun _ h => h ▸ hsub) (fun _ _ => id) fun _ => id
        exact (hkept.and hless).mono (fun _ => id) (fun _ _ => id) fun _ => And.left
      · intro _
        apply Triple.pure _
        rintro _ rfl
        exact ⟨hm', hsub⟩
    · intro m t hm ht
      obtain ⟨q, k, slashes, hnil, hlook, hdir, rfl⟩ := rmdir_spec (remove_render.1 ht)
      obtain rfl := lookup_render_sub hm.sub hreal hlook
      exact hm.erase (hm.inside_of_empty hleaves hreach hdir hnil) hreal hnil

/-! ## A leaf outside is deleted -/

/-- The entries to take from `p` to get to `x`. -/
def Leads (t : Tree) : List Name → List Name → List Name → Prop
  | p, [], x => p = x
  | p, n :: es, x => t.IsDir p ∧ n ∈ t.entries p ∧ ∃ q, t.resolve maxLinks p [.name n] = .ok q ∧ Leads t q es x

theorem exists_leads {t : Tree} {p x : List Name} (h : Relation.ReflTransGen (Follows t) p x) :
    ∃ es, Leads t p es x := by
  induction h using Relation.ReflTransGen.head_induction_on with
  | refl => exact ⟨[], rfl⟩
  | head hstep _ ih =>
    obtain ⟨es, hes⟩ := ih
    obtain ⟨hdir, n, hn, hres⟩ := hstep
    exact ⟨n :: es, hdir, hn, _, hres, hes⟩

/-- The entry `n` comes first if it is there. -/
def front (n : Option Name) (names : List Str) : List Str :=
  match n with
  | some n => if n.1 ∈ names then n.1 :: names.erase n.1 else names
  | none => names

theorem front_subperm (n : Option Name) (names : List Str) : (front n names).Subperm names := by
  unfold front
  split
  · split_ifs with hn
    · exact (List.perm_cons_erase hn).symm.subperm
    · exact List.Subperm.refl names
  · exact List.Subperm.refl names

/-- A host on which no call fails, and the directories that are listed give `es`, in turn, first. -/
def leadingHost (es : List Name) : Host where
  users := ⟨none, 0, fun _ => .absent 0, fun _ => .absent 0⟩
  readdir k := front es[k]?
  readdir_subperm k := front_subperm es[k]?
  opendir _ := none
  closedir _ := none
  remove _ := none

section Leading

variable {t : Tree} {m : Machine} {p x : List Name} {n : Name}

theorem ne_name_dot (n : Name) : n.1 ≠ [dot] ∧ n.1 ≠ [dot, dot] := ⟨n.2.2.1, n.2.2.2.1⟩

/-- The files of a directory without entries. -/
theorem proper_dots (host : Host) (k : Nat) : proper (host.readdir k [[dot], [dot, dot]]) = [] := by
  unfold proper
  rw [List.filter_eq_nil_iff]
  intro name hname
  have hmem := List.Subperm.subset (host.readdir_subperm k _) hname
  simp only [List.mem_cons, List.not_mem_nil, or_false] at hmem
  rcases hmem with rfl | rfl <;> simp

/-- The entry the host leads to is the first file. -/
theorem proper_front {es pre rest : List Name} (hes : es = pre ++ n :: rest) (hn : n ∈ t.entries p) :
    ∃ names, proper ((leadingHost es).readdir pre.length ([dot] :: [dot, dot] :: (t.entries p).map Subtype.val)) =
      n.1 :: names := by
  have hmem : n.1 ∈ [dot] :: [dot, dot] :: (t.entries p).map Subtype.val :=
    List.mem_cons_of_mem _ (List.mem_cons_of_mem _ (List.mem_map_of_mem hn))
  have hget : es[pre.length]? = some n := by rw [hes, List.getElem?_append_right le_rfl, Nat.sub_self]; rfl
  change ∃ names, proper (front es[pre.length]? _) = _
  rw [hget]
  unfold front proper
  dsimp only
  rw [if_pos hmem, List.filter_cons_of_pos (by simpa using ne_name_dot n)]
  exact ⟨_, rfl⟩

/-- A leaf is deleted by the call of `remove` on it. -/
theorem remove_leaf (es : List Name) (depth : Nat) (hx : x ≠ []) (hleaf : Leaf m.tree x) :
    Triple (· = m) (remove (leadingHost es) (depth + 1) ⟨render x⟩) (fun _ m' => m'.tree.node x = none)
      (fun m' => m'.tree.node x = none) := by
  obtain ⟨p, n, rfl⟩ := (List.eq_nil_or_concat' x).resolve_left hx
  rcases hleaf with ⟨a, ha, hbit⟩ | ⟨hdir, hnil⟩
  · exact (triple_remove_other rfl ha hbit).mono (fun _ => id) (fun _ m' hm' => hm'.gone _ rfl) fun _ => False.elim
  · obtain ⟨v, hitems, hrun⟩ := run_directory_ok (leadingHost es) (f := ⟨render (p ++ [n])⟩) (absolute_render _) rfl
      (opendir_render hdir)
    rw [hnil, List.map_nil, proper_dots, List.map_nil] at hitems
    unfold remove
    refine Triple.bind_ok (isDirectory_dir hdir) (Triple.ite (fun _ => ?_) fun h => absurd rfl h)
    apply Triple.bind_ok hrun
    rw [hitems]
    apply Triple.bind_ok (run_pure _ _)
    exact (triple_rmdir_empty (m := m.ticked) rfl hdir hnil).mono (fun _ => id) (fun _ m' hm' => hm'.gone _ rfl)
      fun _ => False.elim

/-- The host leads `remove` to the leaf. -/
theorem remove_reaches (hx : x ≠ []) (hleaf : Leaf t x) {es : List Name} (rest pre : List Name)
    (hes : es = pre ++ rest) (hleads : Leads t p rest x) (depth : Nat) (hdepth : rest.length < depth) (hm : m.tree = t)
    (hclock : m.clock = pre.length) :
    Triple (· = m) (remove (leadingHost es) depth ⟨render p⟩) (fun _ m' => m'.tree.node x = none)
      (fun m' => m'.tree.node x = none) := by
  induction rest generalizing pre p depth m with
  | nil =>
    obtain ⟨depth, rfl⟩ := Nat.exists_eq_succ_of_ne_zero (Nat.ne_of_gt hdepth)
    rw [show p = x from hleads]
    exact remove_leaf es depth hx (hm ▸ hleaf)
  | cons n rest ih =>
    obtain ⟨depth, rfl⟩ := Nat.exists_eq_succ_of_ne_zero (Nat.ne_of_gt (Nat.zero_lt_of_lt hdepth))
    obtain ⟨hdir, hn, q, hres, hleads⟩ := hleads
    subst hm
    obtain ⟨names, hnames⟩ := proper_front hes hn
    obtain ⟨v, hitems, hrun⟩ := run_directory_ok (leadingHost es) (f := ⟨render p⟩) (absolute_render p) rfl
      (opendir_render hdir)
    rw [hclock, hnames, List.map_cons] at hitems
    have habs := absolute_childPath p n
    have hpath : m.resolve (childPath p n) = .ok q := by rw [resolve_child hdir, hres]
    have hq : m.tree.Real q := resolve_real hdir.real hres
    unfold remove
    refine Triple.bind_ok (isDirectory_dir hdir) (Triple.ite (fun _ => ?_) fun h => absurd rfl h)
    apply Triple.bind_ok hrun
    rw [hitems]
    have hfirst : Triple (· = m.ticked) (do
        let g ← copy (leadingHost es) ⟨m.stored (childPath p n)⟩
        if ← exists? g then remove (leadingHost es) depth g) (fun _ m' => m'.tree.node x = none)
        (fun m' => m'.tree.node x = none) := by
      obtain ⟨k, hk, hnot⟩ := hq
      have hexists : (m.ticked.stat (render q)).toBool = true := by
        rw [stat_render (m := m.ticked) ⟨k, hk, hnot⟩ hk]
        rfl
      refine Triple.bind_ok (run_copy _ habs (Sub.refl _)) (Triple.bind_ok (run_exists? _) ?_)
      rw [stored_of_resolve hpath, hexists]
      refine Triple.ite (fun _ => ?_) fun h => absurd rfl h
      refine ih (pre ++ [n]) ?_ hleads depth ?_ rfl ?_
      · rw [hes, List.append_assoc, List.singleton_append]
      · exact Nat.lt_of_succ_lt_succ hdepth
      · rw [List.length_append, List.length_singleton, ← hclock]
        rfl
    have hrest : Triple (fun m' => m'.tree.node x = none) (List.forM (names.map fun name =>
        (⟨m.stored (render p ++ slash :: name)⟩ : File)) fun g => do
        let f ← copy (leadingHost es) g
        if ← exists? f then remove (leadingHost es) depth f) (fun _ m' => m'.tree.node x = none)
        (fun m' => m'.tree.node x = none) := by
      apply Triple.forM
      intro g hg
      obtain ⟨name, -, rfl⟩ := List.mem_map.1 hg
      exact triple_child (absolute_stored m ((absolute_render p).append _)) fun f hf => remove_gone _ x depth hf
    exact Triple.bind (Triple.bind hfirst fun _ => hrest) fun _ => rmdir_gone _ x _

end Leading

/-! ## When `remove` stays inside -/

/-- The directory as the constructor makes it of its canonical name, and `remove` on it. -/
def removeDir (host : Host) (depth : Nat) (d : List Name) : FileM Unit := do
  let f ← new host (render d)
  remove host depth f

/-- Every node that `remove` on the directory `d` deletes is in the subtree of `d`, whatever the host does, however
deep the stack is, and whether `remove` returns or throws. -/
def StaysInside (t : Tree) (d : List Name) : Prop :=
  ∀ host depth cwd clock p, t.node p ≠ none →
    ((removeDir host depth d).run ⟨t, cwd, clock⟩).state.tree.node p = none → d <+: p

section Stays

variable {t : Tree} {d : List Name}

theorem run_removeDir (hd : t.IsDir d) (host : Host) (depth : Nat) (cwd : List Name) (clock : Nat) :
    (removeDir host depth d).run ⟨t, cwd, clock⟩ = (remove host depth ⟨render d⟩).run ⟨t, cwd, clock⟩ := by
  have hnew := run_new host ⟨t, cwd, clock⟩ (absolute_render d)
  rw [stored_render (m := ⟨t, cwd, clock⟩) hd.real] at hnew
  exact run_bind_ok hnew

/-- The root is a leaf only where there is nothing else. -/
theorem leaf_root (hd : t.IsDir d) (h : Leaf t []) : d = [] := by
  rcases h with ⟨a, ha, -⟩ | ⟨-, hnil⟩
  · obtain ⟨perm, hperm⟩ := t.root
    rw [ha] at hperm
    cases hperm
  · cases d with
    | nil => rfl
    | cons k d =>
      have hk : t.node [k] ≠ none := by
        exact t.node_ne_none_of_prefix (q := k :: d) ⟨d, rfl⟩ hd.real.node_ne_none
      exact absurd ((t.entries_eq_nil_iff []).1 hnil k) hk

theorem staysInside_of_leavesInside (hd : t.IsDir d) (h : LeavesInside t d) : StaysInside t d := by
  intro host depth cwd clock p hp hgone
  by_contra hout
  have hkept := (remove_kept host hd h depth Relation.ReflTransGen.refl).state (s := ⟨t, cwd, clock⟩) (.refl t d)
  rw [run_removeDir hd] at hgone
  rw [hkept.outside p hout] at hgone
  exact hp hgone

theorem leavesInside_of_staysInside (hd : t.IsDir d) (h : StaysInside t d) : LeavesInside t d := by
  intro x hreach hleaf
  by_contra hout
  obtain ⟨es, hes⟩ := exists_leads hreach
  have hne := (real_of_reach hd hreach).node_ne_none
  have hx : x ≠ [] := by
    rintro rfl
    exact hout (leaf_root hd hleaf ▸ List.prefix_rfl)
  have hgone := (remove_reaches hx hleaf es [] rfl hes (es.length + 1) (Nat.lt_succ_self _) rfl rfl).state
    (s := ⟨t, [], 0⟩) rfl
  rw [← run_removeDir hd] at hgone
  exact hout (h _ _ _ _ x hne hgone)

/-- **`remove` deletes nothing outside the directory iff every leaf that entries lead to is inside.** -/
theorem staysInside_iff (t : Tree) (d : List Name) (hd : t.IsDir d) : StaysInside t d ↔ LeavesInside t d :=
  ⟨leavesInside_of_staysInside hd, staysInside_of_leavesInside hd⟩

def nameD : Name := ⟨[100], by decide⟩
def nameL : Name := ⟨[108], by decide⟩
def nameX : Name := ⟨[120], by decide⟩

/-- `/d` is a directory with the link `l` to the file `/x`. -/
def linkedTree : Tree :=
  (((ofRoot 0o755).insert [] nameD (.dir 0o755) (by decide) rfl).insert [] nameX (.other ⟨.regular, 0o644⟩)
    (by decide) rfl).insert [nameD] nameL (.link ⟨true, [.name nameX]⟩) (by decide) rfl

theorem staysInside_iff_linked : StaysInside linkedTree [nameD] ↔ LeavesInside linkedTree [nameD] :=
  staysInside_iff linkedTree [nameD] (by decide)

/-- `remove` on `/d` deletes `/x`. -/
theorem remove_escapes : ¬ ∀ (t : Tree) (d : List Name), t.IsDir d → StaysInside t d := by
  intro h
  have hinside := leavesInside_of_staysInside (by decide) (h linkedTree [nameD] (by decide))
  have hfollows : Follows linkedTree [nameD] [nameX] := ⟨by decide, nameL, by decide, rfl⟩
  have hleaf : Leaf linkedTree [nameX] := .inl ⟨⟨.regular, 0o644⟩, rfl, by decide⟩
  exact absurd (hinside [nameX] (.single hfollows) hleaf) (by decide)

end Stays

end OksSystem
