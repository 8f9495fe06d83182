import OksSystem.File.Canonical
import OksSystem.File.Escape
import OksSystem.Lib.Subtree

/-!
# What `remove` deletes of a tree without links

* `Willing` : a host on which calls fail only for what is in the tree; `RemovesTree` : what `remove` is for;
* `Plain`, `dirBit_iff` : the subtrees without a node whose type has the bit of a directory and is none;
* `Removable`, `triple_childs`, `triple_remove_tree` : one level of the recursion deletes the subtrees of the entries,
  one after the other, and then the directory;
* `remove_keeps_odd` : a socket or a block device is never deleted;
* `removesTree_iff` : **`remove` deletes the subtree iff it holds no such node and is not the whole tree**.
-/

namespace OksSystem
open ByteBuffer EStateM FileTree File

/-- The calls fail only for what is in the tree, and `readdir` gives every entry once. -/
structure Willing (host : Host) : Prop where
  readdir : ∀ k names, (host.readdir k names).Perm names
  opendir : ∀ k, host.opendir k = none
  closedir : ∀ k, host.closedir k = none
  remove : ∀ k, host.remove k = none

/-- With enough room on the stack `remove` on the file of the node `p` returns, and has deleted the subtree of `p`
and nothing else. -/
def RemovesTree (host : Host) (t : Tree) (p : List Name) : Prop :=
  ∃ k, ∀ depth, k ≤ depth → ∀ cwd clock, ∃ m', (remove host depth ⟨render p⟩).run ⟨t, cwd, clock⟩ = .ok () m' ∧
    Without t (subtree p) m'.tree

/-- No node from `p` on is a socket or a block device. -/
def Plain (t : Tree) (p : List Name) : Prop :=
  ∀ q a, p <+: q → t.node q = some (.other a) → a.type ≠ .socket ∧ a.type ≠ .blockDevice

/-- The types that `is_directory` takes for directories. -/
theorem dirBit_iff (type : FileType) : type.dirBit = true ↔ type = .socket ∨ type = .blockDevice := by
  cases type <;> decide

section Level

variable {host : Host} {t : Tree} {m m' : Machine} {p q : List Name} {n : Name} {depth : Nat} {ns : List Name}

theorem Plain.dirBit_eq_false {a : Inode} (h : Plain t p) (hp : t.node p = some (.other a)) : a.type.dirBit = false := by
  obtain ⟨hsocket, hblock⟩ := h p a List.prefix_rfl hp
  rw [← Bool.not_eq_true, dirBit_iff]
  exact fun hodd => hodd.elim hsocket hblock

theorem stored_render_sub (hsub : Sub m.tree t) (hreal : t.Real p) : m.stored (render p) = render p := by
  cases hres : m.resolve (render p) with
  | error e => exact stored_of_error hres
  | ok q =>
    obtain rfl := resolve_render_sub hsub hreal hres
    exact stored_of_resolve hres

theorem run_copy_render (host : Host) (hsub : Sub m.tree t) (hreal : t.Real p) :
    (copy host ⟨render p⟩).run m = .ok ⟨render p⟩ m := by
  unfold copy
  rw [run_new host m (absolute_render p), stored_render_sub hsub hreal]

theorem exists_iff (hsub : Sub m.tree t) (hreal : t.Real p) :
    (m.stat (render p)).toBool = true ↔ m.tree.node p ≠ none := by
  constructor
  · intro h
    obtain ⟨q, hq⟩ := resolve_of_exists h
    obtain rfl := resolve_render_sub hsub hreal hq
    exact (real_of_resolve (absolute_render q) hq).node_ne_none
  · intro h
    obtain ⟨k, hk⟩ := Option.ne_none_iff_exists'.1 h
    have hreal' : m.tree.Real p := by
      obtain ⟨k₀, hk₀, hnot⟩ := hreal
      rw [hsub p k hk] at hk₀
      cases hk₀
      exact ⟨k, hk, hnot⟩
    rw [stat_render hreal' hk]
    rfl

/-- The name that the constructor stores for an entry. -/
theorem stored_childPath (hlinks : m.tree.LinkFreeTo (p ++ [n])) (hdir : m.tree.IsDir p) (hn : n ∈ m.tree.entries p) :
    m.stored (childPath p n) = render (p ++ [n]) := by
  have hreal := hlinks.real ((m.tree.mem_entries p n).1 hn)
  apply stored_of_resolve
  rw [resolve_child hdir, resolve_entry hreal]

/-- One turn of the loop over the files: the file is removed if it is still there. -/
theorem triple_turn {depth : Nat} {Q : Unit → Machine → Prop} {E : Machine → Prop} (hsub : Sub m.tree t) (hreal : t.Real p)
    (hthere : m.tree.node p ≠ none → Triple (· = m) (remove host depth ⟨render p⟩) Q E)
    (hgone : m.tree.node p = none → Q () m) :
    Triple (· = m) (do
      let f ← copy host ⟨render p⟩
      if ← exists? f then remove host depth f) Q E := by
  refine Triple.bind_ok (run_copy_render host hsub hreal) (Triple.bind_ok (run_exists? _) (Triple.ite ?_ ?_))
  · exact fun hexists => hthere ((exists_iff hsub hreal).1 hexists)
  · intro hexists
    apply Triple.pure _
    rintro _ rfl
    apply hgone
    by_contra hne
    exact hexists ((exists_iff hsub hreal).2 hne)

/-- The names `directory` goes through are the entries, each once. -/
theorem exists_names (hhost : Willing host) (m : Machine) (p : List Name) (k : Nat) :
    ∃ ns : List Name, ns.Perm (m.tree.entries p) ∧
      proper (host.readdir k ([dot] :: [dot, dot] :: (m.tree.entries p).map Subtype.val)) = ns.map Subtype.val := by
  have hproper : proper ([dot] :: [dot, dot] :: (m.tree.entries p).map Subtype.val) =
      (m.tree.entries p).map Subtype.val := by
    unfold proper
    rw [List.filter_cons_of_neg (by simp), List.filter_cons_of_neg (by simp), List.filter_eq_self]
    intro s hs
    obtain ⟨n, -, rfl⟩ := List.mem_map.1 hs
    simpa using ne_name_dot n
  have hperm : (proper (host.readdir k ([dot] :: [dot, dot] :: (m.tree.entries p).map Subtype.val))).Perm
      (proper ([dot] :: [dot, dot] :: (m.tree.entries p).map Subtype.val)) := (hhost.readdir k _).filter _
  rw [hproper] at hperm
  obtain ⟨ns, hns⟩ : ∃ ns : List Name, ns.map Subtype.val =
      proper (host.readdir k ([dot] :: [dot, dot] :: (m.tree.entries p).map Subtype.val)) := by
    apply CanLift.prf
    intro s hs
    obtain ⟨n, -, rfl⟩ := List.mem_map.1 (hperm.mem_iff.1 hs)
    exact n.2
  rw [← hns] at hperm
  exact ⟨ns, (List.map_perm_map_iff Subtype.val_injective).1 hperm, hns.symm⟩

/-- The files of a directory are those of its entries. -/
theorem exists_files (hhost : Willing host) (hlinks : m.tree.LinkFree) (hdir : m.tree.IsDir p) (k : Nat) :
    ∃ ns : List Name, (∀ n, n ∈ ns ↔ n ∈ m.tree.entries p) ∧
      (proper (host.readdir k ([dot] :: [dot, dot] :: (m.tree.entries p).map Subtype.val))).map
          (fun name => (⟨m.stored (render p ++ slash :: name)⟩ : File)) =
        ns.map fun n => ⟨render (p ++ [n])⟩ := by
  obtain ⟨ns, hperm, hns⟩ := exists_names hhost m p k
  refine ⟨ns, fun n => hperm.mem_iff, ?_⟩
  rw [hns, List.map_map]
  apply List.map_congr_left
  intro n hn
  exact congrArg File.mk (stored_childPath (hlinks.linkFreeTo _) hdir (hperm.mem_iff.1 hn))

end Level

/-! ## The subtree is deleted -/

/-- What makes `remove` delete the subtree of `p` with room for so many frames. -/
structure Removable (t : Tree) (p : List Name) (depth : Nat) : Prop where
  links : t.LinkFree
  plain : Plain t p
  shallow : ∀ q, t.node (p ++ q) ≠ none → q.length < depth

namespace Removable

variable {t t' : Tree} {p : List Name} {n : Name} {depth : Nat}

theorem sub (h : Removable t p depth) (hsub : Sub t' t) : Removable t' p depth where
  links := h.links.sub hsub
  plain q a hpq ha := h.plain q a hpq (hsub _ _ ha)
  shallow q hq := h.shallow q fun hnone => hq (hsub.none hnone)

theorem child (h : Removable t p (depth + 1)) (n : Name) : Removable t (p ++ [n]) depth where
  links := h.links
  plain q a hpq ha := h.plain q a ((List.prefix_append p [n]).trans hpq) ha
  shallow q hq := by
    rw [List.append_assoc, List.singleton_append] at hq
    exact Nat.lt_of_succ_lt_succ (h.shallow (n :: q) hq)

end Removable

section Deleted

variable {host : Host} {t : Tree} {m : Machine} {p : List Name} {depth : Nat}

/-- The loop over the files deletes the subtrees of the entries in turn, when the calls for the entries do. -/
theorem triple_childs {ns : List Name} (hreal : ∀ n ∈ ns, t.Real (p ++ [n]))
    (hrec : ∀ n ∈ ns, ∀ m' : Machine, Sub m'.tree t → m'.tree.node (p ++ [n]) ≠ none →
      Triple (· = m') (remove host depth ⟨render (p ++ [n])⟩)
        (fun _ m₁ => Without m'.tree (subtree (p ++ [n])) m₁.tree) fun _ => False) (done : List Name) :
    Triple (fun m' => Without t (under p done) m'.tree)
      ((ns.map fun n => (⟨render (p ++ [n])⟩ : File)).forM fun g => do
        let f ← copy host g
        if ← exists? f then remove host depth f)
      (fun _ m' => Without t (under p (done ++ ns)) m'.tree) fun _ => False := by
  induction ns generalizing done with
  | nil =>
    rw [List.append_nil]
    exact Triple.pure _ fun _ => id
  | cons n ns ih =>
    rw [List.append_cons]
    refine Triple.bind (Q := fun _ m' => Without t (under p (done ++ [n])) m'.tree) ?_ fun _ =>
      ih (fun k hk => hreal k (List.mem_cons_of_mem n hk)) (fun k hk => hrec k (List.mem_cons_of_mem n hk)) (done ++ [n])
    rw [under_append, under_singleton]
    apply Triple.of_forall
    intro m' hm'
    apply triple_turn hm'.sub (hreal n List.mem_cons_self)
    · intro hnode
      refine (hrec n List.mem_cons_self m' hm'.sub hnode).mono (fun _ => id) ?_ fun _ => id
      exact fun _ m₁ hm₁ => hm'.trans hm₁
    · exact fun hnode => hm'.trans (without_missing hnode)

/-- When the subtrees of all entries are gone, the directory is left, and empty. -/
theorem emptied {m' : Machine} {ns : List Name} (hns : ∀ n, n ∈ ns ↔ n ∈ m.tree.entries p) (hdir : m.tree.IsDir p)
    (h : Without m.tree (under p ns) m'.tree) : m'.tree.IsDir p ∧ m'.tree.entries p = [] := by
  obtain ⟨perm, hperm⟩ := hdir
  refine ⟨⟨perm, (h.kept _ (self_notMem_under p ns)).trans hperm⟩, ?_⟩
  rw [m'.tree.entries_eq_nil_iff]
  intro n
  by_contra hn
  have hmem : n ∈ ns := (hns n).2 ((m.tree.mem_entries p n).2 fun hnone => hn (h.sub.none hnone))
  exact hn (h.gone _ ⟨n, hmem, List.prefix_rfl⟩)

/-- What is no directory is unlinked. -/
theorem triple_remove_file {d : List Name} {k : Name} (hhost : Willing host)
    (hnode : m.tree.node (d ++ [k]) ≠ none) (hdir : ¬ m.tree.IsDir (d ++ [k]))
    (h : Removable m.tree (d ++ [k]) (depth + 1)) :
    Triple (· = m) (remove host (depth + 1) ⟨render (d ++ [k])⟩)
      (fun _ m' => Without m.tree (subtree (d ++ [k])) m'.tree) fun _ => False := by
  obtain ⟨a, ha⟩ : ∃ a, m.tree.node (d ++ [k]) = some (.other a) := by
    obtain ⟨x, hx, hnot⟩ := h.links.real hnode
    cases x with
    | dir perm => exact absurd ⟨perm, hx⟩ hdir
    | link target => exact absurd rfl (hnot target)
    | other a => exact ⟨a, hx⟩
  refine (triple_remove_other (hhost.remove _) ha (h.plain.dirBit_eq_false ha)).mono (fun _ => id)
    (fun _ m₁ hm₁ => ?_) fun _ => id
  have hnil := entries_eq_nil_of_not_isDir hdir
  exact hm₁.congr fun q hq => (mem_subtree_of_entries hnil hq).symm

/-- A directory is removed once the subtrees of its entries are. -/
theorem triple_remove_dir {d : List Name} {k : Name} (hhost : Willing host) (hlinks : m.tree.LinkFree)
    (hdir : m.tree.IsDir (d ++ [k]))
    (hrec : ∀ n, ∀ m' : Machine, Sub m'.tree m.tree → m'.tree.node (d ++ [k] ++ [n]) ≠ none →
      Triple (· = m') (remove host depth ⟨render (d ++ [k] ++ [n])⟩)
        (fun _ m₁ => Without m'.tree (subtree (d ++ [k] ++ [n])) m₁.tree) fun _ => False) :
    Triple (· = m) (remove host (depth + 1) ⟨render (d ++ [k])⟩)
      (fun _ m' => Without m.tree (subtree (d ++ [k])) m'.tree) fun _ => False := by
  unfold remove
  obtain ⟨v, hitems, hrun⟩ := run_directory_ok host (f := ⟨render (d ++ [k])⟩) (absolute_render _)
    (hhost.opendir _) (opendir_render hdir)
  obtain ⟨ns, hns, hfiles⟩ := exists_files hhost hlinks hdir m.clock
  rw [hfiles] at hitems
  rw [hhost.closedir] at hrun
  refine Triple.bind_ok (isDirectory_dir hdir) (Triple.ite (fun _ => ?_) fun hb => absurd rfl hb)
  apply Triple.bind_ok hrun
  rw [hitems]
  have hreal : ∀ n ∈ ns, m.tree.Real (d ++ [k] ++ [n]) := fun n hn =>
    hlinks.real ((m.tree.mem_entries _ n).1 ((hns n).1 hn))
  have hloop := triple_childs hreal (fun n _ => hrec n) []
  have hstart : Without m.tree (under (d ++ [k]) []) m.ticked.tree := by
    rw [under_nil]
    exact Without.refl m.tree
  refine Triple.bind (hloop.mono (by rintro _ rfl; exact hstart) (fun _ _ => id) fun _ => id) fun _ => ?_
  apply Triple.of_forall
  intro m₁ hm₁
  rw [List.nil_append] at hm₁
  obtain ⟨hdir₁, hnil₁⟩ := emptied hns hdir hm₁
  refine (triple_rmdir_empty (hhost.remove _) hdir₁ hnil₁).mono (fun _ => id) (fun _ m₂ hm₂ => ?_) fun _ => id
  refine (hm₁.trans hm₂).congr fun q hq => ?_
  rw [mem_subtree_iff hns hq]
  rfl

/-- **`remove` deletes the subtree and nothing else.** -/
theorem triple_remove_tree (hhost : Willing host) (hp : p ≠ []) (hnode : m.tree.node p ≠ none)
    (h : Removable m.tree p depth) :
    Triple (· = m) (remove host depth ⟨render p⟩) (fun _ m' => Without m.tree (subtree p) m'.tree) fun _ => False := by
  induction depth generalizing m p with
  | zero =>
    have hlt := h.shallow [] (by rwa [List.append_nil])
    exact absurd hlt (Nat.not_lt_zero _)
  | succ depth ih =>
    obtain ⟨d, k, rfl⟩ : ∃ d k, p = d ++ [k] := (List.eq_nil_or_concat' p).resolve_left hp
    by_cases hdir : m.tree.IsDir (d ++ [k])
    · apply triple_remove_dir hhost h.links hdir
      intro n m' hsub hn
      exact ih (List.append_ne_nil_of_right_ne_nil _ (List.cons_ne_nil n [])) hn ((h.child n).sub hsub)
    · exact triple_remove_file hhost hnode hdir h

end Deleted

/-! ## What is in the way -/

/-- A node that is no directory but has the bit of one stays. -/
theorem remove_keeps_odd (host : Host) {t : Tree} (hlinks : t.LinkFree) {q : List Name} {a : Inode}
    (hbit : a.type.dirBit = true) (depth : Nat) {p : List Name} (hreal : t.Real p) :
    Triple (fun m => Sub m.tree t ∧ m.tree.node q = some (.other a)) (remove host depth ⟨render p⟩)
      (fun _ m => Sub m.tree t ∧ m.tree.node q = some (.other a))
      (fun m => Sub m.tree t ∧ m.tree.node q = some (.other a)) := by
  induction depth generalizing p with
  | zero => exact Triple.throw _ fun _ => id
  | succ depth ih =>
    apply triple_remove (f := ⟨render p⟩)
      (J := fun _ m => Sub m.tree t ∧ m.tree.node q = some (.other a)) (absolute_render p)
    · exact fun _ => id
    · rintro m t' md ⟨hsub, hq⟩ hstat hmode ht'
      obtain ⟨dir, k, slashes, hnil, hlook, -, -, rfl⟩ := unlink_spec (remove_render.1 ht')
      obtain rfl := lookup_render_sub hsub hreal hlook
      refine ⟨(erase_sub hnil).trans hsub, ?_⟩
      -- `is_directory` is true of `q`, which therefore is not the file
      obtain ⟨x, hx, rfl⟩ := stat_render_sub hsub hreal hstat
      rw [node_erase_of_ne hnil, hq]
      rintro rfl
      rw [hq] at hx
      cases hx
      rw [mode_other, hbit] at hmode
      cases hmode
    · exact fun m hm => ⟨hm, fun _ => id⟩
    · rintro m names ⟨hsub, hq⟩ hnames name hname
      obtain ⟨hdir, hproper⟩ := opendir_render_sub hsub hreal hnames
      obtain ⟨n, hn, rfl⟩ := hproper name hname
      have hreal' : t.Real (p ++ [n]) := hlinks.real ((t.mem_entries p n).1 (hsub.entries hn))
      change Triple _ (copy host ⟨m.stored (childPath p n)⟩ >>= _) _ _
      rw [stored_childPath ((hlinks.sub hsub).linkFreeTo _) hdir hn]
      apply Triple.of_forall
      rintro m' hm'
      apply triple_turn hm'.1 hreal'
      · exact fun _ => (ih hreal').mono (fun _ heq => heq ▸ hm') (fun _ _ => id) fun _ => id
      · exact fun _ => hm'
    · rintro m t' ⟨hsub, hq⟩ ht'
      obtain ⟨dir, k, slashes, hnil, hlook, hdir, rfl⟩ := rmdir_spec (remove_render.1 ht')
      refine ⟨(erase_sub hnil).trans hsub, ?_⟩
      rw [node_erase_of_ne hnil, hq]
      rintro rfl
      obtain ⟨perm, hperm⟩ := hdir
      rw [hq] at hperm
      cases hperm

/-! ## When `remove` deletes the tree -/

section Tree

variable {host : Host} {t : Tree} {p : List Name}

theorem removesTree_of_plain (hhost : Willing host) (hlinks : t.LinkFree) (hfin : t.Finite) (hnode : t.node p ≠ none)
    (hp : p ≠ []) (hplain : Plain t p) : RemovesTree host t p := by
  obtain ⟨k, hk⟩ := exists_length_lt hfin
  refine ⟨k, fun depth hdepth cwd clock => ?_⟩
  have hready : Removable t p depth := by
    refine ⟨hlinks, hplain, fun q hq => ?_⟩
    have hlen := hk (p ++ q) hq
    rw [List.length_append] at hlen
    omega
  have hrun := triple_remove_tree (m := ⟨t, cwd, clock⟩) hhost hp hnode hready ⟨t, cwd, clock⟩ rfl
  revert hrun
  cases (remove host depth ⟨render p⟩).run ⟨t, cwd, clock⟩ with
  | ok a m' => exact fun hcut => ⟨m', rfl, hcut⟩
  | error e m' => exact False.elim

theorem plain_of_removesTree (hlinks : t.LinkFree) (hnode : t.node p ≠ none) (h : RemovesTree host t p) :
    p ≠ [] ∧ Plain t p := by
  obtain ⟨k, hk⟩ := h
  obtain ⟨m', hrun, hcut⟩ := hk k le_rfl [] 0
  constructor
  · rintro rfl
    obtain ⟨perm, hperm⟩ := m'.tree.root
    rw [hcut.gone [] List.prefix_rfl] at hperm
    cases hperm
  · intro q a hpq ha
    rw [← not_or, ← dirBit_iff]
    intro hbit
    have hkeep := (remove_keeps_odd host hlinks hbit k (hlinks.real hnode)).state
      (s := ⟨t, [], 0⟩) ⟨Sub.refl t, ha⟩
    rw [hrun] at hkeep
    have hq : m'.tree.node q = some (.other a) := hkeep.2
    rw [hcut.gone q hpq] at hq
    cases hq

/-- **`remove` deletes the subtree of a node and nothing else iff the node is not the root, which no call removes, and
its subtree has no socket and no block device.** -/
theorem removesTree_iff (hhost : Willing host) (hlinks : t.LinkFree) (hfin : t.Finite) (hnode : t.node p ≠ none) :
    RemovesTree host t p ↔ p ≠ [] ∧ Plain t p :=
  ⟨plain_of_removesTree hlinks hnode, fun ⟨hp, hplain⟩ => removesTree_of_plain hhost hlinks hfin hnode hp hplain⟩

end Tree

theorem willing_quiet : Willing quiet := ⟨fun _ => List.Perm.refl, fun _ => rfl, fun _ => rfl, fun _ => rfl⟩

def nameS : Name := ⟨[115], by decide⟩

/-- The directory `/d` with the file `x`, and the socket `/s`. -/
def socketTree : Tree :=
  (((ofRoot 0o700).insert [] nameD (.dir 0o755) (by decide) (by decide)).insert [nameD] nameX
    (.other ⟨.regular, 0o644⟩) (by decide) (by decide)).insert [] nameS (.other ⟨.socket, 0o777⟩) (by decide) (by decide)

theorem linkFree_socketTree : socketTree.LinkFree :=
  (((linkFree_ofRoot 0o700).insert _ _ (by simp)).insert _ _ (by simp)).insert _ _ (by simp)

theorem finite_socketTree : socketTree.Finite := (((finite_ofRoot 0o700).insert _ _).insert _ _).insert _ _

theorem removesTree_iff_directory : RemovesTree quiet socketTree [nameD] := by
  refine (removesTree_iff willing_quiet linkFree_socketTree finite_socketTree (by decide)).2 ⟨by simp, ?_⟩
  intro q a hpq ha
  unfold socketTree at ha
  have hsocket : q ≠ [] ++ [nameS] := by
    rintro rfl
    exact absurd hpq (by decide)
  rw [node_insert_of_ne _ _ hsocket] at ha
  by_cases hfile : q = [nameD] ++ [nameX]
  · rw [hfile, node_insert_self] at ha
    cases ha
    decide
  · rw [node_insert_of_ne _ _ hfile] at ha
    by_cases hdir : q = [] ++ [nameD]
    · rw [hdir, node_insert_self] at ha
      cases ha
    · rw [node_insert_of_ne _ _ hdir] at ha
      change (if q = [] then _ else none) = some (Node.other a) at ha
      split_ifs at ha
      cases ha

/-- `remove` on `/s` takes the socket for a directory. -/
theorem remove_keeps_socket : ¬ ∀ (host : Host) (t : Tree) (p : List Name), Willing host → t.LinkFree → t.Finite →
    t.node p ≠ none → p ≠ [] → RemovesTree host t p := by
  intro h
  have hremoves := h quiet socketTree [nameS] willing_quiet linkFree_socketTree finite_socketTree (by decide) (by simp)
  obtain ⟨-, hplain⟩ := plain_of_removesTree linkFree_socketTree (by decide) hremoves
  exact (hplain [nameS] ⟨.socket, 0o777⟩ List.prefix_rfl rfl).1 rfl

end OksSystem
