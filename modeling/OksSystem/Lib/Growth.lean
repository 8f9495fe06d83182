import Mathlib.Data.List.TakeWhile
import OksSystem.Lib.Lexical

/-!
# Trees that gain directories

* `modify` : a node with other data; `mkdir` : a new directory;
* `Grown` : everything stays what it was, and what is new is a directory; `grown_insert`, `grown_modify`;
* `Grown.through`, `Grown.resolve` : in a grown tree a path leads where it led;
* `mkdir_spec` : what `mkdir` does when it succeeds, `mkdir_resolve` : where the path leads afterwards;
* `mknod` : a new node that is no directory; `mknod_spec`, `resolve_insert`, `mknod_of_blocks` : the same for it.
-/

universe u v w

variable {ν : Type u} {δ : Type v} {α : Type w}

/-- The node with other data. -/
def Node.map (fd : δ → δ) (fa : α → α) : Node ν δ α → Node ν δ α
  | .dir d => .dir (fd d)
  | .link target => .link target
  | .other a => .other (fa a)

namespace FileTree

variable {t t' t'' : FileTree ν δ α} {links : Nat} {cur start dir p q : List ν} {n : ν} {cs : List (Comp ν)}

/-! ## Growth -/

/-- Directories stay directories, what is no directory stays none, and what is new is a directory. -/
structure Grown (t t' : FileTree ν δ α) : Prop where
  isDir : ∀ p, t.IsDir p → t'.IsDir p
  blocks : ∀ p, t.Blocks p → t'.Blocks p
  new : ∀ p, t.node p = none → t'.node p ≠ none → t'.IsDir p
  linkFree : t.LinkFree → t'.LinkFree

theorem Grown.refl (t : FileTree ν δ α) : Grown t t where
  isDir _ h := h
  blocks _ h := h
  new _ h h' := absurd h h'
  linkFree h := h

theorem Grown.trans (h : Grown t t') (h' : Grown t' t'') : Grown t t'' where
  isDir p hp := h'.isDir p (h.isDir p hp)
  blocks p hp := h'.blocks p (h.blocks p hp)
  new p hnone hp := by
    by_cases hp' : t'.node p = none
    · exact h'.new p hp' hp
    · exact h'.isDir p (h.new p hnone hp')
  linkFree hfree := h'.linkFree (h.linkFree hfree)

theorem Grown.node_ne_none (h : Grown t t') (hp : t.node p ≠ none) : t'.node p ≠ none := by
  by_cases hdir : t.IsDir p
  · exact (h.isDir p hdir).real.node_ne_none
  · exact (h.blocks p ⟨hp, hdir⟩).1

theorem Grown.blocks_iff (h : Grown t t') (p : List ν) : t'.Blocks p ↔ t.Blocks p := by
  refine ⟨fun hb => ?_, h.blocks p⟩
  have hp : t.node p ≠ none := fun hnone => hb.2 (h.new p hnone hb.1)
  exact ⟨hp, fun hdir => hb.2 (h.isDir p hdir)⟩

/-- Growth does not change where a path leads once the missing directories are made. -/
theorem Grown.through (h : Grown t t') : t'.through cur cs = t.through cur cs := by
  induction cs generalizing cur with
  | nil => rfl
  | cons c cs ih =>
    rw [FileTree.through, FileTree.through, ih]
    simp only [h.blocks_iff]

theorem Grown.resolve (h : Grown t t') (hfree : t.LinkFree) (hr : t.resolve links cur cs = .ok q) :
    t'.resolve links cur cs = .ok q := by
  induction cs generalizing cur with
  | nil =>
    rw [resolve_nil] at hr ⊢
    exact hr
  | cons c cs ih =>
    rw [resolve_cons hfree] at hr
    rw [resolve_cons (h.linkFree hfree)]
    split_ifs at hr with hdir hnode
    rw [if_pos (h.isDir _ hdir), if_neg (h.node_ne_none hnode)]
    exact ih hr

/-! ## The last component of a path -/

/-- What follows the last element that is not in `p`. -/
theorem eq_of_dropWhile_reverse {β : Type*} {p : β → Bool} {c : β} {cs before : List β}
    (h : cs.reverse.dropWhile p = c :: before) :
    ∃ es, cs = before.reverse ++ c :: es ∧ ∀ e ∈ es, p e = true := by
  refine ⟨(cs.reverse.takeWhile p).reverse, ?_, fun e he => ?_⟩
  · have hrev := List.takeWhile_append_dropWhile (p := p) (l := cs.reverse)
    rw [h] at hrev
    simpa using (congrArg List.reverse hrev).symm
  · exact List.mem_takeWhile_imp (List.mem_reverse.1 he)

/-- Slashes at the end lead nowhere else. -/
theorem resolve_slashes (h : t.IsDir cur) {es : List (Comp ν)} (hes : ∀ e ∈ es, e = .empty) :
    t.resolve links cur es = .ok cur := by
  induction es with
  | nil => exact resolve_nil
  | cons e es ih =>
    rw [hes e List.mem_cons_self, resolve_empty h]
    exact ih fun e he => hes e (List.mem_cons_of_mem _ he)

/-- The path that `lookup` takes apart. -/
theorem lookup_name {slashes : Bool} (h : lookup t links start cs = .ok (dir, .name n, slashes)) :
    ∃ before es, cs = before ++ .name n :: es ∧ (∀ e ∈ es, e = .empty) ∧ t.resolve links start before = .ok dir := by
  unfold lookup at h
  split at h
  · simp at h
  · rename_i c before hdrop
    cases hres : t.resolve links start before.reverse with
    | error e =>
      rw [hres] at h
      exact absurd h (by simp [bind, Except.bind])
    | ok r =>
      rw [hres] at h
      change (if t.IsDir r then _ else _) = _ at h
      split_ifs at h
      simp only [Except.ok.injEq, Prod.mk.injEq] at h
      obtain ⟨rfl, rfl, -⟩ := h
      obtain ⟨es, hcs, hes⟩ := eq_of_dropWhile_reverse hdrop
      refine ⟨before.reverse, es, hcs, fun e he => ?_, hres⟩
      have := hes e he
      cases e <;> simp at this ⊢

/-- What `lookup` finds without a slash at the end. -/
theorem lookup_plain_name (h : lookup t links start cs = .ok (dir, .name n, false)) :
    ∃ before, cs = before ++ [.name n] ∧ t.resolve links start before = .ok dir := by
  obtain ⟨before, es, rfl, hes, hres⟩ := lookup_name h
  refine ⟨before, ?_, hres⟩
  rcases List.eq_nil_or_concat' es with rfl | ⟨es', e, rfl⟩
  · rfl
  · -- a slash at the end is told
    rw [hes e (by simp), ← List.cons_append, ← List.append_assoc] at h
    unfold lookup at h
    split at h
    · simp at h
    · cases hr : t.resolve links start _ with
      | error e =>
        rw [hr] at h
        exact absurd h (by simp [bind, Except.bind])
      | ok r =>
        rw [hr] at h
        change (if t.IsDir r then _ else _) = _ at h
        split_ifs at h
        rw [List.getLast?_concat] at h
        simp at h

variable [DecidableEq ν]

/-! ## Other data in a node -/

theorem isDir_update_map {fd : δ → δ} {fa : α → α} :
    (∃ d, Function.update t.node p ((t.node p).map (Node.map fd fa)) q = some (.dir d)) ↔ t.IsDir q := by
  by_cases hq : q = p
  · rw [hq, Function.update_self]
    unfold IsDir
    cases hn : t.node p with
    | none => simp
    | some m => cases m <;> simp [Node.map]
  · rw [Function.update_of_ne hq]
    rfl

theorem update_map_ne_none {fd : δ → δ} {fa : α → α} :
    Function.update t.node p ((t.node p).map (Node.map fd fa)) q ≠ none ↔ t.node q ≠ none := by
  by_cases hq : q = p
  · rw [hq, Function.update_self]
    simp
  · rw [Function.update_of_ne hq]

/-- The tree with the data of the node at `p` changed. -/
def modify (t : FileTree ν δ α) (p : List ν) (fd : δ → δ) (fa : α → α) : FileTree ν δ α where
  node := Function.update t.node p ((t.node p).map (Node.map fd fa))
  entries := t.entries
  nodup := t.nodup
  mem_entries q k := (t.mem_entries q k).trans update_map_ne_none.symm
  root := isDir_update_map.2 t.root
  parent q k hk := isDir_update_map.2 (t.parent q k (update_map_ne_none.1 hk))

variable {fd : δ → δ} {fa : α → α}

theorem isDir_modify : (t.modify p fd fa).IsDir q ↔ t.IsDir q := isDir_update_map

theorem node_modify_ne_none : (t.modify p fd fa).node q ≠ none ↔ t.node q ≠ none := update_map_ne_none

theorem node_modify_of_ne (h : q ≠ p) : (t.modify p fd fa).node q = t.node q := Function.update_of_ne h ..

theorem node_modify_self : (t.modify p fd fa).node p = (t.node p).map (Node.map fd fa) := Function.update_self ..

theorem link_of_modify {target : Target ν} (h : (t.modify p fd fa).node q = some (.link target)) :
    t.node q = some (.link target) := by
  by_cases hq : q = p
  · subst hq
    rw [node_modify_self] at h
    cases hn : t.node q with
    | none => simp [hn] at h
    | some m =>
      cases m with
      | dir d => simp [hn, Node.map] at h
      | other a => simp [hn, Node.map] at h
      | link target' => simpa [hn, Node.map] using h
  · rwa [node_modify_of_ne hq] at h

theorem linkFree_modify (h : t.LinkFree) : (t.modify p fd fa).LinkFree := fun q target hq => h q target (link_of_modify hq)

theorem grown_modify (t : FileTree ν δ α) (p : List ν) (fd : δ → δ) (fa : α → α) : Grown t (t.modify p fd fa) where
  isDir _ h := isDir_modify.2 h
  blocks _ h := ⟨node_modify_ne_none.2 h.1, fun hdir => h.2 (isDir_modify.1 hdir)⟩
  new _ h h' := absurd h (node_modify_ne_none.1 h')
  linkFree := linkFree_modify

section insert

variable {d : δ} (hdir : t.IsDir dir) (hnew : t.node (dir ++ [n]) = none)

theorem node_insert_of_ne_none (h : t.node q ≠ none) : (t.insert dir n (.dir d) hdir hnew).node q = t.node q := by
  apply node_insert_of_ne
  rintro rfl
  exact h hnew

theorem grown_insert : Grown t (t.insert dir n (.dir d) hdir hnew) where
  isDir p h := by
    obtain ⟨e, he⟩ := h
    exact ⟨e, by rw [node_insert_of_ne_none hdir hnew (he ▸ Option.some_ne_none _), he]⟩
  blocks p h := by
    have hnode := node_insert_of_ne_none (d := d) hdir hnew h.1
    unfold Blocks IsDir at h ⊢
    rwa [hnode]
  new p h h' := by
    by_cases hp : p = dir ++ [n]
    · rw [hp]
      exact ⟨d, node_insert_self hdir hnew⟩
    · rw [node_insert_of_ne hdir hnew hp] at h'
      exact absurd h h'
  linkFree h := h.insert hdir hnew (by simp)

end insert

/-! ## New directories -/

/-- `mkdir` : the path names something new in a directory that is there. -/
def mkdir (d : δ) (t : FileTree ν δ α) (links : Nat) (start : List ν) (cs : List (Comp ν)) :
    Except Failure (FileTree ν δ α) :=
  match lookup t links start cs with
  | .error e => .error e
  | .ok (dir, .name n, _) =>
    if h : t.IsDir dir ∧ t.node (dir ++ [n]) = none then .ok (t.insert dir n (.dir d) h.1 h.2) else .error .exists
  | .ok _ => .error .exists

theorem mkdir_spec {d : δ} (h : mkdir d t links start cs = .ok t') :
    ∃ before dir n es hdir hnew, cs = before ++ .name n :: es ∧ (∀ e ∈ es, e = .empty) ∧
      t.resolve links start before = .ok dir ∧ t' = t.insert dir n (.dir d) hdir hnew := by
  unfold mkdir at h
  split at h
  · exact absurd h (by simp)
  · rename_i dir n slashes hlook
    split_ifs at h with hnew
    obtain ⟨before, es, hcs, hes, hres⟩ := lookup_name hlook
    exact ⟨before, dir, n, es, hnew.1, hnew.2, hcs, hes, hres, (Except.ok.inj h).symm⟩
  · exact absurd h (by simp)

theorem mkdir_grown {d : δ} (h : mkdir d t links start cs = .ok t') : Grown t t' := by
  obtain ⟨_, _, _, _, hdir, hnew, -, -, -, rfl⟩ := mkdir_spec h
  exact grown_insert hdir hnew

/-- The path that was missing names a directory afterwards. -/
theorem mkdir_resolve {d : δ} (hfree : t.LinkFree) (h : mkdir d t links start cs = .ok t') :
    (∀ q, t.resolve links start cs ≠ .ok q) ∧ ∃ q, t'.resolve links start cs = .ok q ∧ t'.IsDir q := by
  have hgrown := mkdir_grown h
  have hfree' := hgrown.linkFree hfree
  obtain ⟨before, dir, n, es, hdir, hnew, rfl, hes, hres, rfl⟩ := mkdir_spec h
  constructor
  · intro q hq
    rw [resolve_append hfree, hres] at hq
    change t.resolve links dir _ = _ at hq
    rw [resolve_cons hfree, if_pos hdir] at hq
    change (if t.node (dir ++ [n]) = none then _ else _) = _ at hq
    rw [if_pos hnew] at hq
    exact absurd hq (by simp)
  · have hself := node_insert_self (m := .dir d) hdir hnew
    refine ⟨dir ++ [n], ?_, ⟨d, hself⟩⟩
    rw [resolve_append hfree', hgrown.resolve hfree hres]
    change FileTree.resolve _ links dir _ = _
    rw [resolve_cons hfree', if_pos (hgrown.isDir _ hdir)]
    show (if FileTree.node _ (dir ++ [n]) = none then _ else FileTree.resolve _ links (dir ++ [n]) _) = _
    rw [hself, if_neg (by simp)]
    exact resolve_slashes ⟨d, hself⟩ hes

/-- A new name in a directory. -/
theorem mkdir_append_name {d : δ} (hres : t.resolve links start cs = .ok dir) (hdir : t.IsDir dir)
    (hnew : t.node (dir ++ [n]) = none) :
    mkdir d t links start (cs ++ [.name n]) = .ok (t.insert dir n (.dir d) hdir hnew) := by
  have hlook : lookup t links start (cs ++ [.name n]) = .ok (dir, .name n, false) := by
    rw [lookup_append_name, hres]
    exact if_pos hdir
  unfold mkdir
  simp only [hlook]
  exact dif_pos ⟨hdir, hnew⟩

/-! ## Other new nodes -/

/-- `mknod` : the path names something new, and no slash follows the name. -/
def mknod (a : α) (t : FileTree ν δ α) (links : Nat) (start : List ν) (cs : List (Comp ν)) :
    Except Failure (FileTree ν δ α) :=
  match lookup t links start cs with
  | .error e => .error e
  | .ok (dir, .name n, slashes) =>
    if h : t.IsDir dir ∧ t.node (dir ++ [n]) = none then
      if slashes then .error .noEntry else .ok (t.insert dir n (.other a) h.1 h.2)
    else .error .exists
  | .ok _ => .error .exists

theorem mknod_spec {a : α} (h : mknod a t links start cs = .ok t') :
    ∃ before dir n hdir hnew, cs = before ++ [.name n] ∧ t.resolve links start before = .ok dir ∧
      t' = t.insert dir n (.other a) hdir hnew := by
  unfold mknod at h
  split at h
  · exact absurd h (by simp)
  · rename_i dir n slashes hlook
    split_ifs at h with hnew hslash
    rw [Bool.eq_false_iff.2 hslash] at hlook
    obtain ⟨before, hcs, hres⟩ := lookup_plain_name hlook
    exact ⟨before, dir, n, hnew.1, hnew.2, hcs, hres, (Except.ok.inj h).symm⟩
  · exact absurd h (by simp)

omit [DecidableEq ν] in
theorem lookup_of_resolve (hres : t.resolve links start cs = .ok dir) (hdir : t.IsDir dir) (n : ν) :
    lookup t links start (cs ++ [.name n]) = .ok (dir, .name n, false) := by
  rw [lookup_append_name, hres]
  exact if_pos hdir

/-- `mknod` fails for what is there. -/
theorem mknod_exists (a : α) (hres : t.resolve links start cs = .ok dir) (hdir : t.IsDir dir)
    (hthere : t.node (dir ++ [n]) ≠ none) : mknod a t links start (cs ++ [.name n]) = .error .exists := by
  unfold mknod
  simp only [lookup_of_resolve hres hdir]
  exact dif_neg fun h => hthere h.2

/-- `mknod` fails on a path that leads to something. -/
theorem mknod_of_blocks (a : α) (hfree : t.LinkFree) (hres : t.resolve links start cs = .ok q) (hb : t.Blocks q)
    (hcs : cs ≠ []) : mknod a t links start cs = .error .exists := by
  obtain ⟨before, k, rfl⟩ := (List.eq_nil_or_concat' cs).resolve_left hcs
  rw [resolve_append hfree] at hres
  cases hd : t.resolve links start before with
  | error e =>
    rw [hd] at hres
    exact absurd hres (by simp [Except.bind])
  | ok d =>
    rw [hd] at hres
    change t.resolve links d [k] = _ at hres
    rw [resolve_cons hfree] at hres
    split_ifs at hres with hdir hnode
    rw [resolve_nil] at hres
    obtain rfl := Except.ok.inj hres
    -- only a name leads out of the directories
    cases k with
    | empty => exact absurd hdir hb.2
    | dot => exact absurd hdir hb.2
    | dotdot => exact absurd (isDir_dropLast hdir) hb.2
    | name n => exact mknod_exists a hd hdir hnode

theorem mknod_append_name (a : α) (hres : t.resolve links start cs = .ok dir) (hdir : t.IsDir dir)
    (hnew : t.node (dir ++ [n]) = none) :
    mknod a t links start (cs ++ [.name n]) = .ok (t.insert dir n (.other a) hdir hnew) := by
  unfold mknod
  simp only [lookup_of_resolve hres hdir]
  exact dif_pos ⟨hdir, hnew⟩

section insertOther

variable {m : Node ν δ α} (hdir : t.IsDir dir) (hnew : t.node (dir ++ [n]) = none)

theorem insert_sub : Sub t (t.insert dir n m hdir hnew) := by
  intro q k hk
  rw [node_insert_of_ne, hk]
  rintro rfl
  rw [hnew] at hk
  exact absurd hk (by simp)

/-- Where the path to a new node leads before and afterwards. -/
theorem resolve_insert (hfree : t.LinkFree) (hm : ∀ target, m ≠ .link target)
    (hres : t.resolve links start cs = .ok dir) :
    t.resolve links start (cs ++ [.name n]) = .error .noEntry ∧
      (t.insert dir n m hdir hnew).resolve links start (cs ++ [.name n]) = .ok (dir ++ [n]) := by
  constructor
  · rw [resolve_append hfree, hres]
    change t.resolve links dir _ = _
    exact resolve_name_none hdir hnew
  · rw [resolve_append (hfree.insert hdir hnew hm), resolve_mono (insert_sub hdir hnew) hres]
    change FileTree.resolve _ links dir [.name n] = _
    have hself := node_insert_self (m := m) hdir hnew
    rw [resolve_cons (hfree.insert hdir hnew hm), if_pos ((insert_sub hdir hnew).isDir hdir)]
    show (if FileTree.node _ (dir ++ [n]) = none then _ else FileTree.resolve _ links (dir ++ [n]) []) = _
    rw [hself, if_neg (by simp), resolve_nil]

end insertOther

end FileTree
