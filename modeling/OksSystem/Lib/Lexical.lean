import OksSystem.Lib.FileTree

/-!
# Paths in trees without links

* `advance` : one component of a path; `lexical` : where a path leads by its components alone;
* `LinkFree` : a tree without links; there `resolve` takes one component after the other (`resolve_cons`,
  `resolve_append`) and leads to the lexical end of the path (`lexical_of_resolve`);
* `LinkFreeTo` : no link on the way to a node; there the names lead to that node or nowhere (`LinkFreeTo.eq_of_resolve`);
* `through` : the path with every missing node read as a directory, which is `none` when something else stands in the way.
-/

universe u v w

namespace FileTree

variable {ν : Type u} {δ : Type v} {α : Type w}

/-- One component further. -/
def advance (cur : List ν) : Comp ν → List ν
  | .empty => cur
  | .dot => cur
  | .dotdot => cur.dropLast
  | .name n => cur ++ [n]

/-- The lexical normal form of a path. -/
def lexical (cur : List ν) (cs : List (Comp ν)) : List ν := cs.foldl advance cur

def LinkFree (t : FileTree ν δ α) : Prop := ∀ p target, t.node p ≠ some (.link target)

/-- No link is at `p` or on the way there. -/
def LinkFreeTo (t : FileTree ν δ α) (p : List ν) : Prop := ∀ q, q <+: p → ∀ target, t.node q ≠ some (.link target)

/-- Something that is not a directory stands at `p`. -/
def Blocks (t : FileTree ν δ α) (p : List ν) : Prop := t.node p ≠ none ∧ ¬ t.IsDir p

instance (t : FileTree ν δ α) (p : List ν) : Decidable (t.Blocks p) :=
  match h : t.node p with
  | none => .isFalse fun hb => hb.1 h
  | some _ => decidable_of_iff (¬ t.IsDir p) ⟨fun hdir => ⟨h ▸ Option.some_ne_none _, hdir⟩, fun hb => hb.2⟩

/-- Where the path leads once the directories that it lacks are made. -/
def through (t : FileTree ν δ α) : List ν → List (Comp ν) → Option (List ν)
  | cur, [] => some cur
  | cur, c :: cs => if t.Blocks cur then none else through t (advance cur c) cs

variable {t : FileTree ν δ α} {links : Nat} {cur p q : List ν} {c : Comp ν} {cs xs ys : List (Comp ν)}

theorem LinkFree.sub {t' : FileTree ν δ α} (h : t.LinkFree) (hsub : Sub t' t) : t'.LinkFree :=
  fun p target hp => h p target (hsub _ _ hp)

theorem link_of_insert [DecidableEq ν] {n : ν} {m : Node ν δ α} {target : Target ν} (hm : ∀ target, m ≠ .link target)
    (hdir : t.IsDir p) (hnew : t.node (p ++ [n]) = none) (h : (t.insert p n m hdir hnew).node q = some (.link target)) :
    t.node q = some (.link target) := by
  by_cases heq : q = p ++ [n]
  · rw [heq, node_insert_self hdir hnew] at h
    exact absurd (Option.some.inj h) (hm target)
  · rwa [node_insert_of_ne hdir hnew heq] at h

theorem LinkFree.insert [DecidableEq ν] {n : ν} {m : Node ν δ α} (h : t.LinkFree) (hdir : t.IsDir p)
    (hnew : t.node (p ++ [n]) = none) (hm : ∀ target, m ≠ .link target) : (t.insert p n m hdir hnew).LinkFree :=
  fun q target hq => h q target (link_of_insert hm hdir hnew hq)

theorem LinkFree.linkFreeTo (h : t.LinkFree) (p : List ν) : t.LinkFreeTo p := fun q _ => h q

theorem LinkFreeTo.above (h : t.LinkFreeTo p) (hq : q <+: p) : t.LinkFreeTo q := fun r hr => h r (hr.trans hq)

theorem LinkFreeTo.real (h : t.LinkFreeTo p) (hp : t.node p ≠ none) : t.Real p := by
  obtain ⟨k, hk⟩ := Option.ne_none_iff_exists'.1 hp
  refine ⟨k, hk, ?_⟩
  rintro target rfl
  exact h p List.prefix_rfl target hk

theorem LinkFree.real (h : t.LinkFree) (hp : t.node p ≠ none) : t.Real p := (h.linkFreeTo p).real hp

/-- None is on the way to a free name in a directory, or below. -/
theorem linkFreeTo_of_free {n : ν} (hdir : t.IsDir p) (hnew : t.node (p ++ [n]) = none) (hq : p ++ [n] <+: q) :
    t.LinkFreeTo q := by
  intro r hr target hlink
  have hsome : t.node r ≠ none := by
    rw [hlink]
    exact Option.some_ne_none _
  rcases List.prefix_or_prefix_of_prefix hr hq with hpre | hpre
  · rcases List.prefix_concat_iff.1 hpre with rfl | ⟨s, rfl⟩
    · exact hsome hnew
    · obtain ⟨d, hd⟩ : t.IsDir r := by
        by_cases hs : s = []
        · rwa [hs, List.append_nil] at hdir
        · exact t.isDir_of_prefix s hs hdir.real.node_ne_none
      cases hd.symm.trans hlink
  · exact hsome (t.node_eq_none_of_prefix hpre hnew)

theorem walk_names_eq {f : List ν → List (Comp ν) → Except Failure (List ν)} {r : List ν} (h : t.LinkFreeTo (cur ++ r))
    (hr : walk t f cur (r.map .name) = .ok q) : q = cur ++ r := by
  induction r generalizing cur with
  | nil => simpa [walk] using hr.symm
  | cons n r ih =>
    have hsplit : cur ++ n :: r = cur ++ [n] ++ r := by simp
    rw [hsplit] at h ⊢
    rw [List.map_cons, walk] at hr
    split_ifs at hr with hdir
    cases hn : t.node (cur ++ [n]) with
    | none =>
      rw [hn] at hr
      cases hr
    | some m =>
      rw [hn] at hr
      cases m with
      | dir d => exact ih h hr
      | other a => exact ih h hr
      | link target => exact absurd hn (h _ (List.prefix_append _ r) target)

/-- Names without a link on the way lead to no other node. -/
theorem LinkFreeTo.eq_of_resolve (h : t.LinkFreeTo p) (hr : resolve t links [] (p.map .name) = .ok q) : q = p := by
  obtain ⟨f, hf⟩ := resolve_eq_walk t links
  rw [hf] at hr
  exact walk_names_eq h hr

theorem IsDir.not_blocks (h : t.IsDir p) : ¬ t.Blocks p := fun hb => hb.2 h

theorem isDir_of_not_blocks (h : ¬ t.Blocks p) (hnode : t.node p ≠ none) : t.IsDir p := by
  by_contra hdir
  exact h ⟨hnode, hdir⟩

/-! ## Resolution without links -/

theorem resolve_cons (h : t.LinkFree) : resolve t links cur (c :: cs) =
    if t.IsDir cur then
      if t.node (advance cur c) = none then .error .noEntry else resolve t links (advance cur c) cs
    else .error .notDirectory := by
  obtain ⟨f, hf⟩ := resolve_eq_walk t links
  rw [hf]
  have hstep : ∀ p, t.IsDir cur → t.IsDir p → walk t f p cs =
      if t.IsDir cur then if t.node p = none then .error .noEntry else walk t f p cs else .error .notDirectory := by
    intro p hcur hp
    rw [if_pos hcur, if_neg hp.real.node_ne_none]
  by_cases hdir : t.IsDir cur
  · cases c with
    | empty =>
      rw [walk, if_pos hdir]
      exact hstep cur hdir hdir
    | dot =>
      rw [walk, if_pos hdir]
      exact hstep cur hdir hdir
    | dotdot =>
      rw [walk, if_pos hdir]
      exact hstep _ hdir (isDir_dropLast hdir)
    | name n =>
      rw [walk, if_pos hdir, if_pos hdir]
      show _ = if t.node (cur ++ [n]) = none then _ else walk t f (cur ++ [n]) cs
      cases hn : t.node (cur ++ [n]) with
      | none => rfl
      | some m =>
        cases m with
        | dir d => rfl
        | other a => rfl
        | link target => exact absurd hn (h _ _)
  · rw [if_neg hdir]
    cases c <;> rw [walk, if_neg hdir]

theorem resolve_append (h : t.LinkFree) (xs ys : List (Comp ν)) : resolve t links cur (xs ++ ys) =
    (resolve t links cur xs).bind fun d => resolve t links d ys := by
  induction xs generalizing cur with
  | nil => rw [resolve_nil, List.nil_append]; rfl
  | cons c cs ih =>
    rw [List.cons_append, resolve_cons h, resolve_cons h]
    split_ifs
    · rfl
    · exact ih
    · rfl

/-- What a path resolves to, it also leads to with nothing missing. -/
theorem through_of_resolve (h : t.LinkFree) (hr : resolve t links cur cs = .ok q) : t.through cur cs = some q := by
  induction cs generalizing cur with
  | nil =>
    rw [resolve_nil] at hr
    exact congrArg some (Except.ok.inj hr)
  | cons c cs ih =>
    rw [resolve_cons h] at hr
    split_ifs at hr with hdir hnode
    rw [through, if_neg hdir.not_blocks]
    exact ih hr

theorem lexical_of_through (h : t.through cur cs = some q) : q = lexical cur cs := by
  induction cs generalizing cur with
  | nil => exact (Option.some.inj h).symm
  | cons c cs ih =>
    rw [through] at h
    split_ifs at h
    exact ih h

/-- Names lead down. -/
theorem lexical_names (cur p : List ν) : lexical cur (p.map .name) = cur ++ p := by
  induction p generalizing cur with
  | nil => exact (List.append_nil cur).symm
  | cons n p ih =>
    show lexical (cur ++ [n]) (p.map .name) = _
    rw [ih, List.append_assoc]
    rfl

/-- **In a tree without links a path resolves to its lexical normal form, if to anything.** -/
theorem lexical_of_resolve (h : t.LinkFree) (hr : resolve t links cur cs = .ok q) : q = lexical cur cs :=
  lexical_of_through (through_of_resolve h hr)

theorem through_empty (h : t.IsDir cur) : t.through cur (.empty :: cs) = t.through cur cs := by
  rw [through, if_neg h.not_blocks]
  rfl

theorem through_append (t : FileTree ν δ α) (cur : List ν) (xs ys : List (Comp ν)) : t.through cur (xs ++ ys) =
    (t.through cur xs).bind fun d => t.through d ys := by
  induction xs generalizing cur with
  | nil => rfl
  | cons c cs ih =>
    rw [List.cons_append, through, through]
    split_ifs
    · rfl
    · exact ih _

end FileTree
