import OksSystem.Lib.Moves

/-!
# What is from a name on

* `SameFrom s t t'` : trees without links that are the same from `s` on; `OnlyFrom s t t'` : trees that are the same
  elsewhere;
* `SameFrom.others` : what is done from another name on makes no difference;
* `SameFrom.resolve`, `SameFrom.lookup` : a path from `s` on is resolved alike;
* `Alike` : calls that end alike, and change what is from `s` on alike;
* `alike_mkdir`, `alike_mknod`, `alike_unlink`, `alike_rmdir`, `alike_rename` : the calls that make and remove nodes.
-/

universe u v w x

namespace FileTree

variable {ν : Type u} {δ : Type v} {α : Type w} {t t' t₁ t₁' : FileTree ν δ α} {s s' p q dir : List ν} {n : ν}
  {cs : List (Comp ν)} {links : Nat}

/-- Trees without links, with a directory that `s` is in and the same nodes and lists of entries from `s` on. -/
structure SameFrom (s : List ν) (t t' : FileTree ν δ α) : Prop where
  linkFree : t.LinkFree
  linkFree' : t'.LinkFree
  parent : t.IsDir s.dropLast
  parent' : t'.IsDir s.dropLast
  node : ∀ q, s <+: q → t.node q = t'.node q
  entries : ∀ q, s <+: q → t.entries q = t'.entries q

/-- `t'` is `t` but for what is from `s` on and the list of entries that `s` is in. -/
structure OnlyFrom (s : List ν) (t t' : FileTree ν δ α) : Prop where
  linkFree : t'.LinkFree
  node : ∀ q, ¬ s <+: q → t'.node q = t.node q
  entries : ∀ q, ¬ s <+: q → q ≠ s.dropLast → t'.entries q = t.entries q

theorem SameFrom.refl (hfree : t.LinkFree) (hdir : t.IsDir s.dropLast) : SameFrom s t t :=
  ⟨hfree, hfree, hdir, hdir, fun _ _ => rfl, fun _ _ => rfl⟩

theorem SameFrom.trans (h : SameFrom s t t') (h' : SameFrom s t' t₁) : SameFrom s t t₁ :=
  ⟨h.linkFree, h'.linkFree', h.parent, h'.parent', fun q hq => (h.node q hq).trans (h'.node q hq),
    fun q hq => (h.entries q hq).trans (h'.entries q hq)⟩

theorem OnlyFrom.refl (hfree : t.LinkFree) (s : List ν) : OnlyFrom s t t := ⟨hfree, fun _ _ => rfl, fun _ _ _ => rfl⟩

/-- What has changed from `s'` on alone leaves what is from `s` on. -/
theorem SameFrom.others (h : SameFrom s t t₁) (ho : OnlyFrom s' t t') (hs : ¬ s <+: s') (hs' : ¬ s' <+: s) :
    SameFrom s t' t₁ := by
  have hout : ∀ q, s <+: q → ¬ s' <+: q := fun q hq hq' =>
    (List.prefix_or_prefix_of_prefix hq hq').elim hs hs'
  have hparent : ¬ s' <+: s.dropLast := fun hpre => hs' (hpre.trans (List.dropLast_prefix s))
  refine ⟨ho.linkFree, h.linkFree', ?_, h.parent', fun q hq => ?_, fun q hq => ?_⟩
  · obtain ⟨d, hd⟩ := h.parent
    exact ⟨d, by rw [ho.node _ hparent, hd]⟩
  · rw [ho.node q (hout q hq), h.node q hq]
  · rw [ho.entries q (hout q hq) fun heq => hs (hq.trans (heq ▸ List.dropLast_prefix s')), h.entries q hq]

theorem SameFrom.isDir (h : SameFrom s t t') (hq : s <+: q) : t.IsDir q ↔ t'.IsDir q := by
  unfold IsDir
  rw [h.node q hq]

theorem SameFrom.isDir_parent (h : SameFrom (p ++ [n]) t t') : t.IsDir p ∧ t'.IsDir p := by
  have hparent := h.parent
  have hparent' := h.parent'
  rw [List.dropLast_concat] at hparent hparent'
  exact ⟨hparent, hparent'⟩

/-! ## Resolution -/

/-- Names are resolved alike where the same is below. -/
theorem resolve_below (hfree : t.LinkFree) (hfree' : t'.LinkFree) {cur : List ν} (hcur : t.IsDir cur ↔ t'.IsDir cur)
    (h : ∀ k r, t.node (cur ++ k :: r) = t'.node (cur ++ k :: r)) (r : List ν) :
    resolve t links cur (r.map .name) = resolve t' links cur (r.map .name) := by
  induction r generalizing cur with
  | nil => rw [List.map_nil, resolve_nil, resolve_nil]
  | cons k r ih =>
    have hbelow : ∀ j r, t.node (cur ++ [k] ++ j :: r) = t'.node (cur ++ [k] ++ j :: r) := fun j r => by
      rw [List.append_assoc]
      exact h k (j :: r)
    have hk : t.IsDir (cur ++ [k]) ↔ t'.IsDir (cur ++ [k]) := by
      unfold IsDir
      rw [h k []]
    rw [List.map_cons, resolve_cons hfree, resolve_cons hfree']
    show (if t.IsDir cur then if t.node (cur ++ [k]) = none then _ else resolve t links (cur ++ [k]) _ else _) =
      if t'.IsDir cur then if t'.node (cur ++ [k]) = none then _ else resolve t' links (cur ++ [k]) _ else _
    rw [ih hk hbelow, h k [], if_congr hcur rfl rfl]

theorem SameFrom.resolve (h : SameFrom s t t') (hs : s ≠ []) (hp : s <+: p) :
    t.resolve links [] (p.map .name) = t'.resolve links [] (p.map .name) := by
  obtain ⟨a, n, rfl⟩ := (List.eq_nil_or_concat' s).resolve_left hs
  obtain ⟨r, rfl⟩ := hp
  obtain ⟨hdir, hdir'⟩ := h.isDir_parent
  have hnames {t : FileTree ν δ α} (h : t.IsDir a) : t.resolve links [] (a.map .name ++ ([n] ++ r).map .name) =
      t.resolve links a (.name n :: r.map .name) := resolve_names h.real
  rw [List.append_assoc, List.map_append, hnames hdir, hnames hdir', resolve_cons h.linkFree, resolve_cons h.linkFree',
    if_pos hdir, if_pos hdir']
  show (if t.node (a ++ [n]) = none then _ else t.resolve links (a ++ [n]) _) =
    if t'.node (a ++ [n]) = none then _ else t'.resolve links (a ++ [n]) _
  have hbelow : ∀ k r, t.node (a ++ [n] ++ k :: r) = t'.node (a ++ [n] ++ k :: r) := fun k r => h.node _ ⟨k :: r, rfl⟩
  rw [h.node _ List.prefix_rfl, resolve_below h.linkFree h.linkFree' (h.isDir List.prefix_rfl) hbelow r]

/-- A path that ends from `s` on is looked up alike, and in no other directory. -/
theorem SameFrom.lookup (h : SameFrom s t t') (links : Nat) (hnil : s ≠ []) (hs : s <+: p ++ [n])
    (hcs : cs = .empty :: p.map .name ++ [.name n]) :
    (∃ e, t.lookup links [] cs = .error e ∧ t'.lookup links [] cs = .error e) ∨
    (t.IsDir p ∧ t'.IsDir p ∧ t.lookup links [] cs = .ok (p, .name n, false) ∧
      t'.lookup links [] cs = .ok (p, .name n, false)) := by
  subst hcs
  have hlook {t : FileTree ν δ α} (hdir : t.IsDir p) :
      t.lookup links [] (.empty :: p.map .name ++ [.name n]) = .ok (p, .name n, false) := by
    rw [lookup_empty t.root]
    exact lookup_names [] hdir
  rcases List.prefix_concat_iff.1 hs with rfl | hpre
  · obtain ⟨hdir, hdir'⟩ := h.isDir_parent
    exact .inr ⟨hdir, hdir', hlook hdir, hlook hdir'⟩
  · by_cases hdir : t.IsDir p
    · exact .inr ⟨hdir, (h.isDir hpre).1 hdir, hlook hdir, hlook ((h.isDir hpre).1 hdir)⟩
    · left
      rw [lookup_empty t.root, lookup_append_name, lookup_empty t'.root, lookup_append_name, ← h.resolve hnil hpre]
      cases hres : t.resolve links [] (p.map .name) with
      | error e => exact ⟨e, rfl, rfl⟩
      | ok r =>
        obtain rfl : r = p := (lexical_of_resolve h.linkFree hres).trans (lexical_names [] p)
        exact ⟨.notDirectory, if_neg hdir, if_neg fun hdir' => hdir ((h.isDir hpre).2 hdir')⟩

/-! ## Outcomes -/

/-- A call that makes another tree of `t` and one of a tree that is the same from `s` on, with the same outcome. -/
inductive Alike {ε : Type x} (s : List ν) (t : FileTree ν δ α) :
    Except ε (FileTree ν δ α) → Except ε (FileTree ν δ α) → Prop where
  | ok {t₁ t₁' : FileTree ν δ α} (only : OnlyFrom s t t₁) (same : SameFrom s t₁ t₁') : Alike s t (.ok t₁) (.ok t₁')
  | error (e : ε) : Alike s t (.error e) (.error e)

namespace Alike

variable {ε : Type x} {c c' : Prop} [Decidable c] [Decidable c']

/-- Both calls test the same. -/
theorem ite {x x' y y' : Except ε (FileTree ν δ α)} (hc : c ↔ c') (hx : c → Alike s t x y) (hx' : ¬ c → Alike s t x' y') :
    Alike s t (if c then x else x') (if c' then y else y') := by
  by_cases h : c
  · rw [if_pos h, if_pos (hc.1 h)]
    exact hx h
  · rw [if_neg h, if_neg fun h' => h (hc.2 h')]
    exact hx' h

theorem dite {x : c → Except ε (FileTree ν δ α)} {y : c' → Except ε (FileTree ν δ α)} {e : ε} (hc : c ↔ c')
    (hx : ∀ h h', Alike s t (x h) (y h')) :
    Alike s t (if h : c then x h else .error e) (if h : c' then y h else .error e) := by
  by_cases h : c
  · rw [dif_pos h, dif_pos (hc.1 h)]
    exact hx h (hc.1 h)
  · rw [dif_neg h, dif_neg fun h' => h (hc.2 h')]
    exact .error e

end Alike

/-! ## Other trees -/

/-- The directory of a name from `s` on is from `s` on, or the one `s` is in. -/
theorem ne_parent (hp : s <+: p ++ [n]) (hq : ¬ s <+: q) (hne : q ≠ s.dropLast) : q ≠ p := by
  rintro rfl
  rcases List.prefix_concat_iff.1 hp with rfl | hpre
  · exact hne List.dropLast_concat.symm
  · exact hq hpre

theorem not_prefix_dropLast (hp : s <+: p ++ [n]) : ¬ p ++ [n] <+: s.dropLast := fun h => by
  have hlen := hp.length_le
  have hlen' := h.length_le
  rw [List.length_append, List.length_singleton] at hlen hlen'
  rw [List.length_dropLast] at hlen'
  omega

section Update

variable {β : Type x} [DecidableEq ν] {f g : List ν → β} {y z : β}

theorem update_from (h : ∀ q, s <+: q → f q = g q) (hyz : s <+: p → y = z) (hq : s <+: q) :
    Function.update f p y q = Function.update g p z q := by
  rw [Function.update_apply, Function.update_apply]
  split_ifs with heq
  · subst heq
    exact hyz hq
  · exact h q hq

theorem update_elsewhere (hp : s <+: p) (hq : ¬ s <+: q) : Function.update f p y q = f q :=
  Function.update_of_ne (fun heq => hq (by rwa [heq])) ..

theorem isDir_update {m : Option (Node ν δ α)} (hp : s <+: p ++ [n]) (h : t.IsDir s.dropLast) :
    ∃ d, Function.update t.node (p ++ [n]) m s.dropLast = some (.dir d) := by
  have hne : s.dropLast ≠ p ++ [n] := fun heq => not_prefix_dropLast hp (by rw [heq])
  rwa [Function.update_of_ne hne]

end Update

section Trees

variable [DecidableEq ν] {m : Node ν δ α} {fd : δ → δ} {fa : α → α}

theorem SameFrom.insert (h : SameFrom s t t') (hs : s <+: p ++ [n]) (hm : ∀ target, m ≠ .link target) (hdir : t.IsDir p)
    (hnew : t.node (p ++ [n]) = none) (hdir' : t'.IsDir p) (hnew' : t'.node (p ++ [n]) = none) :
    SameFrom s (t.insert p n m hdir hnew) (t'.insert p n m hdir' hnew') where
  linkFree := h.linkFree.insert hdir hnew hm
  linkFree' := h.linkFree'.insert hdir' hnew' hm
  parent := isDir_update hs h.parent
  parent' := isDir_update hs h.parent'
  node _ hq := update_from h.node (fun _ => rfl) hq
  entries _ hq := update_from h.entries (fun hp => by rw [h.entries p hp]) hq

theorem OnlyFrom.insert (hfree : t.LinkFree) (hs : s <+: p ++ [n]) (hm : ∀ target, m ≠ .link target) (hdir : t.IsDir p)
    (hnew : t.node (p ++ [n]) = none) : OnlyFrom s t (t.insert p n m hdir hnew) where
  linkFree := hfree.insert hdir hnew hm
  node _ hq := update_elsewhere hs hq
  entries _ hq hne := Function.update_of_ne (ne_parent hs hq hne) ..

theorem SameFrom.erase (h : SameFrom s t t') (hs : s <+: p ++ [n]) (hnil : t.entries (p ++ [n]) = [])
    (hnil' : t'.entries (p ++ [n]) = []) : SameFrom s (t.erase p n hnil) (t'.erase p n hnil') where
  linkFree := h.linkFree.sub (erase_sub hnil)
  linkFree' := h.linkFree'.sub (erase_sub hnil')
  parent := isDir_update hs h.parent
  parent' := isDir_update hs h.parent'
  node _ hq := update_from h.node (fun _ => rfl) hq
  entries _ hq := update_from h.entries (fun hp => by rw [h.entries p hp]) hq

theorem OnlyFrom.erase (hfree : t.LinkFree) (hs : s <+: p ++ [n]) (hnil : t.entries (p ++ [n]) = []) :
    OnlyFrom s t (t.erase p n hnil) where
  linkFree := hfree.sub (erase_sub hnil)
  node _ hq := update_elsewhere hs hq
  entries _ hq hne := Function.update_of_ne (ne_parent hs hq hne) ..

theorem SameFrom.modify (h : SameFrom s t t') (p : List ν) (fd : δ → δ) (fa : α → α) :
    SameFrom s (t.modify p fd fa) (t'.modify p fd fa) where
  linkFree := linkFree_modify h.linkFree
  linkFree' := linkFree_modify h.linkFree'
  parent := isDir_modify.2 h.parent
  parent' := isDir_modify.2 h.parent'
  node _ hq := update_from h.node (fun hp => by rw [h.node p hp]) hq
  entries := h.entries

theorem OnlyFrom.modify (hfree : t.LinkFree) (hs : s <+: p) (fd : δ → δ) (fa : α → α) :
    OnlyFrom s t (t.modify p fd fa) where
  linkFree := linkFree_modify hfree
  node _ hq := update_elsewhere hs hq
  entries _ _ _ := rfl

section Move

variable {dir' : List ν} {n' : ν} {h : Movable t dir n dir' n'}

theorem SameFrom.move (hsame : SameFrom s t t') (hs : s <+: dir ++ [n]) (hs' : s <+: dir' ++ [n'])
    (h' : Movable t' dir n dir' n') : SameFrom s (t.move dir n dir' n' h) (t'.move dir n dir' n' h') where
  linkFree := (keeps_move h).linkFree hsame.linkFree
  linkFree' := (keeps_move h').linkFree hsame.linkFree'
  parent := (isDir_move h (not_prefix_dropLast hs') (not_prefix_dropLast hs)).2 hsame.parent
  parent' := (isDir_move h' (not_prefix_dropLast hs') (not_prefix_dropLast hs)).2 hsame.parent'
  node q hq := by
    show t.moved _ _ q = t'.moved _ _ q
    unfold moved
    rw [hsame.node _ (hs.trans (List.prefix_append _ _)), hsame.node q hq]
  entries q hq := by
    have hleft : t.entriesLeft dir n q = t'.entriesLeft dir n q := by
      unfold entriesLeft
      rw [hsame.entries q hq]
    show (if _ then t.entries _ else if _ then [] else t.entriesMoved dir n dir' n' q) =
      if _ then t'.entries _ else if _ then [] else t'.entriesMoved dir n dir' n' q
    unfold entriesMoved
    rw [hsame.entries _ (hs.trans (List.prefix_append _ _)), hleft]

theorem OnlyFrom.move (hfree : t.LinkFree) (hs : s <+: dir ++ [n]) (hs' : s <+: dir' ++ [n']) :
    OnlyFrom s t (t.move dir n dir' n' h) where
  linkFree := (keeps_move h).linkFree hfree
  node q hq := node_move_of_not h (fun hpre => hq (hs'.trans hpre)) fun hpre => hq (hs.trans hpre)
  entries q hq hne := by
    show (if _ then t.entries _ else if _ then [] else t.entriesMoved dir n dir' n' q) = _
    rw [if_neg fun hpre => hq (hs'.trans hpre), if_neg fun hpre => hq (hs.trans hpre)]
    unfold entriesMoved entriesLeft
    rw [if_neg (ne_parent hs' hq hne), if_neg (ne_parent hs hq hne)]

end Move

/-! ## Calls -/

/-- A new node at a name that is free. -/
theorem alike_new {ε : Type x} (h : SameFrom s t t') (hs : s <+: p ++ [n]) (hm : ∀ target, m ≠ .link target)
    (hdir : t.IsDir p) (hdir' : t'.IsDir p) (e : ε) :
    Alike s t (if hnew : t.IsDir p ∧ t.node (p ++ [n]) = none then .ok (t.insert p n m hnew.1 hnew.2) else .error e)
      (if hnew : t'.IsDir p ∧ t'.node (p ++ [n]) = none then .ok (t'.insert p n m hnew.1 hnew.2) else .error e) := by
  refine .dite ?_ fun hnew hnew' => ?_
  · rw [h.node _ hs, and_iff_right hdir, and_iff_right hdir']
  · exact .ok (.insert h.linkFree hs hm hdir hnew.2) (h.insert hs hm hdir hnew.2 hdir' hnew'.2)

section Calls

variable (h : SameFrom s t t') (hnil : s ≠ []) (hs : s <+: p ++ [n]) (hcs : cs = .empty :: p.map .name ++ [.name n])

include h hnil hs hcs

theorem alike_mkdir (d : δ) : Alike s t (mkdir d t links [] cs) (mkdir d t' links [] cs) := by
  unfold mkdir
  rcases h.lookup links hnil hs hcs with ⟨e, he, he'⟩ | ⟨hdir, hdir', hlook, hlook'⟩
  · rw [he, he']
    exact .error e
  · simp only [hlook, hlook']
    exact alike_new h hs (by simp) hdir hdir' _

theorem alike_mknod (a : α) : Alike s t (mknod a t links [] cs) (mknod a t' links [] cs) := by
  unfold mknod
  rcases h.lookup links hnil hs hcs with ⟨e, he, he'⟩ | ⟨hdir, hdir', hlook, hlook'⟩
  · rw [he, he']
    exact .error e
  · simp only [hlook, hlook', Bool.false_eq_true, if_false]
    exact alike_new h hs (by simp) hdir hdir' _

theorem alike_unlink : Alike s t (unlink t links [] cs) (unlink t' links [] cs) := by
  unfold unlink
  rcases h.lookup links hnil hs hcs with ⟨e, he, he'⟩ | ⟨-, -, hlook, hlook'⟩
  · rw [he, he']
    exact .error e
  · simp only [hlook, hlook', Bool.false_eq_true, if_false]
    refine .ite (by rw [h.node _ hs]) (fun _ => .error _) fun _ => ?_
    by_cases hdir : t.IsDir (p ++ [n])
    · rw [dif_pos hdir, dif_pos ((h.isDir hs).1 hdir)]
      exact .error _
    · rw [dif_neg hdir, dif_neg fun hdir' => hdir ((h.isDir hs).2 hdir')]
      exact .ok (.erase h.linkFree hs _) (h.erase hs _ _)

theorem alike_rmdir : Alike s t (rmdir t links [] cs) (rmdir t' links [] cs) := by
  unfold rmdir
  rcases h.lookup links hnil hs hcs with ⟨e, he, he'⟩ | ⟨-, -, hlook, hlook'⟩
  · rw [he, he']
    exact .error e
  · simp only [hlook, hlook']
    refine .ite (by rw [h.node _ hs]) (fun _ => .error _) fun _ => ?_
    refine .ite (h.isDir hs) (fun _ => ?_) fun _ => .error _
    refine .dite (by rw [h.entries _ hs]) fun hempty hempty' => ?_
    exact .ok (.erase h.linkFree hs hempty) (h.erase hs hempty hempty')

theorem alike_rename {dir' : List ν} {n' : ν} {cs' : List (Comp ν)} (hs' : s <+: dir' ++ [n'])
    (hcs' : cs' = .empty :: dir'.map .name ++ [.name n']) :
    Alike s t (rename t links [] cs [] cs') (rename t' links [] cs [] cs') := by
  unfold rename
  rcases h.lookup links hnil hs hcs with ⟨e, he, he'⟩ | ⟨-, -, hlook, hlook'⟩
  · rw [he, he']
    exact .error e
  rcases h.lookup links hnil hs' hcs' with ⟨e, he, he'⟩ | ⟨hdir, hdir', hlook₁, hlook₁'⟩
  · rw [hlook, hlook', he, he']
    exact .error e
  have hblocks : t.Blocks (dir' ++ [n']) ↔ t'.Blocks (dir' ++ [n']) := by
    unfold Blocks
    rw [h.node _ hs', h.isDir hs']
  have hmov : Movable t p n dir' n' ↔ Movable t' p n dir' n' :=
    ⟨fun hm => ⟨h.node _ hs ▸ hm.there, hdir', hm.ne, hm.notInto, hm.notOver, h.entries _ hs' ▸ hm.bare⟩,
      fun hm => ⟨h.node _ hs ▸ hm.there, hdir, hm.ne, hm.notInto, hm.notOver, h.entries _ hs' ▸ hm.bare⟩⟩
  simp only [hlook, hlook', hlook₁, hlook₁']
  refine .ite (by rw [h.node _ hs]) (fun _ => .error _) fun _ => ?_
  refine .ite (by rw [h.isDir hs]) (fun _ => .error _) fun _ => ?_
  refine .ite Iff.rfl (fun _ => .error _) fun _ => .ite Iff.rfl (fun _ => .error _) fun _ => ?_
  refine .ite Iff.rfl (fun _ => .ok (.refl h.linkFree s) h) fun _ => ?_
  refine .ite (by rw [h.isDir hs, hblocks]) (fun _ => .error _) fun _ => ?_
  refine .ite (by rw [h.isDir hs, h.isDir hs']) (fun _ => .error _) fun _ => ?_
  exact .dite hmov fun hm hm' => .ok (.move h.linkFree hs hs') (h.move hs hs' hm')

end Calls

end Trees

end FileTree
