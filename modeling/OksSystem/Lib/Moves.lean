import Mathlib.Data.Set.Card
import OksSystem.Lib.Growth
import OksSystem.Lib.Subtree

/-!
# Moving a subtree

* `Movable` : when a subtree can move to another name; `move` : the tree after that, in which links keep their targets;
* `node_move_to`, `node_move_from`, `node_move_of_not` : where its nodes come from; `move_back` : the way back;
* `Keeps t t' k` : `t'` has the nodes of `t` without `k` of them, at other names perhaps; `Keeps.trans`, `keeps_move`;
* `rename` : the call; `rename_spec` : it succeeds on two names of one node, or moves; `replaced` : how many nodes are lost.
-/

universe u v w

namespace FileTree

variable {ν : Type u} {δ : Type v} {α : Type w} {t t' t'' : FileTree ν δ α} {links : Nat}
  {start start' dir dir' p q r : List ν} {n n' : ν} {cs cs' : List (Comp ν)}

/-- The node at `dir ++ [n]` can move to `dir' ++ [n']`: this is not inside it nor around it, and nothing is below it. -/
structure Movable (t : FileTree ν δ α) (dir : List ν) (n : ν) (dir' : List ν) (n' : ν) : Prop where
  there : t.node (dir ++ [n]) ≠ none
  isDir : t.IsDir dir'
  ne : dir ++ [n] ≠ dir' ++ [n']
  notInto : ¬ dir ++ [n] <+: dir'
  notOver : ¬ dir' ++ [n'] <+: dir
  bare : t.entries (dir' ++ [n']) = []

/-- A free name is not above a directory. -/
theorem not_prefix_of_free (hdir : t.IsDir dir') (hnew : t.node (dir ++ [n]) = none) : ¬ dir ++ [n] <+: dir' :=
  fun hpre => hdir.real.node_ne_none (t.node_eq_none_of_prefix hpre hnew)

/-- Two names neither of which is above the other have no name below both. -/
theorem not_prefix_of_apart (hne : dir ++ [n] ≠ dir' ++ [n']) (hinto : ¬ dir ++ [n] <+: dir') (hover : ¬ dir' ++ [n'] <+: dir)
    (hq : dir' ++ [n'] <+: q) : ¬ dir ++ [n] <+: q := by
  intro hq'
  rcases List.prefix_or_prefix_of_prefix hq' hq with hpre | hpre
  · exact (List.prefix_concat_iff.1 hpre).elim hne hinto
  · exact (List.prefix_concat_iff.1 hpre).elim hne.symm hover

namespace Movable

theorem not_prefix (h : Movable t dir n dir' n') : ¬ dir ++ [n] <+: dir' ++ [n'] := by
  rw [List.prefix_concat_iff, not_or]
  exact ⟨h.ne, h.notInto⟩

/-- The two subtrees share no name. -/
theorem disjoint (h : Movable t dir n dir' n') (hq : dir' ++ [n'] <+: q) : ¬ dir ++ [n] <+: q :=
  not_prefix_of_apart h.ne h.notInto h.notOver hq

theorem isDir_dir (h : Movable t dir n dir' n') : t.IsDir dir := t.parent dir n h.there

end Movable

/-! ## The tree after a move -/

section move

variable [DecidableEq ν]

/-- The node of a name after the move. -/
def moved (t : FileTree ν δ α) (a b q : List ν) : Option (Node ν δ α) :=
  if b <+: q then t.node (a ++ q.drop b.length) else if a <+: q then none else t.node q

/-- The entries of a directory without the one that is moved out of it. -/
def entriesLeft (t : FileTree ν δ α) (dir : List ν) (n : ν) (q : List ν) : List ν :=
  if q = dir then (t.entries q).erase n else t.entries q

/-- The entries of a directory that is not moved. -/
def entriesMoved (t : FileTree ν δ α) (dir : List ν) (n : ν) (dir' : List ν) (n' : ν) (q : List ν) : List ν :=
  if q = dir' then (t.entriesLeft dir n q).insert n' else t.entriesLeft dir n q

theorem moved_to (t : FileTree ν δ α) (a b r : List ν) : t.moved a b (b ++ r) = t.node (a ++ r) := by
  unfold moved
  rw [if_pos (List.prefix_append b r), List.drop_left]

theorem moved_from {a b : List ν} (hab : ¬ b <+: q) (hq : a <+: q) : t.moved a b q = none := by
  unfold moved
  rw [if_neg hab, if_pos hq]

theorem moved_of_not {a b : List ν} (hb : ¬ b <+: q) (ha : ¬ a <+: q) : t.moved a b q = t.node q := by
  unfold moved
  rw [if_neg hb, if_neg ha]

theorem mem_entriesLeft {k : ν} : k ∈ t.entriesLeft dir n q ↔ ¬ (q = dir ∧ k = n) ∧ k ∈ t.entries q := by
  unfold entriesLeft
  split_ifs with hq
  · rw [(t.nodup q).mem_erase_iff]
    simp [hq]
  · simp [hq]

theorem nodup_entriesLeft : (t.entriesLeft dir n q).Nodup := by
  unfold entriesLeft
  split_ifs
  · exact (t.nodup q).erase n
  · exact t.nodup q

theorem mem_entriesMoved {k : ν} : k ∈ t.entriesMoved dir n dir' n' q ↔
    (q = dir' ∧ k = n') ∨ ¬ (q = dir ∧ k = n) ∧ k ∈ t.entries q := by
  rw [← mem_entriesLeft]
  unfold entriesMoved
  split_ifs with hq
  · rw [List.mem_insert_iff]
    simp [hq]
  · simp [hq]

theorem nodup_entriesMoved : (t.entriesMoved dir n dir' n' q).Nodup := by
  unfold entriesMoved
  split_ifs
  · exact nodup_entriesLeft.insert
  · exact nodup_entriesLeft

omit [DecidableEq ν] in
theorem prefix_snoc_iff {a : List ν} {k : ν} (hq : ¬ a <+: q) : a <+: q ++ [k] ↔ a = q ++ [k] := by
  rw [List.prefix_concat_iff, or_iff_left hq]

theorem moved_snoc (h : Movable t dir n dir' n') (hb : ¬ dir' ++ [n'] <+: q) (ha : ¬ dir ++ [n] <+: q) (k : ν) :
    t.moved (dir ++ [n]) (dir' ++ [n']) (q ++ [k]) =
      if q = dir' ∧ k = n' then t.node (dir ++ [n]) else if q = dir ∧ k = n then none else t.node (q ++ [k]) := by
  have hsnoc : ∀ (d : List ν) (m : ν), d ++ [m] = q ++ [k] ↔ q = d ∧ k = m := fun d m => by
    rw [List.append_singleton_inj]
    exact and_congr eq_comm eq_comm
  unfold moved
  rw [if_congr ((prefix_snoc_iff hb).trans (hsnoc dir' n')) rfl rfl,
    if_congr ((prefix_snoc_iff ha).trans (hsnoc dir n)) rfl rfl]
  split_ifs with hq
  · obtain ⟨rfl, rfl⟩ := hq
    rw [List.drop_length, List.append_nil]
  · rfl
  · rfl

/-- The tree after the move. -/
def move (t : FileTree ν δ α) (dir : List ν) (n : ν) (dir' : List ν) (n' : ν) (h : Movable t dir n dir' n') :
    FileTree ν δ α where
  node := t.moved (dir ++ [n]) (dir' ++ [n'])
  entries q :=
    if dir' ++ [n'] <+: q then t.entries (dir ++ [n] ++ q.drop (dir' ++ [n']).length)
    else if dir ++ [n] <+: q then [] else t.entriesMoved dir n dir' n' q
  nodup q := by
    split_ifs
    · exact t.nodup _
    · exact List.nodup_nil
    · exact nodup_entriesMoved
  mem_entries q k := by
    by_cases hb : dir' ++ [n'] <+: q
    · obtain ⟨r, rfl⟩ := hb
      rw [if_pos (List.prefix_append _ r), List.drop_left, t.mem_entries, List.append_assoc, List.append_assoc (dir' ++ [n']),
        moved_to]
    rw [if_neg hb]
    by_cases ha : dir ++ [n] <+: q
    · have hb' : ¬ dir' ++ [n'] <+: q ++ [k] := fun hpre => h.disjoint hpre (ha.trans (List.prefix_append q [k]))
      rw [if_pos ha, moved_from hb' (ha.trans (List.prefix_append q [k]))]
      simp
    · rw [if_neg ha, mem_entriesMoved, moved_snoc h hb ha, t.mem_entries]
      split_ifs with hq hq'
      · exact iff_of_true (.inl hq) h.there
      · exact iff_of_false (fun hmem => hmem.elim hq fun hleft => hleft.1 hq') (by simp)
      · rw [or_iff_right hq, and_iff_right hq']
  root := by
    rw [moved_of_not (by simp) (by simp)]
    exact t.root
  parent q k hk := by
    by_cases hb : dir' ++ [n'] <+: q
    · obtain ⟨r, rfl⟩ := hb
      rw [List.append_assoc, moved_to, ← List.append_assoc] at hk
      rw [moved_to]
      exact t.parent _ k hk
    by_cases ha : dir ++ [n] <+: q
    · have hb' : ¬ dir' ++ [n'] <+: q ++ [k] := fun hpre => h.disjoint hpre (ha.trans (List.prefix_append q [k]))
      exact absurd (moved_from hb' (ha.trans (List.prefix_append q [k]))) hk
    · rw [moved_of_not hb ha]
      rw [moved_snoc h hb ha] at hk
      split_ifs at hk with hq hq'
      · rw [hq.1]
        exact h.isDir
      · exact absurd rfl hk
      · exact t.parent q k hk

variable (h : Movable t dir n dir' n')

theorem node_move_to (r : List ν) : (t.move dir n dir' n' h).node (dir' ++ [n'] ++ r) = t.node (dir ++ [n] ++ r) :=
  t.moved_to (dir ++ [n]) (dir' ++ [n']) r

theorem node_move_from (hq : dir ++ [n] <+: q) : (t.move dir n dir' n' h).node q = none :=
  moved_from (fun hb => h.disjoint hb hq) hq

theorem node_move_of_not (hb : ¬ dir' ++ [n'] <+: q) (ha : ¬ dir ++ [n] <+: q) :
    (t.move dir n dir' n' h).node q = t.node q := moved_of_not hb ha

theorem isDir_move (hb : ¬ dir' ++ [n'] <+: q) (ha : ¬ dir ++ [n] <+: q) :
    (t.move dir n dir' n' h).IsDir q ↔ t.IsDir q := by
  unfold IsDir
  rw [node_move_of_not h hb ha]

/-- What was moved can move back. -/
theorem movable_back : Movable (t.move dir n dir' n' h) dir' n' dir n where
  there := by
    have hto := node_move_to h []
    rw [List.append_nil, List.append_nil] at hto
    rw [hto]
    exact h.there
  isDir := (isDir_move h h.notOver fun hpre => by simpa using hpre.length_le).2 h.isDir_dir
  ne := h.ne.symm
  notInto := h.notOver
  notOver := h.notInto
  bare := by
    rw [entries_eq_nil_iff]
    exact fun k => node_move_from h (List.prefix_append _ [k])

/-- Nothing has changed then, if its name was free. -/
theorem move_back (hnew : t.node (dir' ++ [n']) = none) (q : List ν) :
    ((t.move dir n dir' n' h).move dir' n' dir n (movable_back h)).node q = t.node q := by
  by_cases ha : dir ++ [n] <+: q
  · obtain ⟨r, rfl⟩ := ha
    rw [node_move_to, node_move_to]
  by_cases hb : dir' ++ [n'] <+: q
  · rw [node_move_from _ hb, t.node_eq_none_of_prefix hb hnew]
  · rw [node_move_of_not _ ha hb, node_move_of_not h hb ha]

end move

/-! ## The nodes that are left -/

/-- The names that lead to a node. -/
def names (t : FileTree ν δ α) : Set (List ν) := {q | t.node q ≠ none}

/-- `t'` has the nodes of `t` without `k` of them, each with its data but perhaps at another name, and no others. -/
def Keeps (t t' : FileTree ν δ α) (k : Nat) : Prop :=
  ∃ φ : List ν → List ν, Set.InjOn φ t'.names ∧ (∀ q ∈ t'.names, t.node (φ q) = t'.node q) ∧
    (t.names \ φ '' t'.names).encard = k

theorem Keeps.refl (t : FileTree ν δ α) : Keeps t t 0 :=
  ⟨id, Set.injOn_id _, fun _ _ => rfl, by rw [Set.image_id, Set.sdiff_self, Set.encard_empty]; rfl⟩

theorem Keeps.trans {k k' : Nat} (h : Keeps t t' k) (h' : Keeps t' t'' k') : Keeps t t'' (k + k') := by
  obtain ⟨φ, hinj, hnode, hlost⟩ := h
  obtain ⟨ψ, hinj', hnode', hlost'⟩ := h'
  have hmaps : ∀ q ∈ t''.names, ψ q ∈ t'.names := fun q hq => by
    rw [names, Set.mem_ofPred_eq, hnode' q hq]
    exact hq
  have hmaps' : ∀ q ∈ t'.names, φ q ∈ t.names := fun q hq => by
    rw [names, Set.mem_ofPred_eq, hnode q hq]
    exact hq
  have himage : ψ '' t''.names ⊆ t'.names := Set.image_subset_iff.2 hmaps
  refine ⟨φ ∘ ψ, hinj.comp hinj' hmaps, fun q hq => ?_, ?_⟩
  · exact (hnode _ (hmaps q hq)).trans (hnode' q hq)
  · -- lost on the way to `t'`, or from there on
    have hsplit : t.names \ φ ∘ ψ '' t''.names = (t.names \ φ '' t'.names) ∪ φ '' (t'.names \ ψ '' t''.names) := by
      rw [Set.image_comp, hinj.image_sdiff_subset himage]
      ext q
      simp only [Set.mem_sdiff, Set.mem_union]
      constructor
      · rintro ⟨hq, hnot⟩
        by_cases hq' : q ∈ φ '' t'.names
        · exact .inr ⟨hq', hnot⟩
        · exact .inl ⟨hq, hq'⟩
      · rintro (⟨hq, hnot⟩ | ⟨⟨p, hp, rfl⟩, hnot⟩)
        · exact ⟨hq, fun hmem => hnot (Set.image_mono himage hmem)⟩
        · exact ⟨hmaps' p hp, hnot⟩
    have hdisjoint : Disjoint (t.names \ φ '' t'.names) (φ '' (t'.names \ ψ '' t''.names)) :=
      Set.disjoint_left.2 fun q hq hq' => hq.2 (Set.image_mono Set.sdiff_subset hq')
    rw [hsplit, Set.encard_union_eq hdisjoint, hlost, (hinj.mono Set.sdiff_subset).encard_image, hlost']
    rfl

theorem Keeps.linkFree {k : Nat} (h : Keeps t t' k) (hfree : t.LinkFree) : t'.LinkFree := by
  obtain ⟨φ, -, hnode, -⟩ := h
  intro q target hq
  have hthere : q ∈ t'.names := fun hnone => Option.some_ne_none _ (hq.symm.trans hnone)
  exact hfree (φ q) target ((hnode q hthere).trans hq)

section Moving

variable [DecidableEq ν]

/-- Where the node of a name was before. -/
def origin (a b q : List ν) : List ν := if b <+: q then a ++ q.drop b.length else q

theorem origin_to (a b r : List ν) : origin a b (b ++ r) = a ++ r := by
  unfold origin
  rw [if_pos (List.prefix_append b r), List.drop_left]

theorem origin_of_not {a b : List ν} (hb : ¬ b <+: q) : origin a b q = q := if_neg hb

/-- A name that leads to a node after the move is below the new name, or is not concerned. -/
theorem names_move (h : Movable t dir n dir' n') (hq : q ∈ (t.move dir n dir' n' h).names) :
    (∃ r, q = dir' ++ [n'] ++ r) ∨ ¬ dir' ++ [n'] <+: q ∧ ¬ dir ++ [n] <+: q := by
  by_cases hb : dir' ++ [n'] <+: q
  · obtain ⟨r, rfl⟩ := hb
    exact .inl ⟨r, rfl⟩
  · exact .inr ⟨hb, fun ha => hq (node_move_from h ha)⟩

theorem node_origin (h : Movable t dir n dir' n') (hq : q ∈ (t.move dir n dir' n' h).names) :
    t.node (origin (dir ++ [n]) (dir' ++ [n']) q) = (t.move dir n dir' n' h).node q := by
  rcases names_move h hq with ⟨r, rfl⟩ | ⟨hb, ha⟩
  · rw [origin_to, node_move_to]
  · rw [origin_of_not hb, node_move_of_not h hb ha]

theorem injOn_origin (h : Movable t dir n dir' n') :
    Set.InjOn (origin (dir ++ [n]) (dir' ++ [n'])) (t.move dir n dir' n' h).names := by
  intro q hq q' hq' heq
  rcases names_move h hq with ⟨r, rfl⟩ | ⟨hb, ha⟩
  · rcases names_move h hq' with ⟨r', rfl⟩ | ⟨hb', ha'⟩
    · rw [origin_to, origin_to] at heq
      rw [List.append_cancel_left heq]
    · rw [origin_to, origin_of_not hb'] at heq
      exact absurd ⟨r, heq⟩ ha'
  · rcases names_move h hq' with ⟨r', rfl⟩ | ⟨hb', ha'⟩
    · rw [origin_to, origin_of_not hb] at heq
      exact absurd ⟨r', heq.symm⟩ ha
    · rwa [origin_of_not hb, origin_of_not hb'] at heq

/-- Every node is still there but the one at the new name. -/
theorem lost_move (h : Movable t dir n dir' n') :
    t.names \ origin (dir ++ [n]) (dir' ++ [n']) '' (t.move dir n dir' n' h).names =
      {q | q = dir' ++ [n'] ∧ t.node q ≠ none} := by
  ext q
  constructor
  · rintro ⟨hq, hnot⟩
    by_cases ha : dir ++ [n] <+: q
    · obtain ⟨r, rfl⟩ := ha
      refine absurd ⟨dir' ++ [n'] ++ r, ?_, origin_to _ _ r⟩ hnot
      rw [names, Set.mem_ofPred_eq, node_move_to]
      exact hq
    by_cases hb : dir' ++ [n'] <+: q
    · exact ⟨(mem_subtree_of_entries h.bare hq).1 hb, hq⟩
    · refine absurd ⟨q, ?_, origin_of_not hb⟩ hnot
      rw [names, Set.mem_ofPred_eq, node_move_of_not h hb ha]
      exact hq
  · rintro ⟨rfl, hq⟩
    refine ⟨hq, ?_⟩
    rintro ⟨q', hq', heq⟩
    rcases names_move h hq' with ⟨r, rfl⟩ | ⟨hb, -⟩
    · rw [origin_to] at heq
      exact h.not_prefix ⟨r, heq⟩
    · rw [origin_of_not hb] at heq
      exact hb (heq ▸ List.prefix_rfl)

/-- A move loses the node it replaces, and nothing else. -/
theorem keeps_move (h : Movable t dir n dir' n') :
    Keeps t (t.move dir n dir' n' h) (if t.node (dir' ++ [n']) = none then 0 else 1) := by
  refine ⟨origin (dir ++ [n]) (dir' ++ [n']), injOn_origin h, fun q => node_origin h, ?_⟩
  rw [lost_move]
  by_cases hnew : t.node (dir' ++ [n']) = none
  · have hempty : {q | q = dir' ++ [n'] ∧ t.node q ≠ none} = ∅ := by
      ext q
      simp only [Set.mem_ofPred_eq, Set.mem_empty_iff_false, iff_false, not_and, not_not]
      rintro rfl
      exact hnew
    rw [hempty, if_pos hnew, Set.encard_empty]
    rfl
  · have hsingle : {q | q = dir' ++ [n'] ∧ t.node q ≠ none} = {dir' ++ [n']} := by
      ext q
      simp only [Set.mem_ofPred_eq, Set.mem_singleton_iff, and_iff_left_iff_imp]
      rintro rfl
      exact hnew
    rw [hsingle, if_neg hnew, Set.encard_singleton]
    rfl

/-! ## The call -/

instance : Decidable (Movable t dir n dir' n') :=
  decidable_of_iff (t.node (dir ++ [n]) ≠ none ∧ t.IsDir dir' ∧ dir ++ [n] ≠ dir' ++ [n'] ∧ ¬ dir ++ [n] <+: dir' ∧
      ¬ dir' ++ [n'] <+: dir ∧ t.entries (dir' ++ [n']) = [])
    ⟨fun h => ⟨h.1, h.2.1, h.2.2.1, h.2.2.2.1, h.2.2.2.2.1, h.2.2.2.2.2⟩,
      fun h => ⟨h.there, h.isDir, h.ne, h.notInto, h.notOver, h.bare⟩⟩

/-- `rename` : a directory replaces only an empty directory, what is none only what is none, and slashes name directories. -/
def rename (t : FileTree ν δ α) (links : Nat) (start : List ν) (cs : List (Comp ν)) (start' : List ν)
    (cs' : List (Comp ν)) : Except Failure (FileTree ν δ α) :=
  match lookup t links start cs, lookup t links start' cs' with
  | .error e, _ | .ok _, .error e => .error e
  | .ok (dir, .name n, slashes), .ok (dir', .name n', slashes') =>
    if t.node (dir ++ [n]) = none then .error .noEntry
    else if ¬ t.IsDir (dir ++ [n]) ∧ (slashes ∨ slashes') then .error .notDirectory
    else if dir ++ [n] <+: dir' then .error .invalid
    else if dir' ++ [n'] <+: dir then .error .notEmpty
    else if dir ++ [n] = dir' ++ [n'] then .ok t
    else if t.IsDir (dir ++ [n]) ∧ t.Blocks (dir' ++ [n']) then .error .notDirectory
    else if ¬ t.IsDir (dir ++ [n]) ∧ t.IsDir (dir' ++ [n']) then .error .isDirectory
    else if h : Movable t dir n dir' n' then .ok (t.move dir n dir' n' h)
    else .error .notEmpty
  | .ok _, .ok _ => .error .busy

/-- How many nodes a `rename` that succeeds removes. -/
def replaced (t : FileTree ν δ α) (links : Nat) (start : List ν) (cs : List (Comp ν)) (start' : List ν)
    (cs' : List (Comp ν)) : Nat :=
  match lookup t links start cs, lookup t links start' cs' with
  | .ok (dir, .name n, _), .ok (dir', .name n', _) =>
    if dir ++ [n] = dir' ++ [n'] ∨ t.node (dir' ++ [n']) = none then 0 else 1
  | _, _ => 0

theorem rename_spec (h : rename t links start cs start' cs' = .ok t') :
    ∃ dir n slashes dir' n' slashes', lookup t links start cs = .ok (dir, .name n, slashes) ∧
      lookup t links start' cs' = .ok (dir', .name n', slashes') ∧ t.node (dir ++ [n]) ≠ none ∧
      ((dir ++ [n] = dir' ++ [n'] ∧ t' = t) ∨ ∃ hmov, t' = t.move dir n dir' n' hmov) := by
  unfold rename at h
  split at h
  · cases h
  · cases h
  · split_ifs at h with hnone hslash hinto hover hsame hblock hdir hmov
    · exact ⟨_, _, _, _, _, _, ‹_›, ‹_›, hnone, .inl ⟨hsame, (Except.ok.inj h).symm⟩⟩
    · exact ⟨_, _, _, _, _, _, ‹_›, ‹_›, hnone, .inr ⟨hmov, (Except.ok.inj h).symm⟩⟩
  · cases h

/-- **A `rename` loses at most the node it replaces.** -/
theorem keeps_rename (h : rename t links start cs start' cs' = .ok t') :
    Keeps t t' (replaced t links start cs start' cs') := by
  obtain ⟨dir, n, slashes, dir', n', slashes', hlook, hlook', -, ⟨hsame, rfl⟩ | ⟨hmov, rfl⟩⟩ := rename_spec h
  · have hnone : replaced t' links start cs start' cs' = 0 := by
      unfold replaced
      rw [hlook, hlook']
      exact if_pos (.inl hsame)
    rw [hnone]
    exact Keeps.refl t'
  · have hcount : replaced t links start cs start' cs' = if t.node (dir' ++ [n']) = none then 0 else 1 := by
      unfold replaced
      rw [hlook, hlook']
      exact if_congr (or_iff_right hmov.ne) rfl rfl
    rw [hcount]
    exact keeps_move hmov

/-- What the names of a subtree and a free name do. -/
theorem rename_of_lookup {slashes : Bool} (hlook : lookup t links start cs = .ok (dir, .name n, slashes))
    (hlook' : lookup t links start' cs' = .ok (dir', .name n', false)) (hslashes : slashes = false)
    (hmov : Movable t dir n dir' n') (hnew : t.node (dir' ++ [n']) = none) :
    rename t links start cs start' cs' = .ok (t.move dir n dir' n' hmov) := by
  have hblock : ¬ t.Blocks (dir' ++ [n']) := fun hb => hb.1 hnew
  have hdir : ¬ t.IsDir (dir' ++ [n']) := fun hd => hd.real.node_ne_none hnew
  unfold rename
  simp only [hlook, hlook', hslashes, if_neg hmov.there, if_neg hmov.notInto, if_neg hmov.notOver, if_neg hmov.ne,
    hblock, hdir, and_false, or_self, Bool.false_eq_true, if_false, dif_pos hmov]

end Moving

end FileTree
