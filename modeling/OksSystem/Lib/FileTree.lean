import Mathlib.Logic.Function.Basic
import Mathlib.Data.List.Infix
import Mathlib.Data.List.Nodup

/-!
# File system trees and path resolution

A node is known by the names that lead to it from the root.

* `FileTree ν δ α` : names `ν`, what a directory (`δ`) and a node that is neither a directory nor a link (`α`) hold;
* `ofRoot`, `insert` : the root alone, and a new node in a directory;
* `erase` : a node without entries removed; `Sub` : a tree with nodes missing (`erase_sub`);
* `walk`, `resolve` : the resolution of a path with at most so many links followed; `resolve_mono` : what a tree with
  nodes missing resolves, the tree resolves alike; `resolve_real` : the result is there and is no link;
* `walk_names` : names that lead to a node which is no link resolve to that node;
* `resolve_more`, `resolve_split` : more links, and the parts of a path.
-/

universe u v w

/-- A component of a path. -/
inductive Comp (ν : Type u) where
  | empty
  | dot
  | dotdot
  | name (n : ν)
  deriving DecidableEq, Repr

/-- What a link points to, from the root or from the directory of the link. -/
structure Target (ν : Type u) where
  absolute : Bool
  comps : List (Comp ν)
  deriving DecidableEq, Repr

inductive Node (ν : Type u) (δ : Type v) (α : Type w) where
  | dir (d : δ)
  | link (target : Target ν)
  | other (a : α)
  deriving DecidableEq, Repr

/-- Every node but the root has a directory as its parent, which lists it. -/
structure FileTree (ν : Type u) (δ : Type v) (α : Type w) where
  node : List ν → Option (Node ν δ α)
  entries : List ν → List ν
  nodup : ∀ p, (entries p).Nodup
  mem_entries : ∀ p n, n ∈ entries p ↔ node (p ++ [n]) ≠ none
  root : ∃ d, node [] = some (.dir d)
  parent : ∀ p n, node (p ++ [n]) ≠ none → ∃ d, node p = some (.dir d)

/-- Why a path does not resolve, or a call on it fails. -/
inductive Failure where
  | noEntry
  | notDirectory
  | tooManyLinks
  | exists
  | notEmpty
  | isDirectory
  | busy
  | invalid
  deriving DecidableEq, Repr

namespace FileTree

variable {ν : Type u} {δ : Type v} {α : Type w}

/-! ## Nodes -/

def IsDir (t : FileTree ν δ α) (p : List ν) : Prop := ∃ d, t.node p = some (.dir d)

/-- There is a node at `p`, and it is no link. -/
def Real (t : FileTree ν δ α) (p : List ν) : Prop := ∃ n, t.node p = some n ∧ ∀ target, n ≠ .link target

instance (t : FileTree ν δ α) (p : List ν) : Decidable (t.IsDir p) :=
  match h : t.node p with
  | some (.dir d) => .isTrue ⟨d, h⟩
  | some (.link _) => .isFalse fun ⟨_, h'⟩ => by rw [h] at h'; cases h'
  | some (.other _) => .isFalse fun ⟨_, h'⟩ => by rw [h] at h'; cases h'
  | none => .isFalse fun ⟨_, h'⟩ => by rw [h] at h'; cases h'

theorem Real.node_ne_none {t : FileTree ν δ α} {p : List ν} (h : t.Real p) : t.node p ≠ none := by
  obtain ⟨n, hn, -⟩ := h
  exact hn ▸ Option.some_ne_none n

theorem IsDir.real {t : FileTree ν δ α} {p : List ν} (h : t.IsDir p) : t.Real p := by
  obtain ⟨d, hd⟩ := h
  exact ⟨_, hd, by simp⟩

/-- Everything on the way to a node is a directory. -/
theorem isDir_of_prefix (t : FileTree ν δ α) {p : List ν} (q : List ν) (hq : q ≠ []) (h : t.node (p ++ q) ≠ none) :
    t.IsDir p := by
  induction q using List.reverseRecOn with
  | nil => exact absurd rfl hq
  | append_singleton q n ih =>
    rw [← List.append_assoc] at h
    obtain ⟨d, hd⟩ := t.parent _ _ h
    by_cases hnil : q = []
    · subst hnil
      rw [List.append_nil] at hd
      exact ⟨d, hd⟩
    · exact ih hnil (IsDir.real ⟨d, hd⟩).node_ne_none

theorem Real.isDir_parent {t : FileTree ν δ α} {p q : List ν} (h : t.Real (p ++ q)) (hq : q ≠ []) : t.IsDir p :=
  t.isDir_of_prefix q hq h.node_ne_none

theorem node_ne_none_of_prefix (t : FileTree ν δ α) {p q : List ν} (hpq : p <+: q) (h : t.node q ≠ none) :
    t.node p ≠ none := by
  obtain ⟨r, rfl⟩ := hpq
  by_cases hr : r = []
  · subst hr
    rwa [List.append_nil] at h
  · exact (t.isDir_of_prefix r hr h).real.node_ne_none

/-- Below a name that is free there is nothing. -/
theorem node_eq_none_of_prefix (t : FileTree ν δ α) {p q : List ν} (hpq : p <+: q) (h : t.node p = none) :
    t.node q = none := by
  by_contra hq
  exact t.node_ne_none_of_prefix hpq hq h

theorem entries_eq_nil_iff (t : FileTree ν δ α) (p : List ν) : t.entries p = [] ↔ ∀ n, t.node (p ++ [n]) = none := by
  rw [List.eq_nil_iff_forall_not_mem]
  simp only [t.mem_entries, not_not]

/-! ## Removing nodes -/

/-- The nodes of `t'` are nodes of `t`. -/
def Sub (t' t : FileTree ν δ α) : Prop := ∀ p n, t'.node p = some n → t.node p = some n

theorem Sub.refl (t : FileTree ν δ α) : Sub t t := fun _ _ => id

theorem Sub.trans {t t' t'' : FileTree ν δ α} (h' : Sub t'' t') (h : Sub t' t) : Sub t'' t :=
  fun p n hn => h p n (h' p n hn)

theorem Sub.none {t t' : FileTree ν δ α} (h : Sub t' t) {p : List ν} (hp : t.node p = none) : t'.node p = none := by
  by_contra hne
  obtain ⟨m, hm⟩ := Option.ne_none_iff_exists'.1 hne
  rw [h p m hm] at hp
  cases hp

theorem Sub.entries {t t' : FileTree ν δ α} (h : Sub t' t) {p : List ν} {n : ν} (hn : n ∈ t'.entries p) :
    n ∈ t.entries p := by
  rw [mem_entries] at hn ⊢
  exact fun hnone => hn (h.none hnone)

theorem Sub.isDir {t t' : FileTree ν δ α} (h : Sub t' t) {p : List ν} (hp : t'.IsDir p) : t.IsDir p := by
  obtain ⟨d, hd⟩ := hp
  exact ⟨d, h _ _ hd⟩

section Erase

variable [DecidableEq ν]

/-- The tree without the node at `p ++ [n]`, which has no entries. -/
def erase (t : FileTree ν δ α) (p : List ν) (n : ν) (h : t.entries (p ++ [n]) = []) : FileTree ν δ α where
  node := Function.update t.node (p ++ [n]) none
  entries := Function.update t.entries p ((t.entries p).erase n)
  nodup q := by
    rw [Function.update_apply]
    split_ifs
    · exact (t.nodup p).erase n
    · exact t.nodup q
  mem_entries q m := by
    by_cases hq : q = p
    · subst hq
      rw [Function.update_self, (t.nodup q).mem_erase_iff, t.mem_entries, Function.update_apply]
      simp
    · have hne : q ++ [m] ≠ p ++ [n] := fun heq => hq (List.append_inj' heq rfl).1
      rw [Function.update_of_ne hq, Function.update_of_ne hne]
      exact t.mem_entries q m
  root := by
    rw [Function.update_of_ne (by simp)]
    exact t.root
  parent q m hm := by
    have hne : q ++ [m] ≠ p ++ [n] := by
      intro heq
      rw [heq, Function.update_self] at hm
      exact hm rfl
    rw [Function.update_of_ne hne] at hm
    have hq : q ≠ p ++ [n] := by
      rintro rfl
      have hmem := (t.mem_entries _ m).2 hm
      rw [h] at hmem
      exact List.not_mem_nil hmem
    rw [Function.update_of_ne hq]
    exact t.parent q m hm

variable {t : FileTree ν δ α} {p : List ν} {n : ν} (h : t.entries (p ++ [n]) = [])

theorem node_erase_self : (t.erase p n h).node (p ++ [n]) = none := Function.update_self ..

theorem node_erase_of_ne {q : List ν} (hq : q ≠ p ++ [n]) : (t.erase p n h).node q = t.node q :=
  Function.update_of_ne hq ..

theorem erase_sub : Sub (t.erase p n h) t := by
  intro q m hm
  by_cases hq : q = p ++ [n]
  · rw [hq, node_erase_self] at hm
    cases hm
  · rwa [node_erase_of_ne h hq] at hm

end Erase

/-! ## Adding nodes -/

/-- The tree of the root alone. -/
def ofRoot (d : δ) : FileTree ν δ α where
  node p := if p = [] then some (.dir d) else none
  entries _ := []
  nodup _ := List.nodup_nil
  mem_entries p n := by simp
  root := ⟨d, if_pos rfl⟩
  parent p n h := by simp at h

section Insert

variable [DecidableEq ν]

/-- The tree with a new node in the directory `p`. -/
def insert (t : FileTree ν δ α) (p : List ν) (n : ν) (m : Node ν δ α) (hdir : t.IsDir p)
    (hnew : t.node (p ++ [n]) = none) : FileTree ν δ α where
  node := Function.update t.node (p ++ [n]) (some m)
  entries := Function.update t.entries p (n :: t.entries p)
  nodup q := by
    rw [Function.update_apply]
    split_ifs
    · refine List.nodup_cons.2 ⟨fun hmem => ?_, t.nodup p⟩
      exact (t.mem_entries p n).1 hmem hnew
    · exact t.nodup q
  mem_entries q k := by
    by_cases hq : q = p
    · subst hq
      rw [Function.update_self, List.mem_cons, t.mem_entries, Function.update_apply]
      by_cases hk : k = n
      · simp [hk]
      · simp [hk]
    · have hne : q ++ [k] ≠ p ++ [n] := fun heq => hq (List.append_inj' heq rfl).1
      rw [Function.update_of_ne hq, Function.update_of_ne hne]
      exact t.mem_entries q k
  root := by
    rw [Function.update_of_ne (by simp)]
    exact t.root
  parent q k hk := by
    have hparent : t.IsDir q := by
      by_cases heq : q ++ [k] = p ++ [n]
      · rwa [(List.append_inj' heq rfl).1]
      · rw [Function.update_of_ne heq] at hk
        exact t.parent q k hk
    obtain ⟨d, hd⟩ := hparent
    have hq : q ≠ p ++ [n] := by
      rintro rfl
      rw [hnew] at hd
      cases hd
    rw [Function.update_of_ne hq]
    exact ⟨d, hd⟩

variable {t : FileTree ν δ α} {p : List ν} {n : ν} {m : Node ν δ α} (hdir : t.IsDir p) (hnew : t.node (p ++ [n]) = none)

theorem node_insert_self : (t.insert p n m hdir hnew).node (p ++ [n]) = some m := Function.update_self ..

theorem node_insert_of_ne {q : List ν} (h : q ≠ p ++ [n]) : (t.insert p n m hdir hnew).node q = t.node q :=
  Function.update_of_ne h ..

end Insert

/-! ## Path resolution -/

/-- One pass over the components; a link is handed to `follow` with the directory it starts from. -/
def walk (t : FileTree ν δ α) (follow : List ν → List (Comp ν) → Except Failure (List ν)) :
    List ν → List (Comp ν) → Except Failure (List ν)
  | cur, [] => .ok cur
  | cur, c :: cs =>
    if t.IsDir cur then
      match c with
      | .empty => walk t follow cur cs
      | .dot => walk t follow cur cs
      | .dotdot => walk t follow cur.dropLast cs
      | .name n =>
        match t.node (cur ++ [n]) with
        | none => .error .noEntry
        | some (.link target) =>
          if target.absolute = false ∧ target.comps = [] then .error .noEntry
          else follow (if target.absolute then [] else cur) (target.comps ++ cs)
        | some _ => walk t follow (cur ++ [n]) cs
    else .error .notDirectory

/-- Resolution with at most `links` links followed. -/
def resolve (t : FileTree ν δ α) : Nat → List ν → List (Comp ν) → Except Failure (List ν)
  | 0 => walk t fun _ _ => .error .tooManyLinks
  | links + 1 => walk t (resolve t links)

variable {t t' : FileTree ν δ α} {links : Nat} {cur p q : List ν} {cs : List (Comp ν)}

theorem resolve_eq_walk (t : FileTree ν δ α) (links : Nat) : ∃ follow, resolve t links = walk t follow := by
  cases links with
  | zero => exact ⟨_, rfl⟩
  | succ links => exact ⟨_, rfl⟩

theorem walk_mono (h : Sub t' t) {f f' : List ν → List (Comp ν) → Except Failure (List ν)}
    (hf : ∀ cur cs q, f' cur cs = .ok q → f cur cs = .ok q) (hw : walk t' f' cur cs = .ok q) :
    walk t f cur cs = .ok q := by
  induction cs generalizing cur with
  | nil => exact hw
  | cons c cs ih =>
    unfold walk at hw ⊢
    split_ifs at hw with hd
    rw [if_pos (h.isDir hd)]
    cases c with
    | empty => exact ih hw
    | dot => exact ih hw
    | dotdot => exact ih hw
    | name n =>
      cases hn : t'.node (cur ++ [n]) with
      | none =>
        simp only [hn] at hw
        cases hw
      | some m =>
        simp only [hn] at hw
        simp only [h _ _ hn]
        cases m with
        | dir d => exact ih hw
        | other a => exact ih hw
        | link target =>
          dsimp only at hw ⊢
          split_ifs at hw ⊢
          · exact hf _ _ _ hw
          · exact hf _ _ _ hw

/-- Removing nodes makes no path resolve to anything else. -/
theorem resolve_mono (h : Sub t' t) (hr : resolve t' links cur cs = .ok q) : resolve t links cur cs = .ok q := by
  induction links generalizing cur cs q with
  | zero => exact walk_mono h (fun _ _ _ => id) hr
  | succ links ih => exact walk_mono h (fun _ _ _ => ih) hr

theorem isDir_dropLast (h : t.IsDir cur) : t.IsDir cur.dropLast := by
  by_cases hnil : cur = []
  · rwa [hnil, List.dropLast_nil, ← hnil]
  · apply t.isDir_of_prefix [cur.getLast hnil] (by simp)
    rw [List.dropLast_append_getLast]
    exact h.real.node_ne_none

theorem walk_real {f : List ν → List (Comp ν) → Except Failure (List ν)}
    (hf : ∀ cur cs q, t.Real cur → f cur cs = .ok q → t.Real q) (hcur : t.Real cur) (hw : walk t f cur cs = .ok q) :
    t.Real q := by
  induction cs generalizing cur with
  | nil =>
    cases hw
    exact hcur
  | cons c cs ih =>
    unfold walk at hw
    split_ifs at hw with hd
    cases c with
    | empty => exact ih hcur hw
    | dot => exact ih hcur hw
    | dotdot => exact ih (isDir_dropLast hd).real hw
    | name n =>
      cases hn : t.node (cur ++ [n]) with
      | none =>
        simp only [hn] at hw
        cases hw
      | some m =>
        simp only [hn] at hw
        cases m with
        | dir d => exact ih ⟨_, hn, by simp⟩ hw
        | other a => exact ih ⟨_, hn, by simp⟩ hw
        | link target =>
          dsimp only at hw
          split_ifs at hw with hempty habs
          · exact hf _ _ _ (IsDir.real t.root) hw
          · exact hf _ _ _ hcur hw

/-- What a path resolves to is there, and no link. -/
theorem resolve_real (hcur : t.Real cur) (hr : resolve t links cur cs = .ok q) : t.Real q := by
  induction links generalizing cur cs q with
  | zero => exact walk_real (fun _ _ _ _ h => by cases h) hcur hr
  | succ links ih => exact walk_real (fun _ _ _ => ih) hcur hr

/-- The names on the way to a node that is no link lead there. -/
theorem walk_names {f : List ν → List (Comp ν) → Except Failure (List ν)} (h : t.Real (cur ++ p)) :
    walk t f cur (p.map .name ++ cs) = walk t f (cur ++ p) cs := by
  induction p generalizing cur with
  | nil => rw [List.append_nil, List.map_nil, List.nil_append]
  | cons n p ih =>
    have hcur : t.IsDir cur := h.isDir_parent (List.cons_ne_nil n p)
    have hnext : t.Real (cur ++ [n]) := by
      by_cases hp : p = []
      · rwa [hp] at h
      · rw [List.append_cons] at h
        exact (h.isDir_parent hp).real
    obtain ⟨m, hm, hnot⟩ := hnext
    rw [List.map_cons, List.cons_append]
    rw [List.append_cons] at h ⊢
    rw [walk, if_pos hcur]
    simp only [hm]
    cases m with
    | dir d => exact ih h
    | other a => exact ih h
    | link target => exact absurd rfl (hnot target)

theorem resolve_names (h : t.Real (cur ++ p)) :
    resolve t links cur (p.map .name ++ cs) = resolve t links (cur ++ p) cs := by
  obtain ⟨f, hf⟩ := resolve_eq_walk t links
  rw [hf]
  exact walk_names h

theorem resolve_nil : resolve t links cur [] = .ok cur := by
  obtain ⟨f, hf⟩ := resolve_eq_walk t links
  rw [hf]
  rfl

theorem resolve_map_name (h : t.Real (cur ++ p)) : resolve t links cur (p.map .name) = .ok (cur ++ p) := by
  have hnames : resolve t links cur (p.map .name ++ []) = _ := resolve_names h
  rwa [List.append_nil, resolve_nil] at hnames

theorem resolve_empty (h : t.IsDir cur) : resolve t links cur (.empty :: cs) = resolve t links cur cs := by
  obtain ⟨f, hf⟩ := resolve_eq_walk t links
  rw [hf, walk, if_pos h]

theorem resolve_name_none {n : ν} (h : t.IsDir cur) (hnew : t.node (cur ++ [n]) = none) :
    resolve t links cur (.name n :: cs) = .error .noEntry := by
  obtain ⟨f, hf⟩ := resolve_eq_walk t links
  rw [hf, walk, if_pos h]
  simp only [hnew]

/-! ## How many links are followed -/

/-- What resolves with some links followed resolves alike when more may be. -/
theorem resolve_more {links' : Nat} (hle : links ≤ links') (hr : resolve t links cur cs = .ok q) :
    resolve t links' cur cs = .ok q := by
  induction links generalizing links' cur cs q with
  | zero =>
    obtain ⟨f, hf⟩ := resolve_eq_walk t links'
    rw [hf]
    exact walk_mono (Sub.refl t) (fun _ _ _ h => by cases h) hr
  | succ links ih =>
    obtain ⟨k, rfl⟩ : ∃ k, links' = k + 1 := ⟨links' - 1, by omega⟩
    exact walk_mono (Sub.refl t) (fun _ _ _ => ih (Nat.le_of_succ_le_succ hle)) hr

theorem walk_split {f : List ν → List (Comp ν) → Except Failure (List ν)} {P : List ν → Prop} {cs' : List (Comp ν)}
    (hf : ∀ cur cs, f cur (cs ++ cs') = .ok q → ∃ d, f cur cs = .ok d ∧ P d) (hend : ∀ d, walk t f d cs' = .ok q → P d)
    (hw : walk t f cur (cs ++ cs') = .ok q) : ∃ d, walk t f cur cs = .ok d ∧ P d := by
  induction cs generalizing cur with
  | nil => exact ⟨cur, rfl, hend cur hw⟩
  | cons c cs ih =>
    rw [List.cons_append] at hw
    unfold walk at hw ⊢
    split_ifs at hw ⊢ with hd
    cases c with
    | empty => exact ih hw
    | dot => exact ih hw
    | dotdot => exact ih hw
    | name n =>
      cases hn : t.node (cur ++ [n]) with
      | none =>
        simp only [hn] at hw
        cases hw
      | some m =>
        simp only [hn] at hw ⊢
        cases m with
        | dir d => exact ih hw
        | other a => exact ih hw
        | link target =>
          dsimp only at hw ⊢
          split_ifs at hw ⊢
          · rw [← List.append_assoc] at hw
            exact hf _ _ hw
          · rw [← List.append_assoc] at hw
            exact hf _ _ hw

/-- A path resolves through each of its parts, the rest with the links that are left. -/
theorem resolve_split {cs' : List (Comp ν)} (hr : resolve t links cur (cs ++ cs') = .ok q) :
    ∃ d, resolve t links cur cs = .ok d ∧ ∃ left ≤ links, resolve t left d cs' = .ok q := by
  induction links generalizing cur cs with
  | zero => exact walk_split (fun _ _ h => by cases h) (fun d hd => ⟨0, le_rfl, hd⟩) hr
  | succ links ih =>
    refine walk_split (fun cur cs h => ?_) (fun d hd => ⟨links + 1, le_rfl, hd⟩) hr
    obtain ⟨d, hd, left, hle, hq⟩ := ih h
    exact ⟨d, hd, left, Nat.le_succ_of_le hle, hq⟩

/-! ## The calls that remove a node -/

/-- The directory a path ends in, its last component, and whether slashes follow that. -/
def lookup (t : FileTree ν δ α) (links : Nat) (start : List ν) (cs : List (Comp ν)) :
    Except Failure (List ν × Comp ν × Bool) :=
  match cs.reverse.dropWhile (· matches .empty) with
  | [] => .ok (start, .empty, true)
  | c :: before => do
    let dir ← resolve t links start before.reverse
    if t.IsDir dir then .ok (dir, c, cs.getLast? matches some .empty) else .error .notDirectory

variable {start dir : List ν} {n : ν}

theorem lookup_append_name (t : FileTree ν δ α) (links : Nat) (start : List ν) (cs : List (Comp ν)) (n : ν) :
    lookup t links start (cs ++ [.name n]) = (do
      let dir ← resolve t links start cs
      if t.IsDir dir then .ok (dir, .name n, false) else .error .notDirectory) := by
  unfold lookup
  rw [List.reverse_append, List.reverse_singleton, List.singleton_append, List.dropWhile_cons_of_neg (by simp)]
  simp only [List.reverse_reverse, List.getLast?_concat]

/-- The names that lead to `dir ++ [n]` look up `n` in `dir`. -/
theorem lookup_names (start : List ν) (h : t.IsDir (start ++ dir)) :
    lookup t links start (dir.map .name ++ [.name n]) = .ok (start ++ dir, .name n, false) := by
  rw [lookup_append_name, resolve_map_name h.real]
  exact if_pos h

/-- They look up nothing else when some nodes are gone. -/
theorem lookup_names_of_sub (start : List ν) {q : List ν} {c : Comp ν} {slashes : Bool} (hsub : Sub t' t)
    (h : t.Real (start ++ dir)) (hlook : lookup t' links start (dir.map .name ++ [.name n]) = .ok (q, c, slashes)) :
    q = start ++ dir ∧ c = .name n := by
  rw [lookup_append_name] at hlook
  cases hres : resolve t' links start (dir.map .name) with
  | error e =>
    rw [hres] at hlook
    cases hlook
  | ok r =>
    have hr := resolve_mono hsub hres
    have hnames := hr.symm.trans (resolve_map_name h)
    cases hnames
    rw [hres] at hlook
    change (if t'.IsDir (start ++ dir) then _ else _) = _ at hlook
    split_ifs at hlook
    cases hlook
    exact ⟨rfl, rfl⟩

theorem lookup_empty (h : t.IsDir start) :
    lookup t links start (.empty :: cs ++ [.name n]) = lookup t links start (cs ++ [.name n]) := by
  rw [lookup_append_name, lookup_append_name, resolve_empty h]

theorem entries_eq_nil_of_not_isDir (h : ¬ t.IsDir p) : t.entries p = [] := by
  rw [entries_eq_nil_iff]
  intro n
  by_contra hn
  exact h (t.parent p n hn)

section Erase

variable [DecidableEq ν]

/-- `unlink` : the last component is not followed if it is a link. -/
def unlink (t : FileTree ν δ α) (links : Nat) (start : List ν) (cs : List (Comp ν)) :
    Except Failure (FileTree ν δ α) :=
  match lookup t links start cs with
  | .error e => .error e
  | .ok (dir, .name n, slashes) =>
    if t.node (dir ++ [n]) = none then .error .noEntry
    else if h : t.IsDir (dir ++ [n]) then .error .isDirectory
    else if slashes then .error .notDirectory
    else .ok (t.erase dir n (entries_eq_nil_of_not_isDir h))
  | .ok _ => .error .isDirectory

def rmdir (t : FileTree ν δ α) (links : Nat) (start : List ν) (cs : List (Comp ν)) :
    Except Failure (FileTree ν δ α) :=
  match lookup t links start cs with
  | .error e => .error e
  | .ok (dir, .name n, _) =>
    if t.node (dir ++ [n]) = none then .error .noEntry
    else if t.IsDir (dir ++ [n]) then
      if h : t.entries (dir ++ [n]) = [] then .ok (t.erase dir n h) else .error .notEmpty
    else .error .notDirectory
  | .ok (_, .dot, _) => .error .invalid
  | .ok (_, .dotdot, _) => .error .notEmpty
  | .ok (_, .empty, _) => .error .busy

variable {t₁ : FileTree ν δ α}

theorem unlink_spec (h : unlink t links start cs = .ok t₁) :
    ∃ dir n slashes hnil, lookup t links start cs = .ok (dir, .name n, slashes) ∧ t.node (dir ++ [n]) ≠ none ∧
      ¬ t.IsDir (dir ++ [n]) ∧ t₁ = t.erase dir n hnil := by
  unfold unlink at h
  split at h
  · cases h
  · split_ifs at h with hnone hdir hslashes
    cases h
    exact ⟨_, _, _, entries_eq_nil_of_not_isDir hdir, ‹_›, hnone, hdir, rfl⟩
  · cases h

theorem rmdir_spec (h : rmdir t links start cs = .ok t₁) :
    ∃ dir n slashes hnil, lookup t links start cs = .ok (dir, .name n, slashes) ∧ t.IsDir (dir ++ [n]) ∧
      t₁ = t.erase dir n hnil := by
  unfold rmdir at h
  split at h
  · cases h
  · split_ifs at h with hnone hdir hnil
    cases h
    exact ⟨_, _, _, hnil, ‹_›, hdir, rfl⟩
  all_goals cases h

theorem unlink_of_lookup {slashes : Bool} (hlook : lookup t links start cs = .ok (dir, .name n, slashes))
    (hne : t.node (dir ++ [n]) ≠ none) (hdir : ¬ t.IsDir (dir ++ [n])) (hslashes : slashes = false) :
    ∃ hnil, unlink t links start cs = .ok (t.erase dir n hnil) := by
  refine ⟨entries_eq_nil_of_not_isDir hdir, ?_⟩
  unfold unlink
  simp only [hlook, if_neg hne, dif_neg hdir, hslashes, Bool.false_eq_true, if_false]

theorem rmdir_of_lookup {slashes : Bool} (hlook : lookup t links start cs = .ok (dir, .name n, slashes))
    (hdir : t.IsDir (dir ++ [n])) (hnil : t.entries (dir ++ [n]) = []) :
    rmdir t links start cs = .ok (t.erase dir n hnil) := by
  unfold rmdir
  simp only [hlook, if_neg hdir.real.node_ne_none, if_pos hdir, dif_pos hnil]

theorem unlink_sub (h : unlink t links start cs = .ok t₁) : Sub t₁ t := by
  obtain ⟨dir, n, slashes, hnil, -, -, -, rfl⟩ := unlink_spec h
  exact erase_sub hnil

theorem rmdir_sub (h : rmdir t links start cs = .ok t₁) : Sub t₁ t := by
  obtain ⟨dir, n, slashes, hnil, -, -, rfl⟩ := rmdir_spec h
  exact erase_sub hnil

end Erase

end FileTree
