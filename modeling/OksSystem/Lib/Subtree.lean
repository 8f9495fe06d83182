import Mathlib.Data.Set.Finite.Lattice
import OksSystem.Lib.Lexical

/-!
# Trees without some of their nodes

* `Without t W t'` : `t'` is `t` without the nodes in `W`; `Without.trans` (union), `Without.congr`, `without_erase`;
* `subtree p`, `under p ns` : the nodes from `p` on, and those from the entries `ns` of `p` on;
* `Finite`, `exists_length_lt` : the names that lead to a node of a finite tree are bounded in number.
-/

universe u v w

namespace FileTree

variable {ν : Type u} {δ : Type v} {α : Type w} {t t' t'' : FileTree ν δ α} {W W' : Set (List ν)} {p q : List ν} {n : ν}

/-- `t'` has the nodes of `t` that are not in `W`, as they are in `t`, and no others. -/
structure Without (t : FileTree ν δ α) (W : Set (List ν)) (t' : FileTree ν δ α) : Prop where
  gone : ∀ q ∈ W, t'.node q = none
  kept : ∀ q, q ∉ W → t'.node q = t.node q

/-- The nodes from `p` on. -/
def subtree (p : List ν) : Set (List ν) := {q | p <+: q}

/-- The nodes from the entries `ns` of `p` on. -/
def under (p ns : List ν) : Set (List ν) := {q | ∃ n ∈ ns, p ++ [n] <+: q}

def Finite (t : FileTree ν δ α) : Prop := {p | t.node p ≠ none}.Finite

theorem exists_length_lt (h : t.Finite) : ∃ k, ∀ p, t.node p ≠ none → p.length < k := by
  obtain ⟨k, hk⟩ := (h.image List.length).bddAbove
  refine ⟨k + 1, fun p hp => Nat.lt_succ_of_le ?_⟩
  exact hk (Set.mem_image_of_mem List.length hp)

theorem finite_ofRoot (d : δ) : (ofRoot d : FileTree ν δ α).Finite := by
  apply (Set.finite_singleton ([] : List ν)).subset
  intro p hp
  by_contra hne
  exact hp (if_neg hne)

theorem Finite.insert [DecidableEq ν] {m : Node ν δ α} (h : t.Finite) (hdir : t.IsDir p)
    (hnew : t.node (p ++ [n]) = none) : (t.insert p n m hdir hnew).Finite := by
  apply (Set.Finite.insert (p ++ [n]) h).subset
  intro q hq
  by_cases heq : q = p ++ [n]
  · exact .inl heq
  · refine .inr fun hnone => hq ?_
    rw [node_insert_of_ne hdir hnew heq, hnone]

/-! ## Steps -/

namespace Without

theorem refl (t : FileTree ν δ α) : Without t ∅ t := ⟨fun _ hq => hq.elim, fun _ _ => rfl⟩

theorem sub (h : Without t W t') : Sub t' t := by
  intro q m hm
  by_cases hq : q ∈ W
  · rw [h.gone q hq] at hm
    cases hm
  · rwa [← h.kept q hq]

theorem trans (h : Without t W t') (h' : Without t' W' t'') : Without t (W ∪ W') t'' := by
  refine ⟨fun q hq => ?_, fun q hq => ?_⟩
  · rcases hq with hq | hq
    · exact h'.sub.none (h.gone q hq)
    · exact h'.gone q hq
  · rw [h'.kept q fun hq' => hq (.inr hq'), h.kept q fun hq' => hq (.inl hq')]

/-- Where `t` has no node, it makes no difference whether `W` has one. -/
theorem congr (h : Without t W t') (heq : ∀ q, t.node q ≠ none → (q ∈ W ↔ q ∈ W')) : Without t W' t' := by
  refine ⟨fun q hq => ?_, fun q hq => ?_⟩
  · by_cases hnode : t.node q = none
    · exact h.sub.none hnode
    · exact h.gone q ((heq q hnode).2 hq)
  · by_cases hnode : t.node q = none
    · rw [hnode]
      exact h.sub.none hnode
    · exact h.kept q fun hq' => hq ((heq q hnode).1 hq')

end Without

theorem without_erase [DecidableEq ν] (hnil : t.entries (p ++ [n]) = []) : Without t {p ++ [n]} (t.erase p n hnil) := by
  refine ⟨fun q hq => ?_, fun q hq => node_erase_of_ne hnil hq⟩
  rw [Set.mem_singleton_iff] at hq
  rw [hq, node_erase_self]

/-! ## Subtrees -/

/-- There is nothing from a missing node on. -/
theorem without_missing (h : t.node p = none) : Without t (subtree p) t := by
  refine (Without.refl t).congr fun q hq => ⟨fun hmem => hmem.elim, fun hpq => ?_⟩
  exact absurd h (t.node_ne_none_of_prefix hpq hq)

/-- A node without entries is all of its subtree. -/
theorem mem_subtree_of_entries (hnil : t.entries p = []) (hq : t.node q ≠ none) : q ∈ subtree p ↔ q = p := by
  constructor
  · rintro ⟨r, rfl⟩
    cases r with
    | nil => exact List.append_nil p
    | cons n r =>
      have hn : t.node (p ++ [n]) ≠ none := t.node_ne_none_of_prefix ⟨r, by simp⟩ hq
      exact absurd ((t.entries_eq_nil_iff p).1 hnil n) hn
  · rintro rfl
    exact List.prefix_rfl

/-- A subtree is its first node and the subtrees of the entries. -/
theorem mem_subtree_iff {ns : List ν} (hns : ∀ n, n ∈ ns ↔ n ∈ t.entries p) (hq : t.node q ≠ none) :
    q ∈ subtree p ↔ q ∈ under p ns ∨ q = p := by
  constructor
  · rintro ⟨r, rfl⟩
    cases r with
    | nil => exact .inr (List.append_nil p)
    | cons n r =>
      have hpre : p ++ [n] <+: p ++ n :: r := ⟨r, by simp⟩
      have hn : t.node (p ++ [n]) ≠ none := t.node_ne_none_of_prefix hpre hq
      exact .inl ⟨n, (hns n).2 ((t.mem_entries p n).2 hn), hpre⟩
  · rintro (⟨n, -, hpre⟩ | rfl)
    · exact (List.prefix_append p [n]).trans hpre
    · exact List.prefix_rfl

theorem under_append (p ns ms : List ν) : under p (ns ++ ms) = under p ns ∪ under p ms := by
  ext q
  constructor
  · rintro ⟨n, hn, hpre⟩
    rcases List.mem_append.1 hn with hn | hn
    · exact .inl ⟨n, hn, hpre⟩
    · exact .inr ⟨n, hn, hpre⟩
  · rintro (⟨n, hn, hpre⟩ | ⟨n, hn, hpre⟩)
    · exact ⟨n, List.mem_append_left _ hn, hpre⟩
    · exact ⟨n, List.mem_append_right _ hn, hpre⟩

theorem under_singleton (p : List ν) (n : ν) : under p [n] = subtree (p ++ [n]) := by
  ext q
  simp [under, subtree]

theorem under_nil (p : List ν) : under p [] = ∅ := by
  ext q
  simp [under]

theorem self_notMem_under (p ns : List ν) : p ∉ under p ns := by
  rintro ⟨n, -, hpre⟩
  have hle := hpre.length_le
  rw [List.length_append, List.length_singleton] at hle
  omega

end FileTree
