import Mathlib.Algebra.GroupWithZero.Nat
import Mathlib.Data.List.Basic
import Mathlib.Data.List.Lex
import Mathlib.Order.Lattice

/-!
# Sorted maps

`SortedMap κ ν` is a map kept as its list of entries in strictly increasing key order, so that two maps are equal
exactly when they bind the same keys to the same values (`SortedMap.ext_get?`).

* `get?`, `insert` (which replaces the value of a key that is there), `ofList` : inserting the entries of a list in order;
* `get?_insert`, `get?_ofList` : the last entry of a key wins;
* `ofList_entries` : the entries of a map give it back.
-/

universe u v

structure SortedMap (κ : Type u) (ν : Type v) [LinearOrder κ] where
  entries : List (κ × ν)
  sorted : entries.Pairwise (fun e f => e.1 < f.1)

namespace SortedMap

variable {κ : Type u} {ν : Type v} [LinearOrder κ]

theorem entries_injective {m m' : SortedMap κ ν} (h : m.entries = m'.entries) : m = m' := by
  cases m
  cases m'
  cases h
  rfl

instance [DecidableEq ν] : DecidableEq (SortedMap κ ν) := fun m m' =>
  decidable_of_iff (m.entries = m'.entries) ⟨entries_injective, fun h => h ▸ rfl⟩

def empty : SortedMap κ ν := ⟨[], .nil⟩

/-- The value of the first entry with key `k`. -/
def find (k : κ) : List (κ × ν) → Option ν
  | [] => none
  | e :: es => if e.1 = k then some e.2 else find k es

def get? (m : SortedMap κ ν) (k : κ) : Option ν := find k m.entries

/-- The sorted entries `es` with `k` bound to `v`. -/
def insertEntry (k : κ) (v : ν) : List (κ × ν) → List (κ × ν)
  | [] => [(k, v)]
  | e :: es => if k < e.1 then (k, v) :: e :: es else if k = e.1 then (k, v) :: es else e :: insertEntry k v es

theorem mem_insertEntry {k : κ} {v : ν} {es : List (κ × ν)} {f : κ × ν} (h : f ∈ insertEntry k v es) :
    f = (k, v) ∨ f ∈ es := by
  induction es with
  | nil => simpa [insertEntry] using h
  | cons e es ih =>
    unfold insertEntry at h
    split_ifs at h
    · simpa using h
    · rcases List.mem_cons.1 h with h | h
      · exact .inl h
      · exact .inr (List.mem_cons_of_mem _ h)
    · rcases List.mem_cons.1 h with h | h
      · exact .inr (h ▸ List.mem_cons_self)
      · rcases ih h with h | h
        · exact .inl h
        · exact .inr (List.mem_cons_of_mem _ h)

theorem pairwise_insertEntry {k : κ} {v : ν} {es : List (κ × ν)} (h : es.Pairwise (fun e f => e.1 < f.1)) :
    (insertEntry k v es).Pairwise (fun e f => e.1 < f.1) := by
  induction es with
  | nil => exact List.pairwise_singleton _ _
  | cons e es ih =>
    obtain ⟨he, hes⟩ := List.pairwise_cons.1 h
    unfold insertEntry
    split_ifs with h1 h2
    · refine List.pairwise_cons.2 ⟨fun f hf => ?_, h⟩
      rcases List.mem_cons.1 hf with rfl | hf
      · exact h1
      · exact h1.trans (he f hf)
    · subst h2
      exact List.pairwise_cons.2 ⟨he, hes⟩
    · refine List.pairwise_cons.2 ⟨fun f hf => ?_, ih hes⟩
      rcases mem_insertEntry hf with rfl | hf
      · exact lt_of_le_of_ne (not_lt.1 h1) (Ne.symm h2)
      · exact he f hf

/-- What the entries weigh together grows by the new entry at most. -/
theorem sum_insertEntry_le (w : κ × ν → Nat) (k : κ) (v : ν) (es : List (κ × ν)) :
    ((insertEntry k v es).map w).sum ≤ (es.map w).sum + w (k, v) := by
  induction es with
  | nil => simp [insertEntry]
  | cons e es ih =>
    unfold insertEntry
    split_ifs
    · simp only [List.map_cons, List.sum_cons]
      omega
    · simp only [List.map_cons, List.sum_cons]
      omega
    · simp only [List.map_cons, List.sum_cons]
      omega

def insert (m : SortedMap κ ν) (k : κ) (v : ν) : SortedMap κ ν :=
  ⟨insertEntry k v m.entries, pairwise_insertEntry m.sorted⟩

/-- Inserts the entries of a list one after the other. -/
def ofList (es : List (κ × ν)) : SortedMap κ ν := es.foldl (fun m e => m.insert e.1 e.2) empty

theorem find_insertEntry (k : κ) (v : ν) (es : List (κ × ν)) (k' : κ) :
    find k' (insertEntry k v es) = if k = k' then some v else find k' es := by
  induction es with
  | nil => rfl
  | cons e es ih =>
    unfold insertEntry
    by_cases h1 : k < e.1
    · simp only [if_pos h1, find]
    · by_cases h2 : k = e.1
      · rw [if_neg h1, if_pos h2]
        simp only [find]
        rw [← h2]
        by_cases h3 : k = k'
        · simp only [if_pos h3]
        · simp only [if_neg h3]
      · rw [if_neg h1, if_neg h2]
        simp only [find, ih]
        by_cases h3 : e.1 = k'
        · have h4 : k ≠ k' := fun h => h2 (h.trans h3.symm)
          simp only [if_pos h3, if_neg h4]
        · simp only [if_neg h3]

@[simp] theorem get?_insert (m : SortedMap κ ν) (k : κ) (v : ν) (k' : κ) :
    (m.insert k v).get? k' = if k = k' then some v else m.get? k' := find_insertEntry k v m.entries k'

@[simp] theorem get?_empty (k : κ) : (empty : SortedMap κ ν).get? k = none := rfl

theorem find_eq_some_iff {es : List (κ × ν)} (h : es.Pairwise (fun e f => e.1 < f.1)) {k : κ} {v : ν} :
    find k es = some v ↔ (k, v) ∈ es := by
  induction es with
  | nil => simp [find]
  | cons e es ih =>
    obtain ⟨he, hes⟩ := List.pairwise_cons.1 h
    unfold find
    split_ifs with h1
    · constructor
      · intro hv
        cases hv
        exact h1 ▸ List.mem_cons_self
      · intro hm
        rcases List.mem_cons.1 hm with hm | hm
        · exact congrArg (fun e => some e.2) hm.symm
        · have hlt : e.1 < k := he _ hm
          exact absurd hlt (h1 ▸ lt_irrefl _)
    · rw [ih hes]
      constructor
      · exact List.mem_cons_of_mem _
      · intro hm
        rcases List.mem_cons.1 hm with hm | hm
        · exact absurd (congrArg Prod.fst hm).symm h1
        · exact hm

/-- `k` is bound to `v` exactly when the entry is there. -/
theorem get?_eq_some_iff {m : SortedMap κ ν} {k : κ} {v : ν} : m.get? k = some v ↔ (k, v) ∈ m.entries :=
  find_eq_some_iff m.sorted

theorem ext_get? {m m' : SortedMap κ ν} (h : ∀ k, m.get? k = m'.get? k) : m = m' := by
  refine entries_injective (List.Perm.eq_of_pairwise ?_ m.sorted m'.sorted ?_)
  · intro e f _ _ hef hfe
    exact absurd (hef.trans hfe) (lt_irrefl _)
  · have hn : ∀ m : SortedMap κ ν, m.entries.Nodup := fun m =>
      m.sorted.imp fun {e f} hef => fun heq => absurd (heq ▸ hef) (lt_irrefl _)
    apply (List.perm_ext_iff_of_nodup (hn m) (hn m')).2
    intro e
    rw [← get?_eq_some_iff, ← get?_eq_some_iff, h]

/-- The last entry of a key wins. -/
theorem get?_foldl_insert (es : List (κ × ν)) (m : SortedMap κ ν) (k : κ) :
    (es.foldl (fun m e => m.insert e.1 e.2) m).get? k =
      ((es.reverse.find? (fun e => decide (e.1 = k))).map Prod.snd).or (m.get? k) := by
  induction es generalizing m with
  | nil => simp
  | cons e es ih =>
    rw [List.foldl_cons, ih, get?_insert, List.reverse_cons, List.find?_append]
    by_cases h : e.1 = k
    · cases es.reverse.find? (fun e => decide (e.1 = k)) <;> simp [h]
    · cases es.reverse.find? (fun e => decide (e.1 = k)) <;> simp [h]

/-- Inserting the entries of a map in order gives the map back. -/
theorem ofList_entries (m : SortedMap κ ν) : ofList m.entries = m := by
  refine ext_get? fun k => Option.ext fun v => ?_
  rw [ofList, get?_foldl_insert, get?_empty, Option.or_none, get?_eq_some_iff, Option.map_eq_some_iff]
  constructor
  · rintro ⟨e, he, rfl⟩
    have hk : e.1 = k := by simpa using List.find?_some he
    have hm := List.mem_of_find?_eq_some he
    rw [List.mem_reverse] at hm
    exact hk ▸ hm
  · intro hm
    cases hf : m.entries.reverse.find? (fun e => decide (e.1 = k)) with
    | none =>
      have := List.find?_eq_none.1 hf (k, v) (List.mem_reverse.2 hm)
      simp at this
    | some e =>
      have hk : e.1 = k := by simpa using List.find?_some hf
      have he := List.mem_of_find?_eq_some hf
      rw [List.mem_reverse] at he
      have h1 := get?_eq_some_iff.2 hm
      have h2 : m.get? k = some e.2 := get?_eq_some_iff.2 (by rw [← hk]; exact he)
      rw [h1] at h2
      exact ⟨e, rfl, (Option.some.inj h2).symm⟩

end SortedMap
