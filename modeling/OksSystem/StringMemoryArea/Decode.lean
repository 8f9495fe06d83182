import Mathlib.Data.List.Induction
import OksSystem.StringMemoryArea.Codec

/-!
# What the decoders read in any text

A text that comes from a mapped file need not be one that `insert` has written.

* `LastEntry` : the last piece with the key `k` has the value `v`;
* `get?_mapOf` : `get_map` binds `k` to `v` exactly then;
* `passes_le` : the two loops make no more passes than the text has bytes;
* `decoders_read` : what `get_vector` and `get_map` give for the text at an offset.
-/

namespace OksSystem.StringMemoryArea
open ByteBuffer

/-- `v` follows the first separator in the last of the `pieces` that have `k` in front of it. -/
def LastEntry (pieces : List Str) (k v : Str) : Prop :=
  STRING_SEPARATOR ∉ k ∧ ∃ before after, pieces = before ++ (k ++ STRING_SEPARATOR :: v) :: after ∧
    ∀ w, k ++ STRING_SEPARATOR :: w ∉ after

variable {pieces : List Str} {k v w : Str}

theorem not_lastEntry_nil : ¬ LastEntry [] k v := by
  rintro ⟨-, before, after, h, -⟩
  exact List.append_ne_nil_of_right_ne_nil before (List.cons_ne_nil _ after) h.symm

theorem cut_inj {k' v' : Str} (hk : STRING_SEPARATOR ∉ k) (hk' : STRING_SEPARATOR ∉ k')
    (h : k ++ STRING_SEPARATOR :: v = k' ++ STRING_SEPARATOR :: v') : k = k' ∧ v = v' := by
  have hlength : k.length = k'.length := by
    have hfind := Pieces.find_append_cons (t := v) hk
    rw [h, Pieces.find_append_cons hk'] at hfind
    exact (Option.some.inj hfind).symm
  obtain ⟨hkey, hrest⟩ := List.append_inj h hlength
  exact ⟨hkey, (List.cons.inj hrest).2⟩

/-- A further piece that is not an entry of `k` changes nothing. -/
theorem lastEntry_append_of_ne {piece : Str} (h : ∀ w, piece ≠ k ++ STRING_SEPARATOR :: w) :
    LastEntry (pieces ++ [piece]) k v ↔ LastEntry pieces k v := by
  refine and_congr_right fun _ => ⟨?_, ?_⟩
  · rintro ⟨before, after, hsplit, hlast⟩
    rcases List.eq_nil_or_concat after with rfl | ⟨rest, l, rfl⟩
    · exact absurd (List.append_inj' hsplit rfl).2 (fun heq => h v (List.singleton_inj.1 heq))
    · rw [List.concat_eq_append, ← List.cons_append, ← List.append_assoc] at hsplit
      obtain ⟨hpieces, -⟩ := List.append_inj' hsplit rfl
      exact ⟨before, rest, hpieces, fun w hw => hlast w (by simp [hw])⟩
  · rintro ⟨before, after, rfl, hlast⟩
    refine ⟨before, after ++ [piece], by simp, fun w hw => ?_⟩
    rcases List.mem_append.1 hw with hw | hw
    · exact hlast w hw
    · exact h w (List.mem_singleton.1 hw).symm

/-- A further entry of `k` is its last one. -/
theorem lastEntry_append_self (hk : STRING_SEPARATOR ∉ k) :
    LastEntry (pieces ++ [k ++ STRING_SEPARATOR :: w]) k v ↔ w = v := by
  constructor
  · rintro ⟨-, before, after, hsplit, hlast⟩
    rcases List.eq_nil_or_concat after with rfl | ⟨rest, l, rfl⟩
    · have hlast := List.singleton_inj.1 (List.append_inj' hsplit rfl).2
      exact (cut_inj hk hk hlast).2
    · rw [List.concat_eq_append, ← List.cons_append, ← List.append_assoc] at hsplit
      have hl := List.singleton_inj.1 (List.append_inj' hsplit rfl).2
      exact absurd (by simp [hl]) (hlast w)
  · rintro rfl
    exact ⟨hk, pieces, [], rfl, fun _ => List.not_mem_nil⟩

/-- The entries bound one after the other: the last one of a key stays. -/
theorem get?_foldl_bindEntry (pieces : List Str) (k v : Str) :
    (pieces.foldl bindEntry .empty).get? k = some v ↔ LastEntry pieces k v := by
  induction pieces using List.reverseRecOn with
  | nil => exact iff_of_false nofun not_lastEntry_nil
  | append_singleton pieces piece ih =>
    rw [List.foldl_append, List.foldl_cons, List.foldl_nil]
    rcases entry_cases piece with hno | ⟨k', w, rfl, hk'⟩
    · have hne : ∀ w, piece ≠ k ++ STRING_SEPARATOR :: w := by
        rintro w rfl
        exact hno (by simp)
      rw [bindEntry_of_notMem hno, ih, lastEntry_append_of_ne hne]
    · rw [bindEntry_entryText hk', SortedMap.get?_insert]
      by_cases hkey : k' = k
      · subst hkey
        rw [if_pos rfl, Option.some_inj, lastEntry_append_self hk']
      · rw [if_neg hkey, ih]
        by_cases hk : STRING_SEPARATOR ∈ k
        · exact iff_of_false (fun h => h.1 hk) fun h => h.1 hk
        · exact (lastEntry_append_of_ne fun w' h => hkey (cut_inj hk' hk h).1).symm

theorem get?_mapOf (text k v : Str) :
    (mapOf text).get? k = some v ↔ LastEntry (text.splitOn MAP_ENTRY_SEPARATOR) k v := by
  rw [mapOf_eq, get?_foldl_bindEntry]

/-- How often the loop over the pieces runs its body. -/
def passes (sep : Byte) (text : Str) : Nat := Pieces.forPieces sep text (fun n _ => n + 1) 0 0

theorem passes_le (sep : Byte) (text : Str) : passes sep text ≤ text.length := by
  have h := Pieces.forPieces_count_le sep text 0 0
  rwa [Nat.zero_add, Nat.sub_zero] at h

/-- **The decoders accept every text**: `get_vector` gives the non-empty pieces between the separators in their order, and
`get_map` binds a key to what its last entry says, a piece without `STRING_SEPARATOR` being none. -/
theorem decoders_read {a : StringMemoryArea} {offset : UInt32} {t : Str}
    (hr : 1 ≤ offset.toNat ∧ offset.toNat ≤ a.stringAreaSize.toNat) (hn : a.readNull = false)
    (ht : readStr a.data offset.toNat = some t) :
    (getVector offset).run a = .ok ((t.splitOn STRING_SEPARATOR).filter (· ≠ [])) a ∧
    (∃ m : StrMap, (getMap offset).run a = .ok m a ∧
      ∀ k v, m.get? k = some v ↔ LastEntry (t.splitOn MAP_ENTRY_SEPARATOR) k v) ∧
    passes STRING_SEPARATOR t ≤ t.length ∧ passes MAP_ENTRY_SEPARATOR t ≤ t.length := by
  have hread := run_textAt hr hn ht
  refine ⟨?_, ⟨mapOf t, run_getMap hr hread, get?_mapOf t⟩, passes_le _ t, passes_le _ t⟩
  rw [run_getVector hread, vectorOf_eq]

/-- A text that `insert` does not write: two entries of "a", a piece that is no entry, an empty one. -/
def repeatedKey : StringMemoryArea := ⟨[0, 97, 3, 49, 4, 120, 4, 4, 97, 3, 50, 3, 51, 0], false, 12, 12⟩

theorem decoders_read_repeated :
    (getVector 1).run repeatedKey = .ok [[97], [49, 4, 120, 4, 4, 97], [50], [51]] repeatedKey ∧
      ∃ m : StrMap, (getMap 1).run repeatedKey = .ok m repeatedKey ∧ m.get? [97] = some [50, 3, 51] := by
  have hread : readStr repeatedKey.data (1 : UInt32).toNat = some [97, 3, 49, 4, 120, 4, 4, 97, 3, 50, 3, 51] := by decide
  obtain ⟨hvector, ⟨m, hmap, hbinds⟩, -⟩ := decoders_read (by decide) rfl hread
  refine ⟨hvector, m, hmap, (hbinds [97] [50, 3, 51]).2 ⟨by decide, [[97, 3, 49], [120], []], [], by decide, ?_⟩⟩
  exact fun _ => List.not_mem_nil

end OksSystem.StringMemoryArea
