import Mathlib.Algebra.GroupWithZero.Nat
import Mathlib.Algebra.Order.BigOperators.Group.List
import Mathlib.Algebra.Order.Group.Nat
import OksSystem.StringMemoryArea.Damage
import OksSystem.StringMemoryArea.RoundTrip

/-!
# Writing back what was read

What `get_vector` and `get_map` make of a text, well formed or not, is written again in no more bytes than the text had, so
`insert` writes it in place.

* `length_vectorText_vectorOf`, `length_mapText_mapOf` : a decoded text is not longer when it is encoded again;
* `vectorOf_again`, `mapOf_again` : it is decoded alike;
* `run_insert_back` : `insert` of such a text at its offset;
* `writes_back` : both together, for every text in the area.
-/

namespace OksSystem.StringMemoryArea
open ByteBuffer

variable {a : StringMemoryArea} {o : UInt32} {text : Str}

/-! ## Vectors -/

theorem length_vectorText_vectorOf (text : Str) : (vectorText (vectorOf text)).length ≤ text.length := by
  have htext := congrArg List.length (Pieces.stream_splitOn STRING_SEPARATOR text)
  rw [Pieces.length_stream] at htext
  rw [vectorText, vectorOf_eq, Pieces.length_stream, ← htext]
  refine Nat.sub_le_sub_right ?_ _
  exact (List.filter_sublist.map _).sum_le_sum fun _ _ => Nat.zero_le _

theorem vectorOf_again (text : Str) : vectorOf (vectorText (vectorOf text)) = vectorOf text := by
  rw [vectorOf_vectorText fun s hs => (mem_vectorOf hs).2.1]
  exact List.filter_eq_self.2 fun s hs => decide_eq_true (mem_vectorOf hs).1

theorem nul_notMem_vectorOf (h : 0 ∉ text) : 0 ∉ vectorText (vectorOf text) :=
  Text.Clean.encode (t := .vector (vectorOf text)) fun _ hs h0 => h ((mem_vectorOf hs).2.2 0 h0)

/-! ## Maps -/

/-- What the entries of a map take in the text, each with a separator. -/
def mapWeight (map : StrMap) : Nat := (map.entries.map fun e => (entryText e).length + 1).sum

theorem mapWeight_bindEntry (map : StrMap) (entry : Str) :
    mapWeight (bindEntry map entry) ≤ mapWeight map + (entry.length + 1) := by
  obtain hno | ⟨k, v, rfl, hk⟩ := entry_cases entry
  · rw [bindEntry_of_notMem hno]
    omega
  · rw [bindEntry_entryText hk]
    have hle := SortedMap.sum_insertEntry_le (fun e => (entryText e).length + 1) k v map.entries
    have hlen : (entryText (k, v)).length = (k ++ STRING_SEPARATOR :: v).length := by simp [entryText]
    rw [hlen] at hle
    exact hle

theorem mapWeight_foldl (entries : List Str) (map : StrMap) :
    mapWeight (entries.foldl bindEntry map) ≤ mapWeight map + (entries.map (·.length + 1)).sum := by
  induction entries generalizing map with
  | nil => simp
  | cons entry entries ih =>
    have hstep := mapWeight_bindEntry map entry
    have hrest := ih (bindEntry map entry)
    rw [List.foldl_cons, List.map_cons, List.sum_cons]
    omega

theorem length_mapText (map : StrMap) : (mapText map).length = mapWeight map - 1 := by
  rw [mapText, Pieces.length_stream, List.map_map]
  rfl

theorem length_mapText_mapOf (text : Str) : (mapText (mapOf text)).length ≤ text.length := by
  have htext := congrArg List.length (Pieces.stream_splitOn MAP_ENTRY_SEPARATOR text)
  rw [Pieces.length_stream] at htext
  have hweight := mapWeight_foldl (text.splitOn MAP_ENTRY_SEPARATOR) .empty
  rw [← mapOf_eq] at hweight
  have hempty : mapWeight SortedMap.empty = 0 := rfl
  rw [length_mapText, ← htext]
  rw [hempty, Nat.zero_add] at hweight
  exact Nat.sub_le_sub_right hweight 1

theorem mapOf_again (text : Str) : mapOf (mapText (mapOf text)) = mapOf text :=
  mapOf_mapText fun e he => ⟨(mem_mapOf e he).1.1, (mem_mapOf e he).1.2.1, (mem_mapOf e he).2.1⟩

theorem nul_notMem_mapOf (h : 0 ∉ text) : 0 ∉ mapText (mapOf text) :=
  Text.Clean.encode (t := .map (mapOf text)) fun e he =>
    ⟨fun h0 => h ((mem_mapOf e he).1.2.2 0 h0), fun h0 => h ((mem_mapOf e he).2.2 0 h0)⟩

/-! ## Through the area -/

/-- `insert` of a text that is not longer than the one at the offset. -/
theorem run_insert_back {s : Str} (ho : 1 ≤ o.toNat ∧ o.toNat ≤ a.stringAreaSize.toNat)
    (ht : readStr a.data o.toNat = some text) (h0 : 0 ∉ s) (hl : s.length ≤ text.length) :
    (insert o (.str s)).run a = .ok o (a.rewritten o.toNat text.length s) := by
  rw [run_insert_inplace ho ht (by rwa [cstr_of_notMem h0]), cstr_of_notMem h0, put_zeroed ht hl]

/-- The string that a decoder gets, in an area that may have no string to read. -/
def seen (a : StringMemoryArea) (text : Str) : Option Str := if a.readNull then none else some text

theorem run_textAt_seen (ho : 1 ≤ o.toNat ∧ o.toNat ≤ a.stringAreaSize.toNat) (ht : readStr a.data o.toNat = some text) :
    (textAt o).run a = .ok (a.seen text) a := by
  unfold seen
  split_ifs with hnull
  · have h0 := ne_zero_of_pos ho.1
    simp only [textAt, EStateM.run_bind, run_getString, if_neg h0, if_pos ho, hnull, if_true]
    rfl
  · exact run_textAt ho (Bool.eq_false_iff.2 hnull) ht

theorem run_getVector_seen (ho : 1 ≤ o.toNat ∧ o.toNat ≤ a.stringAreaSize.toNat) (ht : readStr a.data o.toNat = some text) :
    (getVector o).run a = .ok ((a.seen text).elim [] vectorOf) a := by
  unfold getVector
  rw [EStateM.run_bind, run_textAt_seen ho ht]
  cases a.seen text <;> rfl

theorem run_getMap_seen (ho : 1 ≤ o.toNat ∧ o.toNat ≤ a.stringAreaSize.toNat) (ht : readStr a.data o.toNat = some text) :
    (getMap o).run a = .ok ((a.seen text).elim .empty mapOf) a := by
  unfold getMap
  simp only [EStateM.run_bind, EStateM.run_get, run_rangeCheck, if_pos ho, run_textAt_seen ho ht]
  cases a.seen text <;> rfl

/-- Decoding again, once the text is written back. -/
theorem decode_again {α : Type} {decode : Str → α} {encode : α → Str} (nothing : α)
    (hagain : ∀ t, decode (encode (decode t)) = decode t) (hnothing : encode nothing = [])
    (hshort : ∀ t, (encode (decode t)).length ≤ t.length) (hnul : ∀ t, 0 ∉ t → 0 ∉ encode (decode t)) (ht : readStr a.data o.toNat = some text) :
    0 ∉ encode ((a.seen text).elim nothing decode) ∧ (encode ((a.seen text).elim nothing decode)).length ≤ text.length ∧
      (a.seen (encode ((a.seen text).elim nothing decode))).elim nothing decode = (a.seen text).elim nothing decode := by
  unfold seen
  split_ifs
  · show 0 ∉ encode nothing ∧ (encode nothing).length ≤ text.length ∧ nothing = nothing
    rw [hnothing]
    exact ⟨List.not_mem_nil, Nat.zero_le _, rfl⟩
  · exact ⟨hnul text (nul_notMem_of_readStr ht), hshort text, hagain text⟩

/-- What writing back the value `v` that `get` read does: nothing moves or grows, and `get` reads it again. -/
def WritesBack {α : Type} (a : StringMemoryArea) (o : UInt32) (text : Str) (get : Op α) (put : α → Op UInt32) : Prop :=
  ∃ v a', get.run a = .ok v a ∧ (put v).run a = .ok o a' ∧ a'.lastString = a.lastString ∧
    (∀ i, a'.data[i]? ≠ a.data[i]? → o.toNat ≤ i ∧ i < o.toNat + text.length) ∧ get.run a' = .ok v a'

theorem writesBack_of {α : Type} {get : Op α} {put : α → Op UInt32} {v : α} {s : Str}
    (ho : 1 ≤ o.toNat ∧ o.toNat ≤ a.stringAreaSize.toNat) (ht : readStr a.data o.toNat = some text)
    (hget : get.run a = .ok v a) (hput : put v = insert o (.str s)) (h0 : 0 ∉ s) (hl : s.length ≤ text.length)
    (hagain : get.run (a.rewritten o.toNat text.length s) = .ok v (a.rewritten o.toNat text.length s)) :
    WritesBack a o text get put :=
  ⟨v, a.rewritten o.toNat text.length s, hget, hput ▸ run_insert_back ho ht h0 hl, rfl,
    fun _ hne => changed_rewritten ht hl hne, hagain⟩

/-- **In every run, writing back the vector or the map that was read at any offset returns the offset, moves no end and
changes no byte outside the string there, and the same is read again.** -/
theorem writes_back (h : anyCalls.Reachable a) (o : UInt32) (ho : 1 ≤ o.toNat ∧ o.toNat ≤ a.stringAreaSize.toNat) :
    ∃ text, readStr a.data o.toNat = some text ∧ WritesBack a o text (getVector o) (insertVector o) ∧
      WritesBack a o text (getMap o) (insertMap o) := by
  obtain ⟨text, ht, -⟩ := (anyCalls_tail h).text ho.2
  refine ⟨text, ht, ?_, ?_⟩
  · obtain ⟨h0, hl, hagain⟩ := decode_again [] vectorOf_again rfl length_vectorText_vectorOf
      (fun _ => nul_notMem_vectorOf) ht
    refine writesBack_of ho ht (run_getVector_seen ho ht) rfl h0 hl ?_
    exact (run_getVector_seen (a := a.rewritten _ _ _) ho (read_rewritten_self ht hl h0)).trans
      (congrArg (EStateM.Result.ok · _) hagain)
  · obtain ⟨h0, hl, hagain⟩ := decode_again .empty mapOf_again rfl length_mapText_mapOf
      (fun _ => nul_notMem_mapOf) ht
    refine writesBack_of ho ht (run_getMap_seen ho ht) rfl h0 hl ?_
    exact (run_getMap_seen (a := a.rewritten _ _ _) ho (read_rewritten_self ht hl h0)).trans
      (congrArg (EStateM.Result.ok · _) hagain)

/-- The text "ab", read and written back from its second byte. -/
theorem writes_back_inside : ∃ text, readStr holdingAb.data 2 = some text ∧
    WritesBack holdingAb 2 text (getVector 2) (insertVector 2) ∧ WritesBack holdingAb 2 text (getMap 2) (insertMap 2) :=
  writes_back holdingAb_reachable 2 (by decide)

end OksSystem.StringMemoryArea
