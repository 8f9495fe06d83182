import OksSystem.StringMemoryArea.Codec

/-!
# Round trips of the vector and of the map format

A text written by `insertVector` or `insertMap` is cut at its first NUL, stored, and taken apart again by `getVector`
or `getMap`.

* `vectorOf_vectorText`, `mapOf_mapText` : encoding and decoding, on clean strings;
* `mem_vectorOf`, `mem_mapOf` : what the decoders can give at all, so that nothing else comes back;
* `getVector_insertVector`, `getMap_insertMap` : the two round trips, through the area.
-/

namespace OksSystem.StringMemoryArea
open ByteBuffer

/-! ## Vectors -/

theorem vectorOf_vectorText {vect : List Str} (h : ∀ s ∈ vect, STRING_SEPARATOR ∉ s) :
    vectorOf (vectorText vect) = vect.filter (· ≠ []) := by
  rw [vectorOf_eq, vectorText]
  by_cases hv : vect = []
  · subst hv
    simp [Pieces.stream]
  · rw [Pieces.splitOn_stream h hv]

/-- The decoder gives no empty string, no separator, and no byte that is not in the text. -/
theorem mem_vectorOf {text s : Str} (h : s ∈ vectorOf text) :
    s ≠ [] ∧ STRING_SEPARATOR ∉ s ∧ ∀ c ∈ s, c ∈ text := by
  rw [vectorOf_eq, List.mem_filter] at h
  exact ⟨by simpa using h.2, Pieces.mem_splitOn h.1⟩

/-- **A vector comes back as it was exactly when its strings are non-empty and clean**; of clean strings exactly the
empty ones are lost. -/
theorem getVector_insertVector {a a' : StringMemoryArea} {offset r : UInt32} {vect : List Str} (hb : a.Backed)
    (hw : a.Appends offset (cstr (vectorText vect)).length → a.NoWrap (cstr (vectorText vect)).length)
    (h : (insertVector offset vect).run a = .ok r a') :
    ((getVector r).run a' = .ok vect a' ↔ ∀ s ∈ vect, s ≠ [] ∧ STRING_SEPARATOR ∉ s ∧ 0 ∉ s) ∧
      ((∀ s ∈ vect, STRING_SEPARATOR ∉ s ∧ 0 ∉ s) → (getVector r).run a' = .ok (vect.filter (· ≠ [])) a') := by
  obtain ⟨hr, hn, hread⟩ := insert_reads h hw
  have hget : (getVector r).run a' = .ok (vectorOf (cstr (vectorText vect))) a' :=
    run_getVector (run_textAt hr (hn.trans hb.readable) hread)
  have hclean : (∀ s ∈ vect, STRING_SEPARATOR ∉ s ∧ 0 ∉ s) →
      vectorOf (cstr (vectorText vect)) = vect.filter (· ≠ []) := by
    intro hc
    have h0 : 0 ∉ vectorText vect := Pieces.notMem_stream (by decide) (fun s hs => (hc s hs).2) true
    rw [cstr_of_notMem h0, vectorOf_vectorText fun s hs => (hc s hs).1]
  refine ⟨⟨fun heq s hs => ?_, fun hc => ?_⟩, fun hc => by rw [hget, hclean hc]⟩
  · rw [hget] at heq
    have hv : vectorOf (cstr (vectorText vect)) = vect := by injection heq
    obtain ⟨h1, h2, h3⟩ := mem_vectorOf (hv.symm ▸ hs)
    exact ⟨h1, h2, fun h0 => nul_notMem_cstr _ (h3 0 h0)⟩
  · rw [hget, hclean fun s hs => (hc s hs).2]
    congr 1
    exact List.filter_eq_self.2 fun s hs => by simpa using (hc s hs).1

/-- The vector "a", "", "b" comes back without its empty string. -/
theorem getVector_insertVector_gap :
    (getVector 1).run ⟨[0, 97, 3, 3, 98, 0], false, 5, 5⟩ = .ok [[97], [98]] ⟨[0, 97, 3, 3, 98, 0], false, 5, 5⟩ :=
  have h : (insertVector 0 [[97], [], [98]]).run (zeroArea 6 5) = .ok 1 ⟨[0, 97, 3, 3, 98, 0], false, 5, 5⟩ := rfl
  (getVector_insertVector ⟨by decide, rfl⟩ (fun _ => by show 0 + 1 + 4 < 2 ^ 32; decide) h).2 (by decide)

/-! ## Maps -/

theorem foldl_bindEntry {es : List (Str × Str)} (h : ∀ e ∈ es, STRING_SEPARATOR ∉ e.1) (m : StrMap) :
    (es.map entryText).foldl bindEntry m = es.foldl (fun m e => m.insert e.1 e.2) m := by
  induction es generalizing m with
  | nil => rfl
  | cons e es ih =>
    have he : entryText e = e.1 ++ STRING_SEPARATOR :: e.2 := by simp [entryText]
    rw [List.map_cons, List.foldl_cons, List.foldl_cons, he, bindEntry_entryText (h e List.mem_cons_self),
      ih fun f hf => h f (List.mem_cons_of_mem _ hf)]

theorem mapOf_mapText {m : StrMap}
    (h : ∀ e ∈ m.entries, STRING_SEPARATOR ∉ e.1 ∧ MAP_ENTRY_SEPARATOR ∉ e.1 ∧ MAP_ENTRY_SEPARATOR ∉ e.2) :
    mapOf (mapText m) = m := by
  have hsep : ∀ l ∈ m.entries.map entryText, MAP_ENTRY_SEPARATOR ∉ l := by
    intro l hl
    obtain ⟨e, he, rfl⟩ := List.mem_map.1 hl
    obtain ⟨-, h1, h2⟩ := h e he
    simp [entryText, h1, h2]
    decide
  rw [mapOf_eq, mapText]
  by_cases hm : m.entries = []
  · rw [hm]
    exact SortedMap.entries_injective hm.symm
  · rw [Pieces.splitOn_stream hsep (by simpa using hm), foldl_bindEntry fun e he => (h e he).1]
    exact SortedMap.ofList_entries m

/-- A key or a value the map decoder can give for a text. -/
def Decodable (text : Str) (e : Str × Str) : Prop :=
  (STRING_SEPARATOR ∉ e.1 ∧ MAP_ENTRY_SEPARATOR ∉ e.1 ∧ ∀ c ∈ e.1, c ∈ text) ∧
    MAP_ENTRY_SEPARATOR ∉ e.2 ∧ ∀ c ∈ e.2, c ∈ text

theorem bindEntry_decodable {text entry : Str} {m : StrMap} (hentry : MAP_ENTRY_SEPARATOR ∉ entry ∧ ∀ c ∈ entry, c ∈ text)
    (hm : ∀ e ∈ m.entries, Decodable text e) : ∀ e ∈ (bindEntry m entry).entries, Decodable text e := by
  rcases entry_cases entry with hno | ⟨k, v, rfl, hk⟩
  · rw [bindEntry_of_notMem hno]
    exact hm
  · rw [bindEntry_entryText hk]
    intro e he
    rcases SortedMap.mem_insertEntry he with rfl | he
    · simp only [List.mem_append, List.mem_cons, not_or] at hentry
      exact ⟨⟨hk, hentry.1.1, fun c hc => hentry.2 c (.inl hc)⟩, hentry.1.2.2, fun c hc => hentry.2 c (.inr (.inr hc))⟩
    · exact hm e he

theorem mem_mapOf {text : Str} : ∀ e ∈ (mapOf text).entries, Decodable text e := by
  have hfold : ∀ (ls : List Str) (m : StrMap), (∀ l ∈ ls, MAP_ENTRY_SEPARATOR ∉ l ∧ ∀ c ∈ l, c ∈ text) →
      (∀ e ∈ m.entries, Decodable text e) → ∀ e ∈ (ls.foldl bindEntry m).entries, Decodable text e := by
    intro ls
    induction ls with
    | nil => exact fun m _ hm => hm
    | cons l ls ih =>
      exact fun m hls hm => ih _ (fun x hx => hls x (List.mem_cons_of_mem _ hx))
        (bindEntry_decodable (hls l List.mem_cons_self) hm)
  rw [mapOf_eq]
  exact hfold _ _ (fun l hl => Pieces.mem_splitOn hl) (by simp [SortedMap.empty])

/-- **A map comes back as it was exactly when its keys and values are clean**; values may hold `STRING_SEPARATOR`. -/
theorem getMap_insertMap {a a' : StringMemoryArea} {offset r : UInt32} {m : StrMap} (hb : a.Backed)
    (hw : a.Appends offset (cstr (mapText m)).length → a.NoWrap (cstr (mapText m)).length)
    (h : (insertMap offset m).run a = .ok r a') :
    (getMap r).run a' = .ok m a' ↔
      ∀ e ∈ m.entries, (STRING_SEPARATOR ∉ e.1 ∧ MAP_ENTRY_SEPARATOR ∉ e.1 ∧ 0 ∉ e.1) ∧
        MAP_ENTRY_SEPARATOR ∉ e.2 ∧ 0 ∉ e.2 := by
  obtain ⟨hr, hn, hread⟩ := insert_reads h hw
  have hget : (getMap r).run a' = .ok (mapOf (cstr (mapText m))) a' :=
    run_getMap hr (run_textAt hr (hn.trans hb.readable) hread)
  rw [hget]
  constructor
  · intro heq e he
    have hm : mapOf (cstr (mapText m)) = m := by injection heq
    obtain ⟨⟨h1, h2, h3⟩, h4, h5⟩ := mem_mapOf e (hm.symm ▸ he)
    exact ⟨⟨h1, h2, fun h0 => nul_notMem_cstr _ (h3 0 h0)⟩, h4, fun h0 => nul_notMem_cstr _ (h5 0 h0)⟩
  · intro hc
    have h0 : 0 ∉ mapText m := Text.Clean.encode (t := .map m) fun e he => ⟨(hc e he).1.2.2, (hc e he).2.2⟩
    rw [cstr_of_notMem h0, mapOf_mapText fun e he => ⟨(hc e he).1.1, (hc e he).1.2.1, (hc e he).2.1⟩]

/-- The map that binds "a" to the separator itself. -/
def separatorMap : StrMap := ⟨[([97], [3])], by simp⟩

theorem getMap_insertMap_separator :
    (getMap 1).run ⟨[0, 97, 3, 3, 0], false, 4, 4⟩ = .ok separatorMap ⟨[0, 97, 3, 3, 0], false, 4, 4⟩ :=
  have h : (insertMap 0 separatorMap).run (zeroArea 5 4) = .ok 1 ⟨[0, 97, 3, 3, 0], false, 4, 4⟩ := rfl
  (getMap_insertMap ⟨by decide, rfl⟩ (fun _ => by show 0 + 1 + 3 < 2 ^ 32; decide) h).2 (by decide)

end OksSystem.StringMemoryArea
