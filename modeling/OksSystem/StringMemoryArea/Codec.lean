import Mathlib.Order.Fin.Basic
import OksSystem.Lib.Pieces
import OksSystem.Lib.SortedMap
import OksSystem.StringMemoryArea.Basic

/-!
# Vectors and maps in the area

* `vectorText`, `mapText` : what the two `insert` overloads write into their stream;
* `insertVector`, `insertMap`, `getVector`, `getMap` : the methods;
* `Text` : the argument of one of the three `insert` overloads, `Text.encode` the string it is stored as;
* `vectorOf`, `mapOf` : what the two decoding loops make of a text, as a fold over its pieces.
-/

namespace OksSystem.StringMemoryArea
open ByteBuffer

def STRING_SEPARATOR : Byte := 3

def MAP_ENTRY_SEPARATOR : Byte := 4

/-- `std::map<std::string, std::string>`. -/
abbrev StrMap := SortedMap Str Str

/-- The stream of `insert(offset, vect)`. -/
def vectorText (vect : List Str) : Str := Pieces.stream STRING_SEPARATOR true vect

/-- What `insert(offset, map)` writes for one entry. -/
def entryText (e : Str × Str) : Str := e.1 ++ [STRING_SEPARATOR] ++ e.2

/-- The stream of `insert(offset, map)`. -/
def mapText (map : StrMap) : Str := Pieces.stream MAP_ENTRY_SEPARATOR true (map.entries.map entryText)

def insertVector (offset : UInt32) (vect : List Str) : Op UInt32 := insert offset (.str (vectorText vect))

def insertMap (offset : UInt32) (map : StrMap) : Op UInt32 := insert offset (.str (mapText map))

/-- `std::string text(get_string(offset))`, `none` when the pointer is NULL. -/
def textAt (offset : UInt32) : Op (Option Str) := do
  match ← getString offset with
  | none => return none
  | some i => return some (← deref (.area i))

/-- The body of the loop of `get_vector`. -/
def pushPiece (vector : List Str) (extract : Str) : List Str :=
  if 0 < extract.length then vector ++ [extract] else vector

def vectorOf (text : Str) : List Str := Pieces.forPieces STRING_SEPARATOR text pushPiece 0 []

def getVector (offset : UInt32) : Op (List Str) := do
  match ← textAt offset with
  | none => return []
  | some text => return vectorOf text

/-- The body of the loop of `get_map`. -/
def bindEntry (map : StrMap) (entry : Str) : StrMap :=
  if 0 < entry.length then
    match Pieces.find entry STRING_SEPARATOR 0 with
    | none => map
    | some separatorP =>
      if separatorP + 1 < entry.length then
        map.insert (Pieces.substr entry 0 separatorP) (entry.drop (separatorP + 1))
      else map.insert (Pieces.substr entry 0 separatorP) []
  else map

def mapOf (text : Str) : StrMap := Pieces.forPieces MAP_ENTRY_SEPARATOR text bindEntry 0 .empty

def getMap (offset : UInt32) : Op StrMap := do
  rangeCheck 1 offset.toNat (← get).stringAreaSize.toNat
  match ← textAt offset with
  | none => return .empty
  | some text => return mapOf text

/-- What the three `insert` overloads take. -/
inductive Text where
  | str (s : Str)
  | vector (vect : List Str)
  | map (m : StrMap)

/-- The string a text is stored as. -/
def Text.encode : Text → Str
  | .str s => s
  | .vector vect => vectorText vect
  | .map m => mapText m

/-- No NUL in the strings a text is made of. -/
def Text.Clean : Text → Prop
  | .str s => 0 ∉ s
  | .vector vect => ∀ s ∈ vect, 0 ∉ s
  | .map m => ∀ e ∈ m.entries, 0 ∉ e.1 ∧ 0 ∉ e.2

def insertText (offset : UInt32) : Text → Op UInt32
  | .str s => insert offset (.str s)
  | .vector vect => insertVector offset vect
  | .map m => insertMap offset m

theorem insertText_eq (offset : UInt32) (t : Text) : insertText offset t = insert offset (.str t.encode) := by
  cases t <;> rfl

/-- Strings without NUL are encoded without NUL. -/
theorem Text.Clean.encode {t : Text} (h : t.Clean) : 0 ∉ t.encode := by
  cases t with
  | str s => exact h
  | vector vect => exact Pieces.notMem_stream (by decide) h true
  | map m =>
    refine Pieces.notMem_stream (by decide) (fun l hl => ?_) true
    obtain ⟨e, he, rfl⟩ := List.mem_map.1 hl
    have := h e he
    simp [entryText, STRING_SEPARATOR, this]

/-! ## What the methods read -/

/-- The string at an offset the checks let through. -/
theorem run_textAt {a : StringMemoryArea} {offset : UInt32} {s : Str}
    (hr : 1 ≤ offset.toNat ∧ offset.toNat ≤ a.stringAreaSize.toNat) (hn : a.readNull = false)
    (hs : readStr a.data offset.toNat = some s) : (textAt offset).run a = .ok (some s) a := by
  have h0 := ne_zero_of_pos hr.1
  have hd : (deref (.area offset.toNat)).run a = .ok s a := by
    simp only [deref, EStateM.run_bind, EStateM.run_get, hs]
    rfl
  simp only [textAt, EStateM.run_bind, run_getString, if_neg h0, if_pos hr, hn, Bool.false_eq_true, if_false, hd]
  rfl

theorem run_getVector {a : StringMemoryArea} {offset : UInt32} {s : Str}
    (h : (textAt offset).run a = .ok (some s) a) : (getVector offset).run a = .ok (vectorOf s) a := by
  simp only [getVector, EStateM.run_bind, h]
  rfl

theorem run_getMap {a : StringMemoryArea} {offset : UInt32} {s : Str}
    (hr : 1 ≤ offset.toNat ∧ offset.toNat ≤ a.stringAreaSize.toNat)
    (h : (textAt offset).run a = .ok (some s) a) : (getMap offset).run a = .ok (mapOf s) a := by
  simp only [getMap, EStateM.run_bind, EStateM.run_get, run_rangeCheck, if_pos hr, h]
  rfl

/-! ## The decoders -/

theorem foldl_pushPiece (ls acc : List Str) : ls.foldl pushPiece acc = acc ++ ls.filter (· ≠ []) := by
  induction ls generalizing acc with
  | nil => simp
  | cons l ls ih =>
    rw [List.foldl_cons, ih, pushPiece]
    cases l <;> simp

/-- `get_vector` gives the non-empty pieces between the separators. -/
theorem vectorOf_eq (text : Str) : vectorOf text = (text.splitOn STRING_SEPARATOR).filter (· ≠ []) := by
  rw [vectorOf, Pieces.forPieces_eq_foldl (fun _ => rfl), List.drop_zero, foldl_pushPiece, List.nil_append]

/-- `get_map` binds the entries one after the other. -/
theorem mapOf_eq (text : Str) : mapOf text = (text.splitOn MAP_ENTRY_SEPARATOR).foldl bindEntry .empty := by
  rw [mapOf, Pieces.forPieces_eq_foldl (fun _ => rfl), List.drop_zero]

theorem bindEntry_of_notMem {map : StrMap} {entry : Str} (h : STRING_SEPARATOR ∉ entry) : bindEntry map entry = map := by
  unfold bindEntry
  rw [Pieces.find_eq_none_iff.2 h]
  simp

/-- An entry is cut at its first `STRING_SEPARATOR`. -/
theorem bindEntry_entryText {map : StrMap} {k v : Str} (h : STRING_SEPARATOR ∉ k) :
    bindEntry map (k ++ STRING_SEPARATOR :: v) = map.insert k v := by
  unfold bindEntry
  rw [Pieces.find_append_cons h, if_pos (by simp only [List.length_append, List.length_cons]; omega)]
  have hk : Pieces.substr (k ++ STRING_SEPARATOR :: v) 0 k.length = k := by simp [Pieces.substr]
  have hv : (k ++ STRING_SEPARATOR :: v).drop (k.length + 1) = v := by
    rw [List.drop_append, List.drop_eq_nil_of_le (by omega)]
    simp
  simp only [hk, hv]
  cases v <;> simp

/-- Every entry is of one of these two forms. -/
theorem entry_cases (entry : Str) :
    STRING_SEPARATOR ∉ entry ∨ ∃ k v, entry = k ++ STRING_SEPARATOR :: v ∧ STRING_SEPARATOR ∉ k := by
  by_cases h : STRING_SEPARATOR ∈ entry
  · obtain ⟨i, hi⟩ : ∃ i, Pieces.find entry STRING_SEPARATOR 0 = some i :=
      Option.ne_none_iff_exists'.1 (fun hn => Pieces.find_eq_none_iff.1 hn h)
    obtain ⟨-, -, hnot, hsplit⟩ := Pieces.find_eq_some hi
    exact .inr ⟨_, _, hsplit, hnot⟩
  · exact .inl h

end OksSystem.StringMemoryArea
