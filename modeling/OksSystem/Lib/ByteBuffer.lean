import Mathlib.Data.List.Basic
import Mathlib.Data.List.TakeWhile
import Mathlib.Data.Fin.Basic

/-!
# Byte buffers and C strings

* `cstr s` : the bytes of `s` before its first NUL;
* `overwrite d o bs` : the buffer `d` with the bytes from index `o` replaced by `bs` (`getElem?_overwrite`);
* `readStr d o` : the C string at index `o` of `d`, if a NUL ends it inside the buffer;
  `readStr_eq_some_iff` reads it byte by byte, `readStr_congr` is its frame rule;
* `readStr_overwrite_self`, `readStr_overwrite_of_disjoint` : reading after a write.
-/

namespace ByteBuffer

abbrev Byte := Fin 256

/-- The instance behind the literals of type `Byte`. -/
instance neZeroByte : @NeZero Nat Zero.ofOfNat0 256 := ⟨by decide⟩

abbrev Str := List Byte

/-- The C string in `s`: the bytes before the first NUL. -/
def cstr (s : Str) : Str := s.takeWhile (· != 0)

theorem nul_notMem_cstr (s : Str) : 0 ∉ cstr s := by
  intro h
  have := List.mem_takeWhile_imp h
  simp at this

@[simp] theorem cstr_append_nul {s : Str} (h : 0 ∉ s) (t : Str) : cstr (s ++ 0 :: t) = s := by
  unfold cstr
  rw [List.takeWhile_append_of_pos]
  · simp
  · intro b hb
    simpa using fun hb0 : b = 0 => h (hb0 ▸ hb)

@[simp] theorem cstr_of_notMem {s : Str} (h : 0 ∉ s) : cstr s = s := by
  unfold cstr
  rw [List.takeWhile_eq_self_iff]
  intro b hb
  simpa using fun hb0 : b = 0 => h (hb0 ▸ hb)

theorem map_cstr_of_notMem {ss : List Str} (h : ∀ s ∈ ss, 0 ∉ s) : ss.map cstr = ss := by
  calc ss.map cstr = ss.map id := List.map_congr_left fun s hs => cstr_of_notMem (h s hs)
    _ = ss := List.map_id ss

theorem cstr_spec {s : Str} (h : 0 ∈ s) : ∃ t, s = cstr s ++ 0 :: t := by
  induction s with
  | nil => simp at h
  | cons b s ih =>
    by_cases hb : b = 0
    · exact ⟨s, by simp [cstr, hb]⟩
    · have hs : 0 ∈ s := by
        rcases List.mem_cons.1 h with h | h
        · exact absurd h.symm hb
        · exact h
      obtain ⟨t, ht⟩ := ih hs
      refine ⟨t, ?_⟩
      have hcons : cstr (b :: s) = b :: cstr s := by simp [cstr, hb]
      rw [hcons, List.cons_append, ← ht]

/-! ## Overwriting -/

/-- The buffer `d` with the bytes from index `o` replaced by `bs`. -/
def overwrite (d : Str) (o : Nat) (bs : Str) : Str := d.take o ++ bs ++ d.drop (o + bs.length)

@[simp] theorem overwrite_nil (d : Str) (o : Nat) : overwrite d o [] = d := by simp [overwrite]

theorem length_overwrite {d : Str} {o : Nat} {bs : Str} (h : o + bs.length ≤ d.length) :
    (overwrite d o bs).length = d.length := by
  simp [overwrite]
  omega

theorem getElem?_overwrite {d : Str} {o : Nat} {bs : Str} (h : o + bs.length ≤ d.length) (i : Nat) :
    (overwrite d o bs)[i]? = if o ≤ i ∧ i < o + bs.length then bs[i - o]? else d[i]? := by
  unfold overwrite
  rw [List.append_assoc, List.getElem?_append, List.getElem?_append, List.length_take,
    Nat.min_eq_left (by omega)]
  by_cases h1 : i < o
  · rw [if_pos h1, if_neg (by omega), List.getElem?_take_of_lt h1]
  · by_cases h2 : i - o < bs.length
    · rw [if_neg h1, if_pos h2, if_pos (by omega)]
    · rw [if_neg h1, if_neg h2, if_neg (by omega), List.getElem?_drop]
      congr 1
      omega

/-- A one-byte store is a one-byte overwrite. -/
theorem set_eq_overwrite {d : Str} {i : Nat} (h : i < d.length) (b : Byte) : d.set i b = overwrite d i [b] := by
  rw [overwrite, List.set_eq_take_append_cons_drop, if_pos h]
  simp

theorem overwrite_cons {d : Str} {o : Nat} {b : Byte} {bs : Str} (h : o + (b :: bs).length ≤ d.length) :
    overwrite (overwrite d o [b]) (o + 1) bs = overwrite d o (b :: bs) := by
  simp only [List.length_cons] at h
  have h1 : o + [b].length ≤ d.length := by simp; omega
  apply List.ext_getElem?
  intro i
  rw [getElem?_overwrite (by rw [length_overwrite h1]; omega), getElem?_overwrite h1,
    getElem?_overwrite (by simp; omega)]
  simp only [List.length_cons, List.length_nil]
  by_cases h2 : i = o
  · subst h2
    rw [if_neg (by omega), if_pos (by omega), if_pos (by omega)]
    simp
  · by_cases h3 : o ≤ i ∧ i < o + (bs.length + 1)
    · rw [if_pos (by omega), if_pos h3, show i - o = (i - (o + 1)) + 1 by omega, List.getElem?_cons_succ]
    · rw [if_neg (by omega), if_neg (by omega), if_neg h3]

/-! ## Reading C strings -/

/-- The C string at index `o`, when a NUL ends it inside the buffer. -/
def readStr (d : Str) (o : Nat) : Option Str := if 0 ∈ d.drop o then some (cstr (d.drop o)) else none

theorem readStr_eq_some_iff_drop {d : Str} {o : Nat} {s : Str} :
    readStr d o = some s ↔ 0 ∉ s ∧ ∃ t, d.drop o = s ++ 0 :: t := by
  unfold readStr
  split
  · rename_i h
    constructor
    · intro hs
      cases hs
      exact ⟨nul_notMem_cstr _, cstr_spec h⟩
    · rintro ⟨h0, t, ht⟩
      rw [ht, cstr_append_nul h0]
  · rename_i h
    constructor
    · intro hs
      cases hs
    · rintro ⟨-, t, ht⟩
      rw [ht] at h
      simp at h

/-- The C string at `o` is `s`, byte by byte. -/
theorem readStr_eq_some_iff {d : Str} {o : Nat} {s : Str} :
    readStr d o = some s ↔ 0 ∉ s ∧ ∀ i ≤ s.length, d[o + i]? = (s ++ [0])[i]? := by
  rw [readStr_eq_some_iff_drop]
  refine and_congr_right fun h0 => ⟨?_, fun h => ?_⟩
  · rintro ⟨t, ht⟩ i hi
    rw [← List.getElem?_drop, ht, List.append_cons, List.getElem?_append_left (by simp; omega)]
  · have hlen : o + s.length < d.length := by
      have := h s.length le_rfl
      rw [List.getElem?_append_right le_rfl, Nat.sub_self, List.getElem?_singleton, if_pos rfl] at this
      exact (List.getElem?_eq_some_iff.1 this).1
    refine ⟨d.drop (o + s.length + 1), ?_⟩
    have hpre : s ++ [0] = (d.drop o).take (s.length + 1) := by
      apply List.ext_getElem?
      intro i
      rw [List.getElem?_take]
      split
      · rw [List.getElem?_drop, h i (by omega)]
      · exact List.getElem?_eq_none (by simp; omega)
    rw [List.append_cons, hpre, Nat.add_assoc, ← List.drop_drop, List.take_append_drop]

theorem nul_notMem_of_readStr {d : Str} {o : Nat} {s : Str} (h : readStr d o = some s) : 0 ∉ s :=
  (readStr_eq_some_iff.1 h).1

theorem readStr_getElem? {d : Str} {o : Nat} {s : Str} (h : readStr d o = some s) {i : Nat} (hi : i ≤ s.length) :
    d[o + i]? = (s ++ [0])[i]? := (readStr_eq_some_iff.1 h).2 i hi

theorem readStr_nul {d : Str} {o : Nat} {s : Str} (h : readStr d o = some s) : d[o + s.length]? = some 0 := by
  rw [readStr_getElem? h le_rfl]
  simp

theorem readStr_ne_nul {d : Str} {o : Nat} {s : Str} (h : readStr d o = some s) {i : Nat} (hi : i < s.length) :
    d[o + i]? ≠ some 0 := by
  rw [readStr_getElem? h hi.le, List.getElem?_append_left hi, List.getElem?_eq_getElem hi]
  intro h0
  exact nul_notMem_of_readStr h (Option.some.inj h0 ▸ List.getElem_mem hi)

theorem readStr_lt {d : Str} {o : Nat} {s : Str} (h : readStr d o = some s) : o + s.length < d.length :=
  (List.getElem?_eq_some_iff.1 (readStr_nul h)).1

/-- A NUL at or after `o` bounds the C string at `o`. -/
theorem readStr_le {d : Str} {o : Nat} {s : Str} (h : readStr d o = some s) {j : Nat} (hj : o ≤ j)
    (h0 : d[j]? = some 0) : o + s.length ≤ j := by
  by_contra hlt
  have := readStr_ne_nul h (i := j - o) (by omega)
  rw [show o + (j - o) = j by omega] at this
  exact this h0

/-- A NUL at or after `o` ends a C string at `o`. -/
theorem exists_readStr {d : Str} {o j : Nat} (hj : o ≤ j) (h0 : d[j]? = some 0) : ∃ s, readStr d o = some s := by
  refine ⟨cstr (d.drop o), if_pos ?_⟩
  apply List.mem_of_getElem? (i := j - o)
  rw [List.getElem?_drop, show o + (j - o) = j by omega, h0]

theorem readStr_eq_nil_iff {d : Str} {o : Nat} : readStr d o = some [] ↔ d[o]? = some 0 := by
  rw [readStr_eq_some_iff]
  constructor
  · intro h
    simpa using h.2 0 (by simp)
  · intro h
    refine ⟨by simp, fun i hi => ?_⟩
    obtain rfl : i = 0 := by simpa using hi
    simpa using h

/-- Frame rule: a C string is read from its own bytes only. -/
theorem readStr_congr {d d' : Str} {o : Nat} {s : Str} (h : readStr d o = some s)
    (hd : ∀ i ≤ s.length, d'[o + i]? = d[o + i]?) : readStr d' o = some s := by
  rw [readStr_eq_some_iff] at h ⊢
  exact ⟨h.1, fun i hi => by rw [hd i hi, h.2 i hi]⟩

theorem readStr_overwrite_self {d : Str} {o : Nat} {s : Str} (h0 : 0 ∉ s) (h : o + s.length < d.length) :
    readStr (overwrite d o (s ++ [0])) o = some s := by
  rw [readStr_eq_some_iff]
  refine ⟨h0, fun i hi => ?_⟩
  rw [getElem?_overwrite (by simp; omega), if_pos (by simp; omega), Nat.add_sub_cancel_left]

theorem readStr_overwrite_of_disjoint {d : Str} {o p : Nat} {s bs : Str} (hs : readStr d p = some s)
    (h : o + bs.length ≤ d.length) (hd : p + s.length < o ∨ o + bs.length ≤ p) :
    readStr (overwrite d o bs) p = some s := by
  apply readStr_congr hs
  intro i hi
  rw [getElem?_overwrite h, if_neg (by omega)]

end ByteBuffer
