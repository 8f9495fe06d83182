import OksSystem.StringMemoryArea.Basic

/-!
# Slots

The two ways an operation changes an area: it rewrites the string at an offset within the room of that string
(`rewritten`), or it appends behind the last string (`appended`). Neither ever turns a NUL at or below `lastString` into
another byte, and that is what keeps the strings apart.

* `Inv a H` : the area after a run that handed out the offsets `H`: each of them is preceded by a NUL;
* `Inv.text`, `Inv.apart` : the string at an offset of `H` ends before the next offset of `H` and before `lastString`;
* `Inv.rewritten`, `Inv.appended` : the two changes keep the invariant;
* `read_rewritten_self`, `Inv.read_rewritten`, `Inv.read_appended` : what is read after them.
-/

namespace OksSystem.StringMemoryArea
open ByteBuffer

/-- The area with the `n` bytes at `o` replaced by `s` and zeros. -/
def rewritten (a : StringMemoryArea) (o n : Nat) (s : Str) : StringMemoryArea :=
  { a with data := overwrite a.data o (s ++ List.replicate (n - s.length) 0) }

/-- The area with `s` appended behind the last string. -/
def appended (a : StringMemoryArea) (s : Str) : StringMemoryArea :=
  { a.put a.start.toNat s with lastString := a.stop s.length }

@[simp] theorem rewritten_lastString (a : StringMemoryArea) (o n : Nat) (s : Str) :
    (a.rewritten o n s).lastString = a.lastString := rfl
@[simp] theorem rewritten_size (a : StringMemoryArea) (o n : Nat) (s : Str) :
    (a.rewritten o n s).stringAreaSize = a.stringAreaSize := rfl
@[simp] theorem rewritten_readNull (a : StringMemoryArea) (o n : Nat) (s : Str) :
    (a.rewritten o n s).readNull = a.readNull := rfl
@[simp] theorem rewritten_start (a : StringMemoryArea) (o n : Nat) (s : Str) : (a.rewritten o n s).start = a.start := rfl
@[simp] theorem rewritten_stop (a : StringMemoryArea) (o n : Nat) (s : Str) (l : Nat) :
    (a.rewritten o n s).stop l = a.stop l := rfl
@[simp] theorem rewritten_noWrap (a : StringMemoryArea) (o n : Nat) (s : Str) (l : Nat) :
    (a.rewritten o n s).NoWrap l ↔ a.NoWrap l := Iff.rfl
@[simp] theorem rewritten_fits (a : StringMemoryArea) (o n : Nat) (s : Str) (l : Nat) :
    (a.rewritten o n s).Fits l ↔ a.Fits l := Iff.rfl
@[simp] theorem appended_lastString (a : StringMemoryArea) (s : Str) : (a.appended s).lastString = a.stop s.length := rfl
@[simp] theorem appended_size (a : StringMemoryArea) (s : Str) : (a.appended s).stringAreaSize = a.stringAreaSize := rfl
@[simp] theorem appended_readNull (a : StringMemoryArea) (s : Str) : (a.appended s).readNull = a.readNull := rfl

theorem zeroed_eq_rewritten (a : StringMemoryArea) (o n : Nat) : a.zeroed o n = a.rewritten o n [] := by
  simp [zeroed, rewritten]

section Rewritten

variable {a : StringMemoryArea} {o : Nat} {s t : Str}

theorem length_rewritten (h : readStr a.data o = some t) (hl : s.length ≤ t.length) :
    (a.rewritten o t.length s).data.length = a.data.length := by
  have := readStr_lt h
  exact length_overwrite (by simp; omega)

theorem getElem?_rewritten (h : readStr a.data o = some t) (hl : s.length ≤ t.length) (i : Nat) :
    (a.rewritten o t.length s).data[i]? =
      if o ≤ i ∧ i < o + t.length then (s ++ List.replicate (t.length - s.length) 0)[i - o]? else a.data[i]? := by
  have := readStr_lt h
  have hlen : (s ++ List.replicate (t.length - s.length) (0 : Byte)).length = t.length := by simp; omega
  rw [rewritten, getElem?_overwrite (by omega), hlen]

/-- Writing a string over the zeroed old one is a rewrite. -/
theorem put_zeroed (h : readStr a.data o = some t) (hl : s.length ≤ t.length) :
    (a.zeroed o t.length).put o s = a.rewritten o t.length s := by
  have hlt := readStr_lt h
  have hz : (a.zeroed o t.length).data.length = a.data.length := length_overwrite (by simp; omega)
  unfold put
  rw [rewritten]
  congr 1
  apply List.ext_getElem?
  intro i
  rw [getElem?_overwrite (by simp; omega), getElem?_overwrite (by simp; omega), zeroed,
    getElem?_overwrite (by simp; omega)]
  simp only [List.length_append, List.length_replicate, List.length_cons, List.length_nil]
  by_cases h1 : o ≤ i ∧ i < o + (s.length + 1)
  · rw [if_pos (by omega)]
    by_cases h2 : i < o + t.length
    · -- the NUL of `s` is the first of the zeros behind it
      rw [if_pos (by omega)]
      by_cases h3 : i - o < s.length
      · rw [List.getElem?_append_left h3, List.getElem?_append_left h3]
      · rw [List.getElem?_append_right (by omega), List.getElem?_append_right (by omega),
          show i - o - s.length = 0 by omega, List.getElem?_replicate, if_pos (by omega)]
        rfl
    · -- `s` is as long as the old string and its NUL is the old one
      rw [if_neg (by omega), List.getElem?_append_right (by omega), show i - o - s.length = 0 by omega,
        show i = o + t.length by omega, readStr_nul h]
      rfl
  · rw [if_neg (by omega)]
    by_cases h2 : o ≤ i ∧ i < o + t.length
    · rw [if_pos h2, if_pos (by omega), List.getElem?_append_right (by omega), List.getElem?_replicate,
        List.getElem?_replicate, if_pos (by omega), if_pos (by omega)]
    · rw [if_neg h2, if_neg (by omega)]

/-- A rewrite keeps every NUL. -/
theorem rewritten_nul (h : readStr a.data o = some t) (hl : s.length ≤ t.length) {j : Nat} (h0 : a.data[j]? = some 0) :
    (a.rewritten o t.length s).data[j]? = some 0 := by
  rw [getElem?_rewritten h hl, if_neg, h0]
  rintro ⟨hj, hjt⟩
  have := readStr_le h hj h0
  omega

theorem read_rewritten_self (h : readStr a.data o = some t) (hl : s.length ≤ t.length) (h0 : 0 ∉ s) :
    readStr (a.rewritten o t.length s).data o = some s := by
  have hlt := readStr_lt h
  have hz : (a.zeroed o t.length).data.length = a.data.length := length_overwrite (by simp; omega)
  rw [← put_zeroed h hl]
  exact readStr_overwrite_self h0 (by omega)

end Rewritten

/-! ## The invariant -/

/-- The area after a run that handed out the offsets `H`. -/
structure Inv (a : StringMemoryArea) (H : List UInt32) : Prop where
  backed : a.Backed
  last_le : a.lastString.toNat ≤ a.stringAreaSize.toNat
  last_nul : a.data[a.lastString.toNat]? = some 0
  pos : ∀ o ∈ H, 1 ≤ o.toNat
  le_last : ∀ o ∈ H, o.toNat ≤ a.lastString.toNat
  before_nul : ∀ o ∈ H, a.data[o.toNat - 1]? = some 0

namespace Inv

variable {a : StringMemoryArea} {H : List UInt32} {s t : Str} {o p : UInt32}

/-- There is a string at every offset of `H`, and it ends at or before `lastString`. -/
theorem text (h : Inv a H) (ho : o ∈ H) :
    ∃ t, readStr a.data o.toNat = some t ∧ o.toNat + t.length ≤ a.lastString.toNat := by
  obtain ⟨t, ht⟩ := exists_readStr (h.le_last o ho) h.last_nul
  exact ⟨t, ht, readStr_le ht (h.le_last o ho) h.last_nul⟩

/-- Handing out an offset again changes nothing. -/
theorem cons (h : Inv a H) (ho : o ∈ H) : Inv a (o :: H) where
  backed := h.backed
  last_le := h.last_le
  last_nul := h.last_nul
  pos := List.forall_mem_cons.2 ⟨h.pos o ho, h.pos⟩
  le_last := List.forall_mem_cons.2 ⟨h.le_last o ho, h.le_last⟩
  before_nul := List.forall_mem_cons.2 ⟨h.before_nul o ho, h.before_nul⟩

theorem inRange (h : Inv a H) (ho : o ∈ H) : 1 ≤ o.toNat ∧ o.toNat ≤ a.stringAreaSize.toNat :=
  ⟨h.pos o ho, (h.le_last o ho).trans h.last_le⟩

/-- The strings at different offsets of `H` do not meet. -/
theorem apart (h : Inv a H) (ho : o ∈ H) (hp : p ∈ H) (hne : p ≠ o) (ht : readStr a.data o.toNat = some t)
    (hs : readStr a.data p.toNat = some s) :
    p.toNat + s.length < o.toNat ∨ o.toNat + t.length < p.toNat := by
  have h1 := h.pos o ho
  have h2 := h.pos p hp
  rcases Nat.lt_or_gt_of_ne (fun heq => hne (UInt32.toNat_inj.1 heq)) with hlt | hlt
  · have := readStr_le hs (j := o.toNat - 1) (by omega) (h.before_nul o ho)
    omega
  · have := readStr_le ht (j := p.toNat - 1) (by omega) (h.before_nul p hp)
    omega

theorem rewritten (h : Inv a H) (ht : readStr a.data o.toNat = some t) (hl : s.length ≤ t.length) :
    Inv (a.rewritten o.toNat t.length s) H where
  backed := ⟨by rw [length_rewritten ht hl]; exact h.backed.room, h.backed.readable⟩
  last_le := h.last_le
  last_nul := rewritten_nul ht hl h.last_nul
  pos := h.pos
  le_last := h.le_last
  before_nul p hp := rewritten_nul ht hl (h.before_nul p hp)

/-- The other strings read as before. -/
theorem read_rewritten (h : Inv a H) (ho : o ∈ H) (hp : p ∈ H) (hne : p ≠ o) (ht : readStr a.data o.toNat = some t)
    (hl : s.length ≤ t.length) {u : Str} (hu : readStr a.data p.toNat = some u) :
    readStr (a.rewritten o.toNat t.length s).data p.toNat = some u := by
  have hlt := readStr_lt ht
  have := h.apart ho hp hne ht hu
  exact readStr_overwrite_of_disjoint hu (by simp; omega) (by simp; omega)

/-- There is room for what the range check of `add` lets through. -/
theorem room (h : Inv a H) (hw : a.NoWrap s.length) (hf : a.Fits s.length) :
    a.start.toNat + s.length < a.data.length := by
  have := h.backed.room
  unfold Fits at hf
  rw [stop_toNat hw] at hf
  rw [start_toNat hw]
  omega

theorem start_notMem (h : Inv a H) (hw : a.NoWrap s.length) : a.start ∉ H := by
  intro hm
  have := h.le_last _ hm
  rw [start_toNat hw] at this
  omega

theorem read_appended (h : Inv a H) (hw : a.NoWrap s.length) (hf : a.Fits s.length) (hp : p ∈ H) {u : Str}
    (hu : readStr a.data p.toNat = some u) : readStr (a.appended s).data p.toNat = some u := by
  have hroom := h.room hw hf
  have hle := readStr_le hu (h.le_last p hp) h.last_nul
  exact readStr_overwrite_of_disjoint hu (by simp; omega) (.inl (by rw [start_toNat hw]; omega))

theorem read_appended_self (h : Inv a H) (hw : a.NoWrap s.length) (hf : a.Fits s.length) (h0 : 0 ∉ s) :
    readStr (a.appended s).data a.start.toNat = some s :=
  readStr_overwrite_self h0 (h.room hw hf)

theorem appended (h : Inv a H) (hw : a.NoWrap s.length) (hf : a.Fits s.length) (h0 : 0 ∉ s) :
    Inv (a.appended s) (a.start :: H) := by
  have hroom := h.room hw hf
  have hstart := start_toNat hw
  have hstop := stop_toNat hw
  have hkeep : ∀ i ≤ a.lastString.toNat, (a.appended s).data[i]? = a.data[i]? := fun i hi => by
    rw [StringMemoryArea.appended, put, getElem?_overwrite (by simp; omega), if_neg (by omega)]
  have hread := h.read_appended_self hw hf h0
  unfold Fits at hf
  refine ⟨⟨?_, h.backed.readable⟩, ?_, ?_, fun o ho => ?_, fun o ho => ?_, fun o ho => ?_⟩
  · rw [show (a.appended s).data.length = a.data.length from length_overwrite (by simp; omega)]
    exact h.backed.room
  · exact hf.2
  · rw [appended_lastString, hstop, ← hstart]
    exact readStr_nul hread
  · rcases List.mem_cons.1 ho with rfl | ho
    · omega
    · exact h.pos o ho
  · rw [appended_lastString, hstop]
    rcases List.mem_cons.1 ho with rfl | ho
    · omega
    · have := h.le_last o ho
      omega
  · rcases List.mem_cons.1 ho with rfl | ho
    · rw [hkeep _ (by omega), show a.start.toNat - 1 = a.lastString.toNat by omega, h.last_nul]
    · have := h.le_last o ho
      rw [hkeep _ (by omega), h.before_nul o ho]

end Inv

end OksSystem.StringMemoryArea
