import OksSystem.StringMemoryArea.Failure

/-!
# Accesses outside the area

Here the area owns exactly `string_area_size()` bytes. The range checks let through an offset, or an end, that is equal to
that size, and the byte there is not the area's.

* `Access` : a call that changes the area, or `get_string`;
* `Access.Inside` : it reads and writes no byte outside the area, and gives no pointer to one;
* `Access.Within` : the offset and the end it works at are not the size itself;
* `run_inside_iff` : an access whose range checks pass is inside exactly when it is within;
* `owned` : the runs whose calls are all within; `owned_inside_iff` is the result for them.
-/

namespace OksSystem.StringMemoryArea
open ByteBuffer

inductive Access where
  | call (c : Call)
  | getString (offset : UInt32)

/-- No byte outside the buffer is read or written. -/
def Call.Inside (a : StringMemoryArea) (c : Call) : Prop := ∀ i a', c.run.run a ≠ .error (.outside i) a'

/-- No byte outside the buffer is read or written, and none is pointed to. -/
def Access.Inside (a : StringMemoryArea) : Access → Prop
  | .call c => c.Inside a
  | .getString offset => ∀ i, (StringMemoryArea.getString offset).run a = .ok (some i) a → i < a.stringAreaSize.toNat

/-- No range check stops the call. -/
def Call.Passes (a : StringMemoryArea) (c : Call) : Prop :=
  ∀ min val max a', c.run.run a ≠ .error (.range min val max) a'

def Access.Passes (a : StringMemoryArea) : Access → Prop
  | .call c => c.Passes a
  | .getString offset => ∀ min val max a', (StringMemoryArea.getString offset).run a ≠ .error (.range min val max) a'

/-- The sums of the call stay below `2 ^ 32`, should it go on to `add`. -/
def Access.NoWrap (a : StringMemoryArea) : Access → Prop
  | .call (.add s) => a.NoWrap (cstr s).length
  | .call (.insert offset t) => a.Appends offset (cstr t.encode).length → a.NoWrap (cstr t.encode).length
  | _ => True

/-- A string of length `l` appended now ends before the end of the area. -/
def EndsWithin (a : StringMemoryArea) (l : Nat) : Prop := a.lastString.toNat + 1 + l ≠ a.stringAreaSize.toNat

/-- Offset and end are not the size of the area. -/
def Call.Within (a : StringMemoryArea) : Call → Prop
  | .add s => a.EndsWithin (cstr s).length
  | .insert offset t => offset.toNat ≠ a.stringAreaSize.toNat ∧
      (a.Appends offset (cstr t.encode).length → a.EndsWithin (cstr t.encode).length)
  | .clear offset => offset.toNat < a.stringAreaSize.toNat

def Access.Within (a : StringMemoryArea) : Access → Prop
  | .call c => c.Within a
  | .getString offset => offset = 0 ∨ offset.toNat ≠ a.stringAreaSize.toNat

/-- The area is the whole buffer, and its last byte is a NUL. -/
structure Owned (a : StringMemoryArea) : Prop where
  length : a.data.length = a.stringAreaSize.toNat
  nul : 0 < a.data.length → a.data[a.data.length - 1]? = some 0
  readable : a.readNull = false

/-- The runs of an area from zero whose calls are all within it, whatever their range checks say. -/
def owned : LTS StringMemoryArea Call where
  init a := IsZero a ∧ a.data.length = a.stringAreaSize.toNat ∧ a.readNull = false
  step a c a' := c.Within a ∧ calls.step a c a'

namespace Owned

variable {a : StringMemoryArea}

theorem text (h : Owned a) {o : Nat} (ho : o < a.data.length) : ∃ t, readStr a.data o = some t :=
  exists_readStr (by omega) (h.nul (by omega))

theorem no_text (h : Owned a) {o : Nat} (ho : a.stringAreaSize.toNat ≤ o) : readStr a.data o = none := by
  cases ht : readStr a.data o with
  | none => rfl
  | some t =>
    have := readStr_lt ht
    have := h.length
    omega

theorem rewritten (h : Owned a) {o : Nat} {s t : Str} (ht : readStr a.data o = some t) (hl : s.length ≤ t.length) :
    Owned (a.rewritten o t.length s) where
  length := by rw [length_rewritten ht hl]; exact h.length
  nul h0 := by
    rw [length_rewritten ht hl] at h0 ⊢
    exact rewritten_nul ht hl (h.nul h0)
  readable := h.readable

/-- A string written up to the last byte puts its NUL there. -/
theorem appended (h : Owned a) {s : Str} (hroom : a.start.toNat + s.length < a.data.length) : Owned (a.appended s) := by
  have hlen : (a.appended s).data.length = a.data.length := length_overwrite (by simp; omega)
  refine ⟨hlen.trans h.length, fun h0 => ?_, h.readable⟩
  rw [hlen] at h0 ⊢
  rw [StringMemoryArea.appended, put, getElem?_overwrite (by simp; omega)]
  split
  · rename_i hi
    simp only [List.length_append, List.length_cons, List.length_nil] at hi
    rw [List.getElem?_append_right (by omega), show a.data.length - 1 - a.start.toNat - s.length = 0 by omega]
    rfl
  · exact h.nul h0

/-- Calls keep the last byte NUL, whether they return or are stopped. -/
theorem step (h : Owned a) {c : Call} {a' : StringMemoryArea} (hs : calls.step a c a') : Owned a' := by
  cases calls_made hs with
  | nothing => exact h
  | append _ _ _ hroom => exact h.appended hroom
  | rewrite hold hl => exact h.rewritten hold hl
  | relocate _ _ hold _ _ hroom => exact (h.rewritten hold (Nat.zero_le _)).appended hroom

end Owned

theorem owned_inv {a : StringMemoryArea} (h : owned.Reachable a) : Owned a := by
  refine h.invariant (fun b hb => ⟨hb.2.1, fun h0 => ?_, hb.2.2⟩) fun b c b' hb hs => hb.step hs.2
  rw [hb.1.data, List.getElem?_replicate, if_pos (by simp; omega)]

/-! ## Which accesses are inside -/

/-- `add` writes its NUL at the end the range check looked at. -/
theorem add_inside_iff {a : StringMemoryArea} {s : Str} (hlen : a.data.length = a.stringAreaSize.toNat)
    (hw : a.NoWrap (cstr s).length) (hp : ∀ min val max a', (add (.str s)).run a ≠ .error (.range min val max) a') :
    (∀ i a', (add (.str s)).run a ≠ .error (.outside i) a') ↔ a.EndsWithin (cstr s).length := by
  have hf : a.Fits (cstr s).length := by
    by_contra hf
    apply hp 1 (a.stop (cstr s).length).toNat a.stringAreaSize.toNat a
    rw [run_add, if_neg hf]
  have hle : a.lastString.toNat + 1 + (cstr s).length ≤ a.stringAreaSize.toNat := stop_toNat hw ▸ hf.2
  rw [run_add, if_pos hf, start_toNat hw, EndsWithin, hlen]
  by_cases hroom : a.lastString.toNat + 1 + (cstr s).length < a.stringAreaSize.toNat
  · rw [if_pos hroom]
    exact ⟨fun _ => by omega, fun _ _ _ h => by cases h⟩
  · rw [if_neg hroom]
    exact ⟨fun h => absurd rfl (h _ a), fun h => absurd (by omega) h⟩

theorem insert_inside_iff {a : StringMemoryArea} (h : Owned a) {o : UInt32} {s : Str}
    (hw : a.Appends o (cstr s).length → a.NoWrap (cstr s).length)
    (hp : ∀ min val max a', (insert o (.str s)).run a ≠ .error (.range min val max) a') :
    (∀ i a', (insert o (.str s)).run a ≠ .error (.outside i) a') ↔
      o.toNat ≠ a.stringAreaSize.toNat ∧ (a.Appends o (cstr s).length → a.EndsWithin (cstr s).length) := by
  by_cases h0 : o = 0
  · subst h0
    have hpos : (0 : UInt32).toNat ≠ a.stringAreaSize.toNat := by
      intro heq
      -- with an empty area the range check of `add` cannot pass
      apply hp 1 (a.stop (cstr s).length).toNat a.stringAreaSize.toNat a
      rw [run_insert_zero, run_add, if_neg]
      unfold Fits
      rw [← heq]
      simp
      omega
    rw [run_insert_zero] at hp ⊢
    rw [add_inside_iff h.length (hw (.inl rfl)) hp]
    exact ⟨fun he => ⟨hpos, fun _ => he⟩, fun he => he.2 (.inl rfl)⟩
  · have hr : 1 ≤ o.toNat ∧ o.toNat ≤ a.stringAreaSize.toNat := by
      by_contra hr
      exact hp _ _ _ _ (run_insert_range h0 hr)
    rcases Nat.lt_or_eq_of_le hr.2 with hlt | heq
    · obtain ⟨t, ht⟩ := h.text (by rw [h.length]; exact hlt)
      by_cases hl : (cstr s).length ≤ t.length
      · rw [run_insert_inplace hr ht hl]
        refine ⟨fun _ => ⟨by omega, fun happ => ?_⟩, fun _ _ _ hne => by cases hne⟩
        have := happ.resolve_left h0 t ht
        omega
      · have happ : a.Appends o (cstr s).length := .inr fun u hu => by
          rw [ht] at hu
          exact Option.some.inj hu ▸ (by omega)
        rw [run_insert_relocate hr ht (by omega), zeroed_eq_rewritten] at hp ⊢
        have hiff := add_inside_iff (h.rewritten (s := []) ht (by simp)).length (hw happ) hp
        exact hiff.trans ⟨fun he => ⟨by omega, fun _ => he⟩, fun he => he.2 happ⟩
    · obtain ⟨i, a', -, hout⟩ := run_insert_outside (s := s) hr (h.no_text heq.ge)
      exact ⟨fun hin => absurd hout (hin i a'), fun he => absurd heq he.1⟩

/-- An access whose range checks pass is inside the area exactly when it is within. -/
theorem run_inside_iff {a : StringMemoryArea} (h : Owned a) {x : Access} (hw : x.NoWrap a) (hp : x.Passes a) :
    x.Inside a ↔ x.Within a := by
  cases x with
  | call c =>
    cases c with
    | add s =>
      have hiff := add_inside_iff h.length hw fun min val max a' hr => hp min val max a' (run_call_error.2 hr)
      exact Iff.trans ⟨fun hin i a' hr => hin i a' (run_call_error.2 hr), fun hin i a' hr => hin i a' (run_call_error.1 hr)⟩
        hiff
    | insert o t =>
      have hp' : ∀ min val max a', (insert o (.str t.encode)).run a ≠ .error (.range min val max) a' :=
        fun min val max a' hr => hp min val max a' (run_call_error.2 (by rwa [insertText_eq]))
      have hiff := insert_inside_iff h hw hp'
      refine Iff.trans ⟨fun hin i a' hr => hin i a' (run_call_error.2 (by rwa [insertText_eq])), fun hin i a' hr => ?_⟩ hiff
      have hr := run_call_error.1 hr
      rw [insertText_eq] at hr
      exact hin i a' hr
    | clear o =>
      by_cases ho : o.toNat < a.stringAreaSize.toNat
      · obtain ⟨t, ht⟩ := h.text (by rw [h.length]; exact ho)
        refine ⟨fun _ => ho, fun _ i a' hr => ?_⟩
        simp only [Call.run, EStateM.run_bind, run_clear ht] at hr
        cases hr
      · obtain ⟨i, a', -, hout⟩ := run_clear_outside (h.no_text (Nat.not_lt.1 ho))
        refine ⟨fun hin => absurd ?_ (hin i a'), fun hlt => absurd hlt ho⟩
        simp only [Call.run, EStateM.run_bind, hout]
  | getString o =>
    simp only [Access.Inside, Access.Within, run_getString, h.readable]
    by_cases h0 : o = 0
    · subst h0
      exact ⟨fun _ => .inl rfl, fun _ i hr => by cases hr⟩
    · have hr : 1 ≤ o.toNat ∧ o.toNat ≤ a.stringAreaSize.toNat := by
        by_contra hr
        apply hp 1 o.toNat a.stringAreaSize.toNat a
        rw [run_getString, if_neg h0, if_neg hr]
      rw [if_neg h0, if_pos hr]
      refine ⟨fun hin => .inr (Nat.ne_of_lt (hin _ rfl)), fun hne i hi => ?_⟩
      cases hi
      have := hne.resolve_left h0
      omega

/-- **In a run whose calls are all within the area**, a further access whose range checks pass is inside exactly when its
offset and its end are not the size itself. -/
theorem owned_inside_iff {a : StringMemoryArea} (ha : owned.Reachable a) {x : Access} (hw : x.NoWrap a)
    (hp : x.Passes a) : x.Inside a ↔ x.Within a := run_inside_iff (owned_inv ha) hw hp

/-- A string that fills an area of two bytes has its NUL at index 2. -/
theorem add_not_inside :
    ¬ ∀ a, IsZero a → a.data.length = a.stringAreaSize.toNat → ∀ x : Access, x.NoWrap a → x.Passes a → x.Inside a := by
  intro h
  have hrun : (Call.add [97]).run.run (zeroArea 2 2) = .error (.outside 2) (zeroArea 2 2) := rfl
  have hw : (Access.call (.add [97])).NoWrap (zeroArea 2 2) := show 0 + 1 + 1 < 2 ^ 32 by decide
  have hp : (Access.call (.add [97])).Passes (zeroArea 2 2) := fun min val max a' hr => by
    rw [hrun] at hr
    cases hr
  exact h (zeroArea 2 2) ⟨rfl, rfl⟩ rfl _ hw hp 2 _ hrun

theorem owned_inside_iff_add : (Access.call (.add [97])).Inside (zeroArea 3 3) := by
  have hrun : (Call.add [97]).run.run (zeroArea 3 3) = .ok (.offset 1) ⟨[0, 97, 0], false, 2, 3⟩ := rfl
  have hw : (Access.call (.add [97])).NoWrap (zeroArea 3 3) := show 0 + 1 + 1 < 2 ^ 32 by decide
  have hp : (Access.call (.add [97])).Passes (zeroArea 3 3) := fun min val max a' hr => by
    rw [hrun] at hr
    cases hr
  exact (owned_inside_iff (.init ⟨⟨rfl, rfl⟩, rfl, rfl⟩) hw hp).2 (show 0 + 1 + 1 ≠ 3 by decide)

end OksSystem.StringMemoryArea
