import OksSystem.StringMemoryArea.Bounds

/-!
# What a wrong offset can damage

`clear` stops at the first NUL and `insert` writes only over what `clear` has zeroed, so a call at any offset, also inside a
string, changes one string at most.

* `AnyCall` : the calls with any offset, whose string may be in the area itself; `anyCalls` : their runs;
* `Tail` : byte 0, the byte at `lastString` and all bytes behind it are NUL;
* `anyCalls_made` : every call makes one of the changes `Made`, and `Tail.made` : they keep this;
* `Made.changed` : the bytes it changes;
* `damage_bounded` : what holds in every run.
-/

namespace OksSystem.StringMemoryArea
open ByteBuffer

variable {a a' : StringMemoryArea} {o : UInt32} {s t : Str}

/-! ## The runs -/

inductive AnyCall where
  | call (c : Call)
  /-- `add` or `insert` of the string at byte `i` of the area. -/
  | addArea (i : Nat)
  | insertArea (offset : UInt32) (i : Nat)

def AnyCall.run : AnyCall → Op Ret
  | .call c => c.run
  | .addArea i => do return .offset (← add (.area i))
  | .insertArea offset i => do return .offset (← insert offset (.area i))

/-- The area when `insert` at `o` looks at its string. -/
def cleared (a : StringMemoryArea) (o : UInt32) : StringMemoryArea :=
  if o = 0 then a else a.zeroed o.toNat ((readStr a.data o.toNat).getD []).length

theorem cleared_of_text (h0 : o ≠ 0) (ht : readStr a.data o.toNat = some t) : a.cleared o = a.zeroed o.toNat t.length := by
  unfold cleared
  rw [if_neg h0, ht]
  rfl

/-- The same call with a string outside the area. -/
def AnyCall.asCall (a : StringMemoryArea) : AnyCall → Option Call
  | .call c => some c
  | .addArea i => (readStr a.data i).map .add
  | .insertArea offset i => (readStr (a.cleared offset).data i).map fun s => .insert offset (.str s)

/-- The sums of the call stay below `2 ^ 32`, should it go on to `add`. -/
def AnyCall.NoWrap (a : StringMemoryArea) (x : AnyCall) : Prop := ∀ c ∈ x.asCall a, Access.NoWrap a (.call c)

/-- The runs of an area from zero, with any offsets: a call returns, or a range check stops it. -/
def anyCalls : LTS StringMemoryArea AnyCall where
  init a := IsZero a ∧ a.stringAreaSize.toNat < a.data.length
  step a x a' := x.NoWrap a ∧ ((∃ r, x.run.run a = .ok r a') ∨ ∃ min val max, x.run.run a = .error (.range min val max) a')

theorem run_deref_area (a : StringMemoryArea) (i : Nat) : (deref (.area i)).run a =
    match readStr a.data i with
    | some s => .ok s a
    | none => .error (.outside a.data.length) a := by
  simp only [deref, EStateM.run_bind, EStateM.run_get]
  cases readStr a.data i <;> rfl

/-- It does not matter where the string is. -/
theorem run_add_area {i : Nat} (h : readStr a.data i = some s) : (add (.area i)).run a = (add (.str s)).run a := by
  have hd := run_deref_area a i
  rw [h] at hd
  rw [run_add_of_deref rfl hd, run_add, cstr_of_notMem (nul_notMem_of_readStr h)]

theorem run_insert_area {i : Nat} (h : readStr (a.cleared o).data i = some s) :
    (insert o (.area i)).run a = (insert o (.str s)).run a := by
  by_cases h0 : o = 0
  · subst h0
    exact run_add_area h
  have hs := cstr_of_notMem (nul_notMem_of_readStr h)
  have hp : (precondition (CharPtr.area i != .null)).run a = .ok () a := rfl
  rw [run_insert h0]
  simp only [insert, EStateM.run_bind, hp, if_neg h0, EStateM.run_get, run_rangeCheck]
  by_cases hr : 1 ≤ o.toNat ∧ o.toNat ≤ a.stringAreaSize.toNat
  · simp only [if_pos hr]
    cases hold : readStr a.data o.toNat with
    | none =>
      obtain ⟨j, b, -, hb⟩ := run_clear_outside hold
      rw [hb]
    | some old =>
      have hcleared := cleared_of_text h0 hold
      have hd := run_deref_area (a.cleared o) i
      rw [h, hcleared] at hd
      rw [hcleared] at h
      simp only [run_clear hold, strlen, EStateM.run_bind, hd, EStateM.run_pure, hs]
      by_cases hl : old.length ≥ s.length
      · simp only [if_pos hl, strcpy, EStateM.run_bind, hd, EStateM.run_get]
        split_ifs <;> rfl
      · simp only [if_neg hl]
        exact run_add_area h
  · simp only [if_neg hr]

/-- A call runs like the one with a string outside the area. -/
theorem AnyCall.run_asCall {x : AnyCall} {c : Call} (h : c ∈ x.asCall a) : x.run.run a = c.run.run a := by
  cases x with
  | call c' =>
    cases h
    rfl
  | addArea i =>
    obtain ⟨s, hs, rfl⟩ := Option.map_eq_some_iff.1 h
    rw [AnyCall.run, Call.run, EStateM.run_bind, EStateM.run_bind, run_add_area hs]
  | insertArea o i =>
    obtain ⟨s, hs, rfl⟩ := Option.map_eq_some_iff.1 h
    rw [AnyCall.run, Call.run, EStateM.run_bind, EStateM.run_bind, run_insert_area hs]
    rfl

/-- A pointer to bytes without a NUL is followed, unless the range check comes first. -/
theorem run_insert_area_none {i : Nat} (h : readStr (a.cleared o).data i = none) :
    (∃ j b, (insert o (.area i)).run a = .error (.outside j) b) ∨
      ∃ min val max, (insert o (.area i)).run a = .error (.range min val max) a := by
  have hp : (precondition (CharPtr.area i != .null)).run a = .ok () a := rfl
  have hd := run_deref_area (a.cleared o) i
  rw [h] at hd
  by_cases h0 : o = 0
  · subst h0
    have hd : (deref (.area i)).run a = .error (.outside a.data.length) a := hd
    refine .inl ⟨a.data.length, a, ?_⟩
    simp only [insert, EStateM.run_bind, hp, if_true, add, strlen, hd]
  simp only [insert, EStateM.run_bind, hp, if_neg h0, EStateM.run_get, run_rangeCheck]
  by_cases hr : 1 ≤ o.toNat ∧ o.toNat ≤ a.stringAreaSize.toNat
  · simp only [if_pos hr]
    refine .inl ?_
    cases hold : readStr a.data o.toNat with
    | none =>
      obtain ⟨j, b, -, hb⟩ := run_clear_outside hold
      exact ⟨j, b, by rw [hb]⟩
    | some old =>
      have hcleared := cleared_of_text h0 hold
      rw [hcleared] at hd
      refine ⟨(a.zeroed o.toNat old.length).data.length, a.zeroed o.toNat old.length, ?_⟩
      simp only [run_clear hold, strlen, EStateM.run_bind, hd]
  · simp only [if_neg hr]
    exact .inr ⟨_, _, _, rfl⟩

/-- Every call makes one of the changes of a call with a string of its own. -/
theorem anyCalls_made {x : AnyCall} (h : anyCalls.step a x a') : ∃ c : Call, Access.NoWrap a (.call c) ∧ Made a c a' := by
  obtain ⟨hw, hstep⟩ := h
  by_cases hcall : ∃ c, c ∈ x.asCall a
  · obtain ⟨c, hc⟩ := hcall
    rw [AnyCall.run_asCall hc] at hstep
    exact ⟨c, hw c hc, calls_made hstep⟩
  rw [not_exists, ← Option.eq_none_iff_forall_not_mem] at hcall
  cases x with
  | call c => cases hcall
  | addArea i =>
    have hp : (precondition (CharPtr.area i != .null)).run a = .ok () a := rfl
    have hd := run_deref_area a i
    rw [Option.map_eq_none_iff.1 hcall] at hd
    simp only [AnyCall.run, add, strlen, EStateM.run_bind, hp, hd] at hstep
    obtain ⟨r, hr⟩ | ⟨min, val, max, hr⟩ := hstep
    · cases hr
    · cases hr
  | insertArea o i =>
    obtain ⟨j, b, hrun⟩ | ⟨min, val, max, hrun⟩ := run_insert_area_none (Option.map_eq_none_iff.1 hcall)
    · simp only [AnyCall.run, EStateM.run_bind, hrun] at hstep
      obtain ⟨r, hr⟩ | ⟨min, val, max, hr⟩ := hstep
      · cases hr
      · cases hr
    · simp only [AnyCall.run, EStateM.run_bind, hrun] at hstep
      obtain ⟨r, hr⟩ | ⟨min, val, max, hr⟩ := hstep
      · cases hr
      · cases hr
        exact ⟨.clear 0, trivial, .nothing⟩

/-! ## What stays NUL -/

/-- Byte 0, the byte at `lastString` and all bytes behind it are NUL. -/
structure Tail (a : StringMemoryArea) : Prop where
  room : a.stringAreaSize.toNat < a.data.length
  last_le : a.lastString.toNat ≤ a.stringAreaSize.toNat
  first : a.data[0]? = some 0
  zeros : ∀ i, a.lastString.toNat ≤ i → i < a.data.length → a.data[i]? = some 0

/-- The sums of the string that `c` appends. -/
theorem noWrap_of_appends {c : Call} (hw : Access.NoWrap a (.call c)) (hc : c.text = some s)
    (happ : a.Appends c.offset (cstr s).length) : a.NoWrap (cstr s).length := by
  cases c with
  | add u =>
    cases hc
    exact hw
  | insert o u =>
    cases hc
    exact hw happ
  | clear o => cases hc

theorem appends_of_shorter (ht : readStr a.data o.toNat = some t) {l : Nat} (hl : t.length < l) : a.Appends o l := by
  refine .inr fun u hu => ?_
  rw [ht] at hu
  exact Option.some.inj hu ▸ hl

namespace Tail

theorem zero (hz : IsZero a) (hroom : a.stringAreaSize.toNat < a.data.length) : Tail a where
  room := hroom
  last_le := by simp [hz.lastString]
  first := by rw [hz.data, List.getElem?_replicate, if_pos (by omega)]
  zeros i _ hi := by rw [hz.data, List.getElem?_replicate, if_pos hi]

/-- The string at any byte of the area ends before the first NUL that has to be there. -/
theorem text (h : Tail a) {j : Nat} (hj : j ≤ a.stringAreaSize.toNat) :
    ∃ t, readStr a.data j = some t ∧ j + t.length ≤ max j a.lastString.toNat := by
  have hroom := h.room
  have hlast := h.last_le
  have hnul := h.zeros (max j a.lastString.toNat) (le_max_right _ _) (by omega)
  obtain ⟨t, ht⟩ := exists_readStr (le_max_left j a.lastString.toNat) hnul
  exact ⟨t, ht, readStr_le ht (le_max_left _ _) hnul⟩

theorem rewritten (h : Tail a) {j : Nat} (ht : readStr a.data j = some t) (hl : s.length ≤ t.length) :
    Tail (a.rewritten j t.length s) where
  room := by rw [length_rewritten ht hl]; exact h.room
  last_le := h.last_le
  first := rewritten_nul ht hl h.first
  zeros i hi hlt := by
    rw [length_rewritten ht hl] at hlt
    exact rewritten_nul ht hl (h.zeros i hi hlt)

theorem appended (h : Tail a) (hw : a.NoWrap s.length) (hf : a.Fits s.length) : Tail (a.appended s) := by
  have hstart := start_toNat hw
  have hstop := stop_toNat hw
  have hroom := h.room
  have hle := hf.2
  have hbytes : ∀ i, (a.appended s).data[i]? =
      if a.start.toNat ≤ i ∧ i < a.start.toNat + (s ++ [0]).length then (s ++ [0])[i - a.start.toNat]? else a.data[i]? :=
    getElem?_overwrite (by simp; omega)
  refine ⟨?_, hle, ?_, fun i hi hlt => ?_⟩
  · rw [show (a.appended s).data.length = a.data.length from length_overwrite (by simp; omega)]
    exact hroom
  · rw [hbytes, if_neg (by omega)]
    exact h.first
  · rw [show (a.appended s).data.length = a.data.length from length_overwrite (by simp; omega)] at hlt
    rw [appended_lastString, hstop] at hi
    rw [hbytes]
    split_ifs with hin
    · -- the byte at the new `lastString` is the NUL of the string
      rw [List.length_append, List.length_singleton] at hin
      rw [List.getElem?_append_right (by omega), show i - a.start.toNat - s.length = 0 by omega]
      rfl
    · exact h.zeros i (by omega) hlt

/-- Every change keeps these bytes, and `lastString` does not go back. -/
theorem made (h : Tail a) {c : Call} (hw : Access.NoWrap a (.call c)) (hm : Made a c a') :
    Tail a' ∧ a.lastString.toNat ≤ a'.lastString.toNat := by
  cases hm with
  | nothing => exact ⟨h, le_rfl⟩
  | append h0 hc hf hroom =>
    have hw := noWrap_of_appends hw hc (.inl h0)
    refine ⟨h.appended hw hf, ?_⟩
    rw [appended_lastString, stop_toNat hw]
    omega
  | rewrite hold hl => exact ⟨h.rewritten hold hl, le_rfl⟩
  | relocate hpos hc hold hl hf hroom =>
    have hw := noWrap_of_appends hw hc (appends_of_shorter hold hl)
    refine ⟨(h.rewritten (s := []) hold (Nat.zero_le _)).appended hw hf, ?_⟩
    rw [appended_lastString, rewritten_stop, stop_toNat hw]
    omega

end Tail

theorem anyCalls_tail (h : anyCalls.Reachable a) : Tail a := by
  refine h.invariant (fun b hb => .zero hb.1 hb.2) fun b x b' hb hs => ?_
  obtain ⟨c, hw, hm⟩ := anyCalls_made hs
  exact (hb.made hw hm).1

theorem anyCalls_last_le {xs : List AnyCall} (h : Tail a) (hp : anyCalls.Path a xs a') :
    a.lastString.toNat ≤ a'.lastString.toNat := by
  induction hp with
  | nil _ => exact le_rfl
  | cons hs _ ih =>
    obtain ⟨c, hw, hm⟩ := anyCalls_made hs
    obtain ⟨htail, hle⟩ := h.made hw hm
    exact hle.trans (ih htail)

/-! ## What changes -/

theorem changed_rewritten {j i : Nat} (ht : readStr a.data j = some t) (hl : s.length ≤ t.length)
    (hne : (a.rewritten j t.length s).data[i]? ≠ a.data[i]?) : j ≤ i ∧ i < j + t.length := by
  by_contra hnot
  exact hne (by rw [getElem?_rewritten ht hl, if_neg hnot])

theorem changed_appended {i : Nat} (hw : a.NoWrap s.length) (hroom : a.start.toNat + s.length < a.data.length)
    (hne : (a.appended s).data[i]? ≠ a.data[i]?) :
    a.lastString.toNat + 1 ≤ i ∧ i ≤ (a.appended s).lastString.toNat := by
  have hstart := start_toNat hw
  rw [appended_lastString, stop_toNat hw]
  by_contra hnot
  refine hne ?_
  show (overwrite a.data a.start.toNat (s ++ [0]))[i]? = a.data[i]?
  rw [getElem?_overwrite (by simp; omega), if_neg (by simp; omega)]

/-- A call changes bytes of the string at its offset, and those between the old and the new `lastString`. -/
theorem Made.changed {c : Call} (hm : Made a c a') (hw : Access.NoWrap a (.call c)) {i : Nat}
    (hne : a'.data[i]? ≠ a.data[i]?) :
    (∃ old, readStr a.data c.offset.toNat = some old ∧ c.offset.toNat ≤ i ∧ i < c.offset.toNat + old.length) ∨
      a.lastString.toNat + 1 ≤ i ∧ i ≤ a'.lastString.toNat := by
  cases hm with
  | nothing => exact absurd rfl hne
  | append h0 hc hf hroom => exact .inr (changed_appended (noWrap_of_appends hw hc (.inl h0)) hroom hne)
  | rewrite hold hl => exact .inl ⟨_, hold, changed_rewritten hold hl hne⟩
  | @relocate s old hpos hc hold hl hf hroom =>
    have hw := noWrap_of_appends hw hc (appends_of_shorter hold hl)
    by_cases heq : (a.rewritten c.offset.toNat old.length []).data[i]? = a.data[i]?
    · exact .inr (changed_appended (a := a.rewritten c.offset.toNat old.length []) hw hroom (heq ▸ hne))
    · exact .inl ⟨_, hold, changed_rewritten (s := []) hold (Nat.zero_le _) heq⟩

/-! ## No byte behind -/

/-- The area with only the first `k` bytes of its buffer. -/
def cut (a : StringMemoryArea) (k : Nat) : StringMemoryArea := { a with data := a.data.take k }

theorem cut_zeroed {j n k : Nat} (hj : j + n ≤ a.data.length) (hk : j + n ≤ k) :
    (a.cut k).zeroed j n = (a.zeroed j n).cut k := by
  unfold cut zeroed
  congr 1
  apply List.ext_getElem?
  intro i
  rw [getElem?_overwrite (by simp; omega), List.getElem?_take, List.getElem?_take]
  rw [getElem?_overwrite (by simp; omega)]
  split_ifs with h1 h2
  · rfl
  · exact absurd h1 (by rw [List.length_replicate]; omega)
  · rfl
  · rfl

/-- `clear` looks at no byte behind the string. -/
theorem run_clear_cut (ht : readStr a.data o.toNat = some t) {k : Nat} (hk : o.toNat + t.length < k) :
    (clear o).run (a.cut k) = .ok t.length ((a.zeroed o.toNat t.length).cut k) := by
  have hlt := readStr_lt ht
  have hcut : readStr (a.cut k).data o.toNat = some t := readStr_congr ht fun i hi => by
    show (a.data.take k)[o.toNat + i]? = _
    rw [List.getElem?_take_of_lt (by omega)]
  rw [run_clear hcut, cut_zeroed (by omega) (by omega)]

/-- **In every run, whatever the offsets, `clear` ends within `max(offset,lastString)` and changes only the rest of the string
at the offset, `insert` changes nothing else but the bytes it appends, and byte 0 and the bytes from `lastString` on are NUL.** -/
theorem damage_bounded (h : anyCalls.Reachable a) :
    (a.data[0]? = some 0 ∧ ∀ i, a.lastString.toNat ≤ i → i < a.data.length → a.data[i]? = some 0) ∧
    (∀ xs a', anyCalls.Path a xs a' → a.lastString.toNat ≤ a'.lastString.toNat) ∧
    ∀ o : UInt32, o.toNat ≤ a.stringAreaSize.toNat → ∃ t, readStr a.data o.toNat = some t ∧
      (∃ a', (clear o).run a = .ok t.length a' ∧ a'.lastString = a.lastString ∧
        (∀ i, a'.data[i]? ≠ a.data[i]? → o.toNat ≤ i ∧ i < o.toNat + t.length) ∧
        ∀ k, max o.toNat a.lastString.toNat < k → (clear o).run (a.cut k) = .ok t.length (a'.cut k)) ∧
      ∀ (text : Text) (a' : StringMemoryArea), 1 ≤ o.toNat → Access.NoWrap a (.call (.insert o text)) →
        calls.step a (.insert o text) a' → ∀ i, a'.data[i]? ≠ a.data[i]? →
          o.toNat ≤ i ∧ i < o.toNat + t.length ∨ a.lastString.toNat + 1 ≤ i ∧ i ≤ a'.lastString.toNat := by
  have htail := anyCalls_tail h
  refine ⟨⟨htail.first, htail.zeros⟩, fun xs a' hp => anyCalls_last_le htail hp, fun o ho => ?_⟩
  obtain ⟨t, ht, hend⟩ := htail.text ho
  refine ⟨t, ht, ⟨_, run_clear ht, rfl, fun i hne => ?_, fun k hk => run_clear_cut ht (by omega)⟩, ?_⟩
  · rw [zeroed_eq_rewritten] at hne
    exact changed_rewritten (s := []) ht (Nat.zero_le _) hne
  · intro text a' hpos hw hs i hne
    obtain ⟨old, hold, hin⟩ | hin := (calls_made hs).changed hw hne
    · have hold : readStr a.data o.toNat = some old := hold
      rw [ht] at hold
      cases hold
      exact .inl hin
    · exact .inr hin

/-- The area that holds "ab" : an offset inside that string. -/
def holdingAb : StringMemoryArea := ⟨[0, 97, 98, 0], false, 3, 3⟩

theorem holdingAb_reachable : anyCalls.Reachable holdingAb := by
  have hzero : anyCalls.init (zeroArea 4 3) := ⟨⟨rfl, rfl⟩, by decide⟩
  refine .step (.init hzero) (i := .call (.add [97, 98])) ⟨fun c hc => ?_, .inl ⟨.offset 1, rfl⟩⟩
  cases hc
  show 0 + 1 + 2 < 4294967296
  decide

theorem damage_bounded_inside : ∃ a', (clear 2).run holdingAb = .ok 1 a' ∧
    ∀ i, a'.data[i]? ≠ holdingAb.data[i]? → 2 ≤ i ∧ i < 3 := by
  obtain ⟨t, ht, ⟨a', hrun, -, hchanged, -⟩, -⟩ := (damage_bounded holdingAb_reachable).2.2 2 (by decide)
  have htext : readStr holdingAb.data (2 : UInt32).toNat = some [98] := by decide
  rw [htext] at ht
  cases ht
  exact ⟨a', hrun, hchanged⟩

end OksSystem.StringMemoryArea
