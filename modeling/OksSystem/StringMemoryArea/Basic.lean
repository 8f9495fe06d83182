import Mathlib.Algebra.Group.Nat.Defs
import OksSystem.Lib.ByteBuffer

/-!
# The string memory area

`StringMemoryArea` is the buffer behind `string_area_write()` with the two numbers its subclass keeps. Operations run in
`EStateM`, so that the area an operation leaves behind is there also when a check stops it.

* `add`, `clear`, `getString`, `insert` : the methods on C strings;
* `Stop` : a failed check (`ERS_RANGE_CHECK`, `ERS_PRECONDITION`), or an access to a byte the buffer does not have;
* `run_clear`, `run_add`, `run_insert`, `run_getString` : what each of them does to an area.

The buffer may be shorter or longer than `stringAreaSize`: every access is checked against the buffer itself.
-/

namespace OksSystem
open ByteBuffer

structure StringMemoryArea where
  /-- The bytes behind `string_area_write()` and `string_area_read()`. -/
  data : Str
  /-- `string_area_read()` gives NULL. -/
  readNull : Bool
  lastString : UInt32
  stringAreaSize : UInt64
  deriving DecidableEq, Repr

namespace StringMemoryArea

/-- Why an operation did not return. -/
inductive Stop where
  | range (min val max : Nat)
  | precondition
  /-- Byte `i` is not in the buffer. -/
  | outside (i : Nat)
  deriving DecidableEq, Repr

/-- A `const char *`: NULL, a string outside the area, or a pointer to byte `i` of the area. -/
inductive CharPtr where
  | null
  | str (s : Str)
  | area (i : Nat)
  deriving DecidableEq, Repr

abbrev Op (α : Type) := EStateM Stop StringMemoryArea α

/-! ## Memory and checks -/

/-- `ERS_RANGE_CHECK(min,val,max)`. -/
def rangeCheck (min val max : Nat) : Op Unit :=
  if min ≤ val ∧ val ≤ max then pure () else throw (.range min val max)

/-- `ERS_PRECONDITION(p)`. -/
def precondition (p : Bool) : Op Unit := if p then pure () else throw .precondition

def load (i : Nat) : Op Byte := do
  match (← get).data[i]? with
  | some b => pure b
  | none => throw (.outside i)

def store (i : Nat) (b : Byte) : Op Unit := do
  let a ← get
  if i < a.data.length then set { a with data := a.data.set i b } else throw (.outside i)

/-- The C string a pointer points to. -/
def deref : CharPtr → Op Str
  | .null => throw .precondition
  | .str s => pure (cstr s)
  | .area i => do
    let a ← get
    match readStr a.data i with
    | some s => pure s
    | none => throw (.outside a.data.length)

def strlen (str : CharPtr) : Op Nat := do return (← deref str).length

/-- Copies the string at `src`, its NUL included, to byte `dest` of the area. -/
def strcpy (dest : Nat) (src : CharPtr) : Op Unit := do
  let s ← deref src
  let a ← get
  if dest + s.length < a.data.length then set { a with data := overwrite a.data dest (s ++ [0]) }
  else throw (.outside a.data.length)

/-! ## The methods on C strings -/

def add (str : CharPtr) : Op UInt32 := do
  precondition (str != .null)
  let l := UInt64.ofNat (← strlen str)
  let offset := (← get).lastString
  let start := offset + 1
  -- the sum is a `size_t`, cut to an `offset_t`
  let end_ := (start.toUInt64 + l).toUInt32
  rangeCheck 1 end_.toNat (← get).stringAreaSize.toNat
  strcpy start.toNat str
  modify fun a => { a with lastString := end_ }
  return start

/-- The `while` loop of `clear`, with `n` bytes of the buffer left from `count + offset` on. -/
def clearLoop (offset : Nat) : Nat → Nat → Op Nat
  | 0, count => throw (.outside (count + offset))
  | n + 1, count => do
    if (← load (count + offset)) ≠ 0 then
      store (count + offset) 0
      clearLoop offset n (count + 1)
    else return count

def clear (offset : UInt32) : Op Nat := do
  let a ← get
  clearLoop offset.toNat (a.data.length - offset.toNat) 0

/-- The pointer `get_string` returns: `none` is NULL, `some i` the address of byte `i`. -/
def getString (offset : UInt32) : Op (Option Nat) := do
  if offset = 0 then return none
  let a ← get
  rangeCheck 1 offset.toNat a.stringAreaSize.toNat
  if a.readNull then return none
  return some offset.toNat

def insert (offset : UInt32) (str : CharPtr) : Op UInt32 := do
  precondition (str != .null)
  if offset = 0 then
    add str
  else
    rangeCheck 1 offset.toNat (← get).stringAreaSize.toNat
    let available ← clear offset
    if available ≥ (← strlen str) then
      strcpy offset.toNat str
      return offset
    else add str

/-! ## What the methods do -/

/-- The area with the C string `s` written at `o`. -/
def put (a : StringMemoryArea) (o : Nat) (s : Str) : StringMemoryArea :=
  { a with data := overwrite a.data o (s ++ [0]) }

/-- The area with `n` bytes zeroed from `o` on. -/
def zeroed (a : StringMemoryArea) (o n : Nat) : StringMemoryArea :=
  { a with data := overwrite a.data o (List.replicate n 0) }

@[simp] theorem put_lastString (a : StringMemoryArea) (o : Nat) (s : Str) : (a.put o s).lastString = a.lastString := rfl
@[simp] theorem put_size (a : StringMemoryArea) (o : Nat) (s : Str) : (a.put o s).stringAreaSize = a.stringAreaSize := rfl
@[simp] theorem put_readNull (a : StringMemoryArea) (o : Nat) (s : Str) : (a.put o s).readNull = a.readNull := rfl
@[simp] theorem zeroed_lastString (a : StringMemoryArea) (o n : Nat) : (a.zeroed o n).lastString = a.lastString := rfl
@[simp] theorem zeroed_size (a : StringMemoryArea) (o n : Nat) : (a.zeroed o n).stringAreaSize = a.stringAreaSize := rfl
@[simp] theorem zeroed_readNull (a : StringMemoryArea) (o n : Nat) : (a.zeroed o n).readNull = a.readNull := rfl

/-- `start` of `add`. -/
def start (a : StringMemoryArea) : UInt32 := a.lastString + 1

/-- `end` of `add` for a string of length `l`. -/
def stop (a : StringMemoryArea) (l : Nat) : UInt32 := (a.start.toUInt64 + UInt64.ofNat l).toUInt32

/-- The range check of `add` passes for a string of length `l`. -/
def Fits (a : StringMemoryArea) (l : Nat) : Prop :=
  1 ≤ (a.stop l).toNat ∧ (a.stop l).toNat ≤ a.stringAreaSize.toNat

instance (a : StringMemoryArea) (l : Nat) : Decidable (a.Fits l) := by unfold Fits; infer_instance

@[simp] theorem run_rangeCheck (a : StringMemoryArea) (min val max : Nat) :
    (rangeCheck min val max).run a =
      if min ≤ val ∧ val ≤ max then .ok () a else .error (.range min val max) a := by
  unfold rangeCheck
  split <;> rfl

@[simp] theorem run_deref_str (a : StringMemoryArea) (s : Str) : (deref (.str s)).run a = .ok (cstr s) a := rfl

@[simp] theorem run_strlen_str (a : StringMemoryArea) (s : Str) :
    (strlen (.str s)).run a = .ok (cstr s).length a := rfl

@[simp] theorem run_strcpy_str (a : StringMemoryArea) (dest : Nat) (s : Str) :
    (strcpy dest (.str s)).run a =
      if dest + (cstr s).length < a.data.length then .ok () (a.put dest (cstr s))
      else .error (.outside a.data.length) a := by
  simp only [strcpy, EStateM.run_bind, run_deref_str, EStateM.run_get]
  split <;> rfl

/-- `add` depends on the string that its pointer points to, wherever that is. -/
theorem run_add_of_deref {a : StringMemoryArea} {str : CharPtr} {s : Str} (hp : (str != .null) = true)
    (hd : (deref str).run a = .ok s a) :
    (add str).run a =
      if a.Fits s.length then
        if a.start.toNat + s.length < a.data.length then
          .ok a.start { a.put a.start.toNat s with lastString := a.stop s.length }
        else .error (.outside a.data.length) a
      else .error (.range 1 (a.stop s.length).toNat a.stringAreaSize.toNat) a := by
  have hpre : (precondition (str != .null)).run a = .ok () a := by
    rw [hp]
    rfl
  simp only [add, strlen, strcpy, EStateM.run_bind, hpre, hd, EStateM.run_pure, EStateM.run_get, run_rangeCheck]
  by_cases h : a.Fits s.length
  · have hc := h
    simp only [Fits, stop, start] at hc
    simp only [if_pos h, if_pos hc, hd]
    by_cases h' : a.start.toNat + s.length < a.data.length
    · have hs := h'
      simp only [start] at hs
      simp only [if_pos h', if_pos hs, EStateM.run_set, EStateM.run_modify]
      rfl
    · have hs := h'
      simp only [start] at hs
      simp only [if_neg h', if_neg hs]
      rfl
  · have hc := h
    simp only [Fits, stop, start] at hc
    simp only [if_neg h, if_neg hc]
    rfl

theorem run_add (a : StringMemoryArea) (s : Str) :
    (add (.str s)).run a =
      if a.Fits (cstr s).length then
        if a.start.toNat + (cstr s).length < a.data.length then
          .ok a.start { a.put a.start.toNat (cstr s) with lastString := a.stop (cstr s).length }
        else .error (.outside a.data.length) a
      else .error (.range 1 (a.stop (cstr s).length).toNat a.stringAreaSize.toNat) a :=
  run_add_of_deref rfl (run_deref_str a s)

/-- One pass of the loop of `clear` zeroes the byte it is at. -/
theorem run_clearLoop_succ (a : StringMemoryArea) (offset n count : Nat) :
    (clearLoop offset (n + 1) count).run a =
      match a.data[count + offset]? with
      | none => .error (.outside (count + offset)) a
      | some b => if b = 0 then .ok count a else (clearLoop offset n (count + 1)).run (a.zeroed (count + offset) 1) := by
  rw [clearLoop]
  simp only [EStateM.run_bind, load, EStateM.run_get]
  cases h : a.data[count + offset]? with
  | none => rfl
  | some b =>
    have hlt := (List.getElem?_eq_some_iff.1 h).1
    by_cases hb : b = 0
    · simp [hb]
    · simp only [EStateM.run_pure, store, ne_eq, hb, not_false_eq_true, if_true, EStateM.run_bind, EStateM.run_get,
        if_pos hlt, EStateM.run_set, if_false]
      rw [set_eq_overwrite hlt]
      rfl

theorem zeroed_zeroed (a : StringMemoryArea) (o n : Nat) (h : o + (n + 1) ≤ a.data.length) :
    (a.zeroed o 1).zeroed (o + 1) n = a.zeroed o (n + 1) := by
  unfold zeroed
  congr 1
  exact overwrite_cons (by simpa using h)

/-- The loop of `clear`, started on a C string, zeroes it and counts its bytes. -/
theorem run_clearLoop {a : StringMemoryArea} {offset count n : Nat} {t : Str}
    (h : readStr a.data (count + offset) = some t) (hn : t.length < n) :
    (clearLoop offset n count).run a = .ok (count + t.length) (a.zeroed (count + offset) t.length) := by
  induction t generalizing a count n with
  | nil =>
    obtain ⟨n, rfl⟩ := Nat.exists_eq_succ_of_ne_zero (Nat.ne_of_gt hn)
    rw [Nat.succ_eq_add_one, run_clearLoop_succ, readStr_eq_nil_iff.1 h]
    simp [zeroed]
  | cons b t ih =>
    obtain ⟨n, rfl⟩ := Nat.exists_eq_succ_of_ne_zero (Nat.ne_of_gt (Nat.zero_lt_of_lt hn))
    have hb : a.data[count + offset]? = some b := by simpa using readStr_getElem? h (i := 0) (by simp)
    have hb0 : b ≠ 0 := fun h0 => nul_notMem_of_readStr h (by simp [h0])
    have hlt := readStr_lt h
    simp only [List.length_cons] at hn hlt ⊢
    have htail : readStr (a.zeroed (count + offset) 1).data (count + 1 + offset) = some t := by
      rw [readStr_eq_some_iff]
      refine ⟨fun h0 => nul_notMem_of_readStr h (List.mem_cons_of_mem _ h0), fun i hi => ?_⟩
      rw [zeroed, getElem?_overwrite (by simp; omega), if_neg (by simp; omega),
        show count + 1 + offset + i = count + offset + (i + 1) by omega, readStr_getElem? h (by simp; omega)]
      simp
    rw [Nat.succ_eq_add_one, run_clearLoop_succ, hb]
    simp only [if_neg hb0]
    rw [ih htail (by omega), show count + 1 + offset = count + offset + 1 by omega, zeroed_zeroed _ _ _ (by omega)]
    congr 1
    omega

/-- `clear` on a C string. -/
theorem run_clear {a : StringMemoryArea} {offset : UInt32} {t : Str} (h : readStr a.data offset.toNat = some t) :
    (clear offset).run a = .ok t.length (a.zeroed offset.toNat t.length) := by
  have hlt := readStr_lt h
  have h' : readStr a.data (0 + offset.toNat) = some t := by simpa using h
  have := run_clearLoop h' (n := a.data.length - offset.toNat) (by omega)
  simpa [clear] using this

/-- Without a NUL from `offset` on, `clear` runs out of the buffer. -/
theorem run_clearLoop_outside {a : StringMemoryArea} {offset count n : Nat} (h : readStr a.data (count + offset) = none)
    (hn : count + offset + n = a.data.length ∨ a.data.length ≤ count + offset) :
    ∃ i a', a.data.length ≤ i ∧ (clearLoop offset n count).run a = .error (.outside i) a' := by
  induction n generalizing a count with
  | zero => exact ⟨count + offset, a, by omega, rfl⟩
  | succ n ih =>
    rw [run_clearLoop_succ]
    cases hb : a.data[count + offset]? with
    | none => exact ⟨count + offset, a, List.getElem?_eq_none_iff.1 hb, rfl⟩
    | some b =>
      have hlt := (List.getElem?_eq_some_iff.1 hb).1
      have hb0 : b ≠ 0 := by
        rintro rfl
        rw [readStr_eq_nil_iff.2 hb] at h
        cases h
      have hlen : (a.zeroed (count + offset) 1).data.length = a.data.length :=
        length_overwrite (by simp; omega)
      have hnone : readStr (a.zeroed (count + offset) 1).data (count + 1 + offset) = none := by
        by_contra hne
        obtain ⟨s, hs⟩ := Option.ne_none_iff_exists'.1 hne
        have hnul := readStr_nul hs
        rw [zeroed, getElem?_overwrite (by simp; omega), if_neg (by simp; omega)] at hnul
        obtain ⟨s', hs'⟩ := exists_readStr (o := count + offset) (by omega) hnul
        rw [h] at hs'
        cases hs'
      simp only [if_neg hb0]
      obtain ⟨i, a', hi, hr⟩ := ih hnone (by rw [hlen]; omega)
      exact ⟨i, a', by omega, hr⟩

theorem run_clear_outside {a : StringMemoryArea} {offset : UInt32} (h : readStr a.data offset.toNat = none) :
    ∃ i a', a.data.length ≤ i ∧ (clear offset).run a = .error (.outside i) a' := by
  have h' : readStr a.data (0 + offset.toNat) = none := by simpa using h
  obtain ⟨i, a', hi, hr⟩ := run_clearLoop_outside h' (n := a.data.length - offset.toNat) (by omega)
  exact ⟨i, a', hi, by simpa [clear] using hr⟩

theorem run_getString (a : StringMemoryArea) (offset : UInt32) :
    (getString offset).run a =
      if offset = 0 then .ok none a
      else if 1 ≤ offset.toNat ∧ offset.toNat ≤ a.stringAreaSize.toNat then
        .ok (if a.readNull then none else some offset.toNat) a
      else .error (.range 1 offset.toNat a.stringAreaSize.toNat) a := by
  unfold getString
  by_cases h : offset = 0
  · rw [if_pos h, if_pos h]
    rfl
  · rw [if_neg h, if_neg h]
    simp only [EStateM.run_bind, EStateM.run_get, run_rangeCheck]
    split_ifs <;> simp_all

/-! ### Wrap-around -/

/-- The sums in `add` stay below `2 ^ 32`. -/
def NoWrap (a : StringMemoryArea) (l : Nat) : Prop := a.lastString.toNat + 1 + l < 2 ^ 32

theorem start_toNat {a : StringMemoryArea} {l : Nat} (h : a.NoWrap l) : a.start.toNat = a.lastString.toNat + 1 := by
  unfold NoWrap at h
  rw [start, UInt32.toNat_add]
  exact Nat.mod_eq_of_lt (by simp; omega)

theorem stop_toNat {a : StringMemoryArea} {l : Nat} (h : a.NoWrap l) :
    (a.stop l).toNat = a.lastString.toNat + 1 + l := by
  have hs := start_toNat h
  unfold NoWrap at h
  rw [stop, UInt64.toNat_toUInt32, UInt64.toNat_add, UInt32.toNat_toUInt64, hs, UInt64.toNat_ofNat']
  omega

/-- The buffer holds `string_area_size()` bytes and one more, and `string_area_read()` is not NULL. -/
structure Backed (a : StringMemoryArea) : Prop where
  room : a.stringAreaSize.toNat + 1 ≤ a.data.length
  readable : a.readNull = false

/-- `insert` at `o` of a string of length `l` goes on to `add`. -/
def Appends (a : StringMemoryArea) (o : UInt32) (l : Nat) : Prop :=
  o = 0 ∨ ∀ t, readStr a.data o.toNat = some t → t.length < l

/-- The area of a zeroed buffer. -/
def zeroArea (bytes : Nat) (size : UInt64) : StringMemoryArea := ⟨List.replicate bytes 0, false, 0, size⟩

theorem ne_zero_of_pos {offset : UInt32} (h : 1 ≤ offset.toNat) : offset ≠ 0 := by
  rintro rfl
  exact absurd h (by decide)

/-! ### `insert`, case by case -/

theorem run_insert_zero (a : StringMemoryArea) (s : Str) : (insert 0 (.str s)).run a = (add (.str s)).run a := rfl

section Insert

variable {a : StringMemoryArea} {offset : UInt32} {s t : Str}

theorem run_insert (h0 : offset ≠ 0) :
    (insert offset (.str s)).run a =
      if 1 ≤ offset.toNat ∧ offset.toNat ≤ a.stringAreaSize.toNat then
        match (clear offset).run a with
        | .ok available a' =>
          if available ≥ (cstr s).length then
            if offset.toNat + (cstr s).length < a'.data.length then .ok offset (a'.put offset.toNat (cstr s))
            else .error (.outside a'.data.length) a'
          else (add (.str s)).run a'
        | .error e a' => .error e a'
      else .error (.range 1 offset.toNat a.stringAreaSize.toNat) a := by
  have hp : (precondition (CharPtr.str s != .null)).run a = .ok () a := rfl
  simp only [insert, EStateM.run_bind, hp, if_neg h0, EStateM.run_get, run_rangeCheck]
  by_cases hr : 1 ≤ offset.toNat ∧ offset.toNat ≤ a.stringAreaSize.toNat
  · simp only [if_pos hr]
    cases (clear offset).run a with
    | error e a' => rfl
    | ok available a' =>
      simp only [run_strlen_str]
      by_cases hl : available ≥ (cstr s).length
      · simp only [if_pos hl, EStateM.run_bind, run_strcpy_str]
        by_cases hd : offset.toNat + (cstr s).length < a'.data.length
        · simp only [if_pos hd]
          rfl
        · simp only [if_neg hd]
      · simp only [if_neg hl]
  · simp only [if_neg hr]

/-- The string fits where the old one stood. -/
theorem run_insert_inplace (hr : 1 ≤ offset.toNat ∧ offset.toNat ≤ a.stringAreaSize.toNat)
    (ht : readStr a.data offset.toNat = some t) (hl : (cstr s).length ≤ t.length) :
    (insert offset (.str s)).run a = .ok offset ((a.zeroed offset.toNat t.length).put offset.toNat (cstr s)) := by
  have hlt := readStr_lt ht
  have hlen : (a.zeroed offset.toNat t.length).data.length = a.data.length := length_overwrite (by simp; omega)
  rw [run_insert (ne_zero_of_pos hr.1), if_pos hr, run_clear ht]
  simp only [ge_iff_le, if_pos hl, hlen]
  rw [if_pos (by omega)]

/-- The string does not fit there: the old one is zeroed and the new one goes to `add`. -/
theorem run_insert_relocate (hr : 1 ≤ offset.toNat ∧ offset.toNat ≤ a.stringAreaSize.toNat)
    (ht : readStr a.data offset.toNat = some t) (hl : t.length < (cstr s).length) :
    (insert offset (.str s)).run a = (add (.str s)).run (a.zeroed offset.toNat t.length) := by
  rw [run_insert (ne_zero_of_pos hr.1), if_pos hr, run_clear ht]
  simp only [ge_iff_le, if_neg (Nat.not_le.2 hl)]

theorem run_insert_range (h0 : offset ≠ 0) (hr : ¬ (1 ≤ offset.toNat ∧ offset.toNat ≤ a.stringAreaSize.toNat)) :
    (insert offset (.str s)).run a = .error (.range 1 offset.toNat a.stringAreaSize.toNat) a := by
  rw [run_insert h0, if_neg hr]

/-- Without a NUL from `offset` on, `insert` runs out of the buffer while it clears. -/
theorem run_insert_outside (hr : 1 ≤ offset.toNat ∧ offset.toNat ≤ a.stringAreaSize.toNat)
    (ht : readStr a.data offset.toNat = none) :
    ∃ i a', a.data.length ≤ i ∧ (insert offset (.str s)).run a = .error (.outside i) a' := by
  obtain ⟨i, a', hi, hc⟩ := run_clear_outside ht
  refine ⟨i, a', hi, ?_⟩
  rw [run_insert (ne_zero_of_pos hr.1), if_pos hr, hc]

end Insert

/-! ### Inversion -/

/-- What a call of `add` that returns has done. -/
theorem add_ok {a a' : StringMemoryArea} {s : Str} {r : UInt32} (h : (add (.str s)).run a = .ok r a') :
    a.Fits (cstr s).length ∧ a.start.toNat + (cstr s).length < a.data.length ∧ r = a.start ∧
      a' = { a.put a.start.toNat (cstr s) with lastString := a.stop (cstr s).length } := by
  rw [run_add] at h
  split_ifs at h with h1 h2
  cases h
  exact ⟨h1, h2, rfl, rfl⟩

/-- What a call of `insert` that returns has done: `add` at once, an overwrite in place, or `add` after clearing. -/
theorem insert_ok {a a' : StringMemoryArea} {o r : UInt32} {s : Str} (h : (insert o (.str s)).run a = .ok r a') :
    (o = 0 ∧ (add (.str s)).run a = .ok r a') ∨
      (1 ≤ o.toNat ∧ o.toNat ≤ a.stringAreaSize.toNat) ∧ ∃ t, readStr a.data o.toNat = some t ∧
        ((cstr s).length ≤ t.length ∧ r = o ∧ a' = (a.zeroed o.toNat t.length).put o.toNat (cstr s) ∨
          t.length < (cstr s).length ∧ (add (.str s)).run (a.zeroed o.toNat t.length) = .ok r a') := by
  by_cases h0 : o = 0
  · subst h0
    exact .inl ⟨rfl, h⟩
  · by_cases hr : 1 ≤ o.toNat ∧ o.toNat ≤ a.stringAreaSize.toNat
    · refine .inr ⟨hr, ?_⟩
      cases ht : readStr a.data o.toNat with
      | none =>
        obtain ⟨i, b, -, hb⟩ := run_insert_outside (s := s) hr ht
        rw [hb] at h
        cases h
      | some t =>
        refine ⟨t, rfl, ?_⟩
        by_cases hl : (cstr s).length ≤ t.length
        · rw [run_insert_inplace hr ht hl] at h
          cases h
          exact .inl ⟨hl, rfl, rfl⟩
        · rw [run_insert_relocate hr ht (by omega)] at h
          exact .inr ⟨by omega, h⟩
    · rw [run_insert_range h0 hr] at h
      cases h

/-- Whatever the area held, the string reads back at the offset `insert` returned. -/
theorem insert_reads {a a' : StringMemoryArea} {o r : UInt32} {s : Str} (h : (insert o (.str s)).run a = .ok r a')
    (hw : a.Appends o (cstr s).length → a.NoWrap (cstr s).length) :
    (1 ≤ r.toNat ∧ r.toNat ≤ a'.stringAreaSize.toNat) ∧ a'.readNull = a.readNull ∧
      readStr a'.data r.toNat = some (cstr s) := by
  have hadd : ∀ {b : StringMemoryArea}, b.NoWrap (cstr s).length → (add (.str s)).run b = .ok r a' →
      (1 ≤ r.toNat ∧ r.toNat ≤ a'.stringAreaSize.toNat) ∧ a'.readNull = b.readNull ∧
        readStr a'.data r.toNat = some (cstr s) := by
    intro b hb hab
    obtain ⟨hf, hlt, rfl, rfl⟩ := add_ok hab
    unfold Fits at hf
    rw [stop_toNat hb] at hf
    have hs := start_toNat hb
    refine ⟨⟨by omega, ?_⟩, rfl, readStr_overwrite_self (nul_notMem_cstr s) hlt⟩
    simp only [put_size]
    omega
  rcases insert_ok h with ⟨rfl, h⟩ | ⟨hr, t, ht, ⟨hl, rfl, rfl⟩ | ⟨hl, h⟩⟩
  · exact hadd (hw (.inl rfl)) h
  · refine ⟨hr, rfl, readStr_overwrite_self (nul_notMem_cstr s) ?_⟩
    have hlt := readStr_lt ht
    rw [zeroed, length_overwrite (by simp; omega)]
    omega
  · refine hadd (b := a.zeroed o.toNat t.length) (hw (.inr fun t' ht' => ?_)) h
    rw [ht] at ht'
    exact Option.some.inj ht' ▸ hl

end StringMemoryArea

end OksSystem
