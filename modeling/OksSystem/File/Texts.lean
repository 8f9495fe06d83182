import OksSystem.Descriptor.Basic
import OksSystem.File.Make
import OksSystem.File.PrettySize

/-!
# The texts of permissions and of open flags

* `repr_cancel` : a number at the end of a text is read back, with what stands in front of it;
* `prettyPermissionsOf`, `permissionsToString`, `prettyOpenFlag` : the members;
* `prettyPermissionsOf_iff`, `permissionsToString_inj`, `prettyOpenFlag_inj` : what each of them tells;
* `texts_tell` : **the octal text tells all permissions, the pretty one those of `ls` and the set-user-id bit.**
-/

namespace OksSystem
open ByteBuffer Pieces

namespace File

/-! ## Numbers in texts -/

theorem isDigit_of_mem_repr {a : Int} {c : Char} (h : c ∈ (Int.repr a).toList) : c = '-' ∨ c.isDigit = true := by
  have hdigits : ∀ n : Nat, c ∈ (Nat.repr n).toList → c.isDigit = true := by
    intro n hn
    rw [Nat.toList_repr] at hn
    exact Nat.isDigit_of_mem_toDigits (by decide) (by decide) hn
  cases a with
  | ofNat n => exact .inr (hdigits n h)
  | negSucc n =>
    change c ∈ ("-" ++ Nat.repr (n + 1)).toList at h
    rw [String.toList_append, List.mem_append] at h
    rcases h with h | h
    · exact .inl (by simpa using h)
    · exact .inr (hdigits _ h)

/-- Neither a space nor a parenthesis is in the text of a number. -/
theorem notMem_repr (a : Int) {b : Byte} (hb : b.val < 45) : b ∉ text (Int.repr a) := by
  intro h
  obtain ⟨c, hc, heq⟩ := List.mem_map.1 h
  have hval : c.toNat % 256 = b.val := congrArg Fin.val heq
  have hchar := repr_char hc
  rcases isDigit_of_mem_repr hc with rfl | hdigit
  · have hminus : ('-' : Char).toNat = 45 := rfl
    omega
  · have hzero : 48 ≤ c.toNat := by
      simp only [Char.isDigit, Bool.and_eq_true, decide_eq_true_eq, ge_iff_le, UInt32.le_iff_toNat_le] at hdigit
      exact hdigit.1
    omega

theorem repr_inj {a b : Int} (h : text (Int.repr a) = text (Int.repr b)) : a = b :=
  Int.repr_injective (text_injective (fun _ hc => (repr_char hc).2) (fun _ hc => (repr_char hc).2) h)

/-- A number after the last `b` is read back, with what stands in front. -/
theorem repr_cancel {b : Byte} (hb : b.val < 45) {s t : Str} {x y : Int}
    (h : s ++ b :: text (Int.repr x) = t ++ b :: text (Int.repr y)) : s = t ∧ x = y := by
  obtain ⟨hst, hxy⟩ := append_cons_inj_last (notMem_repr x hb) (notMem_repr y hb) h
  exact ⟨hst, repr_inj hxy⟩

/-! ## The members -/

def openParen : Byte := 40
def closeParen : Byte := 41

def sIsuid : Mode := 0o4000
def sIrusr : Mode := 0o400
def sIwusr : Mode := 0o200
def sIxusr : Mode := 0o100
def sIrgrp : Mode := 0o040
def sIwgrp : Mode := 0o020
def sIxgrp : Mode := 0o010
def sIroth : Mode := 0o004
def sIwoth : Mode := 0o002
def sIxoth : Mode := 0o001

def nothingCharCode : Byte := 45
def readCharCode : Byte := 114
def writeCharCode : Byte := 119
def executeCharCode : Byte := 120
def setuidCharCode : Byte := 83

/-- One character of the buffer. -/
def flagChar (permissions mask : Mode) (code : Byte) : Byte := if permissions &&& mask != 0 then code else nothingCharCode

/-- `pretty_permissions(permissions)`. -/
def prettyPermissionsOf (permissions : Mode) : Str :=
  [flagChar permissions sIsuid setuidCharCode,
    flagChar permissions sIrusr readCharCode, flagChar permissions sIwusr writeCharCode,
    flagChar permissions sIxusr executeCharCode,
    flagChar permissions sIrgrp readCharCode, flagChar permissions sIwgrp writeCharCode,
    flagChar permissions sIxgrp executeCharCode,
    flagChar permissions sIroth readCharCode, flagChar permissions sIwoth writeCharCode,
    flagChar permissions sIxoth executeCharCode]

/-- `to_string(permissions)`. -/
def permissionsToString (permissions : Mode) : Str := text (String.ofList (Nat.toDigits 8 permissions.toNat))

def oAppend : Nat := 0o2000
def oTrunc : Nat := 0o1000
def oExcl : Nat := 0o200

/-- `HUMAN_OPEN_STR[i]`. -/
def humanOpenStr (i : Nat) : Str :=
  [text "READ", text "WRITE", text "NOBLOCK", text "APPEND", text "CREATE", text "TRUNCATE", text "EXCLUSIVE"].getD i []

/-- `if (flags & flag) flag_str << "/" << HUMAN_OPEN_STR[i]`. -/
def openFlagStr (flags : BitVec 32) (flag i : Nat) : Str :=
  if flags &&& BitVec.ofNat 32 flag != 0 then text "/" ++ humanOpenStr i else []

def prettyOpenFlag (flags : BitVec 32) : Str :=
  (if flags &&& BitVec.ofNat 32 oWronly != 0 then humanOpenStr 1
    else if flags &&& BitVec.ofNat 32 oRdwr != 0 then humanOpenStr 0 ++ text "-" ++ humanOpenStr 1 else humanOpenStr 0) ++
  openFlagStr flags oNonblock 2 ++ openFlagStr flags oAppend 3 ++ openFlagStr flags oCreat 4 ++
  openFlagStr flags oTrunc 5 ++ openFlagStr flags oExcl 6 ++ openParen :: text (Int.repr flags.toInt) ++ [closeParen]

/-! ## What they tell -/

theorem and_twoPow_ne_zero (b : Mode) (i : Nat) (hi : i < 32) : (b &&& BitVec.twoPow 32 i != 0) = b.getLsbD i := by
  rw [BitVec.and_twoPow]
  have hpow : BitVec.twoPow 32 i ≠ 0 := by
    intro h
    have hbit := congrArg (BitVec.getLsbD · i) h
    simp [hi] at hbit
  cases b.getLsbD i
  · simp
  · simpa using hpow

theorem flagChar_eq_iff {p q mask : Mode} {code : Byte} {i : Nat} (hi : i < 32) (hmask : mask = BitVec.twoPow 32 i)
    (hcode : code ≠ nothingCharCode) : flagChar p mask code = flagChar q mask code ↔ p.getLsbD i = q.getLsbD i := by
  unfold flagChar
  rw [hmask, and_twoPow_ne_zero p i hi, and_twoPow_ne_zero q i hi]
  cases p.getLsbD i <;> cases q.getLsbD i <;> simp [hcode, hcode.symm]

/-- **The pretty text tells the permissions of the owner, the group and the others, and the set-user-id bit.** -/
theorem prettyPermissionsOf_iff (p q : Mode) :
    prettyPermissionsOf p = prettyPermissionsOf q ↔ p &&& 0o4777 = q &&& 0o4777 := by
  have hmask : ∀ i < 32, (0o4777 : Mode).getLsbD i = decide (i < 9 ∨ i = 11) := by decide
  have hbits : p &&& 0o4777 = q &&& 0o4777 ↔ ∀ i < 32, i < 9 ∨ i = 11 → p.getLsbD i = q.getLsbD i := by
    constructor
    · intro h i hi hmem
      have hbit := congrArg (BitVec.getLsbD · i) h
      simpa only [BitVec.getLsbD_and, hmask i hi, decide_eq_true hmem, Bool.and_true] using hbit
    · intro h
      apply BitVec.eq_of_getLsbD_eq
      intro i hi
      rw [BitVec.getLsbD_and, BitVec.getLsbD_and, hmask i hi]
      by_cases hmem : i < 9 ∨ i = 11
      · rw [h i hi hmem]
      · rw [decide_eq_false hmem, Bool.and_false, Bool.and_false]
  rw [hbits]
  unfold prettyPermissionsOf
  simp only [List.cons.injEq, and_true]
  rw [flagChar_eq_iff (i := 11) (by decide) (by decide) (by decide),
    flagChar_eq_iff (i := 8) (by decide) (by decide) (by decide), flagChar_eq_iff (i := 7) (by decide) (by decide) (by decide),
    flagChar_eq_iff (i := 6) (by decide) (by decide) (by decide), flagChar_eq_iff (i := 5) (by decide) (by decide) (by decide),
    flagChar_eq_iff (i := 4) (by decide) (by decide) (by decide), flagChar_eq_iff (i := 3) (by decide) (by decide) (by decide),
    flagChar_eq_iff (i := 2) (by decide) (by decide) (by decide), flagChar_eq_iff (i := 1) (by decide) (by decide) (by decide),
    flagChar_eq_iff (i := 0) (by decide) (by decide) (by decide)]
  constructor
  · rintro ⟨h11, h8, h7, h6, h5, h4, h3, h2, h1, h0⟩ i hi (hlt | rfl)
    · interval_cases i <;> assumption
    · exact h11
  · intro h
    have hlow : ∀ i < 9, p.getLsbD i = q.getLsbD i := fun i hi => h i (by omega) (.inl hi)
    exact ⟨h 11 (by decide) (.inr rfl), hlow 8 (by decide), hlow 7 (by decide), hlow 6 (by decide), hlow 5 (by decide),
      hlow 4 (by decide), hlow 3 (by decide), hlow 2 (by decide), hlow 1 (by decide), hlow 0 (by decide)⟩

theorem permissionsToString_inj {p q : Mode} (h : permissionsToString p = permissionsToString q) : p = q := by
  have hplain : ∀ n : Nat, ∀ c ∈ (String.ofList (Nat.toDigits 8 n)).toList, c.toNat < 128 := by
    intro n c hc
    rw [String.toList_ofList] at hc
    have hdigit := Nat.isDigit_of_mem_toDigits (by decide) (by decide) hc
    simp only [Char.isDigit, Bool.and_eq_true, decide_eq_true_eq, UInt32.le_iff_toNat_le] at hdigit
    exact lt_of_le_of_lt hdigit.2 (by decide)
  have hdigits := congrArg String.toList (text_injective (hplain _) (hplain _) h)
  rw [String.toList_ofList, String.toList_ofList] at hdigits
  have hnat := congrArg (Nat.ofDigitChars 8 · 0) hdigits
  simp only [Nat.ofDigitChars_toDigits (by decide : 1 < 8) (by decide : 8 ≤ 10)] at hnat
  exact BitVec.eq_of_toNat_eq hnat

theorem prettyOpenFlag_inj {p q : BitVec 32} (h : prettyOpenFlag p = prettyOpenFlag q) : p = q := by
  unfold prettyOpenFlag at h
  exact BitVec.eq_of_toInt_eq (repr_cancel (by decide) (List.append_cancel_right h)).2

/-- **The octal text tells all permissions, the pretty one those of `ls -l`; and the text of open flags tells them all.** -/
theorem texts_tell : (∀ p q, permissionsToString p = permissionsToString q ↔ p = q) ∧
    (∀ p q, prettyPermissionsOf p = prettyPermissionsOf q ↔ p &&& 0o4777 = q &&& 0o4777) ∧
    ∀ p q, prettyOpenFlag p = prettyOpenFlag q ↔ p = q :=
  ⟨fun _ _ => ⟨permissionsToString_inj, fun h => h ▸ rfl⟩, prettyPermissionsOf_iff,
    fun _ _ => ⟨prettyOpenFlag_inj, fun h => h ▸ rfl⟩⟩

end File

end OksSystem
