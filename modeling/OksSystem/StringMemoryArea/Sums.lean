import OksSystem.StringMemoryArea.Basic

/-!
# The sums of `add`

`offset`, `start` and `end` have 32 bits. The lengths and the size of the area have 64, and the range check of `add` looks at
`end` once it is cut.

* `start_toNat_mod`, `stop_toNat_mod` : the two sums of `add`, cut to 32 bits;
* `ExactSums` : what passes the range check fits in integers without bound, and offset and `last_string()` are those sums;
* `CutSafe` : the sum has 32 bits, or the check sees that it has not;
* `exactSums_iff` : these are the same.
-/

namespace OksSystem.StringMemoryArea
open ByteBuffer

variable {a : StringMemoryArea} {s : Str}

theorem start_toNat_mod (a : StringMemoryArea) : a.start.toNat = (a.lastString.toNat + 1) % 4294967296 := by
  rw [start, UInt32.toNat_add]
  rfl

/-- The length of the string is cut to 64 bits before, which changes nothing. -/
theorem stop_toNat_mod (a : StringMemoryArea) (l : Nat) :
    (a.stop l).toNat = (a.lastString.toNat + 1 + l) % 4294967296 := by
  rw [stop, UInt64.toNat_toUInt32, UInt64.toNat_add, UInt32.toNat_toUInt64, UInt64.toNat_ofNat', start_toNat_mod]
  omega

/-- `add` of `s`, when it passes its range check, computes the sums of unbounded integers, and what is stored stays as it is. -/
def ExactSums (a : StringMemoryArea) (s : Str) : Prop :=
  (∀ min val max a', (add (.str s)).run a ≠ .error (.range min val max) a') →
    a.lastString.toNat + 1 + (cstr s).length ≤ a.stringAreaSize.toNat ∧
      ∀ r a', (add (.str s)).run a = .ok r a' → r.toNat = a.lastString.toNat + 1 ∧ r ≠ 0 ∧
        a'.lastString.toNat = a.lastString.toNat + 1 + (cstr s).length ∧
        ∀ i ≤ a.lastString.toNat, a'.data[i]? = a.data[i]?

/-- The sum is below `2 ^ 32`, or the range check sees 0 or more than the size in its place. -/
def CutSafe (a : StringMemoryArea) (l : Nat) : Prop :=
  a.lastString.toNat + 1 + l < 4294967296 ∨ (a.lastString.toNat + 1 + l) % 4294967296 = 0 ∨
    a.stringAreaSize.toNat < (a.lastString.toNat + 1 + l) % 4294967296

instance (a : StringMemoryArea) (l : Nat) : Decidable (a.CutSafe l) := inferInstanceAs (Decidable (_ ∨ _ ∨ _))

theorem fits_iff_mod {l : Nat} : a.Fits l ↔
    (a.lastString.toNat + 1 + l) % 4294967296 ≠ 0 ∧ (a.lastString.toNat + 1 + l) % 4294967296 ≤ a.stringAreaSize.toNat := by
  unfold Fits
  rw [stop_toNat_mod, Nat.one_le_iff_ne_zero]

/-- The range check is the only one in `add`. -/
theorem add_passes_iff : (∀ min val max a', (add (.str s)).run a ≠ .error (.range min val max) a') ↔
    a.Fits (cstr s).length := by
  rw [run_add]
  constructor
  · intro hpass
    by_contra hf
    rw [if_neg hf] at hpass
    exact hpass _ _ _ _ rfl
  · intro hf min val max a'
    rw [if_pos hf]
    split_ifs
    · exact nofun
    · exact nofun

theorem exactSums_of_noWrap (hw : a.NoWrap (cstr s).length) : ExactSums a s := by
  intro hpass
  have hf := add_passes_iff.1 hpass
  have hstop := stop_toNat hw
  have hstart := start_toNat hw
  refine ⟨hstop ▸ hf.2, fun r a' h => ?_⟩
  obtain ⟨-, hroom, rfl, rfl⟩ := add_ok h
  refine ⟨hstart, fun h0 => ?_, hstop, fun i hi => ?_⟩
  · rw [h0] at hstart
    exact absurd hstart (by simp)
  · have hlen : a.start.toNat + (cstr s ++ [0]).length ≤ a.data.length := by
      rw [List.length_append, List.length_singleton]
      omega
    show (overwrite a.data a.start.toNat (cstr s ++ [0]))[i]? = a.data[i]?
    rw [getElem?_overwrite hlen, if_neg (by omega)]

/-- A sum that is cut and passes the check is wrong. -/
theorem not_exactSums (hbuffer : a.stringAreaSize.toNat < a.data.length)
    (hw : 4294967296 ≤ a.lastString.toNat + 1 + (cstr s).length) (hf : a.Fits (cstr s).length) : ¬ ExactSums a s := by
  intro hexact
  obtain ⟨hle, hret⟩ := hexact (add_passes_iff.2 hf)
  have hstart : a.start.toNat ≤ a.lastString.toNat + 1 := start_toNat_mod a ▸ Nat.mod_le _ _
  have hrun := run_add a s
  rw [if_pos hf, if_pos (by omega)] at hrun
  obtain ⟨-, -, hlast, -⟩ := hret _ _ hrun
  have hcut : (a.stop (cstr s).length).toNat < 4294967296 := UInt32.toNat_lt _
  have hlast : (a.stop (cstr s).length).toNat = _ := hlast
  omega

/-- **`add` computes with exact sums when they have 32 bits or the check sees that they have not; in a buffer of the size of
the area and one byte, only then.** -/
theorem exactSums_iff (a : StringMemoryArea) (s : Str) : (a.CutSafe (cstr s).length → ExactSums a s) ∧
    (a.stringAreaSize.toNat < a.data.length → ExactSums a s → a.CutSafe (cstr s).length) := by
  constructor
  · rintro (hw | hcut)
    · exact exactSums_of_noWrap hw
    · intro hpass
      have hf := fits_iff_mod.1 (add_passes_iff.1 hpass)
      omega
  · intro hbuffer hexact
    by_contra hnot
    unfold CutSafe at hnot
    rw [not_or, not_or] at hnot
    exact not_exactSums hbuffer (by omega) (fits_iff_mod.2 ⟨hnot.2.1, by omega⟩) hexact

/-- An area of `2 ^ 32 - 1` bytes, all of them in use. -/
def brim : StringMemoryArea := ⟨List.replicate 4294967296 0, false, 0xffffffff, 0xffffffff⟩

/-- The area is full, and `add` of "a" returns the offset 0. -/
theorem add_wraps : ¬ ∀ (a : StringMemoryArea) (s : Str), a.lastString.toNat ≤ a.stringAreaSize.toNat →
    (cstr s).length < 2 ^ 64 → a.stringAreaSize.toNat < a.data.length → ExactSums a s := by
  intro h
  have hbuffer : brim.stringAreaSize.toNat < brim.data.length := by
    show (0xffffffff : UInt64).toNat < (List.replicate 4294967296 (0 : Byte)).length
    rw [List.length_replicate]
    decide
  have hexact := h brim [97] (by decide) (by decide) hbuffer
  have hsafe := (exactSums_iff brim [97]).2 hbuffer hexact
  have hlast : brim.lastString.toNat = 4294967295 := rfl
  have hsize : brim.stringAreaSize.toNat = 4294967295 := rfl
  have hlen : (cstr [97]).length = 1 := rfl
  unfold CutSafe at hsafe
  rw [hlast, hsize, hlen] at hsafe
  omega

theorem exactSums_iff_one : ExactSums (zeroArea 4 3) [97] :=
  (exactSums_iff (zeroArea 4 3) [97]).1 (.inl (by decide))

end OksSystem.StringMemoryArea
