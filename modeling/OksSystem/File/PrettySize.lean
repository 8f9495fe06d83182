import OksSystem.File.Basic
import OksSystem.Lib.Narrow
import OksSystem.Lib.Pieces
import OksSystem.Exceptions
import Mathlib

/-!
# The text of a file size

* `unit`, `prettySize` : the loop over GB, MB, KB and B, each taken while more than one of it is left;
* `SizeItem`, `sizeItems` : the amounts it writes; `itemsText_injective` : they can be read back from the text;
* `Covers`, `covers_sizeItems` : below a unit the amounts cover the size iff none of the units is left exactly once;
* `pretty_size_iff` : **the text accounts for every byte iff no unit is left exactly once and the GB fit an `int`**.
-/

namespace OksSystem
open ByteBuffer Narrow Pieces

namespace File

def space : Byte := 32

def kilobyte : Nat := 1024

/-- `HUMAN_SIZE_STR[i]`. -/
def humanSizeStr (i : Nat) : Str := [text "B", text "KB", text "MB", text "GB"].getD i []

/-- An `int` holds all the units of the loop. -/
def unit : Nat → Nat
  | 0 => 1
  | u + 1 => kilobyte * unit u

/-- The loop, with `i` units to go. -/
def prettySizeLoop (cutSmall : Bool) : (i size : Nat) → (writenSomething : Bool) → Str
  | 0, _, _ => []
  | i + 1, size, writenSomething =>
    let sizeUnit := unit i
    if size > sizeUnit ∧ ¬ (cutSmall ∧ writenSomething) then
      let amount := toInt (size / sizeUnit)
      text (Int.repr amount) ++ space :: humanSizeStr i ++ prettySizeLoop cutSmall i (size % sizeUnit) true
    else prettySizeLoop cutSmall i size writenSomething

def prettySize (size : UInt64) (cutSmall : Bool) : Str :=
  if 0 = size then text "0" else prettySizeLoop cutSmall 4 size.toNat false

/-! ## The items of a text -/

/-- An amount of a unit. -/
structure SizeItem where
  amount : Int
  unitOf : Nat
  isUnit : unitOf < 4

def SizeItem.text (x : SizeItem) : Str := OksSystem.text (Int.repr x.amount) ++ space :: humanSizeStr x.unitOf

/-- The text of a list of items. -/
def itemsText (xs : List SizeItem) : Str := xs.flatMap SizeItem.text

theorem itemsText_nil : itemsText [] = [] := rfl

theorem itemsText_cons (x : SizeItem) (xs : List SizeItem) : itemsText (x :: xs) = x.text ++ itemsText xs := List.flatMap_cons

def SizeItem.bytes (x : SizeItem) : Int := x.amount * unit x.unitOf

theorem repr_char {a : Int} {c : Char} (h : c ∈ (Int.repr a).toList) : 32 < c.toNat ∧ c.toNat < 128 := by
  have hdigits : ∀ n : Nat, c ∈ (Nat.repr n).toList → 32 < c.toNat ∧ c.toNat < 128 := by
    intro n hn
    rw [Nat.toList_repr] at hn
    have hdigit := Nat.isDigit_of_mem_toDigits (by decide) (by decide) hn
    simp only [Char.isDigit, Bool.and_eq_true, decide_eq_true_eq, ge_iff_le, UInt32.le_iff_toNat_le] at hdigit
    have hlow : ('0' : Char).val.toNat = 48 := rfl
    have hhigh : ('9' : Char).val.toNat = 57 := rfl
    change 32 < c.val.toNat ∧ c.val.toNat < 128
    omega
  cases a with
  | ofNat n => exact hdigits n h
  | negSucc n =>
    change c ∈ ("-" ++ Nat.repr (n + 1)).toList at h
    rw [String.toList_append, List.mem_append] at h
    rcases h with h | h
    · obtain rfl : c = '-' := by simpa using h
      decide
    · exact hdigits _ h

/-- A text of plain characters is read back. -/
theorem text_injective {s t : String} (hs : ∀ c ∈ s.toList, c.toNat < 128) (ht : ∀ c ∈ t.toList, c.toNat < 128)
    (h : OksSystem.text s = OksSystem.text t) : s = t := by
  apply String.toList_injective
  have hback : ∀ u : String, (∀ c ∈ u.toList, c.toNat < 128) →
      (OksSystem.text u).map (fun b => Char.ofNat b.val) = u.toList := by
    intro u hu
    unfold OksSystem.text
    rw [List.map_map]
    refine (List.map_congr_left fun c hc => ?_).trans (List.map_id _)
    have hlt := hu c hc
    show Char.ofNat (c.toNat % 256) = c
    rw [Nat.mod_eq_of_lt (by omega), Char.ofNat_toNat]
  rw [← hback s hs, ← hback t ht, h]

theorem space_notMem_repr (a : Int) : space ∉ OksSystem.text (Int.repr a) := by
  intro h
  obtain ⟨c, hc, heq⟩ := List.mem_map.1 h
  have hchar := repr_char hc
  have hval : c.toNat % 256 = 32 := congrArg Fin.val heq
  omega

/-- The first letters of the units differ. -/
theorem humanSizeStr_cancel {i j : Nat} {s t : Str} (hi : i < 4) (hj : j < 4)
    (h : humanSizeStr i ++ s = humanSizeStr j ++ t) : i = j ∧ s = t := by
  have hhead : ∀ k < 4, ∃ tl, humanSizeStr k = [66, 75, 77, 71].getD k 0 :: tl := by
    intro k hk
    interval_cases k <;> exact ⟨_, rfl⟩
  have hij : i = j := by
    obtain ⟨tl, htl⟩ := hhead i hi
    obtain ⟨tl', htl'⟩ := hhead j hj
    rw [htl, htl'] at h
    have heq := (List.cons.inj h).1
    clear h htl htl'
    interval_cases i <;> interval_cases j <;> first | rfl | exact absurd heq (by decide)
  subst hij
  exact ⟨rfl, List.append_cancel_left h⟩

theorem SizeItem.text_cancel {x y : SizeItem} {s t : Str} (h : x.text ++ s = y.text ++ t) : x = y ∧ s = t := by
  obtain ⟨a, i, hi⟩ := x
  obtain ⟨b, j, hj⟩ := y
  unfold SizeItem.text at h
  simp only [List.append_assoc, List.cons_append] at h
  have hx := find_append_cons (t := humanSizeStr i ++ s) (space_notMem_repr a)
  have hy := find_append_cons (t := humanSizeStr j ++ t) (space_notMem_repr b)
  rw [h, hy] at hx
  obtain ⟨hamount, hrest⟩ := List.append_inj h (Option.some.inj hx).symm
  obtain ⟨rfl, rfl⟩ := humanSizeStr_cancel hi hj (List.cons.inj hrest).2
  obtain rfl := Int.repr_injective (text_injective (fun c hc => (repr_char hc).2) (fun c hc => (repr_char hc).2) hamount)
  exact ⟨rfl, rfl⟩

theorem SizeItem.text_ne_nil (x : SizeItem) : x.text ≠ [] := by
  intro h
  have hmem : space ∈ x.text := List.mem_append_right _ List.mem_cons_self
  rw [h] at hmem
  cases hmem

/-- The items can be read back from the text. -/
theorem itemsText_injective : ∀ {xs ys : List SizeItem}, itemsText xs = itemsText ys → xs = ys
  | [], [], _ => rfl
  | [], y :: ys, h => absurd (List.append_eq_nil_iff.1 h.symm).1 y.text_ne_nil
  | x :: xs, [], h => absurd (List.append_eq_nil_iff.1 h).1 x.text_ne_nil
  | x :: xs, y :: ys, h => by
    obtain ⟨rfl, hrest⟩ := SizeItem.text_cancel h
    rw [itemsText_injective hrest]

/-! ## What the loop writes -/

/-- The amounts the loop writes with `i` units to go. -/
def sizeItems : (i : Nat) → i ≤ 4 → Nat → List SizeItem
  | 0, _, _ => []
  | i + 1, hi, size =>
    if size > unit i then ⟨toInt (size / unit i), i, hi⟩ :: sizeItems i (Nat.le_of_succ_le hi) (size % unit i)
    else sizeItems i (Nat.le_of_succ_le hi) size

theorem prettySizeLoop_false (written : Bool) : ∀ (i : Nat) (hi : i ≤ 4) (size : Nat),
    prettySizeLoop false i size written = itemsText (sizeItems i hi size) := by
  intro i
  induction i generalizing written with
  | zero => intros; rfl
  | succ i ih =>
    intro hi size
    unfold prettySizeLoop sizeItems
    by_cases h : size > unit i
    · rw [if_pos ⟨h, by simp⟩, if_pos h, ih, itemsText_cons, SizeItem.text]
    · rw [if_neg fun h' => h h'.1, if_neg h, ih]

/-- Once an item is written, the short text is complete. -/
theorem prettySizeLoop_written : ∀ i size : Nat, prettySizeLoop true i size true = []
  | 0, _ => rfl
  | i + 1, size => by
    unfold prettySizeLoop
    rw [if_neg fun h => h.2 ⟨rfl, rfl⟩, prettySizeLoop_written i size]

theorem prettySizeLoop_true : ∀ (i : Nat) (hi : i ≤ 4) (size : Nat),
    prettySizeLoop true i size false = itemsText ((sizeItems i hi size).take 1)
  | 0, _, _ => rfl
  | i + 1, hi, size => by
    unfold prettySizeLoop sizeItems
    by_cases h : size > unit i
    · rw [if_pos ⟨h, by simp⟩, if_pos h, prettySizeLoop_written, List.take_succ_cons, List.take_zero, itemsText_cons,
        itemsText_nil, SizeItem.text]
    · rw [if_neg fun h' => h h'.1, if_neg h, prettySizeLoop_true i _ size]

/-! ## When the amounts cover the size -/

/-- The bytes that a list of items accounts for. -/
def total (xs : List SizeItem) : Int := (xs.map SizeItem.bytes).sum

/-- The items are in the order of the units, each with an amount that is at least one and below the next unit. -/
structure Covers (size : Nat) (xs : List SizeItem) : Prop where
  ordered : xs.Pairwise fun x y => y.unitOf < x.unitOf
  atLeastOne : ∀ x ∈ xs, 1 ≤ x.amount
  belowNext : ∀ x ∈ xs, x.unitOf < 3 → x.amount < 1024
  exact : total xs = size

variable {i size : Nat} {hi : i ≤ 4} {xs : List SizeItem}

theorem unit_pos : ∀ i, 0 < unit i
  | 0 => Nat.one_pos
  | i + 1 => Nat.mul_pos (by decide) (unit_pos i)

theorem unit_dvd {j : Nat} (h : j ≤ i) : unit j ∣ unit i := by
  induction i, h using Nat.le_induction with
  | base => exact dvd_rfl
  | succ i _ ih => exact ih.trans (dvd_mul_left (unit i) kilobyte)

theorem total_cons (amount : Int) (h : i < 4) : total (⟨amount, i, h⟩ :: xs) = amount * unit i + total xs := List.sum_cons

theorem sizeItems_of_gt {hi : i + 1 ≤ 4} (h : unit i < size) : sizeItems (i + 1) hi size =
    ⟨toInt (size / unit i), i, hi⟩ :: sizeItems i (Nat.le_of_succ_le hi) (size % unit i) := if_pos h

theorem sizeItems_of_le {hi : i + 1 ≤ 4} (h : size ≤ unit i) :
    sizeItems (i + 1) hi size = sizeItems i (Nat.le_of_succ_le hi) size := if_neg h.not_gt

theorem unitOf_lt_of_mem : ∀ {i : Nat} {hi : i ≤ 4} {size : Nat}, ∀ x ∈ sizeItems i hi size, x.unitOf < i
  | 0, _, _, _, h => absurd h List.not_mem_nil
  | i + 1, hi, size, x, h => by
    rcases Nat.lt_or_ge (unit i) size with hgt | hle
    · rw [sizeItems_of_gt hgt] at h
      rcases List.mem_cons.1 h with rfl | h
      · exact Nat.lt_succ_self i
      · exact Nat.lt_succ_of_lt (unitOf_lt_of_mem x h)
    · rw [sizeItems_of_le hle] at h
      exact Nat.lt_succ_of_lt (unitOf_lt_of_mem x h)

/-- The items never account for more than the size. -/
theorem total_sizeItems_le : ∀ (i : Nat) (hi : i ≤ 4) (size : Nat), total (sizeItems i hi size) ≤ size
  | 0, _, _ => Int.natCast_nonneg _
  | i + 1, hi, size => by
    rcases Nat.lt_or_ge (unit i) size with hgt | hle
    · rw [sizeItems_of_gt hgt, total_cons]
      have hrest := total_sizeItems_le i (Nat.le_of_succ_le hi) (size % unit i)
      have hamount : toInt (size / unit i) * unit i ≤ (size / unit i : Nat) * (unit i : Int) :=
        Int.mul_le_mul_of_nonneg_right (toInt_le _) (Int.natCast_nonneg _)
      have hdiv : ((size / unit i : Nat) : Int) * unit i + (size % unit i : Nat) = size := by
        exact_mod_cast Nat.div_add_mod' size (unit i)
      omega
    · rw [sizeItems_of_le hle]
      exact total_sizeItems_le i _ size

/-- A full unit is written as 1024 of the next one. -/
theorem not_covers_unit : ∀ {i : Nat} {hi : i ≤ 4}, i ≤ 3 → ¬ Covers (unit i) (sizeItems i hi (unit i))
  | 0, _, _, h => absurd h.exact Int.zero_ne_one
  | i + 1, hi, hle, h => by
    have hpos := unit_pos i
    have hgt : unit i < unit (i + 1) := by
      show unit i < 1024 * unit i
      omega
    have hdiv : unit (i + 1) / unit i = 1024 := Nat.mul_div_cancel 1024 hpos
    rw [sizeItems_of_gt hgt, hdiv] at h
    have hbelow : toInt 1024 < 1024 := h.belowNext _ List.mem_cons_self hle
    exact absurd hbelow (by decide)

/-- A step of the loop that writes something. -/
theorem covers_cons_iff {hi : i + 1 ≤ 4} (hgt : unit i < size) (hint : size / unit i < 2147483648) :
    Covers size (sizeItems (i + 1) hi size) ↔ (i < 3 → size / unit i < 1024) ∧
      Covers (size % unit i) (sizeItems i (Nat.le_of_succ_le hi) (size % unit i)) := by
  have hdiv : ((size / unit i : Nat) : Int) * unit i + (size % unit i : Nat) = size := by
    exact_mod_cast Nat.div_add_mod' size (unit i)
  have hone : 1 ≤ size / unit i := Nat.div_pos hgt.le (unit_pos i)
  rw [sizeItems_of_gt hgt, toInt_of_lt hint]
  constructor
  · intro h
    have hexact := h.exact
    rw [total_cons] at hexact
    refine ⟨fun hlt => ?_, (List.pairwise_cons.1 h.ordered).2, fun x hx => h.atLeastOne x (List.mem_cons_of_mem _ hx),
      fun x hx => h.belowNext x (List.mem_cons_of_mem _ hx), ?_⟩
    · have hbelow := h.belowNext _ List.mem_cons_self hlt
      dsimp only at hbelow
      omega
    · omega
  · rintro ⟨hbelow, h⟩
    refine ⟨List.pairwise_cons.2 ⟨unitOf_lt_of_mem, h.ordered⟩, ?_, ?_, ?_⟩
    · intro x hx
      rcases List.mem_cons.1 hx with rfl | hx
      · exact Int.ofNat_le.2 hone
      · exact h.atLeastOne x hx
    · intro x hx
      rcases List.mem_cons.1 hx with rfl | hx
      · exact fun hlt => Int.ofNat_lt.2 (hbelow hlt)
      · exact h.belowNext x hx
    · have hexact := h.exact
      rw [total_cons]
      omega

/-- None of the `i` smallest units is what is left when the loop comes to it. -/
def NoLoneUnit (i size : Nat) : Prop := ∀ j < i, size % unit (j + 1) ≠ unit j

theorem noLoneUnit_succ : NoLoneUnit (i + 1) size ↔ NoLoneUnit i size ∧ size % unit (i + 1) ≠ unit i := by
  constructor
  · exact fun h => ⟨fun j hj => h j (Nat.lt_succ_of_lt hj), h i (Nat.lt_succ_self i)⟩
  · rintro ⟨h, hlast⟩ j hj
    rcases Nat.lt_succ_iff_lt_or_eq.1 hj with hj | rfl
    · exact h j hj
    · exact hlast

theorem noLoneUnit_mod : NoLoneUnit i (size % unit i) ↔ NoLoneUnit i size := by
  have hmod : ∀ j < i, size % unit i % unit (j + 1) = size % unit (j + 1) :=
    fun j hj => Nat.mod_mod_of_dvd size (unit_dvd hj)
  exact ⟨fun h j hj => hmod j hj ▸ h j hj, fun h j hj => (hmod j hj).symm ▸ h j hj⟩

/-- Below a unit, the amounts of the smaller ones cover the size iff none of these is left alone. -/
theorem covers_sizeItems : ∀ {i : Nat} {hi : i ≤ 4} {size : Nat}, i ≤ 3 → size < unit i →
    (Covers size (sizeItems i hi size) ↔ NoLoneUnit i size) := by
  intro i
  induction i with
  | zero =>
    intro hi size _ hsize
    obtain rfl : size = 0 := Nat.lt_one_iff.1 hsize
    exact iff_of_true ⟨.nil, by simp [sizeItems], by simp [sizeItems], rfl⟩ fun j hj => absurd hj j.not_lt_zero
  | succ i ih =>
    intro hi size hle hsize
    have hsize' : size < 1024 * unit i := hsize
    rw [noLoneUnit_succ, Nat.mod_eq_of_lt hsize]
    rcases Nat.lt_trichotomy (unit i) size with hgt | rfl | hlt
    · have hdiv : size / unit i < 1024 := Nat.div_lt_of_lt_mul (by omega)
      rw [covers_cons_iff hgt (by omega), ih (by omega) (Nat.mod_lt _ (unit_pos i)), noLoneUnit_mod]
      exact ⟨fun h => ⟨h.2, hgt.ne'⟩, fun h => ⟨fun _ => hdiv, h.1⟩⟩
    · rw [sizeItems_of_le le_rfl]
      exact iff_of_false (not_covers_unit (by omega)) fun h => h.2 rfl
    · rw [sizeItems_of_le hlt.le, ih (by omega) hlt]
      exact ⟨fun h => ⟨h, hlt.ne⟩, And.left⟩

/-- For the whole loop, the GB have to fit an `int`. -/
theorem covers_all_iff : Covers size (sizeItems 4 le_rfl size) ↔
    size < 2305843009213693952 ∧ size ≠ unit 3 ∧ NoLoneUnit 3 size := by
  have hunit : unit 3 = 1073741824 := rfl
  rcases Nat.lt_trichotomy (unit 3) size with hgt | rfl | hlt
  · rcases Nat.lt_or_ge (size / unit 3) 2147483648 with hint | hint
    · rw [covers_cons_iff hgt hint, covers_sizeItems le_rfl (Nat.mod_lt _ (unit_pos 3)), noLoneUnit_mod]
      have hsize : size < 2305843009213693952 := by rw [hunit] at hint; omega
      exact ⟨fun h => ⟨hsize, hgt.ne', h.2⟩, fun h => ⟨fun h3 => absurd h3 (by decide), h.2.2⟩⟩
    · refine iff_of_false (fun h => ?_) fun h => by rw [hunit] at hint; omega
      have hexact := h.exact
      rw [sizeItems_of_gt hgt, total_cons] at hexact
      have hrest := total_sizeItems_le 3 (by decide) (size % unit 3)
      have hless := toInt_lt hint
      rw [hunit] at hexact hrest hless
      omega
  · rw [sizeItems_of_le le_rfl]
    exact iff_of_false (not_covers_unit le_rfl) fun h => h.2.1 rfl
  · rw [sizeItems_of_le hlt.le, covers_sizeItems le_rfl hlt]
    exact ⟨fun h => ⟨by omega, hlt.ne, h⟩, fun h => h.2.2⟩

/-- The long text is that of a list of items covering the size, and the short text that of the first one. -/
def AccountsForEveryByte (size : UInt64) : Prop :=
  ∃ xs, xs ≠ [] ∧ Covers size.toNat xs ∧ prettySize size false = itemsText xs ∧ prettySize size true = itemsText (xs.take 1)

/-- **The text of a size accounts for every byte iff the GB fit an `int` and no unit is left exactly once.** -/
theorem pretty_size_iff (size : UInt64) (hsize : 0 < size) : AccountsForEveryByte size ↔
    size.toNat < 2305843009213693952 ∧ size.toNat ≠ 1073741824 ∧ size.toNat % 1073741824 ≠ 1048576 ∧
      size.toNat % 1048576 ≠ 1024 ∧ size.toNat % 1024 ≠ 1 := by
  have hpos : 0 < size.toNat := hsize
  have hne : ¬ 0 = size := fun h => by rw [← h] at hpos; cases hpos
  have hlong : prettySize size false = itemsText (sizeItems 4 le_rfl size.toNat) := by
    unfold prettySize
    rw [if_neg hne, prettySizeLoop_false]
  have hshort : prettySize size true = itemsText ((sizeItems 4 le_rfl size.toNat).take 1) := by
    unfold prettySize
    rw [if_neg hne, prettySizeLoop_true]
  have hcovers : AccountsForEveryByte size ↔ Covers size.toNat (sizeItems 4 le_rfl size.toNat) := by
    constructor
    · rintro ⟨xs, -, hxs, htext, -⟩
      rwa [itemsText_injective (hlong.symm.trans htext)]
    · intro h
      refine ⟨_, fun hnil => ?_, h, hlong, hshort⟩
      have hexact := h.exact
      rw [hnil] at hexact
      change (0 : Int) = _ at hexact
      omega
  rw [hcovers, covers_all_iff, noLoneUnit_succ, noLoneUnit_succ, noLoneUnit_succ]
  have hzero : NoLoneUnit 0 size.toNat := fun j hj => absurd hj j.not_lt_zero
  have hunits : unit 0 = 1 ∧ unit 1 = 1024 ∧ unit 2 = 1048576 ∧ unit 3 = 1073741824 := ⟨rfl, rfl, rfl, rfl⟩
  simp only [hzero, hunits, true_and]
  tauto

theorem pretty_size_iff_three_kilobytes : (0 : UInt64) < 3072 ∧ AccountsForEveryByte 3072 :=
  ⟨by decide, (pretty_size_iff 3072 (by decide)).2 (by decide)⟩

/-- One kilobyte is written as `1024 B`. -/
theorem pretty_size_of_kilobyte : ¬ ∀ size : UInt64, 0 < size → AccountsForEveryByte size := by
  intro h
  obtain ⟨xs, -, hxs, htext, -⟩ := h 1024 (by decide)
  have hitem : prettySize 1024 false = itemsText [⟨1024, 0, by decide⟩] := by decide
  rw [hitem] at htext
  rw [← itemsText_injective htext] at hxs
  exact absurd (hxs.belowNext _ List.mem_cons_self (by decide)) (by decide)

end File

end OksSystem
