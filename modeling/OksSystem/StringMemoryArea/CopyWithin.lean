import OksSystem.StringMemoryArea.Damage

/-!
# Copies within the area

`insert(o, get_string(p))` : the pointer goes to the bytes that `insert` itself clears and writes. `clear(o)` comes before the
`strlen` and the `strcpy`, and they follow the pointer to what it has left there.

* `copyString` : the call;
* `Copied` : the text arrived at the offset returned, and the `strcpy` did not write over its own source;
* `seen_apart`, `seen_shorter` : the text `insert` sees when the strings at the two offsets are `Apart`, and when not;
* `copied_seen`, `copied_at` : the text that was seen is the text that arrives, and where;
* `copied_within_iff` : when a text is copied, in any area and in those of a run.
-/

namespace OksSystem.StringMemoryArea
open ByteBuffer

variable {a a' : StringMemoryArea} {o p r : UInt32} {old s t : Str}

/-- `insert(o, get_string(p))`. -/
def copyString (o p : UInt32) : Op UInt32 := do
  match ← getString p with
  | none => insert o .null
  | some i => insert o (.area i)

/-- `t` is read at `r`, and the bytes written there were not those it was copied from. -/
def Copied (a' : StringMemoryArea) (p r : UInt32) (t : Str) : Prop :=
  Reads a' r t ∧ (t = [] ∨ p.toNat + t.length < r.toNat ∨ r.toNat + t.length < p.toNat)

/-- The string `t` at `p` keeps clear of the bytes of the string `old` at `o`. -/
def Apart (o : UInt32) (old : Str) (p : UInt32) (t : Str) : Prop :=
  p.toNat + t.length ≤ o.toNat ∨ o.toNat + old.length ≤ p.toNat

/-- `t` at `p` keeps clear of the bytes behind `lastString` that it takes when it is appended. -/
def Behind (a : StringMemoryArea) (p : UInt32) (t : Str) : Prop :=
  p.toNat + t.length ≤ a.lastString.toNat ∨ a.lastString.toNat + 1 + t.length < p.toNat

/-! ## What `insert` sees -/

/-- A string that is apart has none of its bytes cleared. -/
theorem seen_apart (hold : readStr a.data o.toNat = some old) (ht : readStr a.data p.toNat = some t) (hd : Apart o old p t) :
    readStr (a.rewritten o.toNat old.length []).data p.toNat = some t := by
  refine readStr_congr ht fun i hi => ?_
  rw [getElem?_rewritten hold (Nat.zero_le _), if_neg]
  rintro ⟨hlo, hhi⟩
  rcases hd with hd | hd
  · -- the byte at `o` would be the NUL behind `t`
    have hnul := readStr_nul ht
    rw [show p.toNat + t.length = o.toNat + 0 by omega] at hnul
    exact readStr_ne_nul hold (show 0 < old.length by omega) hnul
  · omega

/-- Otherwise a byte of it is cleared, and the text ends there. -/
theorem seen_shorter (hold : readStr a.data o.toNat = some old) (ht : readStr a.data p.toNat = some t)
    (hd : ¬ Apart o old p t) :
    ∃ s, readStr (a.rewritten o.toNat old.length []).data p.toNat = some s ∧ s.length < t.length := by
  unfold Apart at hd
  have holdpos : old.length ≠ 0 := by
    intro h0
    have hnul := readStr_nul hold
    rw [h0, Nat.add_zero] at hnul
    have := readStr_le ht (by omega) hnul
    omega
  have htpos : t.length ≠ 0 := by
    intro h0
    have hnul := readStr_nul ht
    rw [h0, Nat.add_zero] at hnul
    have := readStr_le hold (by omega) hnul
    omega
  obtain ⟨j, hj, hjt, hjo⟩ : ∃ j, p.toNat ≤ j ∧ j < p.toNat + t.length ∧ o.toNat ≤ j ∧ j < o.toNat + old.length :=
    ⟨max o.toNat p.toNat, by omega, by omega, by omega, by omega⟩
  have hnul : (a.rewritten o.toNat old.length []).data[j]? = some 0 := by
    rw [getElem?_rewritten hold (Nat.zero_le _), if_pos hjo, List.nil_append, List.getElem?_replicate,
      if_pos (by rw [List.length_nil]; omega)]
  obtain ⟨s, hs⟩ := exists_readStr hj hnul
  have hle := readStr_le hs hj hnul
  exact ⟨s, hs, by omega⟩

/-- The bytes of the string at `o` are cleared when `insert` looks. -/
theorem cleared_eq (ho : Reads a o old) : a.cleared o = a.rewritten o.toNat old.length [] := by
  obtain ⟨hr, -, hold⟩ := ho.inv
  rw [cleared_of_text (ne_zero_of_pos hr.1) hold, zeroed_eq_rewritten]

/-- The copy is an `insert` of the text that is still there. -/
theorem run_copyString (ht : Reads a p t) (hs : readStr (a.cleared o).data p.toNat = some s) :
    (copyString o p).run a = (insert o (.str s)).run a := by
  obtain ⟨hr, hn, -⟩ := ht.inv
  rw [← run_insert_area hs, copyString, EStateM.run_bind, run_getString, if_neg (ne_zero_of_pos hr.1), if_pos hr, hn]
  rfl

/-- The sums of the copy, should the text seen be appended. -/
theorem noWrap_seen (hs : readStr (a.cleared o).data p.toNat = some s) (hw : (AnyCall.insertArea o p.toNat).NoWrap a) :
    a.Appends o s.length → a.NoWrap s.length := by
  have hwrap : a.Appends o (cstr s).length → a.NoWrap (cstr s).length :=
    hw (.insert o (.str s)) (Option.mem_def.2 (Option.map_eq_some_iff.2 ⟨s, hs, rfl⟩))
  rwa [cstr_of_notMem (nul_notMem_of_readStr hs)] at hwrap

/-! ## What arrives -/

/-- The text that is still there arrives. -/
theorem copied_seen (ht : Reads a p t) (hs : readStr (a.cleared o).data p.toNat = some s)
    (hw : (AnyCall.insertArea o p.toNat).NoWrap a) (h : (copyString o p).run a = .ok r a') : Reads a' r s := by
  have hcstr := cstr_of_notMem (nul_notMem_of_readStr hs)
  rw [run_copyString ht hs] at h
  obtain ⟨hr, hn, hread⟩ := insert_reads h (by rw [hcstr]; exact noWrap_seen hs hw)
  rw [hcstr] at hread
  exact run_textAt hr (hn.trans ht.inv.2.1) hread

/-- It goes to the place of the old string when it fits there, and otherwise behind `lastString`. -/
theorem copied_at (ho : Reads a o old) (ht : Reads a p t) (hs : readStr (a.cleared o).data p.toNat = some s)
    (hw : (AnyCall.insertArea o p.toNat).NoWrap a) (h : (copyString o p).run a = .ok r a') :
    s.length ≤ old.length ∧ r = o ∨ old.length < s.length ∧ r.toNat = a.lastString.toNat + 1 := by
  obtain ⟨hr, -, hold⟩ := ho.inv
  rw [run_copyString ht hs] at h
  rcases insert_ok h with ⟨h0, -⟩ | ⟨-, u, hu, ⟨hl, heq, -⟩ | ⟨hl, hadd⟩⟩
  · exact absurd h0 (ne_zero_of_pos hr.1)
  · rw [hold] at hu
    obtain rfl := Option.some.inj hu
    rw [cstr_of_notMem (nul_notMem_of_readStr hs)] at hl
    exact .inl ⟨hl, heq⟩
  · rw [hold] at hu
    obtain rfl := Option.some.inj hu
    rw [cstr_of_notMem (nul_notMem_of_readStr hs)] at hl
    obtain ⟨-, -, rfl, -⟩ := add_ok hadd
    have hwrap : a.NoWrap s.length := noWrap_seen hs hw (appends_of_shorter hold hl)
    exact .inr ⟨hl, start_toNat hwrap⟩

/-- A text that arrives was not cleared. -/
theorem apart_of_reads (ho : Reads a o old) (ht : Reads a p t) (hw : (AnyCall.insertArea o p.toNat).NoWrap a)
    (h : (copyString o p).run a = .ok r a') (hread : Reads a' r t) : Apart o old p t := by
  by_contra hd
  obtain ⟨s, hs, hlt⟩ := seen_shorter ho.inv.2.2 ht.inv.2.2 hd
  rw [← cleared_eq ho] at hs
  rw [hread.unique (copied_seen ht hs hw h)] at hlt
  exact lt_irrefl _ hlt

/-- Two strings that are apart and not empty have a NUL between them. -/
theorem Apart.lt (hold : readStr a.data o.toNat = some old) (ht : readStr a.data p.toNat = some t) (hd : Apart o old p t)
    (holdpos : 0 < old.length) (htpos : 0 < t.length) :
    p.toNat + t.length < o.toNat ∨ o.toNat + old.length < p.toNat := by
  have hne : p.toNat + t.length ≠ o.toNat := by
    intro heq
    have hnul := readStr_nul ht
    rw [heq] at hnul
    exact readStr_ne_nul hold holdpos hnul
  have hne' : o.toNat + old.length ≠ p.toNat := by
    intro heq
    have hnul := readStr_nul hold
    rw [heq] at hnul
    exact readStr_ne_nul ht htpos hnul
  unfold Apart at hd
  omega

/-- **In any area**: a text is copied if it is empty, or if it is apart from the string it replaces and from the place behind
`lastString` it is appended at. -/
theorem copied_iff (ho : Reads a o old) (ht : Reads a p t) (hw : (AnyCall.insertArea o p.toNat).NoWrap a)
    (h : (copyString o p).run a = .ok r a') :
    Copied a' p r t ↔ t = [] ∨ Apart o old p t ∧ (t.length ≤ old.length ∨ Behind a p t) := by
  have hold := ho.inv.2.2
  have htext := ht.inv.2.2
  have hcleared := cleared_eq ho
  by_cases hd : Apart o old p t
  · have hs : readStr (a.cleared o).data p.toNat = some t := by
      rw [hcleared]
      exact seen_apart hold htext hd
    have hread := copied_seen ht hs hw h
    rcases copied_at ho ht hs hw h with ⟨hl, rfl⟩ | ⟨hl, hstart⟩
    · -- it fits in the place of the old string, and that one is apart
      refine iff_of_true ⟨hread, ?_⟩ (.inr ⟨hd, .inl hl⟩)
      rcases Nat.eq_zero_or_pos t.length with h0 | hpos
      · exact .inl (List.eq_nil_of_length_eq_zero h0)
      · refine .inr ((hd.lt hold htext (by omega) hpos).imp_right fun hlt => ?_)
        omega
    · -- it is appended
      unfold Copied
      rw [and_iff_right hread, and_iff_right hd, or_iff_right (a := t.length ≤ old.length) (by omega), hstart, Behind,
        Nat.lt_succ_iff]
  · refine iff_of_false (fun hc => hd (apart_of_reads ho ht hw h hc.1)) ?_
    rintro (rfl | ⟨hd', -⟩)
    · obtain ⟨s, -, hlt⟩ := seen_shorter hold htext hd
      exact Nat.not_lt_zero _ hlt
    · exact hd hd'

/-- Where no string reaches beyond `lastString`, the place it is appended at is never the trouble. -/
theorem reads_iff_apart (ho : Reads a o old) (ht : Reads a p t) (hw : (AnyCall.insertArea o p.toNat).NoWrap a)
    (h : (copyString o p).run a = .ok r a') (hlast : t = [] ∨ p.toNat + t.length ≤ a.lastString.toNat) :
    (Reads a' r t ↔ t = [] ∨ Apart o old p t) ∧ (Reads a' r t → Copied a' p r t) := by
  have hcopied : t = [] ∨ Apart o old p t → Copied a' p r t := by
    rw [copied_iff ho ht hw h]
    rintro (h0 | hd)
    · exact .inl h0
    · exact hlast.imp_right fun hle => ⟨hd, .inr (.inl hle)⟩
  have hapart : Reads a' r t → t = [] ∨ Apart o old p t := fun hread => .inr (apart_of_reads ho ht hw h hread)
  exact ⟨⟨hapart, fun hd => (hcopied hd).1⟩, fun hread => hcopied (hapart hread)⟩

/-- A copy is a call that an area's runs allow: `insert` of the text seen. -/
theorem copyString_step {H : List UInt32} (ho : Reads a o old) (hoH : o ∈ H) (ht : Reads a p t)
    (hw : (AnyCall.insertArea o p.toNat).NoWrap a) (h : (copyString o p).run a = .ok r a') :
    ∃ s, slots.step (a, H) (.insert o (.str s), .offset r) (a', r :: H) := by
  have hold := ho.inv.2.2
  obtain ⟨s, hs⟩ : ∃ s, readStr (a.cleared o).data p.toNat = some s := by
    rw [cleared_eq ho]
    by_cases hd : Apart o old p t
    · exact ⟨t, seen_apart hold ht.inv.2.2 hd⟩
    · obtain ⟨s, hs, -⟩ := seen_shorter hold ht.inv.2.2 hd
      exact ⟨s, hs⟩
  have hnul := nul_notMem_of_readStr hs
  rw [run_copyString ht hs] at h
  refine ⟨s, ⟨.inr hoH, hnul, noWrap_seen hs hw⟩, ?_, rfl⟩
  show (do return Ret.offset (← insertText o (.str s)) : Op Ret).run a = _
  rw [insertText_eq, EStateM.run_bind, show Text.encode (.str s) = s from rfl, h]
  rfl

/-- **When a text is copied within an area**: in any area exactly when it is empty, or apart from the string at `o` and from the
bytes it is appended at; in a run with any offsets, exactly when it is empty or apart from the string at `o`; in a run that
uses the offsets handed out, exactly when it is empty or the offsets differ. -/
theorem copied_within_iff (ho : Reads a o old) (ht : Reads a p t) (hw : (AnyCall.insertArea o p.toNat).NoWrap a)
    (h : (copyString o p).run a = .ok r a') :
    (Copied a' p r t ↔ t = [] ∨ Apart o old p t ∧ (t.length ≤ old.length ∨ Behind a p t)) ∧
    (anyCalls.Reachable a → (Reads a' r t ↔ t = [] ∨ Apart o old p t) ∧ (Reads a' r t → Copied a' p r t)) ∧
    ∀ H, slots.Reachable (a, H) → o ∈ H → p ∈ H → slots.Reachable (a', r :: H) ∧
      (Reads a' r t ↔ t = [] ∨ o ≠ p) ∧ (Reads a' r t → Copied a' p r t) := by
  obtain ⟨-, -, hold⟩ := ho.inv
  obtain ⟨hp, -, htext⟩ := ht.inv
  refine ⟨copied_iff ho ht hw h, fun hreach => reads_iff_apart ho ht hw h ?_, fun H hreach hoH hpH => ?_⟩
  · obtain ⟨u, hu, hle⟩ := (anyCalls_tail hreach).text hp.2
    rw [htext] at hu
    cases hu
    rcases Nat.eq_zero_or_pos t.length with h0 | hpos
    · exact .inl (List.eq_nil_of_length_eq_zero h0)
    · exact .inr (by omega)
  · have hinv := slots_inv hreach
    obtain ⟨s, hstep⟩ := copyString_step ho hoH ht hw h
    refine ⟨hreach.step hstep, ?_⟩
    obtain ⟨u, hu, hle⟩ := hinv.text hpH
    have hu : readStr a.data p.toNat = some u := hu
    rw [htext] at hu
    cases hu
    obtain ⟨hreads, hcopied⟩ := reads_iff_apart ho ht hw h (.inr hle)
    refine ⟨?_, hcopied⟩
    rw [hreads]
    by_cases h0 : t = []
    · exact iff_of_true (.inl h0) (.inl h0)
    · rw [or_iff_right h0, or_iff_right h0]
      constructor
      · rintro hd rfl
        rw [hold] at htext
        cases htext
        have hpos := List.length_pos_of_ne_nil h0
        unfold Apart at hd
        omega
      · intro hne
        have hapart := hinv.apart hoH hpH (Ne.symm hne) hold htext
        unfold Apart
        omega

/-- The area that holds "ab" and "c". -/
def holdingTwo : StringMemoryArea := ⟨[0, 97, 98, 0, 99, 0], false, 5, 5⟩

theorem holdingTwo_reachable : slots.Reachable (holdingTwo, [4, 1]) := by
  have hzero : slots.init (zeroArea 6 5, []) := ⟨⟨rfl, rfl⟩, ⟨by decide, rfl⟩, rfl⟩
  have hab : slots.Reachable (⟨[0, 97, 98, 0, 0, 0], false, 3, 5⟩, [1]) :=
    .step (.init hzero) (i := (.add [97, 98], .offset 1)) ⟨⟨by decide, show 0 + 1 + 2 < 4294967296 by decide⟩, rfl, rfl⟩
  exact hab.step (i := (.add [99], .offset 4)) ⟨⟨by decide, show 3 + 1 + 1 < 4294967296 by decide⟩, rfl, rfl⟩

/-- "c" goes to the place of "ab". -/
theorem copied_within_iff_two : Reads ⟨[0, 99, 0, 0, 99, 0], false, 5, 5⟩ 1 [99] := by
  have hw : (AnyCall.insertArea 1 (4 : UInt32).toNat).NoWrap holdingTwo := by
    intro c hc
    cases hc
    exact fun _ => show 5 + 1 + 1 < 4294967296 by decide
  have hold : Reads holdingTwo 1 [97, 98] := rfl
  have hc : Reads holdingTwo 4 [99] := rfl
  have hrun : (copyString 1 4).run holdingTwo = .ok 1 ⟨[0, 99, 0, 0, 99, 0], false, 5, 5⟩ := rfl
  exact ((copied_within_iff hold hc hw hrun).2.2 [4, 1] holdingTwo_reachable (by decide) (by decide)).2.1.2 (.inr (by decide))

/-- The area that holds "ab" when that text is copied to its own offset: `insert` returns the offset, and nothing is there. -/
theorem own_text_cleared :
    slots.Reachable (holdingAb, [1]) ∧ Reads holdingAb 1 [97, 98] ∧
      (AnyCall.insertArea 1 (1 : UInt32).toNat).NoWrap holdingAb ∧
      (copyString 1 1).run holdingAb = .ok 1 ⟨[0, 0, 0, 0], false, 3, 3⟩ ∧
      Reads ⟨[0, 0, 0, 0], false, 3, 3⟩ 1 [] ∧ ¬ Reads ⟨[0, 0, 0, 0], false, 3, 3⟩ 1 [97, 98] := by
  have hzero : slots.init (zeroArea 4 3, []) := ⟨⟨rfl, rfl⟩, ⟨by decide, rfl⟩, rfl⟩
  have hread : Reads ⟨[0, 0, 0, 0], false, 3, 3⟩ 1 [] := rfl
  refine ⟨.step (.init hzero) (i := (.add [97, 98], .offset 1)) ⟨⟨by decide, show 0 + 1 + 2 < 4294967296 by decide⟩, rfl, rfl⟩,
    rfl, ?_, rfl, hread, fun h => ?_⟩
  · intro c hc
    cases hc
    exact fun _ => show 3 + 1 + 0 < 4294967296 by decide
  · cases hread.unique h

end OksSystem.StringMemoryArea
