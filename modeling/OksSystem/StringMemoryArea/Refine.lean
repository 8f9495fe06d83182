import OksSystem.Lib.Run
import OksSystem.StringMemoryArea.Codec
import OksSystem.StringMemoryArea.Slots

/-!
# The area refines a map from offsets to strings

* `Call`, `Call.run` : the operations that change an area;
* `slots` : the runs of an area from zero, with the offsets handed out so far; `Call.Allowed` is what a caller keeps to:
  offsets that were handed out, strings without NUL, sums below `2 ^ 32`;
* `offsetMap` : what the area is for, a partial map from offsets to strings;
* `run_allowed` : an allowed call is stopped by a range check or does one of the two changes of `Slots`;
* `simulates` : every run of the area is a run of the map; `slots_refine_offsetMap` adds what each call leaves to read.
-/

namespace OksSystem.StringMemoryArea
open ByteBuffer

inductive Call where
  | add (s : Str)
  | insert (offset : UInt32) (t : Text)
  | clear (offset : UInt32)

inductive Ret where
  | offset (o : UInt32)
  | count (n : Nat)
  deriving DecidableEq, Repr

def Call.run : Call → Op Ret
  | .add s => do return .offset (← StringMemoryArea.add (.str s))
  | .insert offset t => do return .offset (← insertText offset t)
  | .clear offset => do return .count (← StringMemoryArea.clear offset)

/-- The offset a call is given. -/
def Call.offset : Call → UInt32
  | .add _ => 0
  | .insert offset _ => offset
  | .clear offset => offset

/-- The string a call writes. -/
def Call.text : Call → Option Str
  | .add s => some s
  | .insert _ t => some t.encode
  | .clear _ => none

/-- What a caller keeps to when the offsets `H` were handed out. -/
def Call.Allowed (a : StringMemoryArea) (H : List UInt32) : Call → Prop
  | .add s => 0 ∉ s ∧ a.NoWrap s.length
  | .insert offset t =>
    (offset = 0 ∨ offset ∈ H) ∧ t.Clean ∧ (a.Appends offset t.encode.length → a.NoWrap t.encode.length)
  | .clear offset => offset ∈ H

/-- The offsets handed out after a call that returned `r`. -/
def Ret.handed (H : List UInt32) : Ret → List UInt32
  | .offset o => o :: H
  | .count _ => H

structure IsZero (a : StringMemoryArea) : Prop where
  data : a.data = List.replicate a.data.length 0
  lastString : a.lastString = 0

/-- The runs of an area from zero, with the offsets handed out so far. -/
def slots : LTS (StringMemoryArea × List UInt32) (Call × Ret) where
  init x := IsZero x.1 ∧ x.1.Backed ∧ x.2 = []
  step x l y := l.1.Allowed x.1 x.2 ∧ l.1.run.run x.1 = .ok l.2 y.1 ∧ y.2 = l.2.handed x.2

/-- `get_string` at `o` reads `s`. -/
def Reads (a : StringMemoryArea) (o : UInt32) (s : Str) : Prop := (textAt o).run a = .ok (some s) a

theorem Inv.reads {a : StringMemoryArea} {H : List UInt32} {o : UInt32} {s : Str} (h : Inv a H) (ho : o ∈ H)
    (hs : readStr a.data o.toNat = some s) : Reads a o s := run_textAt (h.inRange ho) h.backed.readable hs

/-! ## What an allowed call does -/

/-- The two changes a call that returns makes: a rewrite at its offset, or an append, behind a rewrite with the empty
string when the call was given an offset. -/
inductive Change (a : StringMemoryArea) (H : List UInt32) : Call → Ret → StringMemoryArea → Prop where
  | append {c s} (h0 : c.offset = 0) (hc : c.text = some s) (hs : 0 ∉ s) (hw : a.NoWrap s.length) (hf : a.Fits s.length) :
    Change a H c (.offset a.start) (a.appended s)
  | replace {o t old} (ho : o ∈ H) (hold : readStr a.data o.toNat = some old) (hs : 0 ∉ t.encode)
    (hl : t.encode.length ≤ old.length) : Change a H (.insert o t) (.offset o) (a.rewritten o.toNat old.length t.encode)
  | relocate {o t old} (ho : o ∈ H) (hold : readStr a.data o.toNat = some old) (hs : 0 ∉ t.encode)
    (hl : old.length < t.encode.length) (hw : a.NoWrap t.encode.length) (hf : a.Fits t.encode.length) :
    Change a H (.insert o t) (.offset a.start) ((a.rewritten o.toNat old.length []).appended t.encode)
  | clear {o old} (ho : o ∈ H) (hold : readStr a.data o.toNat = some old) :
    Change a H (.clear o) (.count old.length) (a.rewritten o.toNat old.length [])

theorem run_add_append {a : StringMemoryArea} {s : Str} (hs : 0 ∉ s) (hf : a.Fits s.length)
    (hroom : a.start.toNat + s.length < a.data.length) : (add (.str s)).run a = .ok a.start (a.appended s) := by
  rw [run_add, cstr_of_notMem hs, if_pos hf, if_pos hroom]
  rfl

theorem run_add_range {a : StringMemoryArea} {s : Str} (hs : 0 ∉ s) (hf : ¬ a.Fits s.length) :
    (add (.str s)).run a = .error (.range 1 (a.stop s.length).toNat a.stringAreaSize.toNat) a := by
  rw [run_add, cstr_of_notMem hs, if_neg hf]

/-- An allowed call is stopped by a range check, or it returns and has made one of the changes above. -/
theorem run_allowed {a : StringMemoryArea} {H : List UInt32} (hi : Inv a H) {c : Call} (hc : c.Allowed a H) :
    (∃ val max a', c.run.run a = .error (.range 1 val max) a') ∨ ∃ r a', c.run.run a = .ok r a' ∧ Change a H c r a' := by
  have hadd : ∀ {c : Call} {s : Str}, c.offset = 0 → c.text = some s → 0 ∉ s → a.NoWrap s.length →
      c.run.run a = (do return .offset (← StringMemoryArea.add (.str s)) : Op Ret).run a →
      (∃ val max a', c.run.run a = .error (.range 1 val max) a') ∨
        ∃ r a', c.run.run a = .ok r a' ∧ Change a H c r a' := by
    intro c s h0 ht hs hw hrun
    rw [hrun, EStateM.run_bind]
    by_cases hf : a.Fits s.length
    · rw [run_add_append hs hf (hi.room hw hf)]
      exact .inr ⟨_, _, rfl, .append h0 ht hs hw hf⟩
    · rw [run_add_range hs hf]
      exact .inl ⟨_, _, _, rfl⟩
  cases c with
  | add s => exact hadd rfl rfl hc.1 hc.2 rfl
  | insert o t =>
    obtain ⟨ho, ht, hw⟩ := hc
    have hs := ht.encode
    by_cases h0 : o = 0
    · subst h0
      exact hadd rfl rfl hs (hw (.inl rfl)) (by rw [Call.run, insertText_eq]; rfl)
    · have ho : o ∈ H := ho.resolve_left h0
      obtain ⟨old, hold, -⟩ := hi.text ho
      simp only [Call.run, insertText_eq, EStateM.run_bind]
      by_cases hl : t.encode.length ≤ old.length
      · rw [run_insert_inplace (hi.inRange ho) hold (by rwa [cstr_of_notMem hs]), cstr_of_notMem hs, put_zeroed hold hl]
        exact .inr ⟨_, _, rfl, .replace ho hold hs hl⟩
      · have hlt : old.length < t.encode.length := by omega
        have hw : a.NoWrap t.encode.length := hw <| .inr fun u hu => by
          rw [hold] at hu
          exact Option.some.inj hu ▸ hlt
        have hi' := hi.rewritten (s := []) hold (by simp)
        rw [run_insert_relocate (hi.inRange ho) hold (by rwa [cstr_of_notMem hs]), zeroed_eq_rewritten]
        by_cases hf : a.Fits t.encode.length
        · have hf' : (a.rewritten o.toNat old.length []).Fits t.encode.length := hf
          rw [run_add_append hs hf' (hi'.room hw hf')]
          exact .inr ⟨_, _, rfl, .relocate ho hold hs hlt hw hf⟩
        · rw [run_add_range hs (by rwa [rewritten_fits])]
          exact .inl ⟨_, _, _, rfl⟩
  | clear o =>
    obtain ⟨old, hold, -⟩ := hi.text hc
    simp only [Call.run, EStateM.run_bind, run_clear hold, zeroed_eq_rewritten]
    exact .inr ⟨_, _, rfl, .clear hc hold⟩

theorem Change.of_run {a a' : StringMemoryArea} {H : List UInt32} (hi : Inv a H) {c : Call} (hc : c.Allowed a H) {r : Ret}
    (h : c.run.run a = .ok r a') : Change a H c r a' := by
  rcases run_allowed hi hc with ⟨val, max, b, hb⟩ | ⟨r', b, hb, hch⟩
  · rw [hb] at h
    cases h
  · rw [hb] at h
    cases h
    exact hch

/-- Every change keeps the invariant, for the offsets handed out with it. -/
theorem Change.inv {a a' : StringMemoryArea} {H : List UInt32} (hi : Inv a H) {c : Call} {r : Ret}
    (h : Change a H c r a') : Inv a' (r.handed H) := by
  cases h with
  | append h0 hc hs hw hf => exact hi.appended hw hf hs
  | replace ho hold hs hl => exact (hi.rewritten hold hl).cons ho
  | relocate ho hold hs hl hw hf => exact (hi.rewritten (s := []) hold (by simp)).appended hw hf hs
  | clear ho hold => exact hi.rewritten hold (by simp)

theorem zero_inv {a : StringMemoryArea} (hz : IsZero a) (hb : a.Backed) : Inv a [] where
  backed := hb
  last_le := by simp [hz.lastString]
  last_nul := by
    have := hb.room
    rw [hz.data, hz.lastString, List.getElem?_replicate, if_pos (by simp; omega)]
  pos := by simp
  le_last := by simp
  before_nul := by simp

theorem slots_inv {x : StringMemoryArea × List UInt32} (h : slots.Reachable x) : Inv x.1 x.2 := by
  refine h.invariant (I := fun x => Inv x.1 x.2) (fun y hy => ?_) (fun y l z hi hs => ?_)
  · rw [hy.2.2]
    exact zero_inv hy.1 hy.2.1
  · rw [hs.2.2]
    exact (Change.of_run hi hs.1 hs.2.1).inv hi

/-! ## What a call leaves to read -/

theorem Reads.unique {a : StringMemoryArea} {o : UInt32} {s t : Str} (h : Reads a o s) (h' : Reads a o t) : s = t := by
  unfold Reads at h h'
  rw [h] at h'
  cases h'
  rfl

/-- Where `get_string` reads a string, the range check passes and the bytes are there. -/
theorem Reads.inv {a : StringMemoryArea} {o : UInt32} {s : Str} (h : Reads a o s) :
    (1 ≤ o.toNat ∧ o.toNat ≤ a.stringAreaSize.toNat) ∧ a.readNull = false ∧ readStr a.data o.toNat = some s := by
  simp only [Reads, textAt, EStateM.run_bind, run_getString] at h
  split_ifs at h with h0 hr hn
  · cases h
  · cases h
  · simp only [deref, EStateM.run_bind, EStateM.run_get] at h
    cases hs : readStr a.data o.toNat with
    | none =>
      rw [hs] at h
      cases h
    | some u =>
      rw [hs] at h
      cases h
      exact ⟨hr, Bool.eq_false_iff.2 hn, rfl⟩

/-- What `get_string` reads after a call that returned `r`. -/
structure Effect (a : StringMemoryArea) (H : List UInt32) (c : Call) (r : Ret) (a' : StringMemoryArea) : Prop where
  /-- The string written is read at the offset returned. -/
  written : ∀ s o, c.text = some s → r = .offset o → Reads a' o s
  cleared : ∀ o, c = .clear o → Reads a' o []
  /-- An `insert` that relocates leaves the empty string behind. -/
  relocated : ∀ o t o', c = .insert o t → r = .offset o' → o ≠ 0 → o' ≠ o → Reads a' o []
  /-- The other offsets read what they read before. -/
  frame : ∀ p ∈ H, p ≠ c.offset → r ≠ .offset p → ∃ s, Reads a p s ∧ Reads a' p s

theorem Change.effect {a a' : StringMemoryArea} {H : List UInt32} (hi : Inv a H) {c : Call} {r : Ret}
    (h : Change a H c r a') : Effect a H c r a' := by
  have hi' := h.inv hi
  -- it is enough to look at the bytes of the buffer
  have hframe : (∀ p ∈ H, p ≠ c.offset → r ≠ .offset p → ∀ s, readStr a.data p.toNat = some s →
      readStr a'.data p.toNat = some s) → ∀ p ∈ H, p ≠ c.offset → r ≠ .offset p → ∃ s, Reads a p s ∧ Reads a' p s := by
    intro hb p hp hpc hpr
    obtain ⟨s, hs, -⟩ := hi.text hp
    have hp' : p ∈ r.handed H := by
      cases r with
      | offset o => exact List.mem_cons_of_mem _ hp
      | count n => exact hp
    exact ⟨s, hi.reads hp hs, hi'.reads hp' (hb p hp hpc hpr s hs)⟩
  cases h with
  | @append c s h0 hc hs hw hf =>
    refine ⟨fun u o hu ho => ?_, fun o ho => ?_, fun o t o' ho _ hne _ => ?_, hframe fun p hp _ _ u hu => ?_⟩
    · rw [hc] at hu
      cases hu
      cases ho
      exact hi'.reads List.mem_cons_self (hi.read_appended_self hw hf hs)
    · subst ho
      cases hc
    · subst ho
      exact absurd h0 hne
    · exact hi.read_appended hw hf hp hu
  | replace ho hold hs hl =>
    refine ⟨fun u o hu heq => ?_, fun _ h => (by cases h), fun o t o' h hr _ hne => ?_, hframe fun p hp hne _ u hu => ?_⟩
    · cases hu
      cases heq
      exact hi'.reads List.mem_cons_self (read_rewritten_self hold hl hs)
    · cases h
      cases hr
      exact absurd rfl hne
    · exact hi.read_rewritten ho hp hne hold hl hu
  | @relocate o t old ho hold hs hl hw hf =>
    have hi₁ := hi.rewritten (s := []) hold (by simp)
    have hf₁ : (a.rewritten o.toNat old.length []).Fits t.encode.length := hf
    have hw₁ : (a.rewritten o.toNat old.length []).NoWrap t.encode.length := hw
    refine ⟨fun u o' hu heq => ?_, fun _ h => (by cases h), fun o' t' r' h _ _ _ => ?_, hframe fun p hp hne _ u hu => ?_⟩
    · cases hu
      cases heq
      exact hi'.reads List.mem_cons_self (hi₁.read_appended_self hw₁ hf₁ hs)
    · cases h
      exact hi'.reads (List.mem_cons_of_mem _ ho)
        (hi₁.read_appended hw₁ hf₁ ho (read_rewritten_self hold (by simp) (by simp)))
    · exact hi₁.read_appended hw₁ hf₁ hp (hi.read_rewritten ho hp hne hold (by simp) hu)
  | clear ho hold =>
    refine ⟨fun u o hu _ => (by cases hu), fun o h => ?_, fun _ _ _ h => (by cases h), hframe fun p hp hne _ u hu => ?_⟩
    · cases h
      exact hi'.reads ho (read_rewritten_self hold (by simp) (by simp))
    · exact hi.read_rewritten ho hp hne hold (by simp) hu

/-! ## The abstract map -/

abbrev OffsetMap := UInt32 → Option Str

/-- One call on the map: a new offset for a new string, or another string at an offset. -/
inductive OffsetMap.Step (m : OffsetMap) : Call × Ret → OffsetMap → Prop where
  | append {c s r} (h0 : c.offset = 0) (hc : c.text = some s) (hr : m r = none) :
    Step m (c, .offset r) (Function.update m r (some s))
  | replace {o t old} (ho : m o = some old) : Step m (.insert o t, .offset o) (Function.update m o (some t.encode))
  | relocate {o t old r} (ho : m o = some old) (hr : m r = none) :
    Step m (.insert o t, .offset r) (Function.update (Function.update m o (some [])) r (some t.encode))
  | clear {o old} (ho : m o = some old) : Step m (.clear o, .count old.length) (Function.update m o (some []))

/-- What the area is for: a partial map from offsets to strings, empty at first. -/
def offsetMap : LTS OffsetMap (Call × Ret) where
  init m := m = fun _ => none
  step := OffsetMap.Step

/-- The offsets handed out are those of the map, and read what the map says. -/
def Agrees (x : StringMemoryArea × List UInt32) (m : OffsetMap) : Prop :=
  ∀ o s, m o = some s ↔ o ∈ x.2 ∧ Reads x.1 o s

theorem Agrees.none {x : StringMemoryArea × List UInt32} {m : OffsetMap} (h : Agrees x m) {o : UInt32} (ho : o ∉ x.2) :
    m o = none := by
  cases hm : m o with
  | none => rfl
  | some s => exact absurd ((h o s).1 hm).1 ho

/-- The map changes where the area does. -/
theorem Agrees.update {a a' : StringMemoryArea} {H H' : List UInt32} {m : OffsetMap} (h : Agrees (a, H) m) {o : UInt32}
    {s : Str} (ho : o ∈ H') (hs : Reads a' o s) (hH : ∀ p, p ≠ o → (p ∈ H' ↔ p ∈ H))
    (hframe : ∀ p ∈ H, p ≠ o → ∃ u, Reads a p u ∧ Reads a' p u) :
    Agrees (a', H') (Function.update m o (some s)) := by
  intro p u
  by_cases hp : p = o
  · subst hp
    rw [Function.update_self]
    constructor
    · intro hu
      cases hu
      exact ⟨ho, hs⟩
    · rintro ⟨-, hu⟩
      rw [hs.unique hu]
  · rw [Function.update_of_ne hp, h p u]
    constructor
    · rintro ⟨hpH, hu⟩
      obtain ⟨v, hv, hv'⟩ := hframe p hpH hp
      rw [hu.unique hv]
      exact ⟨(hH p hp).2 hpH, hv'⟩
    · rintro ⟨hpH, hu⟩
      have hpH := (hH p hp).1 hpH
      obtain ⟨v, hv, hv'⟩ := hframe p hpH hp
      rw [hu.unique hv']
      exact ⟨hpH, hv⟩

theorem Agrees.rewritten {a : StringMemoryArea} {H : List UInt32} {m : OffsetMap} (h : Agrees (a, H) m) (hi : Inv a H)
    {o : UInt32} {s old : Str} (ho : o ∈ H) (hold : readStr a.data o.toNat = some old) (hl : s.length ≤ old.length)
    (hs : 0 ∉ s) : m o = some old ∧ Agrees (a.rewritten o.toNat old.length s, H) (Function.update m o (some s)) := by
  have hi' := hi.rewritten hold hl
  refine ⟨(h o old).2 ⟨ho, hi.reads ho hold⟩, h.update ho (hi'.reads ho (read_rewritten_self hold hl hs))
    (fun _ _ => Iff.rfl) fun p hp hne => ?_⟩
  obtain ⟨u, hu, -⟩ := hi.text hp
  exact ⟨u, hi.reads hp hu, hi'.reads hp (hi.read_rewritten ho hp hne hold hl hu)⟩

theorem Agrees.appended {a : StringMemoryArea} {H : List UInt32} {m : OffsetMap} (h : Agrees (a, H) m) (hi : Inv a H)
    {s : Str} (hw : a.NoWrap s.length) (hf : a.Fits s.length) (hs : 0 ∉ s) :
    m a.start = Option.none ∧ Agrees (a.appended s, a.start :: H) (Function.update m a.start (some s)) := by
  have hi' := hi.appended hw hf hs
  refine ⟨h.none (hi.start_notMem hw), h.update List.mem_cons_self
    (hi'.reads List.mem_cons_self (hi.read_appended_self hw hf hs)) (fun p hp => ?_) fun p hp _ => ?_⟩
  · simp [hp]
  · obtain ⟨u, hu, -⟩ := hi.text hp
    exact ⟨u, hi.reads hp hu, hi'.reads (List.mem_cons_of_mem _ hp) (hi.read_appended hw hf hp hu)⟩

/-- Every change of the area is a step of the map. -/
theorem Change.simulates {a a' : StringMemoryArea} {H : List UInt32} {m : OffsetMap} (h : Agrees (a, H) m) (hi : Inv a H)
    {c : Call} {r : Ret} (hc : Change a H c r a') :
    ∃ m', OffsetMap.Step m (c, r) m' ∧ Agrees (a', r.handed H) m' := by
  cases hc with
  | append h0 hc hs hw hf =>
    obtain ⟨hr, hA⟩ := h.appended hi hw hf hs
    exact ⟨_, .append h0 hc hr, hA⟩
  | @replace o t old ho hold hs hl =>
    obtain ⟨hm, hA⟩ := h.rewritten hi ho hold hl hs
    refine ⟨_, .replace hm, fun p s => (hA p s).trans (and_congr_left fun _ => ?_)⟩
    simp only [Ret.handed, List.mem_cons]
    exact ⟨.inr, fun hp => hp.elim (fun heq => heq ▸ ho) id⟩
  | relocate ho hold hs hl hw hf =>
    obtain ⟨hm, hA⟩ := h.rewritten hi (s := []) ho hold (by simp) (by simp)
    obtain ⟨hr, hA⟩ := hA.appended (hi.rewritten hold (by simp)) hw hf hs
    exact ⟨_, .relocate hm (h.none (hi.start_notMem hw)), hA⟩
  | clear ho hold =>
    obtain ⟨hm, hA⟩ := h.rewritten hi (s := []) ho hold (by simp) (by simp)
    exact ⟨_, .clear hm, hA⟩

theorem simulates : slots.Simulates offsetMap Agrees where
  init x hx := by
    refine ⟨_, rfl, fun o s => ?_⟩
    rw [hx.2.2]
    simp
  step x l y m hr hA hs := by
    obtain ⟨hc, hrun, hH⟩ := hs
    have hi := slots_inv hr
    obtain ⟨m', hm', hA'⟩ := (Change.of_run hi hc hrun).simulates hA hi
    exact ⟨m', hm', fun o s => by rw [hA' o s, hH]⟩

/-- **The area refines a map from offsets to strings**: its runs are runs of the map, and a further allowed call is
stopped by a range check or returns with the effect the map has. -/
theorem slots_refine_offsetMap {is : List (Call × Ret)} {x : StringMemoryArea × List UInt32} (hx : slots.Run is x) :
    (∃ m, offsetMap.Run is m ∧ Agrees x m) ∧
      ∀ c : Call, c.Allowed x.1 x.2 →
        (∃ val max a', c.run.run x.1 = .error (.range 1 val max) a') ∨
          ∃ r a', c.run.run x.1 = .ok r a' ∧ Effect x.1 x.2 c r a' := by
  refine ⟨simulates.run hx, fun c hc => ?_⟩
  have hi := slots_inv ⟨is, hx⟩
  rcases run_allowed hi hc with h | ⟨r, a', hr, hch⟩
  · exact .inl h
  · exact .inr ⟨r, a', hr, hch.effect hi⟩

/-- "ab" was added; "c" replaces it at the same offset. -/
theorem slots_refine_offsetMap_ab :
    Effect ⟨[0, 97, 98, 0], false, 3, 3⟩ [1] (.insert 1 (.str [99])) (.offset 1) ⟨[0, 99, 0, 0], false, 3, 3⟩ := by
  have h0 : slots.init (zeroArea 4 3, []) := ⟨⟨rfl, rfl⟩, ⟨by decide, rfl⟩, rfl⟩
  have hrun : slots.Run [(.add [97, 98], .offset 1)] (⟨[0, 97, 98, 0], false, 3, 3⟩, [1]) :=
    LTS.Run.snoc (.init h0) ⟨⟨by decide, show 0 + 1 + 2 < 2 ^ 32 by decide⟩, rfl, rfl⟩
  have hc : (Call.insert 1 (.str [99])).Allowed ⟨[0, 97, 98, 0], false, 3, 3⟩ [1] :=
    ⟨.inr (by decide), show 0 ∉ [99] by decide, fun _ => show 3 + 1 + 1 < 2 ^ 32 by decide⟩
  have hins : (Call.insert 1 (.str [99])).run.run ⟨[0, 97, 98, 0], false, 3, 3⟩ =
      .ok (.offset 1) ⟨[0, 99, 0, 0], false, 3, 3⟩ := rfl
  rcases (slots_refine_offsetMap hrun).2 _ hc with ⟨val, max, a', h⟩ | ⟨r, a', h, he⟩
  · rw [hins] at h
    cases h
  · rw [hins] at h
    cases h
    exact he

end OksSystem.StringMemoryArea
