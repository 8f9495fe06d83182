import OksSystem.StringMemoryArea.Damage

/-!
# Replacing a string in its place

`insert` measures the room at an offset by the string that stands there, so a replacement that is shorter than the one before
gives the rest of the room away.

* `Stays` : the call returns its offset and leaves `lastString` alone; `Room` : the string there is long enough;
* `stays_iff_room` : the one exactly when the other, in any area;
* `handedCalls` : the runs of an area with the offsets handed out, the calls that range checks stop included;
* `handedCalls_keeps` : a call at another offset leaves the string at `o` alone;
* `stays_iff_chain` : all replacements stay exactly when their lengths never grow.
-/

namespace OksSystem.StringMemoryArea
open ByteBuffer

variable {a a' : StringMemoryArea} {H : List UInt32} {o r : UInt32} {s u : Str} {t : Text} {c : Call}

/-! ## One call -/

/-- `insert(o, t)` returns `o` and leaves `last_string()` unchanged. -/
def Stays (a : StringMemoryArea) (o : UInt32) (t : Text) : Prop :=
  ∃ a', (insertText o t).run a = .ok o a' ∧ a'.lastString = a.lastString

/-- The string that stands at `o` is at least as long as `s`. -/
def Room (a : StringMemoryArea) (o : UInt32) (s : Str) : Prop :=
  (1 ≤ o.toNat ∧ o.toNat ≤ a.stringAreaSize.toNat) ∧ ∃ u, readStr a.data o.toNat = some u ∧ s.length ≤ u.length

theorem stays_of_room (h : a.Room o (cstr t.encode)) : a.Stays o t := by
  obtain ⟨hr, u, hu, hl⟩ := h
  refine ⟨(a.zeroed o.toNat u.length).put o.toNat (cstr t.encode), ?_, rfl⟩
  rw [insertText_eq]
  exact run_insert_inplace hr hu hl

/-- A string that is appended moves `lastString`. -/
theorem add_moves (hw : a.NoWrap (cstr s).length) (h : (add (.str s)).run a = .ok r a') : a'.lastString ≠ a.lastString := by
  obtain ⟨-, -, -, rfl⟩ := add_ok h
  intro heq
  have hstop := stop_toNat hw
  rw [show a.stop (cstr s).length = a.lastString from heq] at hstop
  omega

theorem stays_iff_room (hw : Access.NoWrap a (.call (.insert o t))) : a.Stays o t ↔ a.Room o (cstr t.encode) := by
  refine ⟨?_, stays_of_room⟩
  rintro ⟨a', hrun, hlast⟩
  have hw : a.Appends o (cstr t.encode).length → a.NoWrap (cstr t.encode).length := hw
  rw [insertText_eq] at hrun
  rcases insert_ok hrun with ⟨rfl, hadd⟩ | ⟨hr, u, hu, ⟨hl, -, -⟩ | ⟨hl, hadd⟩⟩
  · exact absurd hlast (add_moves (hw (.inl rfl)) hadd)
  · exact ⟨hr, u, hu, hl⟩
  · exact absurd hlast (add_moves (a := a.zeroed o.toNat u.length) (hw (appends_of_shorter hu hl)) hadd)

/-! ## The runs -/

def AnyCall.offset : AnyCall → UInt32
  | .call c => c.offset
  | .addArea _ => 0
  | .insertArea offset _ => offset

/-- The runs of an area from zero with the offsets handed out so far: a call returns, or a range check stops it. -/
def handedCalls : LTS (StringMemoryArea × List UInt32) (AnyCall × Option Ret) where
  init x := IsZero x.1 ∧ x.1.Backed ∧ x.2 = []
  step x l y := (∃ c ∈ l.1.asCall x.1, c.Allowed x.1 x.2) ∧
    match l.2 with
    | some r => l.1.run.run x.1 = .ok r y.1 ∧ y.2 = r.handed x.2
    | none => (∃ min val max, l.1.run.run x.1 = .error (.range min val max) y.1) ∧ y.2 = x.2

/-- The text that a call inserts at `o`. -/
def AnyCall.writtenAt (o : UInt32) : AnyCall → Option Str
  | .call (.insert offset t) => if offset = o then some t.encode else none
  | _ => none

theorem AnyCall.offset_asCall {x : AnyCall} (h : c ∈ x.asCall a) : c.offset = x.offset := by
  cases x with
  | call c' =>
    cases h
    rfl
  | addArea i =>
    obtain ⟨s, -, rfl⟩ := Option.map_eq_some_iff.1 h
    rfl
  | insertArea o i =>
    obtain ⟨s, -, rfl⟩ := Option.map_eq_some_iff.1 h
    rfl

/-- An allowed call that a range check stopped has done nothing, or has cleared the string at its offset. -/
theorem Call.Allowed.stopped (hi : Inv a H) (hc : c.Allowed a H) {min val max : Nat}
    (h : c.run.run a = .error (.range min val max) a') :
    a' = a ∨ ∃ old, c.offset ∈ H ∧ readStr a.data c.offset.toNat = some old ∧
      a' = a.rewritten c.offset.toNat old.length [] := by
  have hadd : ∀ {s : Str}, (StringMemoryArea.add (.str s)).run a = .error (.range min val max) a' → a' = a := by
    intro s h
    rw [run_add] at h
    split_ifs at h <;> cases h
    rfl
  cases c with
  | add s => exact .inl (hadd (run_call_error.1 h))
  | insert o t =>
    have h := run_call_error.1 h
    by_cases h0 : o = 0
    · subst h0
      rw [insertText_eq, run_insert_zero] at h
      exact .inl (hadd h)
    · have ho : o ∈ H := hc.1.resolve_left h0
      obtain ⟨old, hold, rfl⟩ := insertText_stopped (hi.inRange ho) h
      exact .inr ⟨old, ho, hold, rfl⟩
  | clear o =>
    obtain ⟨old, hold, -⟩ := hi.text hc
    rw [Call.run, EStateM.run_bind, run_clear hold] at h
    cases h

/-- A change at another offset returns another offset. -/
theorem Change.other (hi : Inv a H) {ret : Ret} (h : Change a H c ret a') (ho : o ∈ H) (hne : o ≠ c.offset) :
    ret ≠ .offset o := by
  cases h with
  | append h0 hc hs hw hf =>
    rintro ⟨⟩
    exact hi.start_notMem hw ho
  | replace ho' hold hs hl =>
    rintro ⟨⟩
    exact hne rfl
  | relocate ho' hold hs hl hw hf =>
    rintro ⟨⟩
    exact hi.start_notMem hw ho
  | clear ho' hold => exact nofun

/-- **A step keeps the invariant, and a step at another offset keeps the string at `o`.** -/
theorem handedCalls_keeps {x y : StringMemoryArea × List UInt32} {l : AnyCall × Option Ret} (hi : Inv x.1 x.2)
    (hs : handedCalls.step x l y) :
    Inv y.1 y.2 ∧ ∀ o ∈ x.2, o ∈ y.2 ∧ (o ≠ l.1.offset → ∀ u, Reads x.1 o u → Reads y.1 o u) := by
  obtain ⟨a, H⟩ := x
  obtain ⟨a', H'⟩ := y
  obtain ⟨call, ret⟩ := l
  obtain ⟨⟨c, hc, hallowed⟩, hres⟩ := hs
  have hoff := AnyCall.offset_asCall hc
  have hrun := AnyCall.run_asCall hc
  cases ret with
  | some r =>
    obtain ⟨hok, rfl⟩ := hres
    have hok : call.run.run a = .ok r a' := hok
    rw [hrun] at hok
    have hch := Change.of_run hi hallowed hok
    refine ⟨hch.inv hi, fun o ho => ⟨?_, fun hne u hu => ?_⟩⟩
    · cases r with
      | offset o' => exact List.mem_cons_of_mem _ ho
      | count n => exact ho
    · rw [← hoff] at hne
      obtain ⟨v, hv, hv'⟩ := (hch.effect hi).frame o ho hne (hch.other hi ho hne)
      rwa [hu.unique hv]
  | none =>
    obtain ⟨⟨min, val, max, herr⟩, hH⟩ := hres
    obtain rfl : H' = H := hH
    have herr : call.run.run a = .error (.range min val max) a' := herr
    rw [hrun] at herr
    rcases hallowed.stopped hi herr with rfl | ⟨old, hoH, hold, rfl⟩
    · exact ⟨hi, fun o ho => ⟨ho, fun _ u hu => hu⟩⟩
    · have hi' := hi.rewritten (s := []) hold (Nat.zero_le _)
      refine ⟨hi', fun o ho => ⟨ho, fun hne u hu => hi'.reads ho ?_⟩⟩
      rw [← hoff] at hne
      exact hi.read_rewritten hoH ho hne hold (Nat.zero_le _) hu.inv.2.2

theorem handedCalls_inv {x : StringMemoryArea × List UInt32} (h : handedCalls.Reachable x) : Inv x.1 x.2 := by
  refine h.invariant (I := fun x => Inv x.1 x.2) (fun y hy => ?_) fun y l z hi hs => (handedCalls_keeps hi hs).1
  rw [hy.2.2]
  exact zero_inv hy.1 hy.2.1

/-! ## Histories -/

section History

variable {x y z : StringMemoryArea × List UInt32} {ret : Option Ret}

/-- A replacement stays when it is no longer than the string `u` there, and is then read in its place. -/
theorem handedCalls_replaces (hi : Inv x.1 x.2) (hu : Reads x.1 o u)
    (hs : handedCalls.step x (.call (.insert o t), ret) y) :
    (x.1.Stays o t ↔ t.encode.length ≤ u.length) ∧ (t.encode.length ≤ u.length → Reads y.1 o t.encode) := by
  obtain ⟨⟨c, hc, hallowed⟩, hres⟩ := hs
  cases hc
  have hcstr := cstr_of_notMem hallowed.2.1.encode
  obtain ⟨hr, -, hread⟩ := hu.inv
  have hstays : x.1.Stays o t ↔ t.encode.length ≤ u.length := by
    have hw : Access.NoWrap x.1 (.call (.insert o t)) := by
      show x.1.Appends o (cstr t.encode).length → x.1.NoWrap (cstr t.encode).length
      rw [hcstr]
      exact hallowed.2.2
    rw [stays_iff_room hw, hcstr]
    refine ⟨fun ⟨_, v, hv, hl⟩ => ?_, fun hl => ⟨hr, u, hread, hl⟩⟩
    rw [hread] at hv
    exact Option.some.inj hv ▸ hl
  refine ⟨hstays, fun hl => ?_⟩
  obtain ⟨b, hb, -⟩ := hstays.2 hl
  have hrun : (Call.insert o t).run.run x.1 = .ok (.offset o) b := by
    rw [Call.run, EStateM.run_bind, hb]
    rfl
  cases ret with
  | some r =>
    obtain ⟨hok, -⟩ := hres
    have hok : (Call.insert o t).run.run x.1 = .ok r y.1 := hok
    have hwritten := ((Change.of_run hi hallowed hok).effect hi).written t.encode o rfl
    rw [hrun] at hok
    cases hok
    exact hwritten rfl
  | none =>
    obtain ⟨⟨min, val, max, herr⟩, -⟩ := hres
    have herr : (Call.insert o t).run.run x.1 = .error (.range min val max) y.1 := herr
    rw [hrun] at herr
    cases herr

/-- **Along a run all replacements at `o` stay exactly when none is longer than the one before.** The string at `o` is the last
one that was written there. -/
theorem stays_iff_chain {xs : List ((StringMemoryArea × List UInt32) × (AnyCall × Option Ret))}
    (h : handedCalls.Along x xs z) (hi : Inv x.1 x.2) (ho : o ∈ x.2) (hu : Reads x.1 o u)
    (hown : ∀ y ∈ xs, y.2.1.offset = o → ∃ t, y.2.1 = .call (.insert o t)) :
    (∀ y ∈ xs, ∀ t, y.2.1 = .call (.insert o t) → y.1.1.Stays o t) ↔
      (u :: xs.filterMap fun y => y.2.1.writtenAt o).IsChain fun s s' => s'.length ≤ s.length := by
  induction h generalizing u with
  | nil x => simp
  | @cons x l y xs z hs hp ih =>
    obtain ⟨call, ret⟩ := l
    obtain ⟨hi', hkept⟩ := handedCalls_keeps hi hs
    obtain ⟨ho', hother⟩ := hkept o ho
    have hown' := fun y hy => hown y (List.mem_cons_of_mem _ hy)
    rw [List.forall_mem_cons]
    by_cases hoff : call.offset = o
    · obtain ⟨t, ht⟩ := hown _ List.mem_cons_self hoff
      obtain rfl : call = .call (.insert o t) := ht
      obtain ⟨hstays, hafter⟩ := handedCalls_replaces hi hu hs
      have hhead : (∀ t', AnyCall.call (.insert o t) = .call (.insert o t') → x.1.Stays o t') ↔ x.1.Stays o t := by
        refine ⟨fun h => h t rfl, fun h t' heq => ?_⟩
        cases heq
        exact h
      have hwrites : AnyCall.writtenAt o (.call (.insert o t)) = some t.encode := if_pos rfl
      rw [hhead, hstays, List.filterMap_cons_some (by exact hwrites), List.isChain_cons_cons]
      exact and_congr_right fun hl => ih hi' ho' (hafter hl) hown'
    · have hwrites : call.writtenAt o = none := by
        unfold AnyCall.writtenAt
        split
        · rename_i offset t
          exact if_neg hoff
        · rfl
      rw [List.filterMap_cons_none (by exact hwrites), ← ih hi' ho' (hother (Ne.symm hoff) u hu) hown']
      refine and_iff_right fun t ht => ?_
      obtain rfl : call = .call (.insert o t) := ht
      exact absurd rfl hoff

end History

/-- "abc" was added to an area of eight bytes. -/
def addedAbc : StringMemoryArea × List UInt32 := (⟨[0, 97, 98, 99, 0, 0, 0, 0, 0], false, 4, 8⟩, [1])

/-- "a" replaced "abc". -/
def shrunkToA : StringMemoryArea × List UInt32 := (⟨[0, 97, 0, 0, 0, 0, 0, 0, 0], false, 4, 8⟩, [1, 1])

theorem zero_handed : handedCalls.Reachable (zeroArea 9 8, []) := .init ⟨⟨rfl, rfl⟩, ⟨by decide, rfl⟩, rfl⟩

theorem addedAbc_step : handedCalls.step (zeroArea 9 8, []) (.call (.add [97, 98, 99]), some (.offset 1)) addedAbc :=
  ⟨⟨_, rfl, by decide, show 0 + 1 + 3 < 4294967296 by decide⟩, rfl, rfl⟩

theorem shrunkToA_step : handedCalls.step addedAbc (.call (.insert 1 (.str [97])), some (.offset 1)) shrunkToA :=
  ⟨⟨_, rfl, .inr (by decide), show 0 ∉ [97] by decide, fun _ => show 4 + 1 + 1 < 4294967296 by decide⟩, rfl, rfl⟩

end OksSystem.StringMemoryArea
