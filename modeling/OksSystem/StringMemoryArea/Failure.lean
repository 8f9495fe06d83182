import OksSystem.Lib.Outcome
import OksSystem.StringMemoryArea.Refine

/-!
# What a failed `insert` leaves behind

`insert` clears the old string before `add` looks whether the new one fits behind the last string. When that check stops
it the old string is gone.

* `calls` : the runs of an area from zero, with any offsets and any outcome of the range checks;
* `insertText_stopped` : the area after an `insert` that the check in `add` stopped;
* `insertText_stopped_intact_iff` : it is the area before exactly when the old string was empty.
-/

namespace OksSystem.StringMemoryArea
open ByteBuffer

/-- The runs of an area from zero: a call returns, or a range check stops it. -/
def calls : LTS StringMemoryArea Call where
  init a := IsZero a
  step a c a' := (∃ r, c.run.run a = .ok r a') ∨ ∃ min val max, c.run.run a = .error (.range min val max) a'

/-- The outcomes of a call are those of the method it calls. -/
theorem run_call_error {o : Op UInt32} {a a' : StringMemoryArea} {e : Stop} :
    (do return Ret.offset (← o) : Op Ret).run a = .error e a' ↔ o.run a = .error e a' := by
  rw [EStateM.run_bind]
  cases o.run a with
  | ok r b => simp only [EStateM.run_pure, reduceCtorEq]
  | error e' b => simp only [EStateM.Result.error.injEq]

/-- What a call has made of any area, also when a range check stopped it: nothing, an append, a rewrite within the string at its
offset, or an append behind such a rewrite. -/
inductive Made (a : StringMemoryArea) (c : Call) : StringMemoryArea → Prop where
  | nothing : Made a c a
  | append {s} (h0 : c.offset = 0) (hc : c.text = some s) (hf : a.Fits (cstr s).length)
    (hroom : a.start.toNat + (cstr s).length < a.data.length) : Made a c (a.appended (cstr s))
  | rewrite {s old} (hold : readStr a.data c.offset.toNat = some old) (hl : (cstr s).length ≤ old.length) :
    Made a c (a.rewritten c.offset.toNat old.length (cstr s))
  | relocate {s old} (hpos : 1 ≤ c.offset.toNat) (hc : c.text = some s) (hold : readStr a.data c.offset.toNat = some old)
    (hl : old.length < (cstr s).length) (hf : a.Fits (cstr s).length)
    (hroom : a.start.toNat + (cstr s).length < (a.rewritten c.offset.toNat old.length []).data.length) :
    Made a c ((a.rewritten c.offset.toNat old.length []).appended (cstr s))

/-- The result of `add`, as a call. -/
theorem add_made {a a' : StringMemoryArea} {s : Str} {c : Call} (h0 : c.offset = 0) (hc : c.text = some s)
    (h : (∃ r, (add (.str s)).run a = .ok r a') ∨ ∃ min val max, (add (.str s)).run a = .error (.range min val max) a') :
    Made a c a' := by
  obtain ⟨r, hr⟩ | ⟨min, val, max, hr⟩ := h
  · obtain ⟨hf, hroom, -, rfl⟩ := add_ok hr
    exact .append h0 hc hf hroom
  · rw [run_add] at hr
    split_ifs at hr <;> cases hr
    exact .nothing

/-- An `insert` stopped by the check in `add` has cleared the old string and done nothing else. -/
theorem insertText_stopped {a a' : StringMemoryArea} {o : UInt32} {t : Text} {min val max : Nat}
    (ho : 1 ≤ o.toNat ∧ o.toNat ≤ a.stringAreaSize.toNat) (h : (insertText o t).run a = .error (.range min val max) a') :
    ∃ old, readStr a.data o.toNat = some old ∧ a' = a.rewritten o.toNat old.length [] := by
  rw [insertText_eq] at h
  cases hold : readStr a.data o.toNat with
  | none =>
    obtain ⟨i, b, -, hb⟩ := run_insert_outside (s := t.encode) ho hold
    rw [hb] at h
    cases h
  | some old =>
    refine ⟨old, rfl, ?_⟩
    by_cases hl : (cstr t.encode).length ≤ old.length
    · rw [run_insert_inplace ho hold hl] at h
      cases h
    · rw [run_insert_relocate ho hold (by omega), zeroed_eq_rewritten, run_add] at h
      split_ifs at h <;> cases h
      rfl

theorem insert_made {a a' : StringMemoryArea} {o : UInt32} {t : Text}
    (h : (∃ r, (insertText o t).run a = .ok r a') ∨ ∃ min val max, (insertText o t).run a = .error (.range min val max) a') :
    Made a (.insert o t) a' := by
  by_cases h0 : o = 0
  · subst h0
    rw [insertText_eq, run_insert_zero] at h
    exact add_made rfl rfl h
  obtain ⟨r, hr⟩ | ⟨min, val, max, hr⟩ := h
  · rw [insertText_eq] at hr
    obtain ⟨hzero, -⟩ | ⟨ho, old, hold, ⟨hl, -, rfl⟩ | ⟨hl, hadd⟩⟩ := insert_ok hr
    · exact absurd hzero h0
    · rw [put_zeroed hold hl]
      exact .rewrite hold hl
    · rw [zeroed_eq_rewritten] at hadd
      obtain ⟨hf, hroom, -, rfl⟩ := add_ok hadd
      exact .relocate ho.1 rfl hold hl hf hroom
  · by_cases ho : 1 ≤ o.toNat ∧ o.toNat ≤ a.stringAreaSize.toNat
    · obtain ⟨old, hold, rfl⟩ := insertText_stopped ho hr
      exact .rewrite (s := []) hold (Nat.zero_le _)
    · rw [insertText_eq, run_insert_range h0 ho] at hr
      cases hr
      exact .nothing

theorem clear_made {a a' : StringMemoryArea} {o : UInt32} {n : Nat} (h : (clear o).run a = .ok n a') :
    Made a (.clear o) a' := by
  cases hold : readStr a.data o.toNat with
  | none =>
    obtain ⟨i, b, -, hb⟩ := run_clear_outside hold
    rw [hb] at h
    cases h
  | some old =>
    rw [run_clear hold, zeroed_eq_rewritten] at h
    cases h
    exact .rewrite (s := []) hold (Nat.zero_le _)

/-- Every step has made one of these changes. -/
theorem calls_made {a a' : StringMemoryArea} {c : Call} (h : calls.step a c a') : Made a c a' := by
  have hcall : ∀ {op : Op UInt32}, c.run = (do return .offset (← op)) →
      (∃ r, op.run a = .ok r a') ∨ ∃ min val max, op.run a = .error (.range min val max) a' := by
    intro op hop
    obtain ⟨r, hr⟩ | ⟨min, val, max, hr⟩ := h
    · rw [hop] at hr
      obtain ⟨r', b, hrun, hr⟩ := EStateM.exists_of_bind_ok hr
      cases hr
      exact .inl ⟨r', hrun⟩
    · rw [hop] at hr
      exact .inr ⟨min, val, max, run_call_error.1 hr⟩
  cases c with
  | add s => exact add_made rfl rfl (hcall rfl)
  | insert o t => exact insert_made (hcall rfl)
  | clear o =>
    obtain ⟨r, hr⟩ | ⟨min, val, max, hr⟩ := h
    · rw [Call.run] at hr
      obtain ⟨n, b, hrun, hr⟩ := EStateM.exists_of_bind_ok hr
      cases hr
      exact clear_made hrun
    · rw [Call.run, EStateM.run_bind] at hr
      cases hold : readStr a.data o.toNat with
      | none =>
        obtain ⟨i, b, -, hb⟩ := run_clear_outside hold
        rw [hb] at hr
        cases hr
      | some old =>
        rw [run_clear hold] at hr
        cases hr

/-- **A stopped `insert` leaves the area as it was exactly when the old string was empty**, and only then does
`get_string` still read the old string. -/
theorem insertText_stopped_intact_iff {a a' : StringMemoryArea} {o : UInt32} {t : Text} {min val max : Nat}
    (ho : 1 ≤ o.toNat ∧ o.toNat ≤ a.stringAreaSize.toNat) (h : (insertText o t).run a = .error (.range min val max) a') :
    (a' = a ↔ readStr a.data o.toNat = some []) ∧
      (readStr a'.data o.toNat = readStr a.data o.toNat ↔ readStr a.data o.toNat = some []) := by
  obtain ⟨old, hold, rfl⟩ := insertText_stopped ho h
  have hafter : readStr (a.rewritten o.toNat old.length []).data o.toNat = some [] :=
    read_rewritten_self hold (by simp) (by simp)
  have hread : readStr (a.rewritten o.toNat old.length []).data o.toNat = readStr a.data o.toNat ↔
      readStr a.data o.toNat = some [] := by
    rw [hafter]
    exact eq_comm
  refine ⟨⟨fun heq => hread.1 (by rw [heq]), fun h0 => ?_⟩, hread⟩
  rw [hold] at h0
  cases h0
  simp [rewritten]

/-- The string "a" in an area of three bytes: "bcd" fits neither there nor behind it. -/
def full : StringMemoryArea := ⟨[0, 97, 0, 0], false, 2, 3⟩

theorem full_reachable : calls.Reachable full :=
  .step (.init (s := zeroArea 4 3) ⟨rfl, rfl⟩) (i := .add [97]) (.inl ⟨.offset 1, rfl⟩)

/-- "a" is lost when "bcd" does not fit. -/
theorem insertText_stopped_not_intact :
    ¬ ∀ a, calls.Reachable a → ∀ (o : UInt32) (t : Text) (min val max : Nat) (a' : StringMemoryArea),
      1 ≤ o.toNat ∧ o.toNat ≤ a.stringAreaSize.toNat → (insertText o t).run a = .error (.range min val max) a' →
      a' = a := by
  intro h
  have hrun : (insertText 1 (.str [98, 99, 100])).run full = .error (.range 1 6 3) (full.rewritten 1 1 []) := rfl
  have := h full full_reachable 1 _ _ _ _ _ (by decide) hrun
  exact absurd this (by decide)

theorem insertText_stopped_intact_iff_full :
    full.rewritten 1 1 [] = full ↔ readStr full.data 1 = some [] :=
  (insertText_stopped_intact_iff (a := full) (o := 1) (t := .str [98, 99, 100]) (by decide) rfl).1

end OksSystem.StringMemoryArea
