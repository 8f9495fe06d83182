import Mathlib.Logic.Function.Basic
import OksSystem.Lib.Run
import OksSystem.Network.Resolution

/-!
# Hosts and the full names they know

A host keeps the first full name that is not empty. Every call meets a resolver of its own.

* `hosts` : the host objects of a process, and the calls on them in any order;
* `Call.Replaces` : the calls that end or assign to an object; `known_step` : no other one takes a known full name away;
* `comparison_stays` : two hosts that were compared compare the same ever after, and nothing more is asked.
-/

namespace OksSystem.Network
open ByteBuffer

namespace Host

def Known (host : Host) : Prop := host.mFullName ≠ []

variable {host other : Host}

theorem run_fullName_known (h : host.Known) (net : Resolver) (log : List Lookup) :
    (fullName net host).run log = ((host.mFullName, host), log) := by
  unfold fullName
  rw [if_neg h]
  rfl

theorem run_fullName_unknown (h : ¬ host.Known) (net : Resolver) (log : List Lookup) :
    (fullName net host).run log = ((((expand net host.mName).run log).1,
      { host with mFullName := ((expand net host.mName).run log).1 }), ((expand net host.mName).run log).2) := by
  unfold fullName
  rw [if_pos (not_not.1 h)]
  rfl

/-- The host has the full name that is returned. -/
theorem run_fullName_mFullName (net : Resolver) (host : Host) (log : List Lookup) :
    ((fullName net host).run log).1.2.mFullName = ((fullName net host).run log).1.1 := by
  by_cases h : host.Known
  · rw [run_fullName_known h]
  · rw [run_fullName_unknown h]

theorem run_equals (net net' : Resolver) (host other : Host) (log : List Lookup) :
    (equals net net' host other).run log =
      ((((fullName net host).run log).1.1 == ((fullName net' other).run ((fullName net host).run log).2).1.1,
        ((fullName net host).run log).1.2, ((fullName net' other).run ((fullName net host).run log).2).1.2),
        ((fullName net' other).run ((fullName net host).run log).2).2) := rfl

theorem run_equals_known (h : host.Known) (h' : other.Known) (net net' : Resolver) (log : List Lookup) :
    (equals net net' host other).run log = ((host.mFullName == other.mFullName, host, other), log) := by
  rw [run_equals, run_fullName_known h, run_fullName_known h']

end Host

open Host

/-- The objects there are, and what they have asked the resolver for. -/
structure Hosts where
  objects : Nat → Option Host
  asked : List Lookup

namespace Hosts

/-- A constructor, the assignment, a member that asks the resolver, or the destructor. -/
inductive Call where
  | ofName (k : Nat) (sName : Str)
  | ofAddress (k : Nat) (net : Resolver) (ipAddr : SockaddrIn)
  | copy (k j : Nat)
  | assign (k j : Nat)
  | ip (k : Nat) (net : Resolver)
  | fullName (k : Nat) (net : Resolver)
  | equals (k j : Nat) (net net' : Resolver)
  | destroy (k : Nat)

def put (s : Hosts) (k : Nat) (host : Option Host) : Hosts := { s with objects := Function.update s.objects k host }

inductive Step (s : Hosts) : Call → Hosts → Prop where
  | ofName {k : Nat} {sName : Str} (hk : s.objects k = none) : Step s (.ofName k sName) (s.put k (some (.ofName sName)))
  | ofAddress {k : Nat} {net : Resolver} {ipAddr : SockaddrIn} {made : Host × List Lookup} (hk : s.objects k = none)
      (hrun : (Host.ofAddress net ipAddr).run s.asked = made) :
      Step s (.ofAddress k net ipAddr) { s.put k (some made.1) with asked := made.2 }
  | copy {k j : Nat} {host : Host} (hk : s.objects k = none) (hj : s.objects j = some host) :
      Step s (.copy k j) (s.put k (some (Host.copy host)))
  | assign {k j : Nat} {host other : Host} (hk : s.objects k = some host) (hj : s.objects j = some other) :
      Step s (.assign k j) (s.put k (some (Host.assign host other)))
  | ip {k : Nat} {net : Resolver} {host : Host} {told : SockaddrIn × List Lookup} (hk : s.objects k = some host)
      (hrun : (Host.ip net host).run s.asked = told) : Step s (.ip k net) { s with asked := told.2 }
  | fullName {k : Nat} {net : Resolver} {host : Host} {told : (Str × Host) × List Lookup}
      (hk : s.objects k = some host) (hrun : (Host.fullName net host).run s.asked = told) :
      Step s (.fullName k net) { s.put k (some told.1.2) with asked := told.2 }
  | equals {k j : Nat} {net net' : Resolver} {host other : Host} {told : (Bool × Host × Host) × List Lookup}
      (hne : k ≠ j) (hk : s.objects k = some host) (hj : s.objects j = some other)
      (hrun : (Host.equals net net' host other).run s.asked = told) :
      Step s (.equals k j net net') { (s.put k (some told.1.2.1)).put j (some told.1.2.2) with asked := told.2 }
  /-- `equals` on an object and itself. -/
  | equalsSelf {k : Nat} {net net' : Resolver} {host : Host} {told told' : (Str × Host) × List Lookup}
      (hk : s.objects k = some host) (hrun : (Host.fullName net host).run s.asked = told)
      (hrun' : (Host.fullName net' told.1.2).run told.2 = told') :
      Step s (.equals k k net net') { s.put k (some told'.1.2) with asked := told'.2 }
  | destroy {k : Nat} : Step s (.destroy k) (s.put k none)

/-- The object `k` ends, or gets the names of another one. -/
def Call.Replaces (k : Nat) : Call → Prop
  | .assign k' _ => k' = k
  | .destroy k' => k' = k
  | _ => False

end Hosts

/-- No object at the start. -/
def hosts : LTS Hosts Hosts.Call where
  init s := (∀ k, s.objects k = none) ∧ s.asked = []
  step := Hosts.Step

namespace Hosts

variable {s s' : Hosts} {k j : Nat} {host other : Host}

@[simp] theorem put_self (s : Hosts) (k : Nat) (host : Option Host) : (s.put k host).objects k = host :=
  Function.update_self ..

theorem put_of_ne (s : Hosts) (host : Option Host) (h : k ≠ j) : (s.put j host).objects k = s.objects k :=
  Function.update_of_ne h ..

/-- The object `k` is `host`, and `host` has a full name. -/
def Knows (s : Hosts) (k : Nat) (host : Host) : Prop := s.objects k = some host ∧ host.Known

/-- A place that is free or another one may be written to. -/
theorem Knows.put (h : s.Knows k host) {o : Option Host} (hj : k = j → o = some host) : (s.put j o).Knows k host := by
  by_cases hkj : k = j
  · subst hkj
    rw [hj rfl]
    exact ⟨put_self .., h.2⟩
  · refine ⟨?_, h.2⟩
    rw [put_of_ne s o hkj]
    exact h.1

theorem Knows.ne_of_none (h : s.Knows k host) (hj : s.objects j = none) : k ≠ j := by
  rintro rfl
  exact nomatch h.1.symm.trans hj

theorem Knows.unique (h : s.Knows k host) (hk : s.objects k = some other) : other = host :=
  Option.some.inj (hk.symm.trans h.1)

theorem known_step {c : Call} (h : s.Knows k host) (hs : s.Step c s') (hc : ¬ c.Replaces k) : s'.Knows k host := by
  cases hs with
  | ofName hfree => exact h.put fun hkj => absurd hkj (h.ne_of_none hfree)
  | ofAddress hfree hrun => exact h.put fun hkj => absurd hkj (h.ne_of_none hfree)
  | copy hfree hj => exact h.put fun hkj => absurd hkj (h.ne_of_none hfree)
  | assign hk' hj => exact h.put fun hkj => absurd hkj.symm hc
  | ip hk' hrun => exact h
  | @fullName k' net host' told hk' hrun =>
    apply h.put
    rintro rfl
    obtain rfl := h.unique hk'
    rw [← hrun, run_fullName_known h.2]
  | @equals k' j' net net' host' other' told hne hk' hj' hrun =>
    rw [run_equals] at hrun
    subst hrun
    apply Knows.put
    · apply h.put
      rintro rfl
      obtain rfl := h.unique hk'
      rw [run_fullName_known h.2]
    · rintro rfl
      obtain rfl := h.unique hj'
      rw [run_fullName_known h.2]
  | equalsSelf hk' hrun hrun' =>
    apply h.put
    rintro rfl
    obtain rfl := h.unique hk'
    rw [run_fullName_known h.2] at hrun
    rw [← hrun', ← hrun, run_fullName_known h.2]
  | destroy => exact h.put fun hkj => absurd hkj.symm hc

/-- Along any calls that leave the object alone. -/
theorem Knows.path {cs : List Call} (h : s.Knows k host) (hp : hosts.Path s cs s') (hcs : ∀ c ∈ cs, ¬ c.Replaces k) :
    s'.Knows k host := by
  have hkeep : ∀ s c s', Knows s k host → ¬ c.Replaces k → hosts.step s c s' → Knows s' k host :=
    fun _ _ _ hknows hc hs => known_step hknows hs hc
  exact hp.keeps hkeep hcs h

/-- A comparison tells whether the two objects have the same full name after it. -/
theorem equals_step {net net' : Resolver} (hne : k ≠ j) (hk : s.objects k = some host) (hj : s.objects j = some other)
    (hs : s.Step (.equals k j net net') s') :
    ∃ host' other', s'.objects k = some host' ∧ s'.objects j = some other' ∧
      ((Host.equals net net' host other).run s.asked).1.1 = (host'.mFullName == other'.mFullName) := by
  cases hs with
  | equalsSelf => exact absurd rfl hne
  | equals hne hk' hj' hrun =>
    obtain rfl := Option.some.inj (hk.symm.trans hk')
    obtain rfl := Option.some.inj (hj.symm.trans hj')
    subst hrun
    refine ⟨_, _, (put_of_ne _ _ hne).trans (put_self ..), put_self .., ?_⟩
    rw [run_equals, run_fullName_mFullName, run_fullName_mFullName]

/-- **A comparison that found two full names is settled**: as long as both objects live and nothing is assigned to them, every
later one gives the same, and asks for nothing. -/
theorem comparison_stays {s₁ s₂ : Hosts} {net net' : Resolver} {cs : List Call} {host' other' : Host}
    (hne : k ≠ j) (hk : s.objects k = some host) (hj : s.objects j = some other) (hs : s.Step (.equals k j net net') s₁)
    (hknows : s₁.Knows k host') (hknows' : s₁.Knows j other') (hp : hosts.Path s₁ cs s₂)
    (hcs : ∀ c ∈ cs, ¬ c.Replaces k) (hcs' : ∀ c ∈ cs, ¬ c.Replaces j) :
    s₂.Knows k host' ∧ s₂.Knows j other' ∧ ∀ net₂ net₂' log, (Host.equals net₂ net₂' host' other').run log =
      ((((Host.equals net net' host other).run s.asked).1.1, host', other'), log) := by
  refine ⟨hknows.path hp hcs, hknows'.path hp hcs', fun net₂ net₂' log => ?_⟩
  obtain ⟨h, o, hh, ho, hresult⟩ := equals_step hne hk hj hs
  obtain rfl := hknows.unique hh
  obtain rfl := hknows'.unique ho
  rw [hresult, run_equals_known hknows.2 hknows'.2]

/-- A resolver that knows nothing. -/
def unknowing : Resolver := ⟨fun _ => .failed, fun _ => none⟩

/-- Two hosts that have not been asked for their full names. -/
def two : Hosts := ⟨fun k => if k = 0 then some (.ofName (text "a")) else if k = 1 then some (.ofName (text "b")) else none, []⟩

/-- The full names are the names. -/
def compared : Hosts :=
  { (two.put 0 (some ⟨text "a", text "a"⟩)).put 1 (some ⟨text "b", text "b"⟩) with
    asked := [.name (text "a"), .name (text "b")] }

/-- They are compared, and then one of them is copied and the copy is assigned to. -/
theorem comparison_stays_two : ∃ s₂ : Hosts, two.Step (.equals 0 1 unknowing unknowing) compared ∧
    hosts.Path compared [.copy 2 0, .assign 2 1] s₂ ∧ s₂.Knows 0 ⟨text "a", text "a"⟩ ∧
      s₂.Knows 1 ⟨text "b", text "b"⟩ := by
  have hequals : two.Step (.equals 0 1 unknowing unknowing) compared :=
    @Step.equals two 0 1 unknowing unknowing (.ofName (text "a")) (.ofName (text "b")) _ Nat.zero_ne_one rfl rfl rfl
  have hpath : hosts.Path compared [.copy 2 0, .assign 2 1] _ := .cons (.copy rfl rfl) (.single (.assign rfl rfl))
  obtain ⟨hknows, hknows', -⟩ := comparison_stays Nat.zero_ne_one rfl rfl hequals ⟨rfl, List.cons_ne_nil _ _⟩
    ⟨rfl, List.cons_ne_nil _ _⟩ hpath (by simp [Call.Replaces]) (by simp [Call.Replaces])
  exact ⟨_, hequals, hpath, hknows, hknows'⟩

end Hosts

end OksSystem.Network
