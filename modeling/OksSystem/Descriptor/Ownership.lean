import OksSystem.Descriptor.Basic
import OksSystem.Lib.Run

/-!
# Who closes which number

A process with any number of `Descriptor` objects. A number refers to whoever opened it, and the lowest free one is given to
the next. The destructor and `close_safe` leave `m_fd` as it is, and so does a `close` that throws.

* `Handles`, `Call`, `Handles.Step`, `handles` : the objects of a process and the calls on them, in any order;
* `step_cases` : what one call does;
* `ClosesOnce`, `ClosesOwn` : no object closes a number it has given free before, or one opened by another object;
* `Call.Strands` : the calls that give a number free and leave it in the object;
* `closes_iff` : every number is closed once and by its owner exactly when no object is closed after such a call.
-/

namespace OksSystem
open ByteBuffer EStateM

namespace Descriptor

inductive Life where
  | unborn
  | alive (d : Object)
  | dead

structure Handles where
  fds : FdTable Opener
  objects : Nat → Life
  /-- The calls of `::close` on a number and the objects that made them. -/
  calls : List (Nat × CloseCall Opener)

/-- A call on an object, with what the system answers. -/
inductive Call where
  | construct (id : Nat) (name : Str) (answer : Option Errno)
  | close (id : Nat) (answer : CloseAnswer)
  | closeSafe (id : Nat) (answer : CloseAnswer)
  | destroy (id : Nat) (answer : CloseAnswer)

namespace Handles

/-- The state in which a member of `d` runs. -/
def holder (s : Handles) (d : Object) : Holder Opener := ⟨s.fds, d, []⟩

/-- After a member of `id` that left `h`. -/
def ran (s : Handles) (id : Nat) (h : Holder Opener) (life : Life) : Handles :=
  ⟨h.fds, Function.update s.objects id life, s.calls ++ h.calls.map (id, ·)⟩

inductive Step : Handles → Call → Handles → Prop
  | construct {s id name answer d t} (hid : s.objects id = .unborn)
      (hd : Descriptor.construct name (.object id) s.fds answer = .ok (d, t)) :
      Step s (.construct id name answer) ⟨t, Function.update s.objects id (.alive d), s.calls⟩
  | constructThrows {s id name answer i} (hid : s.objects id = .unborn)
      (hd : Descriptor.construct name (.object id) s.fds answer = .error i) : Step s (.construct id name answer) s
  | close {s id d answer h} (hid : s.objects id = .alive d) (hfree : (s.holder d).CanFree answer)
      (hh : h = ((Descriptor.close answer).run (s.holder d)).state) :
      Step s (.close id answer) (s.ran id h (.alive h.self))
  | closeSafe {s id d answer h} (hid : s.objects id = .alive d) (hfree : (s.holder d).CanFree answer)
      (hh : h = ((Descriptor.closeSafe answer).run (s.holder d)).state) :
      Step s (.closeSafe id answer) (s.ran id h (.alive h.self))
  | destroy {s id d answer h} (hid : s.objects id = .alive d) (hfree : (s.holder d).CanFree answer)
      (hh : h = ((Descriptor.destroy answer).run (s.holder d)).state) :
      Step s (.destroy id answer) (s.ran id h .dead)

end Handles

/-- The runs of a process that starts without objects, whatever else it has open. -/
def handles : LTS Handles Call where
  init s := (∀ n id, s.fds.get n ≠ some (.object id)) ∧ (∀ id, s.objects id = .unborn) ∧ s.calls = []
  step := Handles.Step

/-- No object closes a number that it has given free before. -/
def ClosesOnce (calls : List (Nat × CloseCall Opener)) : Prop :=
  calls.Pairwise fun a b => a.2.frees = true → a.1 = b.1 → a.2.fd ≠ b.2.fd

/-- No object closes a number that another one opened. -/
def ClosesOwn (calls : List (Nat × CloseCall Opener)) : Prop :=
  ∀ a ∈ calls, ∀ id, a.2.referred = some (.object id) → id = a.1

/-- The call may make `id` call `::close`. -/
def Call.Closes (id : Nat) : Call → Prop
  | construct .. => False
  | close k _ => k = id
  | closeSafe k _ => k = id
  | destroy k _ => k = id

/-- The call gives the number of `id` free, and leaves it in `m_fd`. -/
def Call.Strands (id : Nat) : Call → Prop
  | construct .. => False
  | close k answer => k = id ∧ answer.frees = true ∧ answer ≠ .done
  | closeSafe k answer => k = id ∧ answer.frees = true
  | destroy .. => False

/-- No object is closed or destroyed after such a call. -/
def Orderly (is : List Call) : Prop :=
  ∀ pre i post, is = pre ++ i :: post → ∀ id, i.Closes id → ∀ e ∈ pre, ¬ e.Strands id

variable {s s' : Handles} {i : Call} {is : List Call}

/-! ## One call -/

/-- `i` is a call on `id` that closes `m_fd`, and leaves the object as `life`. -/
structure Closing (s : Handles) (i : Call) (id : Nat) (d : Object) (answer : CloseAnswer) (life : Life) : Prop where
  alive : s.objects id = .alive d
  free : (s.holder d).CanFree answer
  closes : ∀ k, i.Closes k ↔ k = id
  strands : ∀ k, i.Strands k ↔ k = id ∧ answer.frees = true ∧ life = .alive d
  leaves : ∀ d', life = .alive d' → d' = d ∨ d'.fd = none
  born : life ≠ .unborn

/-- What a call does: an object is built, or nothing happens, or one object calls `::close`. -/
theorem step_cases (h : s.Step i s') :
    (∃ id name, s.objects id = .unborn ∧ (∀ k, ¬ i.Closes k ∧ ¬ i.Strands k) ∧
      s' = ⟨s.fds.alloc (.object id), Function.update s.objects id (.alive ⟨some s.fds.lowest, name⟩), s.calls⟩) ∨
    ((∀ k, ¬ i.Closes k ∧ ¬ i.Strands k) ∧ s' = s) ∨
    ∃ id d answer life, Closing s i id d answer life ∧ s' = s.ran id ((s.holder d).closed answer) life := by
  cases h with
  | @construct id name answer d t hid hd =>
    cases answer with
    | some e => exact absurd hd (by simp [Descriptor.construct])
    | none =>
      obtain ⟨rfl, rfl⟩ := Prod.mk.inj (Except.ok.inj hd)
      exact .inl ⟨id, name, hid, fun k => ⟨False.elim, False.elim⟩, rfl⟩
  | constructThrows _ _ => exact .inr (.inl ⟨fun k => ⟨False.elim, False.elim⟩, rfl⟩)
  | @close id d answer h hid hfree hh =>
    refine .inr (.inr ⟨id, d, answer, .alive h.self, ⟨hid, hfree, fun k => eq_comm, fun k => ?_, fun d' hd' => ?_,
      Life.noConfusion⟩, ?_⟩)
    · rw [hh, state_close hfree]
      by_cases hdone : answer = .done
      · -- a `close` that returns leaves -1, so it was no number that was given free
        obtain ⟨n, hn, -⟩ := hfree (hdone ▸ rfl)
        rw [if_pos hdone]
        refine iff_of_false (fun hs => hs.2.2 hdone) fun hs => ?_
        have hfd := congrArg Object.fd (Life.alive.inj hs.2.2)
        exact absurd (hn.symm.trans hfd.symm) (by simp)
      · rw [if_neg hdone, closed_self]
        exact ⟨fun hs => ⟨hs.1.symm, hs.2.1, rfl⟩, fun hs => ⟨hs.1.symm, hs.2.1, hdone⟩⟩
    · rw [hh, state_close hfree] at hd'
      obtain rfl := Life.alive.inj hd'
      split_ifs
      · exact .inr rfl
      · rw [closed_self]
        exact .inl rfl
    · rw [hh, state_close hfree]
      split_ifs <;> rfl
  | @closeSafe id d answer h hid hfree hh =>
    rw [state_closeSafe hfree] at hh
    have hself : h.self = d := by rw [hh, closed_self]; rfl
    refine .inr (.inr ⟨id, d, answer, .alive h.self, ⟨hid, hfree, fun k => eq_comm, fun k => ?_, fun d' hd' => ?_,
      Life.noConfusion⟩, ?_⟩)
    · rw [hself]
      exact ⟨fun hs => ⟨hs.1.symm, hs.2, rfl⟩, fun hs => ⟨hs.1.symm, hs.2.1⟩⟩
    · exact .inl ((Life.alive.inj hd').symm.trans hself)
    · rw [hh]
  | @destroy id d answer h hid hfree hh =>
    rw [state_destroy hfree] at hh
    refine .inr (.inr ⟨id, d, answer, .dead, ⟨hid, hfree, fun k => eq_comm, fun k => ?_, fun d' hd' => ?_,
      Life.noConfusion⟩, ?_⟩)
    · exact iff_of_false False.elim fun hs => Life.noConfusion hs.2.2
    · exact Life.noConfusion hd'
    · rw [hh]

theorem ran_closed_of_none {d : Object} (id : Nat) (answer : CloseAnswer) (life : Life) (hfd : d.fd = none) :
    s.ran id ((s.holder d).closed answer) life = ⟨s.fds, Function.update s.objects id life, s.calls⟩ := by
  unfold Holder.closed Handles.ran Handles.holder
  simp only [hfd, List.map_nil, List.append_nil]

theorem ran_closed {d : Object} {n : Nat} (id : Nat) (answer : CloseAnswer) (life : Life) (hfd : d.fd = some n) :
    s.ran id ((s.holder d).closed answer) life = ⟨if answer.frees then s.fds.close n else s.fds,
      Function.update s.objects id life, s.calls ++ [(id, ⟨n, answer.frees, s.fds.get n⟩)]⟩ := by
  unfold Holder.closed Handles.ran Handles.holder
  simp only [hfd, List.nil_append, List.map_cons, List.map_nil]

/-! ## What the calls before tell -/

/-- Some call left a number that it had given free in `id`. -/
def Stranded (is : List Call) (id : Nat) : Prop := ∃ e ∈ is, e.Strands id

/-- What is known of an object that has not been closed since it was stranded. -/
structure Known (stranded : Prop) (fds : FdTable Opener) (calls : List (Nat × CloseCall Opener)) (id : Nat)
    (life : Life) : Prop where
  owns : ∀ d n, life = .alive d → d.fd = some n → ¬ stranded → fds.get n = some (.object id)
  holds : stranded → ∃ d n c, life = .alive d ∧ d.fd = some n ∧ (id, c) ∈ calls ∧ c.frees = true ∧ c.fd = n
  freed : ∀ d n c, life = .alive d → d.fd = some n → (id, c) ∈ calls → c.frees = true → stranded
  unborn : ∀ c, (id, c) ∈ calls → life ≠ .unborn

/-- What the calls made tell about every object. -/
def Told (is : List Call) (s : Handles) : Prop := ∀ id, Known (Stranded is id) s.fds s.calls id (s.objects id)

theorem stranded_snoc {id : Nat} : Stranded (is ++ [i]) id ↔ Stranded is id ∨ i.Strands id := by
  unfold Stranded
  simp only [List.mem_append, List.mem_singleton, or_and_right, exists_or, exists_eq_left]

/-- A call on `id` tells about `id`, if its numbers stay with the other objects. -/
theorem Told.update (h : Told is s) {id : Nat} {fds : FdTable Opener} {life : Life} {new : List (Nat × CloseCall Opener)}
    (hnew : ∀ x ∈ new, x.1 = id) (hi : ∀ k, i.Strands k → k = id)
    (hothers : ∀ k ≠ id, ∀ n, s.fds.get n = some (.object k) → fds.get n = some (.object k))
    (hself : Known (Stranded (is ++ [i]) id) fds (s.calls ++ new) id life) :
    Told (is ++ [i]) ⟨fds, Function.update s.objects id life, s.calls ++ new⟩ := by
  intro k
  by_cases hk : k = id
  · rw [hk]
    show Known _ _ _ _ (Function.update s.objects id life id)
    rwa [Function.update_self]
  · show Known _ _ _ _ (Function.update s.objects id life k)
    have hcalls : ∀ c, (k, c) ∈ s.calls ++ new ↔ (k, c) ∈ s.calls := fun c =>
      List.mem_append.trans (or_iff_left fun hc => hk (hnew _ hc))
    rw [Function.update_of_ne hk, stranded_snoc, or_iff_left (mt (hi k) hk)]
    refine ⟨fun d n hd hn hns => hothers k hk n ((h k).owns d n hd hn hns), fun hs => ?_, fun d n c => ?_, fun c => ?_⟩
    · obtain ⟨d, n, c, hd, hn, hc, hrest⟩ := (h k).holds hs
      exact ⟨d, n, c, hd, hn, (hcalls c).2 hc, hrest⟩
    · rw [hcalls]
      exact (h k).freed d n c
    · rw [hcalls]
      exact (h k).unborn c

theorem Told.same (h : Told is s) (hi : ∀ k, ¬ i.Strands k) : Told (is ++ [i]) s := by
  intro k
  rw [stranded_snoc, or_iff_left (hi k)]
  exact h k

theorem Told.construct (h : Told is s) {id : Nat} {name : Str} (hid : s.objects id = .unborn) (hi : ∀ k, ¬ i.Strands k) :
    Told (is ++ [i])
      ⟨s.fds.alloc (.object id), Function.update s.objects id (.alive ⟨some s.fds.lowest, name⟩), s.calls⟩ := by
  have hcalls : ∀ c, (id, c) ∉ s.calls := fun c hc => (h id).unborn c hc hid
  have hns : ¬ Stranded is id := by
    intro hs
    obtain ⟨d, -, -, hd, -⟩ := (h id).holds hs
    exact Life.noConfusion (hid.symm.trans hd)
  rw [← List.append_nil s.calls] at hcalls ⊢
  refine h.update (fun x hx => absurd hx List.not_mem_nil) (fun k hk => absurd hk (hi k)) (fun k _ n hn => ?_) ?_
  · -- the number is open, so it is not the one `::open` returned
    rw [FdTable.get_alloc, if_neg, hn]
    rintro rfl
    rw [FdTable.get_lowest] at hn
    exact absurd hn (by simp)
  · rw [stranded_snoc, or_iff_left (hi id)]
    refine ⟨fun d n hd hn _ => ?_, fun hs => absurd hs hns, fun _ _ c _ _ hc _ => absurd hc (hcalls c), fun c hc =>
      absurd hc (hcalls c)⟩
    obtain rfl := Life.alive.inj hd
    rw [FdTable.get_alloc, if_pos (Option.some.inj hn).symm]

/-- A call of `::close` on a number that the object has not given free. -/
theorem Told.closed (h : Told is s) {id n : Nat} {d : Object} {answer : CloseAnswer} {life : Life}
    (hc : Closing s i id d answer life) (hns : ¬ Stranded is id) (hn : d.fd = some n) :
    Told (is ++ [i]) (s.ran id ((s.holder d).closed answer) life) := by
  have hown := (h id).owns d n hc.alive hn hns
  rw [ran_closed id answer life hn]
  refine h.update (fun x hx => by rw [List.mem_singleton.1 hx]) (fun k hk => ((hc.strands k).1 hk).1)
    (fun k hk m hm => ?_) ?_
  · -- `n` refers to `id`, so another object holds another number
    have hmn : m ≠ n := by
      rintro rfl
      exact hk (Opener.object.inj (Option.some.inj (hm.symm.trans hown)))
    split_ifs
    · rw [FdTable.get_close, if_neg hmn, hm]
    · exact hm
  · rw [stranded_snoc, or_iff_right hns, hc.strands]
    refine ⟨fun d' m hd' hm hks => ?_, fun hs => ?_, fun d' m c hd' hm hmem hf => ?_, fun c _ => hc.born⟩
    · obtain rfl | hnone := hc.leaves d' hd'
      · rw [if_neg fun hf => hks ⟨rfl, hf, hd'⟩]
        exact (h id).owns d' m hc.alive hm hns
      · exact absurd (hm.symm.trans hnone) (by simp)
    · exact ⟨d, n, _, hs.2.2, hn, List.mem_append_right _ (List.mem_singleton_self _), hs.2.1, rfl⟩
    · obtain rfl | hnone := hc.leaves d' hd'
      · obtain hmem | hmem := List.mem_append.1 hmem
        · exact absurd ((h id).freed d' m c hc.alive hm hmem hf) hns
        · obtain rfl := (Prod.mk.inj (List.mem_singleton.1 hmem)).2
          exact ⟨rfl, hf, hd'⟩
      · exact absurd (hm.symm.trans hnone) (by simp)

/-- Without a number there is no call. -/
theorem Told.closed_of_none (h : Told is s) {id : Nat} {d : Object} {answer : CloseAnswer} {life : Life}
    (hc : Closing s i id d answer life) (hns : ¬ Stranded is id) (hn : d.fd = none) :
    Told (is ++ [i]) (s.ran id ((s.holder d).closed answer) life) := by
  have hi : ∀ k, ¬ i.Strands k := by
    intro k hk
    obtain ⟨n, hn', -⟩ := hc.free ((hc.strands k).1 hk).2.1
    exact absurd (hn'.symm.trans hn) (by simp)
  have hlife : ∀ d' m, life = .alive d' → d'.fd ≠ some m := by
    intro d' m hd'
    obtain rfl | hnone := hc.leaves d' hd'
    · simp [hn]
    · simp [hnone]
  rw [ran_closed_of_none id answer life hn, ← List.append_nil s.calls]
  refine h.update (fun x hx => absurd hx List.not_mem_nil) (fun k hk => absurd hk (hi k)) (fun _ _ _ hm => hm) ?_
  rw [stranded_snoc, or_iff_left (hi id)]
  exact ⟨fun d' m hd' hm => absurd hm (hlife d' m hd'), fun hs => absurd hs hns,
    fun d' m c hd' hm => absurd hm (hlife d' m hd'), fun _ _ => hc.born⟩

/-! ## Runs -/

/-- The call closes no object that is stranded. -/
def Allowed (is : List Call) (i : Call) : Prop := ∀ id, i.Closes id → ¬ Stranded is id

/-- No object has closed a number again, or one of another object. -/
def ClosesProperly (s : Handles) : Prop := ClosesOnce s.calls ∧ ClosesOwn s.calls

/-- A call on an object that is not stranded closes the number it owns, for the first time. -/
theorem ClosesProperly.closed (h : ClosesProperly s) (ht : Told is s) {id n : Nat} {d : Object} {answer : CloseAnswer}
    {life : Life} (hc : Closing s i id d answer life) (hns : ¬ Stranded is id) (hn : d.fd = some n) :
    ClosesProperly (s.ran id ((s.holder d).closed answer) life) := by
  rw [ran_closed id answer life hn]
  refine ⟨List.pairwise_append.2 ⟨h.1, List.pairwise_singleton _ _, fun a ha b hb hf hid hfd => ?_⟩,
    fun a ha k hk => ?_⟩
  · obtain rfl := List.mem_singleton.1 hb
    obtain rfl : a.1 = id := hid
    exact hns ((ht a.1).freed d n a.2 hc.alive hn ha hf)
  · obtain ha | ha := List.mem_append.1 ha
    · exact h.2 a ha k hk
    · obtain rfl := List.mem_singleton.1 ha
      have hown := (ht id).owns d n hc.alive hn hns
      exact Opener.object.inj (Option.some.inj (hk.symm.trans hown))

/-- A call on a stranded object closes its number again. -/
theorem not_closesProperly_closed (ht : Told is s) {id : Nat} {d : Object} {answer : CloseAnswer} {life : Life}
    (hc : Closing s i id d answer life) (hs : Stranded is id) :
    ¬ ClosesProperly (s.ran id ((s.holder d).closed answer) life) := by
  obtain ⟨d', n, c, hd, hn, hmem, hf, rfl⟩ := (ht id).holds hs
  obtain rfl := Life.alive.inj (hc.alive.symm.trans hd)
  rw [ran_closed id answer life hn]
  intro h
  exact (List.pairwise_append.1 h.1).2.2 _ hmem _ (List.mem_singleton_self _) hf rfl rfl

theorem calls_prefix (h : s.Step i s') : s.calls <+: s'.calls := by
  obtain ⟨id, name, -, -, rfl⟩ | ⟨-, rfl⟩ | ⟨id, d, answer, life, -, rfl⟩ := step_cases h
  · exact List.prefix_rfl
  · exact List.prefix_rfl
  · exact List.prefix_append _ _

theorem ClosesProperly.of_step (hs : s.Step i s') (h : ClosesProperly s') : ClosesProperly s := by
  have hcalls := calls_prefix hs
  exact ⟨h.1.sublist hcalls.sublist, fun a ha => h.2 a (hcalls.subset ha)⟩

theorem ClosesProperly.step (h : ClosesProperly s) (ht : Told is s) (hs : s.Step i s')
    (hok : Allowed is i) : ClosesProperly s' ∧ Told (is ++ [i]) s' := by
  obtain ⟨id, name, hid, hi, rfl⟩ | ⟨hi, rfl⟩ | ⟨id, d, answer, life, hc, rfl⟩ := step_cases hs
  · exact ⟨h, ht.construct hid fun k => (hi k).2⟩
  · exact ⟨h, ht.same fun k => (hi k).2⟩
  · have hns := hok id ((hc.closes id).2 rfl)
    cases hn : d.fd with
    | none =>
      refine ⟨?_, ht.closed_of_none hc hns hn⟩
      rw [ran_closed_of_none id answer life hn]
      exact h
    | some n => exact ⟨h.closed ht hc hns hn, ht.closed hc hns hn⟩

theorem not_closesProperly_step (ht : Told is s) (hs : s.Step i s')
    (hbad : ¬ Allowed is i) : ¬ ClosesProperly s' := by
  obtain ⟨k, hk⟩ := not_forall.1 hbad
  obtain ⟨hcl, hst⟩ := Classical.not_imp.1 hk
  obtain ⟨id, name, hid, hi, rfl⟩ | ⟨hi, rfl⟩ | ⟨id, d, answer, life, hc, rfl⟩ := step_cases hs
  · exact absurd hcl (hi k).1
  · exact absurd hcl (hi k).1
  · obtain rfl := (hc.closes k).1 hcl
    exact not_closesProperly_closed ht hc (not_not.1 hst)

theorem told_init (h : handles.init s) : ClosesProperly s ∧ Told [] s := by
  obtain ⟨-, hobjects, hcalls⟩ := h
  refine ⟨⟨?_, ?_⟩, fun id => ⟨?_, ?_, ?_, ?_⟩⟩
  · rw [hcalls]
    exact List.Pairwise.nil
  · rw [hcalls]
    exact fun a ha => absurd ha List.not_mem_nil
  · exact fun d n hd => absurd ((hobjects id).symm.trans hd) Life.noConfusion
  · exact fun hs => absurd hs fun ⟨_, he, _⟩ => List.not_mem_nil he
  · exact fun d n c hd => absurd ((hobjects id).symm.trans hd) Life.noConfusion
  · rw [hcalls]
    exact fun c hc => absurd hc List.not_mem_nil

/-- **Each `Descriptor` closes the number it owns, once, exactly when none is closed or destroyed after `close_safe`, or a
`close` that threw, has given its number free.** -/
theorem closes_iff (h : handles.Run is s) : (ClosesOnce s.calls ∧ ClosesOwn s.calls) ↔ Orderly is := by
  have hsafe : ClosesProperly s ↔ ∀ pre i post, is = pre ++ i :: post → Allowed pre i :=
    h.safe_iff (I := Told) (fun _ => told_init) (fun _ _ _ _ hp ht hs hok => hp.step ht hs hok)
      (fun _ _ _ _ _ ht hs hbad => not_closesProperly_step ht hs hbad) (fun _ _ _ hs hp => hp.of_step hs)
  refine hsafe.trans ⟨fun hall pre i post hsplit id hid e he hstr => hall pre i post hsplit id hid ⟨e, he, hstr⟩,
    fun hall pre i post hsplit id hid => ?_⟩
  rintro ⟨e, he, hstr⟩
  exact hall pre i post hsplit id hid e he hstr

/-- A process with its three standard streams. -/
def started : Handles := ⟨⟨[some .process, some .process, some .process]⟩, fun _ => .unborn, []⟩

theorem init_started : handles.init started := by
  refine ⟨fun n id hn => ?_, fun _ => rfl, rfl⟩
  have hmem : some (Opener.object id) ∈ started.fds.slots := List.mem_of_getElem? (Option.join_eq_some_iff.1 hn)
  exact absurd hmem (by simp [started])

/-- The same process after the first calls, when 3 refers to `r`. -/
def busy (r : Option Opener) (objects : Nat → Life) (calls : List (Nat × CloseCall Opener)) : Handles :=
  ⟨⟨[some .process, some .process, some .process, r]⟩, objects, calls⟩

def opened : Handles := busy (some (.object 0)) (Function.update started.objects 0 (.alive ⟨some 3, text "/tmp/a"⟩)) []

theorem run_opened : handles.Run [.construct 0 (text "/tmp/a") none] opened :=
  (LTS.Run.init init_started).snoc (Handles.Step.construct rfl rfl)

/-- After `close` has returned, the destructor closes nothing. -/
theorem closes_iff_tidy : ∃ s, handles.Run [.construct 0 (text "/tmp/a") none, .close 0 .done, .destroy 0 (.kept 9)] s ∧
    ClosesOnce s.calls ∧ ClosesOwn s.calls := by
  let closed := busy none (Function.update opened.objects 0 (.alive ⟨none, text "/tmp/a"⟩))
    [(0, ⟨3, true, some (.object 0)⟩)]
  have hclose : opened.Step (.close 0 .done) closed :=
    .close (d := ⟨some 3, text "/tmp/a"⟩) (h := ⟨closed.fds, ⟨none, text "/tmp/a"⟩, [⟨3, true, some (.object 0)⟩]⟩) rfl
      (fun _ => ⟨3, rfl, by decide⟩) rfl
  have hdestroy : closed.Step (.destroy 0 (.kept 9)) (closed.ran 0 (closed.holder ⟨none, text "/tmp/a"⟩) .dead) :=
    .destroy (d := ⟨none, text "/tmp/a"⟩) rfl (fun hf => absurd hf (by decide)) rfl
  have hrun := (run_opened.snoc hclose).snoc hdestroy
  refine ⟨_, hrun, (closes_iff hrun).2 fun pre i post hsplit id hid e he => ?_⟩
  have hmem : e ∈ pre ++ i :: post := List.mem_append_left _ he
  rw [← hsplit] at hmem
  simp only [List.cons_append, List.nil_append, List.mem_cons, List.not_mem_nil, or_false] at hmem
  obtain rfl | rfl | rfl := hmem
  · exact False.elim
  · exact fun hs => hs.2.2 rfl
  · exact False.elim

/-- `close_safe` gives 3 free, another object opens it, and the destructor of the first one closes it. -/
theorem destroy_closes_other : ¬ ∀ is s, handles.Run is s → ClosesOnce s.calls ∧ ClosesOwn s.calls := by
  intro hall
  let stale := busy none (Function.update opened.objects 0 (.alive ⟨some 3, text "/tmp/a"⟩))
    [(0, ⟨3, true, some (.object 0)⟩)]
  let reopened := busy (some (.object 1)) (Function.update stale.objects 1 (.alive ⟨some 3, text "/tmp/b"⟩)) stale.calls
  have hcloseSafe : opened.Step (.closeSafe 0 .done) stale :=
    .closeSafe (d := ⟨some 3, text "/tmp/a"⟩) (h := ⟨stale.fds, ⟨some 3, text "/tmp/a"⟩, [⟨3, true, some (.object 0)⟩]⟩)
      rfl (fun _ => ⟨3, rfl, by decide⟩) rfl
  have hreopen : stale.Step (.construct 1 (text "/tmp/b") none) reopened := .construct rfl rfl
  have hdestroy : reopened.Step (.destroy 0 .done) (reopened.ran 0 ⟨stale.fds, ⟨some 3, text "/tmp/a"⟩,
      [⟨3, true, some (.object 1)⟩]⟩ .dead) :=
    .destroy (d := ⟨some 3, text "/tmp/a"⟩) rfl (fun _ => ⟨3, rfl, by decide⟩) rfl
  have hrun := ((run_opened.snoc hcloseSafe).snoc hreopen).snoc hdestroy
  have hown := (hall _ _ hrun).2 (0, ⟨3, true, some (.object 1)⟩) (by decide) 1 rfl
  exact absurd hown (by decide)

end Descriptor

end OksSystem
