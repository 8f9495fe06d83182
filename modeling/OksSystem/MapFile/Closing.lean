import OksSystem.MapFile.Observers

/-!
# The descriptors of a `MapFile`

Every `map` makes a new descriptor and overwrites the pointer to the last one; `unmap` closes the one it points to.

* `destroy` : the destructor; `lives` : calls on an object while `close` does not fail;
* `ClosedOnce`, `World.EndsWell` : destroyed here, the object has closed every number it opened once;
* `Call.Fine` : no member through a bad pointer, and no descriptor that a failed `map` leaves behind;
* `World.Accounted` : the invariant; the object holds the last descriptor it made or none, and has closed the others;
* `Call.Pairs` : calls that open when nothing is held and close what is held;
* `closes_once_iff` : **all is fine exactly when all calls pair**.
-/

namespace OksSystem.MapFile
open ByteBuffer EStateM Descriptor

/-- `~MapFile()`. -/
def destroy (sys : System) : Member Unit := do
  if (← get).self.mapDescriptor ≠ none then closeFd sys

def Call.system : Call → System
  | map sys => sys
  | unmap sys => sys

/-- A new object and the calls on it, which may throw; `close` does not fail. -/
def lives : LTS World Call where
  init := files.init
  step s i s' := i.system.close = .done ∧ (i.run.run s).state = s'

/-! ## What should hold -/

/-- The first `n` numbers that were opened are closed, in this order and nothing else is. -/
def closings (n : Nat) : List (Bool × Option Opener) := (List.range n).map fun id => (true, some (.object id))

/-- What the calls of `::close` closed, and whether it was free then. -/
def closed (h : Heap) : List (Bool × Option Opener) := h.calls.map fun c => (c.frees, c.referred)

/-- Every number that was opened is closed once, and no other. -/
def ClosedOnce (h : Heap) : Prop := (closed h).Perm (closings h.objects.length)

/-- An object that is destroyed here has closed all it opened. -/
def World.EndsWell (s : World) : Prop := ∀ sys : System, sys.close = .done →
  (∀ t, (destroy sys).run s ≠ .error .badPointer t) ∧ ClosedOnce ((destroy sys).run s).state.heap

/-- No member is called through a bad pointer, and a `map` that throws leaves no descriptor that was not held before. -/
def Call.Fine (s : World) (i : Call) : Prop :=
  (∀ t, i.run.run s ≠ .error .badPointer t) ∧
    ∀ sys issue t, i = .map sys → i.run.run s = .error (.thrown issue) t →
      ∀ k, t.self.mapDescriptor = some k → s.self.mapDescriptor = some k

/-- A file is opened while none is held, and mapped; what is removed while a mapping is noted has a file held. -/
def Call.Pairs (s : World) : Call → Prop
  | map sys => s.Opens sys → s.self.mapDescriptor = none ∧ ∃ a, s.mmapped sys = .ok a
  | unmap sys => s.self.mapAddress ≠ 0 → sys.munmap s.self.mapAddress s.self.mapSize = none →
      s.self.mapDescriptor ≠ none

variable {s s' : World} {sys : System} {k n : Nat} {name : Str}

/-! ## Closing -/

/-- The object behind `k` has the number `n` open, and the others are closed. -/
structure Holds (h : Heap) (k : Nat) : Prop where
  last : h.objects.length = k + 1
  closed : closed h = closings k
  holds : ∃ n name, h.get (some k) = some ⟨some n, name⟩ ∧ h.fds.get n = some (.object k)

/-- The object holds the last descriptor it made or none, and has closed the others. -/
def World.Accounted (s : World) : Prop :=
  match s.self.mapDescriptor with
  | none => closed s.heap = closings s.heap.objects.length
  | some k => Holds s.heap k

/-- After `close_fd`. -/
def World.fdClosed (s : World) (k n : Nat) : World :=
  { s with
    self := { s.self with mapDescriptor := none }
    heap := ⟨s.heap.fds.close n, s.heap.objects.set k none, s.heap.calls ++ [⟨n, true, s.heap.fds.get n⟩]⟩ }

theorem run_close_done {ρ : Type} {h : Holder ρ} {n : Nat} (hfd : h.self.fd = some n) (hopen : h.fds.get n ≠ none) :
    (close .done).run h =
      .ok () ⟨h.fds.close n, { h.self with fd := none }, h.calls ++ [⟨n, true, h.fds.get n⟩]⟩ := by
  have hcall : (callClose .done).run h =
      .ok none { h with fds := h.fds.close n, calls := h.calls ++ [⟨n, true, h.fds.get n⟩] } := by
    unfold callClose
    rw [EStateM.run_modifyGet]
    simp only [hfd, if_neg hopen]
    rfl
  unfold close
  rw [run_bind_ok hcall]
  rfl

theorem run_closeFd (hp : s.self.mapDescriptor = some k) (hget : s.heap.get (some k) = some ⟨some n, name⟩)
    (hopen : s.heap.fds.get n ≠ none) (hclose : sys.close = .done) :
    (closeFd sys).run s = .ok () (s.fdClosed k n) := by
  have hk : k < s.heap.objects.length := by
    have hobject : s.heap.objects[k]? = some (some ⟨some n, name⟩) := Option.join_eq_some_iff.1 hget
    exact (List.getElem?_eq_some_iff.1 hobject).1
  have hon := run_on_ok hget (run_close_done (h := ⟨s.heap.fds, ⟨some n, name⟩, s.heap.calls⟩) rfl hopen)
  generalize hh : s.heap.put (some k) _ = h at hon
  have hgone : h.get (some k) = some ⟨none, name⟩ := by
    rw [← hh]
    show ((s.heap.objects.set k (some ⟨none, name⟩))[k]?).join = _
    rw [List.getElem?_set_self hk]
    rfl
  have hclosed : (onHeap (on (some k) (close .done))).run s = .ok () { s with heap := h } := run_zoom_ok hon
  have hdeleted : (onHeap (delete (some k) .done)).run { s with heap := h } = .ok () _ :=
    run_zoom_ok (run_delete .done hgone)
  unfold closeFd
  rw [run_bind_ok (run_get s), hp, hclose, run_bind_ok hclosed, run_bind_ok hdeleted]
  show Result.ok () _ = _
  unfold World.fdClosed
  rw [← hh]
  show Result.ok () (⟨_, ⟨_, (s.heap.objects.set k (some ⟨none, name⟩)).set k none, _⟩, _⟩ : World) = _
  rw [List.set_set]
  rfl

@[simp] theorem length_closings (n : Nat) : (closings n).length = n := by
  unfold closings
  rw [List.length_map, List.length_range]

theorem closings_succ (n : Nat) : closings (n + 1) = closings n ++ [(true, some (.object n))] := by
  unfold closings
  rw [List.range_succ, List.map_append]
  rfl

/-- An object that closes what it holds has closed all it opened. -/
theorem Holds.run_closeFd (h : Holds s.heap k) (hp : s.self.mapDescriptor = some k) (hclose : sys.close = .done) :
    ∃ s', (closeFd sys).run s = .ok () s' ∧ s'.self.mapDescriptor = none ∧
      MapFile.closed s'.heap = closings s'.heap.objects.length := by
  obtain ⟨n, name, hget, hopen⟩ := h.holds
  refine ⟨s.fdClosed k n, MapFile.run_closeFd hp hget (by rw [hopen]; simp) hclose, rfl, ?_⟩
  have hlen : (s.fdClosed k n).heap.objects.length = k + 1 := (List.length_set ..).trans h.last
  rw [hlen, closings_succ, ← h.closed]
  unfold MapFile.closed World.fdClosed
  rw [List.map_append, hopen]
  rfl

theorem World.Accounted.endsWell (h : s.Accounted) : s.EndsWell := by
  intro sys hclose
  unfold World.Accounted at h
  unfold destroy
  rw [run_bind_ok (run_get s)]
  cases hp : s.self.mapDescriptor with
  | none =>
    rw [hp] at h
    refine ⟨fun t => nofun, ?_⟩
    exact .of_eq h
  | some k =>
    rw [hp] at h
    obtain ⟨s', hrun, -, hclosed⟩ := h.run_closeFd hp hclose
    rw [if_pos (Option.some_ne_none k), hrun]
    exact ⟨fun t => nofun, .of_eq hclosed⟩

/-! ## `map` -/

/-- A file that is opened while none is held is held then. -/
theorem holds_opened (h : closed s.heap = closings s.heap.objects.length) :
    Holds s.opened.heap s.heap.objects.length where
  last := List.length_append
  closed := h
  holds := ⟨s.heap.fds.lowest, s.self.fullName, s.heap.get_made s.self.fullName, by
    show (s.heap.fds.alloc _).get _ = _
    rw [FdTable.get_alloc, if_pos rfl]⟩

/-- A file that is opened while another is held leaves that one open for good. -/
theorem not_endsWell_opened {a : Place} (h : Holds s.heap k) : ¬ (s.opened.afterMmap (.ok a)).EndsWell := by
  intro hends
  have hget := s.heap.get_made s.self.fullName
  have hopen : (s.heap.fds.alloc (.object s.heap.objects.length)).get s.heap.fds.lowest ≠ none := by
    rw [FdTable.get_alloc, if_pos rfl]
    simp
  have hclose : granted.close = .done := rfl
  have hrun := run_closeFd (s := s.opened.afterMmap (.ok a)) rfl hget hopen hclose
  have hdestroy : (destroy granted).run (s.opened.afterMmap (.ok a)) = _ := hrun
  obtain ⟨-, hclosed⟩ := hends granted rfl
  rw [hdestroy] at hclosed
  -- one call of `close` for each object but one
  have hcalls : s.heap.calls.length = k := by
    have hlen := congrArg List.length h.closed
    rwa [length_closings, MapFile.closed, List.length_map] at hlen
  have hlen := hclosed.length_eq
  rw [length_closings] at hlen
  have hleft : (MapFile.closed ((s.opened.afterMmap (.ok a)).fdClosed s.heap.objects.length s.heap.fds.lowest).heap).length =
      s.heap.calls.length + 1 := by
    show (List.map _ (s.heap.calls ++ [_])).length = _
    rw [List.length_map, List.length_append, List.length_singleton]
  have hright : ((s.opened.afterMmap (.ok a)).fdClosed s.heap.objects.length s.heap.fds.lowest).heap.objects.length =
      s.heap.objects.length + 1 := by
    show ((s.heap.objects ++ [_]).set _ _).length = _
    rw [List.length_set, List.length_append, List.length_singleton]
  have hlast := h.last
  rw [Result.state_ok] at hlen
  omega

/-- A `map` that returns has run through no bad pointer, and has not thrown. -/
theorem fine_map_ok {t : World} (hrun : (map sys).run s = .ok () t) : (Call.map sys).Fine s := by
  constructor
  · intro t' ht
    cases hrun.symm.trans ht
  · rintro - issue t' - ht
    cases hrun.symm.trans ht

/-- A `map` that throws and changes nothing leaves nothing behind. -/
theorem fine_map_unchanged {issue : Issue} (hrun : (map sys).run s = .error (.thrown issue) s) :
    (Call.map sys).Fine s := by
  constructor
  · intro t ht
    cases hrun.symm.trans ht
  · rintro sys' issue' t heq ht k hk
    obtain ⟨-, rfl⟩ := Result.error.inj (hrun.symm.trans ht)
    exact hk

/-- When `mmap` fails, the new descriptor stays behind. -/
theorem not_fine_of_mmap_fails {e : Errno} {issue : Issue} (h : s.Accounted)
    (hrun : (map sys).run s = .error (.thrown issue) (s.opened.afterMmap (.error e))) : ¬ (Call.map sys).Fine s := by
  intro hfine
  have hheld := hfine.2 sys _ _ rfl hrun s.heap.objects.length rfl
  unfold World.Accounted at h
  rw [hheld] at h
  have hlast := h.last
  omega

theorem map_step (h : s.Accounted) : ((((map sys).run s).state.EndsWell ∧ (Call.map sys).Fine s) ↔ (Call.map sys).Pairs s) ∧
    ((Call.map sys).Pairs s → ((map sys).run s).state.Accounted) := by
  by_cases hopens : s.Opens sys
  · have hrun := run_map hopens
    cases hmmap : s.mmapped sys with
    | error e =>
      rw [hmmap] at hrun
      have hnot : ¬ (Call.map sys).Pairs s := by
        intro hpairs
        obtain ⟨-, a, ha⟩ := hpairs hopens
        rw [hmmap] at ha
        cases ha
      exact ⟨iff_of_false (fun hgood => not_fine_of_mmap_fails h hrun hgood.2) hnot, fun hpairs => absurd hpairs hnot⟩
    | ok a =>
      rw [hmmap] at hrun
      have hfine := fine_map_ok hrun
      rw [hrun]
      unfold World.Accounted at h
      cases hp : s.self.mapDescriptor with
      | none =>
        rw [hp] at h
        have haccounted : (s.opened.afterMmap (.ok a)).Accounted := holds_opened h
        exact ⟨iff_of_true ⟨haccounted.endsWell, hfine⟩ fun _ => ⟨hp, a, hmmap⟩, fun _ => haccounted⟩
      | some k =>
        rw [hp] at h
        have hnot : ¬ (Call.map sys).Pairs s := by
          intro hpairs
          rw [(hpairs hopens).1] at hp
          cases hp
        exact ⟨iff_of_false (fun hgood => not_endsWell_opened h hgood.1) hnot, fun hpairs => absurd hpairs hnot⟩
  · obtain ⟨issue, hopen⟩ := run_openFd_throws hopens
    have hrun : (map sys).run s = .error (.thrown issue) s := run_bind_error hopen
    have hfine := fine_map_unchanged hrun
    rw [hrun]
    exact ⟨iff_of_true ⟨h.endsWell, hfine⟩ fun ho => absurd ho hopens, fun _ => h⟩

/-! ## `unmap` -/

theorem fine_unmap (h : ∀ t, (unmap sys).run s ≠ .error .badPointer t) : (Call.unmap sys).Fine s :=
  ⟨h, fun _ _ _ => nofun⟩

theorem unmap_step (h : s.Accounted) (hclose : sys.close = .done) :
    ((((unmap sys).run s).state.EndsWell ∧ (Call.unmap sys).Fine s) ↔ (Call.unmap sys).Pairs s) ∧
      ((Call.unmap sys).Pairs s → ((unmap sys).run s).state.Accounted) := by
  by_cases haddr : s.self.mapAddress = 0
  · have hrun : (unmap sys).run s = _ := run_unmap_unloaded haddr
    have hfine : (Call.unmap sys).Fine s := fine_unmap fun t ht => by cases hrun.symm.trans ht
    rw [hrun]
    exact ⟨iff_of_true ⟨h.endsWell, hfine⟩ fun ha => absurd haddr ha, fun _ => h⟩
  cases he : sys.munmap s.self.mapAddress s.self.mapSize with
  | some e =>
    have hrun := run_unmap_fails haddr he
    have hfine : (Call.unmap sys).Fine s := fine_unmap fun t ht => by cases hrun.symm.trans ht
    have haccounted : World.Accounted { s with self := { s.self with mapped := true } } := h
    have hpairs : (Call.unmap sys).Pairs s := fun _ ho => by cases he.symm.trans ho
    rw [hrun]
    exact ⟨iff_of_true ⟨haccounted.endsWell, hfine⟩ hpairs, fun _ => haccounted⟩
  | none =>
    have hrun := run_unmap haddr he
    cases hp : s.self.mapDescriptor with
    | none =>
      -- `close_fd` calls `close` on the null pointer
      have hnull : (closeFd sys).run s.unmapped = .error .badPointer s.unmapped := by
        have hon : (onHeap (on none (close sys.close))).run s.unmapped = .error .badPointer s.unmapped := rfl
        have hp' : s.unmapped.self.mapDescriptor = none := hp
        unfold closeFd
        rw [run_bind_ok (run_get _), hp']
        exact run_bind_error hon
      have hnot : ¬ (Call.unmap sys).Pairs s := fun hpairs => hpairs haddr he hp
      exact ⟨iff_of_false (fun hgood => hgood.2.1 _ (hrun.trans hnull)) hnot, fun hpairs => absurd hpairs hnot⟩
    | some k =>
      unfold World.Accounted at h
      rw [hp] at h
      obtain ⟨s', hclosed, hnone, hall⟩ := Holds.run_closeFd (s := s.unmapped) h hp hclose
      have hfine : (Call.unmap sys).Fine s := fine_unmap fun t ht => by cases (hrun.trans hclosed).symm.trans ht
      have haccounted : s'.Accounted := by
        unfold World.Accounted
        rw [hnone]
        exact hall
      rw [hrun, hclosed]
      exact ⟨iff_of_true ⟨haccounted.endsWell, hfine⟩ fun _ _ => hp ▸ Option.some_ne_none k, fun _ => haccounted⟩

/-! ## Whole lives -/

theorem accounted_init (h : lives.init s) : s.Accounted := by
  obtain ⟨⟨pageSize, name, size, offset, readMode, writeMode, perm, hself⟩, -, hobjects, hcalls, -⟩ := h
  have hnone : s.self.mapDescriptor = none := by
    rw [construct_eq] at hself
    split_ifs at hself
    rw [← Except.ok.inj hself]
  unfold World.Accounted
  rw [hnone]
  unfold closed
  rw [hcalls, hobjects]
  rfl

/-- **A `MapFile` closes every descriptor it opened once, and a `map` that throws leaves none behind, exactly when no `map` opens
a file while one is held or fails to map it, and no `unmap` removes something while none is held.** -/
theorem closes_once_iff {xs : List (World × Call)} (h : lives.Trace xs s) :
    ((∀ x ∈ xs, x.1.EndsWell ∧ x.2.Fine x.1) ∧ s.EndsWell) ↔ ∀ x ∈ xs, x.2.Pairs x.1 := by
  refine h.fine_iff (I := World.Accounted) (fun _ => accounted_init) (fun _ => World.Accounted.endsWell) ?_
  rintro s i _ - haccounted ⟨hclose, rfl⟩
  cases i with
  | map sys => exact map_step haccounted
  | unmap sys => exact unmap_step haccounted hclose

/-- After `map`. -/
def once : World := fresh.opened.afterMmap (fresh.mmapped granted)

theorem lives_map : lives.Trace ([] ++ [(fresh, .map granted)]) once :=
  LTS.Trace.snoc (T := lives) (.init init_fresh) ⟨rfl, step_granted.1⟩

/-- `map` and `unmap`. -/
theorem closes_once_iff_unmapped :
    ∃ s, lives.Trace [(fresh, .map granted), (once, .unmap granted)] s ∧ s.self.mapDescriptor = none ∧ s.EndsWell := by
  have htrace := lives_map.snoc (T := lives) (i := .unmap granted) ⟨rfl, rfl⟩
  refine ⟨_, htrace, rfl, ((closes_once_iff htrace).2 fun x hx => ?_).2⟩
  rcases List.mem_cons.1 hx with rfl | hx
  · exact fun _ => ⟨rfl, _, rfl⟩
  · obtain rfl := List.mem_singleton.1 hx
    exact fun _ _ => Option.some_ne_none 0

/-- The first descriptor of a file that is mapped twice stays open. -/
theorem map_twice_leaks :
    ¬ ∀ xs s, lives.Trace xs s → (∀ x ∈ xs, x.1.EndsWell ∧ x.2.Fine x.1) ∧ s.EndsWell := by
  intro hall
  have htrace := lives_map.snoc (T := lives) (i := .map granted) ⟨rfl, state_map (s := once) rfl⟩
  have hholds : Holds once.heap 0 := holds_opened rfl
  exact not_endsWell_opened hholds (hall _ _ htrace).2

end OksSystem.MapFile
