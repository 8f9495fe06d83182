import OksSystem.MapFile.Observers

/-!
# A `MapFile` that is only written

`Descriptor::flags(false,true)` is O_WRONLY, and POSIX maps no file that is not open for reading, and no length of 0.

* `Grants` : what POSIX asks of the descriptor of a mapping; `Call.Posix` : the answers it leaves to a call;
* `posix` : calls of `map` and `unmap` with these answers;
* `Mappable` : the file is opened for reading and the size is not 0;
* `Barren` : what calls of `map` and `unmap` leave of any other object; `barren` : **any calls leave it**;
* `held_iff_mapRead` : **an object of a size other than 0 can be mapped exactly when its file is opened for reading**.
-/

namespace OksSystem.MapFile
open ByteBuffer EStateM

def oAccmode : Nat := 3

/-- The file of a mapping is open for reading; of one that is shared and written, for writing too. -/
def Grants (openFlags prot flags : Nat) : Prop :=
  openFlags &&& oAccmode ≠ oWronly ∧
    (flags &&& mapShared ≠ 0 → prot &&& protWrite ≠ 0 → openFlags &&& oAccmode = oRdwr)

/-- `mmap` fails with EACCES on other descriptors and with EINVAL for a length of 0, and `munmap` with EINVAL on MAP_FAILED,
which starts no page. -/
def Call.Posix (s : World) : Call → Prop
  | map sys => ∀ a, s.mmapped sys = .ok a → (s.self.mmapArgs none).size ≠ 0 ∧
    Grants (Descriptor.flags s.self.mapRead s.self.mapWrite) (s.self.mmapArgs none).prot (s.self.mmapArgs none).flags
  | unmap sys => sys.munmap mapFailed s.self.mapSize ≠ none

def posix : LTS World Call where
  init := files.init
  step s i s' := i.Posix s ∧ files.step s i s'

/-- POSIX lets `mmap` succeed for the object. -/
def Mappable (f : MapFile) : Prop := f.mapRead = true ∧ f.mapSize ≠ 0

/-- A `map` of an object such as `f` that opens its file. -/
def Call.Opens (f : MapFile) : Call → Prop
  | map sys => sys.open (Descriptor.flags f.mapRead f.mapWrite) f.mapPermission = none
  | unmap _ => False

instance (f : MapFile) : DecidablePred (Call.Opens f)
  | .map _ => inferInstanceAs (Decidable (_ = none))
  | .unmap _ => inferInstanceAs (Decidable False)

variable {f : MapFile} {s s' t : World} {sys : System} {i : Call} {is : List Call}

/-! ## The modes -/

theorem grants_iff (h : (f.mapRead || f.mapWrite) = true) :
    Grants (Descriptor.flags f.mapRead f.mapWrite) (f.mmapArgs none).prot (f.mmapArgs none).flags ↔ f.mapRead = true := by
  revert h
  show _ → (Grants _ ((if f.mapRead then protRead else 0) ||| if f.mapWrite then protWrite else 0)
    (mapFileFlag ||| mapShared) ↔ _)
  cases f.mapRead <;> cases f.mapWrite <;> unfold Grants <;> decide

theorem modes_init (h : files.init s) : (s.self.mapRead || s.self.mapWrite) = true := by
  obtain ⟨⟨pageSize, name, size, offset, readMode, writeMode, perm, hself⟩, -⟩ := h
  rw [construct_eq] at hself
  split_ifs at hself with hmodes
  rw [← Except.ok.inj hself]
  exact hmodes.1

theorem posix_map_iff (h : (s.self.mapRead || s.self.mapWrite) = true) :
    (Call.map sys).Posix s ↔ ∀ a, s.mmapped sys = .ok a → Mappable s.self :=
  forall₂_congr fun _ _ => (and_congr_right fun _ => grants_iff h).trans and_comm

/-! ## An object that nothing maps -/

/-- An `unmap` was called since the last `map` that opened the file. -/
def Removed (f : MapFile) (is : List Call) : Prop :=
  ∃ pre sys post, is = pre ++ .unmap sys :: post ∧ (∃ j ∈ pre, j.Opens f) ∧ ∀ j ∈ post, ¬ j.Opens f

/-- After the calls `is` on `f`: nothing is mapped, every descriptor that was opened is open, and `is_mapped` is what the last
`unmap` said. -/
structure Barren (f : MapFile) (is : List Call) (s : World) : Prop where
  modes : s.self.mapRead = f.mapRead ∧ s.self.mapWrite = f.mapWrite ∧ s.self.mapPermission = f.mapPermission
  size : s.self.mapSize = f.mapSize
  mappings : s.mappings = []
  address : s.self.address = if ∃ j ∈ is, j.Opens f then mapFailed else 0
  count : s.heap.objects.length = is.countP (Call.Opens f)
  calls : s.heap.calls = []
  left : ∀ k < s.heap.objects.length, ∃ n, s.heap.fds.get n = some (.object k)
  isMapped : s.self.isMapped = true ↔ Removed f is

theorem removed_snoc :
    Removed f (is ++ [i]) ↔ ¬ i.Opens f ∧ (Removed f is ∨ (∃ sys, i = .unmap sys) ∧ ∃ j ∈ is, j.Opens f) := by
  constructor
  · rintro ⟨pre, sys, post, heq, hpre, hpost⟩
    rcases List.eq_nil_or_concat post with rfl | ⟨post, j, rfl⟩
    · obtain ⟨rfl, hi⟩ := List.append_inj' heq rfl
      obtain rfl := List.singleton_inj.1 hi
      exact ⟨id, .inr ⟨⟨sys, rfl⟩, hpre⟩⟩
    · rw [List.concat_eq_append] at heq hpost
      rw [← List.cons_append, ← List.append_assoc] at heq
      obtain ⟨rfl, hi⟩ := List.append_inj' heq rfl
      obtain rfl := List.singleton_inj.1 hi
      rw [List.forall_mem_append, List.forall_mem_singleton] at hpost
      exact ⟨hpost.2, .inl ⟨pre, sys, post, rfl, hpre, hpost.1⟩⟩
  · rintro ⟨hi, ⟨pre, sys, post, rfl, hpre, hpost⟩ | ⟨⟨sys, rfl⟩, hj⟩⟩
    · refine ⟨pre, sys, post ++ [i], by simp, hpre, ?_⟩
      rw [List.forall_mem_append, List.forall_mem_singleton]
      exact ⟨hpost, hi⟩
    · exact ⟨is, sys, [], rfl, hj, by simp⟩

theorem Removed.opened (h : Removed f is) : ∃ j ∈ is, j.Opens f := by
  obtain ⟨pre, sys, post, rfl, ⟨j, hj, hopens⟩, -⟩ := h
  exact ⟨j, List.mem_append_left _ hj, hopens⟩

theorem opened_snoc : (∃ j ∈ is ++ [i], j.Opens f) ↔ (∃ j ∈ is, j.Opens f) ∨ i.Opens f := by
  simp [or_and_right, exists_or]

theorem Barren.opens_iff (h : Barren f is s) : s.Opens sys ↔ (Call.map sys).Opens f := by
  obtain ⟨hread, hwrite, hperm⟩ := h.modes
  unfold World.Opens
  rw [hread, hwrite, hperm]
  rfl

/-- A call that opens nothing and changes at most what `is_mapped` says. -/
theorem Barren.quiet (h : Barren f is s) (hi : ¬ i.Opens f) {b : Bool}
    (hb : b = true ↔ Removed f is ∨ (∃ sys, i = .unmap sys) ∧ ∃ j ∈ is, j.Opens f) :
    Barren f (is ++ [i]) { s with self := { s.self with mapped := b } } where
  modes := h.modes
  size := h.size
  mappings := h.mappings
  address := by
    rw [if_congr (opened_snoc.trans (or_iff_left hi)) rfl rfl]
    exact h.address
  count := by
    rw [List.countP_append, List.countP_singleton, if_neg (by simpa using hi)]
    exact h.count
  calls := h.calls
  left := h.left
  isMapped := hb.trans ((and_iff_right hi).symm.trans removed_snoc.symm)

/-- A call that changes nothing. -/
theorem Barren.same (h : Barren f is s) (hi : ¬ i.Opens f) (hunmap : ∀ sys, i = .unmap sys → ¬ ∃ j ∈ is, j.Opens f) :
    Barren f (is ++ [i]) s := by
  have hquiet := h.quiet hi (b := s.self.mapped) ?_
  · exact hquiet
  · rw [or_iff_left fun hlast => hlast.1.elim fun sys hsys => hunmap sys hsys hlast.2]
    exact h.isMapped

/-- The descriptor of a `map` whose `mmap` fails is left open. -/
theorem Barren.afterMmap (h : Barren f is s) (hi : i.Opens f) (e : Errno) :
    Barren f (is ++ [i]) (s.opened.afterMmap (.error e)) where
  modes := h.modes
  size := h.size
  mappings := h.mappings
  address := (if_pos (opened_snoc.2 (.inr hi))).symm
  count := by
    rw [List.countP_append, List.countP_singleton, if_pos (by simpa using hi), ← h.count]
    exact List.length_append
  calls := h.calls
  left k hk := by
    show ∃ n, (s.heap.fds.alloc (.object s.heap.objects.length)).get n = _
    have hlen : k < s.heap.objects.length + 1 := by
      refine lt_of_lt_of_eq hk ?_
      exact List.length_append
    rcases Nat.lt_succ_iff_lt_or_eq.1 hlen with hlt | rfl
    · obtain ⟨n, hn⟩ := h.left k hlt
      have hne : n ≠ s.heap.fds.lowest := by
        rintro rfl
        rw [FdTable.get_lowest] at hn
        exact absurd hn (by simp)
      exact ⟨n, by rw [FdTable.get_alloc, if_neg hne, hn]⟩
    · exact ⟨s.heap.fds.lowest, by rw [FdTable.get_alloc, if_pos rfl]⟩
  isMapped := iff_of_false (by simp [World.afterMmap, MapFile.isMapped]) fun hremoved => (removed_snoc.1 hremoved).1 hi

theorem barren_init (h : files.init s) : Barren s.self [] s := by
  obtain ⟨⟨pageSize, name, size, offset, readMode, writeMode, perm, hself⟩, -, hobjects, hcalls, hmappings⟩ := h
  obtain ⟨hmapped, haddress⟩ := construct_fresh hself
  refine ⟨⟨rfl, rfl, rfl⟩, rfl, hmappings, ?_, ?_, hcalls, ?_, ?_⟩
  · rw [if_neg (by simp)]
    exact haddress
  · rw [hobjects]
    rfl
  · rw [hobjects]
    exact fun k hk => absurd hk (Nat.not_lt_zero k)
  · refine iff_of_false (by simp [MapFile.isMapped, hmapped]) fun hremoved => ?_
    exact absurd hremoved.opened (by simp)

theorem run_map_posix (hmodes : (s.self.mapRead || s.self.mapWrite) = true) (hnot : ¬ Mappable s.self)
    (hposix : (Call.map sys).Posix s) : (¬ s.Opens sys ∧ ∃ issue, (map sys).run s = .error (.thrown issue) s) ∨
      s.Opens sys ∧ ∃ e issue, (map sys).run s = .error (.thrown issue) (s.opened.afterMmap (.error e)) := by
  by_cases hopens : s.Opens sys
  · have hrun := run_map hopens
    cases hmmap : s.mmapped sys with
    | ok a => exact absurd ((posix_map_iff hmodes).1 hposix a hmmap) hnot
    | error e =>
      rw [hmmap] at hrun
      exact .inr ⟨hopens, e, _, hrun⟩
  · obtain ⟨issue, hopen⟩ := run_openFd_throws hopens
    exact .inl ⟨hopens, issue, run_bind_error hopen⟩

theorem Barren.mappable_iff (h : Barren f is s) : Mappable s.self ↔ Mappable f := by
  unfold Mappable
  rw [h.modes.1, h.size]

theorem barren_step (hmodes : (f.mapRead || f.mapWrite) = true) (hnot : ¬ Mappable f) (h : Barren f is s)
    (hs : posix.step s i s') : Barren f (is ++ [i]) s' := by
  obtain ⟨hposix, rfl, -⟩ := hs
  cases i with
  | map sys =>
    have hmodes' : (s.self.mapRead || s.self.mapWrite) = true := by rw [h.modes.1, h.modes.2.1, hmodes]
    obtain ⟨hopens, issue, hrun⟩ | ⟨hopens, e, issue, hrun⟩ := run_map_posix hmodes' (mt h.mappable_iff.1 hnot) hposix
    · have hstate : ((Call.map sys).run.run s).state = s := by
        show ((map sys).run s).state = s
        rw [hrun, Result.state_error]
      rw [hstate]
      exact h.same (mt h.opens_iff.2 hopens) nofun
    · have hstate : ((Call.map sys).run.run s).state = s.opened.afterMmap (.error e) := by
        show ((map sys).run s).state = _
        rw [hrun, Result.state_error]
      rw [hstate]
      exact h.afterMmap (h.opens_iff.1 hopens) e
  | unmap sys =>
    by_cases haddr : s.self.mapAddress = 0
    · have hstate : ((Call.unmap sys).run.run s).state = s := by
        show ((unmap sys).run s).state = s
        rw [run_unmap_unloaded haddr, Result.state_error]
      rw [hstate]
      refine h.same id fun sys' _ hopened => ?_
      have hfailed := h.address
      rw [if_pos hopened] at hfailed
      exact mapFailed_ne_zero (hfailed.symm.trans haddr)
    · have hopened : ∃ j ∈ is, j.Opens f := by
        by_contra hnone
        have hzero := h.address
        rw [if_neg hnone] at hzero
        exact haddr hzero
      have hfailed : s.self.mapAddress = mapFailed := h.address.trans (if_pos hopened)
      obtain ⟨e, he⟩ := Option.ne_none_iff_exists'.1 hposix
      rw [← hfailed] at he
      have hstate : ((Call.unmap sys).run.run s).state = { s with self := { s.self with mapped := true } } := by
        show ((unmap sys).run s).state = _
        rw [run_unmap_fails haddr he, Result.state_error]
      rw [hstate]
      exact h.quiet id (iff_of_true rfl (.inr ⟨⟨sys, rfl⟩, hopened⟩))

theorem barren_path (hs : posix.init s) (hnot : ¬ Mappable s.self) (h : posix.Path s is t) : Barren s.self is t :=
  h.past (I := Barren s.self) (fun _ _ _ _ h hs' => barren_step (modes_init hs) hnot h hs') (barren_init hs)

/-- **Whatever is called on an object that is only written: nothing is mapped and every `map` throws, each `map` that opens the
file leaves its descriptor open, and `is_mapped` is true once `unmap` was called after one.** -/
theorem barren (hs : posix.init s) (hread : s.self.mapRead = false) (h : posix.Path s is t) : Barren s.self is t ∧
    ∀ sys, (Call.map sys).Posix t → ∃ issue u, (map sys).run t = .error (.thrown issue) u := by
  have hmodes := modes_init hs
  have hnot : ¬ Mappable s.self := fun hmap => Bool.noConfusion (hread.symm.trans hmap.1)
  have hbarren := barren_path hs hnot h
  refine ⟨hbarren, fun sys hposix => ?_⟩
  have hmodes' : (t.self.mapRead || t.self.mapWrite) = true := by rw [hbarren.modes.1, hbarren.modes.2.1, hmodes]
  obtain ⟨-, issue, hrun⟩ | ⟨-, e, issue, hrun⟩ := run_map_posix hmodes' (mt hbarren.mappable_iff.1 hnot) hposix
  · exact ⟨issue, t, hrun⟩
  · exact ⟨issue, _, hrun⟩

/-- A new `MapFile("/tmp/m",4096,0,false,true)`. -/
def writer : World := { fresh with self := { fresh.self with mapRead := false, mapWrite := true } }

/-- The file is opened and not mapped: EACCES, and then EINVAL. -/
def denied : System := ⟨fun _ _ => none, fun _ => .error 13, fun _ _ => some 22, .done⟩

/-- After `map`. -/
def refused : World := writer.opened.afterMmap (.error 13)

theorem init_writer : posix.init writer := by
  refine ⟨⟨4096, text "/tmp/m", 4096, 0, false, true, 0o666, rfl⟩, init_fresh.2.1, rfl, rfl, rfl⟩

theorem path_writer : posix.Path writer [.map denied, .unmap denied]
    { refused with self := { refused.self with mapped := true } } := by
  refine .cons ⟨nofun, rfl, fun _ => nofun⟩ (.single ⟨?_, rfl, fun _ => nofun⟩)
  exact Option.some_ne_none _

/-- `is_mapped` is true of a file that nothing has mapped. -/
theorem barren_writer : ∃ t, posix.Path writer [.map denied, .unmap denied] t ∧ t.self.isMapped = true ∧ t.held = none ∧
    t.heap.fds.get 3 = some (.object 0) ∧ Barren writer.self [.map denied, .unmap denied] t :=
  ⟨_, path_writer, rfl, rfl, rfl, (barren init_writer rfl path_writer).1⟩

end OksSystem.MapFile
