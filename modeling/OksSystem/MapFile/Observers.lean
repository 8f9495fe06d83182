import OksSystem.MapFile.Basic
import OksSystem.Lib.Run

/-!
# What a `MapFile` says about its mapping

`unmap_mem` leaves the address of the mapping it has removed in `m_map_address`, and a failed `mmap` leaves MAP_FAILED there.

* `Call`, `files` : calls of `map` and `unmap` on one object, in any order and with any answers of the system;
* `World.Agrees` : the three observers agree with the mapping that the object holds;
* `Call.Safe` : no `mmap` fails on an open file, and no mapping is removed;
* `observers_agree_iff` : the observers agree after every call exactly when every call is safe.
-/

namespace OksSystem.MapFile
open ByteBuffer EStateM

inductive Call where
  | map (sys : System)
  | unmap (sys : System)

def Call.run : Call → Member Unit
  | map sys => MapFile.map sys
  | unmap sys => MapFile.unmap sys

/-- A new object and the calls on it, which may throw. A run ends where a member is called through a bad pointer. -/
def files : LTS World Call where
  init s := (∃ pageSize name size offset readMode writeMode perm,
      construct pageSize name size offset readMode writeMode perm = .ok s.self) ∧
    (∀ n id, s.heap.fds.get n ≠ some (.object id)) ∧ s.heap.objects = [] ∧ s.heap.calls = [] ∧ s.mappings = []
  step s i s' := (i.run.run s).state = s' ∧ ∀ t, i.run.run s ≠ .error .badPointer t

/-- The mapping that the object holds, the last one it made that is still there. -/
def World.held (s : World) : Option Nat := s.mappings.head?

/-- What `is_mapped`, `is_loaded` and `address` should say. -/
structure World.Agrees (s : World) : Prop where
  mapped : s.self.isMapped = s.held.isSome
  loaded : s.self.isLoaded = s.self.isMapped
  address : s.self.address = s.held.getD 0

/-- Once the file is open, the mapping is made; and a mapping is not removed. -/
def Call.Safe (s : World) : Call → Prop
  | map sys => s.Opens sys → ∃ a, s.mmapped sys = .ok a
  | unmap sys => s.self.isLoaded = true → sys.munmap s.self.mapAddress s.self.mapSize ≠ none

variable {s s' : World} {sys : System}

/-! ## One call -/

theorem not_isLoaded {f : MapFile} : f.isLoaded = false ↔ f.mapAddress = 0 := by
  unfold isLoaded
  rw [decide_eq_false_iff_not, not_not]

theorem isLoaded_iff {f : MapFile} : f.isLoaded = true ↔ f.mapAddress ≠ 0 := decide_eq_true_iff

/-- A failed `mmap` leaves an address, and no mapping is noted. -/
theorem agrees_afterMmap {answer : Except Errno Place} : (s.afterMmap answer).Agrees ↔ ∃ a, answer = .ok a := by
  cases answer with
  | ok a => exact iff_of_true ⟨rfl, isLoaded_iff.2 a.notNull, rfl⟩ ⟨a, rfl⟩
  | error e =>
    refine iff_of_false (fun h => ?_) (by simp)
    have hloaded : isLoaded (s.afterMmap (.error e)).self = true := isLoaded_iff.2 mapFailed_ne_zero
    rw [h.loaded] at hloaded
    exact Bool.noConfusion hloaded

theorem agrees_map (h : s.Agrees) : ((map sys).run s).state.Agrees ↔ (Call.map sys).Safe s := by
  by_cases hopen : s.Opens sys
  · rw [state_map hopen, agrees_afterMmap]
    exact ⟨fun ha _ => ha, fun hsafe => hsafe hopen⟩
  · rw [state_map_throws hopen]
    exact iff_of_true h fun ho => absurd ho hopen

/-- Nothing is mapped after the mapping is removed, but an address is left. -/
theorem not_agrees_unmap (h : s.self.mapAddress ≠ 0) (he : sys.munmap s.self.mapAddress s.self.mapSize = none) :
    ¬ ((unmap sys).run s).state.Agrees := by
  rw [run_unmap h he]
  intro hag
  have hmapped : isMapped ((closeFd sys).run s.unmapped).state.self = false :=
    keeps_closeFd (f := fun s => s.self.isMapped) (fun _ _ => rfl) (fun _ _ => rfl) s.unmapped
  have hloaded : isLoaded ((closeFd sys).run s.unmapped).state.self = true :=
    (keeps_closeFd (f := fun s => s.self.isLoaded) (fun _ _ => rfl) (fun _ _ => rfl) s.unmapped).trans (isLoaded_iff.2 h)
  rw [hag.loaded, hmapped] at hloaded
  exact Bool.noConfusion hloaded

theorem agrees_unmap (h : s.Agrees) : ((unmap sys).run s).state.Agrees ↔ (Call.unmap sys).Safe s := by
  by_cases haddr : s.self.mapAddress = 0
  · rw [run_unmap_unloaded haddr, Result.state_error]
    exact iff_of_true h fun hl => absurd haddr (isLoaded_iff.1 hl)
  have hloaded := isLoaded_iff.2 haddr
  cases he : sys.munmap s.self.mapAddress s.self.mapSize with
  | none => exact iff_of_false (not_agrees_unmap haddr he) fun hsafe => hsafe hloaded he
  | some e =>
    have hmapped : s.self.mapped = true := h.loaded.symm.trans hloaded
    have hself : { s with self := { s.self with mapped := true } } = s := by rw [← hmapped]
    rw [run_unmap_fails haddr he, Result.state_error, hself]
    exact iff_of_true h fun _ => by simp [he]

theorem agrees_init (h : files.init s) : s.Agrees := by
  obtain ⟨⟨pageSize, name, size, offset, readMode, writeMode, perm, hself⟩, -, -, -, hmappings⟩ := h
  obtain ⟨hmapped, haddress⟩ := construct_fresh hself
  have hheld : s.held = none := by unfold World.held; rw [hmappings]; rfl
  refine ⟨?_, ?_, ?_⟩
  · rw [hheld]
    exact hmapped
  · exact (not_isLoaded.2 haddress).trans hmapped.symm
  · rw [hheld]
    exact haddress

theorem agrees_step (h : s.Agrees) {i : Call} (hs : files.step s i s') : s'.Agrees ↔ i.Safe s := by
  rw [← hs.1]
  cases i with
  | map sys => exact agrees_map h
  | unmap sys => exact agrees_unmap h

/-- **`is_mapped`, `is_loaded` and `address` agree with the mapping the object holds, after every call, exactly when no `mmap`
fails on an open file and no call removes a mapping.** -/
theorem observers_agree_iff {xs : List (World × Call)} (h : files.Trace xs s) :
    ((∀ x ∈ xs, x.1.Agrees) ∧ s.Agrees) ↔ ∀ x ∈ xs, x.2.Safe x.1 :=
  h.good_iff (fun _ => agrees_init) (fun _ => id) fun _ _ _ _ hag hs => ⟨agrees_step hag hs, (agrees_step hag hs).2⟩

/-! ## A file that is mapped and unmapped -/

/-- A new `MapFile("/tmp/m",4096,0,true,false)`. -/
def fresh : World :=
  ⟨⟨⟨text "/tmp/m"⟩, 0, 4096, 0, none, 0o666, true, false, false⟩,
    ⟨⟨[some .process, some .process, some .process]⟩, [], []⟩, []⟩

/-- Every call succeeds, and the mapping is at the second page. -/
def granted : System := ⟨fun _ _ => none, fun _ => .ok ⟨4096, by decide, by decide⟩, fun _ _ => none, .done⟩

theorem init_fresh : files.init fresh := by
  refine ⟨⟨4096, text "/tmp/m", 4096, 0, true, false, 0o666, rfl⟩, fun n id hn => ?_, rfl, rfl, rfl⟩
  have hmem : some (Descriptor.Opener.object id) ∈ fresh.heap.fds.slots :=
    List.mem_of_getElem? (Option.join_eq_some_iff.1 hn)
  exact absurd hmem (by simp [fresh])

theorem step_granted : files.step fresh (.map granted) (fresh.opened.afterMmap (fresh.mmapped granted)) :=
  ⟨state_map rfl, fun _ => nofun⟩

/-- After `map`. -/
theorem observers_agree_iff_map : (fresh.opened.afterMmap (fresh.mmapped granted)).Agrees := by
  refine ((observers_agree_iff ((LTS.Trace.init init_fresh).snoc step_granted)).2 fun x hx => ?_).2
  obtain rfl := List.mem_singleton.1 hx
  exact fun _ => ⟨_, rfl⟩

/-- After `map` and `unmap`, `is_loaded` is true. -/
theorem unmap_keeps_address : ¬ ∀ xs s, files.Trace xs s → (∀ x ∈ xs, x.1.Agrees) ∧ s.Agrees := by
  intro hall
  have hstep : files.step (fresh.opened.afterMmap (fresh.mmapped granted)) (.unmap granted) _ := ⟨rfl, fun _ => nofun⟩
  have htrace := ((LTS.Trace.init init_fresh).snoc step_granted).snoc hstep
  exact not_agrees_unmap (by decide) rfl (hall _ _ htrace).2

end OksSystem.MapFile
