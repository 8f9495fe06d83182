import OksSystem.Descriptor.Heap
import OksSystem.File.Basic

/-!
# Memory mapped files

* `MapFile` : the members of the class; `MapFile.construct` checks the modes and the pages;
* `MapFile.System` : what the system calls of one member answer; a mapping is never at 0 or at MAP_FAILED (`Place`);
* `MapFile.World` : the object, the descriptors it made, and the live mappings its calls of `mmap` made;
* `openFd`, `closeFd`, `mapMem`, `unmapMem`, and `map`, `unmap` which are put together from them;
* `isMapped`, `isLoaded`, `address` : the observers.
-/

namespace OksSystem
open ByteBuffer EStateM

def protRead : Nat := 1
def protWrite : Nat := 2
def mapShared : Nat := 1

/-- MAP_FILE, which is ignored. -/
def mapFileFlag : Nat := 0

/-- MAP_FAILED, which is (void *)-1. -/
def mapFailed : Nat := 0xffffffffffffffff

/-- The members, without the `m_` of their names. -/
structure MapFile extends File where
  mapAddress : Nat
  mapSize : Nat
  mapOffset : Nat
  mapDescriptor : Descriptor.Pointer
  mapPermission : Nat
  mapRead : Bool
  mapWrite : Bool
  mapped : Bool
  deriving DecidableEq, Repr

namespace MapFile

def construct (pageSize : Nat) (name : Str) (size offset : Nat) (readMode writeMode : Bool) (perm : Nat) :
    Except Issue MapFile := do
  unless readMode || writeMode do throw .precondition
  unless size % pageSize = 0 do throw .precondition
  unless offset % pageSize = 0 do throw .precondition
  return ⟨⟨name⟩, 0, size, offset, none, perm, readMode, writeMode, false⟩

/-! ## The system -/

/-- Where a mapping can be. -/
structure Place where
  address : Nat
  notNull : address ≠ 0
  notFailed : address ≠ mapFailed

structure MmapArgs where
  size : Nat
  prot : Nat
  flags : Nat
  fd : Option Nat
  offset : Nat
  deriving DecidableEq, Repr

/-- What the system calls of one member answer. -/
structure System where
  «open» : (flags perm : Nat) → Option Errno
  mmap : MmapArgs → Except Errno Place
  munmap : (address size : Nat) → Option Errno
  close : CloseAnswer

structure World where
  self : MapFile
  heap : Descriptor.Heap
  /-- The mappings made and not removed, the newest first. -/
  mappings : List Nat

abbrev Member (α : Type) := EStateM Descriptor.Fault World α

variable {α : Type}

def onHeap (x : Descriptor.OnHeap α) : Member α := zoom World.heap (fun s h => { s with heap := h }) x

/-- The texts of `OksSystemCallIssue` name the file. -/
def onFile (f : MapFile) : Str := cstr (text "on file " ++ f.fullName)

/-! ## The members -/

/-- `m_map_descriptor = p`. -/
def setDescriptor (p : Descriptor.Pointer) : Member Unit :=
  modify fun s => { s with self := { s.self with mapDescriptor := p } }

/-- `m_is_mapped = b`. -/
def setMapped (b : Bool) : Member Unit := modify fun s => { s with self := { s.self with mapped := b } }

def openFd (sys : System) : Member Unit := do
  let f := (← get).self
  let flags := Descriptor.flags f.mapRead f.mapWrite
  setDescriptor (← onHeap (Descriptor.new f.fullName (sys.open flags f.mapPermission)))

def closeFd (sys : System) : Member Unit := do
  let p := (← get).self.mapDescriptor
  onHeap (Descriptor.on p (Descriptor.close sys.close))
  onHeap (Descriptor.delete p sys.close)
  setDescriptor none

def prot (f : MapFile) : Nat :=
  (if f.mapRead then protRead else 0) ||| (if f.mapWrite then protWrite else 0)

/-- What `map_mem` asks `mmap` for. -/
def mmapArgs (f : MapFile) (fd : Option Nat) : MmapArgs := ⟨f.mapSize, f.prot, mapFileFlag ||| mapShared, fd, f.mapOffset⟩

/-- `m_map_address = ::mmap(..)` : the error if it fails. -/
def callMmap (answer : Except Errno Place) : Member Errno := modifyGet fun s =>
  match answer with
  | .ok a => (0, { s with self := { s.self with mapAddress := a.address }, mappings := a.address :: s.mappings })
  | .error e => (e, { s with self := { s.self with mapAddress := mapFailed } })

def mapMem (sys : System) : Member Unit := do
  let f := (← get).self
  if f.mapDescriptor = none then throw (.thrown .precondition)
  let fd ← onHeap (Descriptor.on f.mapDescriptor do return (← get).self.fd)
  let errno ← callMmap (sys.mmap (f.mmapArgs fd))
  let address := (← get).self.mapAddress
  if address = mapFailed ∨ address = 0 then
    setMapped false
    throw (.thrown (.osSystemCall errno (text "mmap") f.onFile))
  else setMapped true

/-- The mapping is gone when `munmap` returns. -/
def unmapMem (sys : System) : Member Unit := do
  let f := (← get).self
  if f.mapAddress = 0 then throw (.thrown .precondition)
  match sys.munmap f.mapAddress f.mapSize with
  | some e =>
    setMapped true
    throw (.thrown (.osSystemCall e (text "munmap") f.onFile))
  | none =>
    modify fun s => { s with mappings := s.mappings.filter (· ≠ f.mapAddress) }
    setMapped false

def map (sys : System) : Member Unit := do
  openFd sys
  mapMem sys

def unmap (sys : System) : Member Unit := do
  unmapMem sys
  closeFd sys

def isLoaded (f : MapFile) : Bool := f.mapAddress ≠ 0

def address (f : MapFile) : Nat := f.mapAddress

def isMapped (f : MapFile) : Bool := f.mapped

/-! ## What they do -/

theorem construct_eq (pageSize : Nat) (name : Str) (size offset : Nat) (readMode writeMode : Bool) (perm : Nat) :
    construct pageSize name size offset readMode writeMode perm =
      if (readMode || writeMode) ∧ size % pageSize = 0 ∧ offset % pageSize = 0 then
        .ok ⟨⟨name⟩, 0, size, offset, none, perm, readMode, writeMode, false⟩
      else .error .precondition := by
  unfold construct
  by_cases hmode : (readMode || writeMode) = true
  · by_cases hsize : size % pageSize = 0
    · by_cases hoffset : offset % pageSize = 0
      · rw [if_pos hmode, if_pos hsize, if_pos hoffset]
        exact (if_pos ⟨hmode, hsize, hoffset⟩).symm
      · rw [if_pos hmode, if_pos hsize, if_neg hoffset]
        exact (if_neg fun h => hoffset h.2.2).symm
    · rw [if_pos hmode, if_neg hsize]
      exact (if_neg fun h => hsize h.2.1).symm
  · rw [if_neg hmode]
    exact (if_neg fun h => hmode h.1).symm

theorem construct_fresh {pageSize size offset perm : Nat} {name : Str} {readMode writeMode : Bool} {f : MapFile}
    (h : construct pageSize name size offset readMode writeMode perm = .ok f) : f.mapped = false ∧ f.mapAddress = 0 := by
  rw [construct_eq] at h
  split_ifs at h
  obtain rfl := Except.ok.inj h
  exact ⟨rfl, rfl⟩

section Outcome

variable {s : World} {sys : System}

/-- The `open` of the next `map` succeeds. -/
def World.Opens (s : World) (sys : System) : Prop :=
  sys.open (Descriptor.flags s.self.mapRead s.self.mapWrite) s.self.mapPermission = none

instance : Decidable (s.Opens sys) := inferInstanceAs (Decidable (_ = none))

/-- What the `mmap` of the next `map` answers once the file is open. -/
def World.mmapped (s : World) (sys : System) : Except Errno Place := sys.mmap (s.self.mmapArgs (some s.heap.fds.lowest))

def World.opened (s : World) : World :=
  { s with
    self := { s.self with mapDescriptor := some s.heap.objects.length }
    heap := s.heap.made s.self.fullName }

/-- After a `map_mem` that has asked `mmap`. -/
def World.afterMmap (s : World) : Except Errno Place → World
  | .ok a => { s with
    self := { s.self with mapAddress := a.address, mapped := true }
    mappings := a.address :: s.mappings }
  | .error _ => { s with self := { s.self with mapAddress := mapFailed, mapped := false } }

/-- After an `unmap_mem` that removes the mapping. -/
def World.unmapped (s : World) : World :=
  { s with
    self := { s.self with mapped := false }
    mappings := s.mappings.filter (· ≠ s.self.mapAddress) }

theorem run_openFd (h : s.Opens sys) : (openFd sys).run s = .ok () s.opened := by
  have hnew : (onHeap (Descriptor.new s.self.fullName none)).run s = _ :=
    run_zoom_ok (Descriptor.run_new s.heap s.self.fullName)
  rw [← h] at hnew
  unfold openFd
  rw [run_bind_ok (run_get s)]
  exact run_bind_ok hnew

theorem run_openFd_throws (h : ¬ s.Opens sys) :
    ∃ i, (openFd sys).run s = .error (.thrown i) s := by
  obtain ⟨e, he⟩ := Option.ne_none_iff_exists'.1 h
  have hnew : (onHeap (Descriptor.new s.self.fullName (some e))).run s = _ :=
    run_zoom_error (Descriptor.run_new_throws s.heap s.self.fullName e)
  rw [← he] at hnew
  unfold openFd
  rw [run_bind_ok (run_get s)]
  exact ⟨_, run_bind_error hnew⟩

theorem mapFailed_ne_zero : mapFailed ≠ 0 := by decide

/-- `map_mem` with a descriptor returns when `mmap` gives a place, and throws when it fails. -/
theorem run_mapMem {d : Descriptor.Object} (hd : s.heap.get s.self.mapDescriptor = some d) :
    match sys.mmap (s.self.mmapArgs d.fd) with
    | .ok a => (mapMem sys).run s = .ok () (s.afterMmap (.ok a))
    | .error e => (mapMem sys).run s =
        .error (.thrown (.osSystemCall e (text "mmap") s.self.onFile)) (s.afterMmap (.error e)) := by
  have hsome : s.self.mapDescriptor ≠ none := by
    intro hnone
    rw [hnone] at hd
    exact absurd hd (by simp [Descriptor.Heap.get])
  have hfd : (onHeap (Descriptor.on s.self.mapDescriptor do return (← get).self.fd)).run s = .ok d.fd s :=
    run_zoom_ok (Descriptor.run_on_fd hd)
  unfold mapMem
  rw [run_bind_ok (run_get s), if_neg hsome]
  cases hmmap : sys.mmap (s.self.mmapArgs d.fd) with
  | error e =>
    refine (run_bind_ok hfd).trans ?_
    rw [hmmap]
    rfl
  | ok a =>
    refine (run_bind_ok hfd).trans ?_
    rw [hmmap]
    show EStateM.run (if a.address = mapFailed ∨ a.address = 0 then _ else setMapped true) _ = _
    rw [if_neg (not_or.2 ⟨a.notFailed, a.notNull⟩)]
    rfl

theorem state_map_throws (h : ¬ s.Opens sys) : ((map sys).run s).state = s := by
  obtain ⟨i, hi⟩ := run_openFd_throws h
  unfold map
  rw [run_bind_error hi]
  rfl

theorem run_map (h : s.Opens sys) :
    match s.mmapped sys with
    | .ok a => (map sys).run s = .ok () (s.opened.afterMmap (.ok a))
    | .error e => (map sys).run s =
        .error (.thrown (.osSystemCall e (text "mmap") s.self.onFile)) (s.opened.afterMmap (.error e)) := by
  unfold map
  rw [run_bind_ok (run_openFd h)]
  exact run_mapMem (s := s.opened) (Descriptor.Heap.get_made s.heap s.self.fullName)

theorem state_map (h : s.Opens sys) : ((map sys).run s).state = s.opened.afterMmap (s.mmapped sys) := by
  have hrun := run_map h
  cases hmmap : s.mmapped sys with
  | ok a =>
    rw [hmmap] at hrun
    rw [hrun, Result.state_ok]
  | error e =>
    rw [hmmap] at hrun
    rw [hrun, Result.state_error]

/-! `unmap` -/

theorem run_unmap_unloaded (h : s.self.mapAddress = 0) : (unmap sys).run s = .error (.thrown .precondition) s := by
  unfold unmap unmapMem
  rw [run_bind, run_bind_ok (run_get s), if_pos h]
  rfl

theorem run_unmap_fails {e : Errno} (h : s.self.mapAddress ≠ 0)
    (he : sys.munmap s.self.mapAddress s.self.mapSize = some e) :
    (unmap sys).run s = .error (.thrown (.osSystemCall e (text "munmap") s.self.onFile))
      { s with self := { s.self with mapped := true } } := by
  unfold unmap unmapMem
  rw [run_bind, run_bind_ok (run_get s), if_neg h, he]
  rfl

/-- What `unmap` does when the mapping is removed is up to `close_fd`. -/
theorem run_unmap (h : s.self.mapAddress ≠ 0) (he : sys.munmap s.self.mapAddress s.self.mapSize = none) :
    (unmap sys).run s = (closeFd sys).run s.unmapped := by
  have hrun : (unmapMem sys).run s = .ok () s.unmapped := by
    unfold unmapMem
    rw [run_bind_ok (run_get s), if_neg h, he]
    rfl
  unfold unmap
  rw [run_bind_ok hrun]

/-- `close_fd` is about the descriptor. -/
theorem keeps_closeFd {γ : Type} {f : World → γ} (hheap : ∀ s h, f { s with heap := h } = f s)
    (hself : ∀ s p, f { s with self := { s.self with mapDescriptor := p } } = f s) : Keeps f (closeFd sys) := by
  unfold closeFd
  refine Keeps.bind Keeps.get fun s => ?_
  refine Keeps.bind (Keeps.zoom hheap _) fun _ => ?_
  exact Keeps.bind (Keeps.zoom hheap _) fun _ => Keeps.modify fun s => hself s none

end Outcome

end MapFile

end OksSystem
