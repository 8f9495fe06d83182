import OksSystem.Descriptor.Basic

/-!
# Descriptors behind pointers

* `Fault` : what ends a call, an exception or a pointer that points at no object;
* `Heap` : the `Descriptor` objects that `new` made, which are named by their places; a place is used once;
* `new`, `on`, `delete` : `new Descriptor(..)`, a member of `*p`, and `delete p`;
* `run_new`, `run_new_throws`, `Heap.get_made` : a new object has the lowest free number;
* `run_on_ok`, `run_on_read`, `run_delete` : members through a pointer that is good.
-/

namespace OksSystem
open ByteBuffer EStateM

namespace Descriptor

inductive Fault where
  | thrown (issue : Issue)
  /-- A member is called through a pointer that is null, or whose object is deleted. -/
  | badPointer
  deriving DecidableEq, Repr

structure Heap where
  fds : FdTable Opener
  objects : List (Option Object)
  calls : List (CloseCall Opener)

/-- `Descriptor *`, `none` for null. -/
abbrev Pointer := Option Nat

abbrev OnHeap (α : Type) := EStateM Fault Heap α

namespace Heap

/-- `*p`, when there is such an object. -/
def get (h : Heap) (p : Pointer) : Option Object := p.bind fun k => (h.objects[k]?).join

/-- After a member of `*p` that left `m`. -/
def put (h : Heap) (p : Pointer) (m : Holder Opener) : Heap :=
  ⟨m.fds, p.elim h.objects fun k => h.objects.set k (some m.self), m.calls⟩

end Heap

variable {α : Type}

/-- `new Descriptor(file,flags,perm)`: the memory is given back when the constructor throws. -/
def new (name : Str) (answer : Option Errno) : OnHeap Pointer := do
  let h ← get
  match construct name (.object h.objects.length) h.fds answer with
  | .error i => throw (.thrown i)
  | .ok (d, fds) =>
    set { h with fds, objects := h.objects ++ [some d] }
    return some h.objects.length

/-- A member of `*p`. -/
def on (p : Pointer) (x : Member Opener α) : OnHeap α := fun h =>
  match h.get p with
  | none => .error .badPointer h
  | some d =>
    match x.run ⟨h.fds, d, h.calls⟩ with
    | .ok a m => .ok a (h.put p m)
    | .error i m => .error (.thrown i) (h.put p m)

/-- `delete p`: nothing for null. -/
def delete (p : Pointer) (answer : CloseAnswer) : OnHeap Unit := do
  if let some k := p then
    on p (destroy answer)
    modify fun h => { h with objects := h.objects.set k none }

/-! ## A new object -/

/-- After `new Descriptor(..)`. -/
def Heap.made (h : Heap) (name : Str) : Heap :=
  ⟨h.fds.alloc (.object h.objects.length), h.objects ++ [some ⟨some h.fds.lowest, name⟩], h.calls⟩

theorem Heap.get_made (h : Heap) (name : Str) :
    (h.made name).get (some h.objects.length) = some ⟨some h.fds.lowest, name⟩ := by
  show ((h.objects ++ [some _])[h.objects.length]?).join = _
  rw [List.getElem?_concat_length]
  rfl

theorem run_new (h : Heap) (name : Str) : (new name none).run h = .ok (some h.objects.length) (h.made name) := rfl

theorem run_new_throws (h : Heap) (name : Str) (e : Errno) :
    (new name (some e)).run h = .error (.thrown (.openFile e (cstr name))) h := rfl

/-! ## Members through a pointer -/

theorem Heap.put_get {h : Heap} {p : Pointer} {d : Object} (hd : h.get p = some d) :
    h.put p ⟨h.fds, d, h.calls⟩ = h := by
  cases p with
  | none => rfl
  | some k =>
    have hk : h.objects[k]? = some (some d) := Option.join_eq_some_iff.1 hd
    obtain ⟨hlt, hk⟩ := List.getElem?_eq_some_iff.1 hk
    show (⟨h.fds, h.objects.set k (some d), h.calls⟩ : Heap) = h
    rw [← hk, List.set_getElem_self]

section On

variable {h : Heap} {p : Pointer} {d : Object} {x : Member Opener α} {m : Holder Opener}

theorem run_on_ok {a : α} (hd : h.get p = some d) (hx : x.run ⟨h.fds, d, h.calls⟩ = .ok a m) :
    (on p x).run h = .ok a (h.put p m) := by
  show (match h.get p with | none => _ | some d => _) = _
  rw [hd]
  show (match x.run ⟨h.fds, d, h.calls⟩ with | .ok a m => _ | .error i m => _) = _
  rw [hx]

theorem run_on_throws {i : Issue} (hd : h.get p = some d) (hx : x.run ⟨h.fds, d, h.calls⟩ = .error i m) :
    (on p x).run h = .error (.thrown i) (h.put p m) := by
  show (match h.get p with | none => _ | some d => _) = _
  rw [hd]
  show (match x.run ⟨h.fds, d, h.calls⟩ with | .ok a m => _ | .error i m => _) = _
  rw [hx]

/-- `*p` read as a number. -/
theorem run_on_fd (hd : h.get p = some d) : (on p do return (← get).self.fd).run h = .ok d.fd h := by
  have hrun := run_on_ok (x := do return (← get).self.fd) hd rfl
  rwa [Heap.put_get hd] at hrun

theorem run_on_read (hd : h.get p = some d) (number : Nat) (bytes : Str) :
    (on p (read number (.ok bytes))).run h = .ok (bytes.take number) h := by
  rw [run_on_ok hd (run_read _ number bytes), Heap.put_get hd]

theorem run_on_read_throws (hd : h.get p = some d) (number : Nat) (e : Errno) :
    (on p (read number (.error e))).run h = .error (.thrown (.read e (cstr d.name))) h := by
  rw [run_on_throws hd (run_read_throws _ number e), Heap.put_get hd]

theorem run_on_write (hd : h.get p = some d) (buffer : Str) (number : Nat) (answer : Str → Except Errno Nat) :
    (on p (write buffer number answer)).run h =
      match answer (buffer.take number) with
      | .ok count => .ok count h
      | .error e => .error (.thrown (.write e (cstr d.name))) h := by
  have hrun := run_write ⟨h.fds, d, h.calls⟩ buffer number answer
  cases hanswer : answer (buffer.take number) with
  | ok count =>
    rw [hanswer] at hrun
    rw [run_on_ok hd hrun, Heap.put_get hd]
  | error e =>
    rw [hanswer] at hrun
    rw [run_on_throws hd hrun, Heap.put_get hd]

/-- After `delete p` of an object whose destructor left `m`. -/
def Heap.deleted (h : Heap) (k : Nat) (m : Holder Opener) : Heap := ⟨m.fds, h.objects.set k none, m.calls⟩

theorem run_delete {k : Nat} (answer : CloseAnswer) (hd : h.get (some k) = some d) :
    (delete (some k) answer).run h = .ok () (h.deleted k ((destroy answer).run ⟨h.fds, d, h.calls⟩).state) := by
  have hon := run_on_ok hd (run_destroy ⟨h.fds, d, h.calls⟩ answer)
  unfold delete
  refine (run_bind_ok hon).trans ?_
  show EStateM.Result.ok () (⟨_, (h.objects.set k _).set k none, _⟩ : Heap) = _
  rw [List.set_set]
  rfl

end On

end Descriptor

end OksSystem
