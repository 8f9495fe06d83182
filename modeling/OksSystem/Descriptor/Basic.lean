import OksSystem.Exceptions
import OksSystem.Lib.FdTable
import OksSystem.Lib.Outcome

/-!
# Descriptor objects

* `Descriptor.Object` : the members of a `Descriptor`, `m_fd` is `none` for -1;
* `Holder` : what a member reads and changes, with the calls of `::close` it makes on a number;
* `construct`, `close`, `closeSafe`, `destroy` : the constructor, the members that close, and the destructor;
* `read`, `write` : the members that transfer bytes;
* `Holder.closed` : the state after a call of `::close`; `state_close`, `state_closeSafe`, `state_destroy` : what the members
  leave.
-/

namespace OksSystem
open ByteBuffer EStateM

def oRdonly : Nat := 0
def oWronly : Nat := 1
def oRdwr : Nat := 2
def oCreat : Nat := 0o100
def oNonblock : Nat := 0o4000

/-- EBADF. -/
def eBadf : Errno := 9

/-- What `::close` does with an open number: it may fail with the number given free, or not. -/
inductive CloseAnswer where
  | done
  | released (error : Errno)
  | kept (error : Errno)
  deriving DecidableEq, Repr

def CloseAnswer.error : CloseAnswer → Option Errno
  | done => none
  | released e => some e
  | kept e => some e

/-- The number is free afterwards. -/
def CloseAnswer.frees : CloseAnswer → Bool
  | done => true
  | released _ => true
  | kept _ => false

/-- A call of `::close`, and what the number referred to. -/
structure CloseCall (ρ : Type) where
  fd : Nat
  frees : Bool
  referred : Option ρ
  deriving DecidableEq, Repr

namespace Descriptor

def flags (readMode writeMode : Bool) : Nat :=
  if readMode ∧ writeMode then oRdwr ||| oCreat
  else if readMode then oRdonly
  else if writeMode then oWronly ||| oCreat
  else 0

/-- Who opened a number. -/
inductive Opener where
  | process
  | object (id : Nat)
  deriving DecidableEq, Repr

structure Object where
  fd : Option Nat
  name : Str
  deriving DecidableEq, Repr

structure Holder (ρ : Type) where
  fds : FdTable ρ
  self : Object
  calls : List (CloseCall ρ)

abbrev Member (ρ α : Type) := EStateM Issue (Holder ρ) α

variable {ρ : Type}

/-- The constructor, with what `::open` answers: the lowest free number then refers to `r`. The `fchmod` after it changes the
file, not the process. -/
def construct (name : Str) (r : ρ) (fds : FdTable ρ) : Option Errno → Except Issue (Object × FdTable ρ)
  | some e => .error (.openFile e (cstr name))
  | none => .ok (⟨some fds.lowest, name⟩, fds.alloc r)

/-- `::close(m_fd)` : the error if it fails. A number that is not open is EBADF. -/
def callClose (answer : CloseAnswer) : Member ρ (Option Errno) := modifyGet fun h =>
  match h.self.fd with
  | none => (some eBadf, h)
  | some n =>
    if h.fds.get n = none then (some eBadf, { h with calls := h.calls ++ [⟨n, false, none⟩] })
    else (answer.error, { h with
      fds := if answer.frees then h.fds.close n else h.fds
      calls := h.calls ++ [⟨n, answer.frees, h.fds.get n⟩] })

def close (answer : CloseAnswer) : Member ρ Unit := do
  if let some e ← callClose answer then throw (.closeFile e (cstr (← get).self.name))
  modify fun h => { h with self := { h.self with fd := none } }

/-- An error only goes to the warning stream. -/
def closeSafe (answer : CloseAnswer) : Member ρ Unit := do
  let _ ← callClose answer

/-- The destructor. -/
def destroy (answer : CloseAnswer) : Member ρ Unit := do
  if (← get).self.fd ≠ none then closeSafe answer

/-- `read(buffer,number)` with what `::read` answers: the bytes that go to the buffer, as many as it returns. -/
def read (number : Nat) (answer : Except Errno Str) : Member ρ Str := do
  match answer with
  | .error e => throw (.read e (cstr (← get).self.name))
  | .ok bytes => return bytes.take number

/-- `write(buffer,number)` with what `::write` answers to the bytes: how many it took. -/
def write (buffer : Str) (number : Nat) (answer : Str → Except Errno Nat) : Member ρ Nat := do
  match answer (buffer.take number) with
  | .error e => throw (.write e (cstr (← get).self.name))
  | .ok count => return count

/-! ## What they leave -/

/-- Only an open number can become free. -/
def Holder.CanFree (h : Holder ρ) (answer : CloseAnswer) : Prop :=
  answer.frees = true → ∃ n, h.self.fd = some n ∧ h.fds.get n ≠ none

/-- After `::close(m_fd)`. -/
def Holder.closed (h : Holder ρ) (answer : CloseAnswer) : Holder ρ :=
  match h.self.fd with
  | none => h
  | some n => { h with
      fds := if answer.frees then h.fds.close n else h.fds
      calls := h.calls ++ [⟨n, answer.frees, h.fds.get n⟩] }

variable {h : Holder ρ} {answer : CloseAnswer}

@[simp] theorem closed_self (h : Holder ρ) (answer : CloseAnswer) : (h.closed answer).self = h.self := by
  unfold Holder.closed
  split <;> rfl

/-- The call fails unless the number was open and the answer is `done`. -/
theorem run_callClose (hfree : h.CanFree answer) : ∃ status, (callClose answer).run h = .ok status (h.closed answer) ∧
    (status = none ↔ answer = .done) := by
  have hfail : answer.frees = false → answer ≠ .done := by
    intro hf
    rintro rfl
    exact Bool.noConfusion hf
  unfold callClose Holder.closed
  simp only [EStateM.run_modifyGet]
  cases hfd : h.self.fd with
  | none =>
    have hf : answer.frees = false := by
      by_contra hf
      obtain ⟨n, hn, -⟩ := hfree (by simpa using hf)
      rw [hfd] at hn
      exact absurd hn (by simp)
    refine ⟨some eBadf, ?_, iff_of_false (by simp) (hfail hf)⟩
    rfl
  | some n =>
    by_cases hn : h.fds.get n = none
    · have hf : answer.frees = false := by
        by_contra hf
        obtain ⟨k, hk, hopen⟩ := hfree (by simpa using hf)
        obtain rfl := Option.some.inj (hk.symm.trans hfd)
        exact hopen hn
      refine ⟨some eBadf, ?_, iff_of_false (by simp) (hfail hf)⟩
      simp only [hf, hn, Bool.false_eq_true, if_true, if_false]
    · refine ⟨answer.error, ?_, by cases answer <;> simp [CloseAnswer.error]⟩
      simp only [if_neg hn]

theorem state_close (hfree : h.CanFree answer) : ((close answer).run h).state =
    if answer = .done then { h.closed answer with self := { h.self with fd := none } } else h.closed answer := by
  obtain ⟨status, hrun, hstatus⟩ := run_callClose hfree
  unfold close
  rw [run_bind_ok hrun]
  cases status with
  | none =>
    rw [if_pos (hstatus.1 rfl), ← closed_self h answer]
    rfl
  | some e =>
    rw [if_neg fun hd => absurd (hstatus.2 hd) (by simp)]
    rfl

theorem state_closeSafe (hfree : h.CanFree answer) : ((closeSafe answer).run h).state = h.closed answer := by
  obtain ⟨status, hrun, -⟩ := run_callClose hfree
  unfold closeSafe
  rw [run_bind_ok hrun]
  rfl

theorem state_destroy (hfree : h.CanFree answer) : ((destroy answer).run h).state = h.closed answer := by
  unfold destroy
  show (EStateM.run (if h.self.fd ≠ none then closeSafe answer else _) h).state = _
  split_ifs with hfd
  · exact state_closeSafe hfree
  · unfold Holder.closed
    rw [not_not.1 hfd]
    rfl

/-- The destructor does not throw. -/
theorem run_destroy (h : Holder ρ) (answer : CloseAnswer) :
    (destroy answer).run h = .ok () ((destroy answer).run h).state := by
  unfold destroy
  show (EStateM.run (if h.self.fd ≠ none then closeSafe answer else _) h) = .ok () (EStateM.run (ite _ _ _) h).state
  split_ifs <;> rfl

theorem run_read (h : Holder ρ) (number : Nat) (bytes : Str) :
    (read number (.ok bytes)).run h = .ok (bytes.take number) h := rfl

theorem run_read_throws (h : Holder ρ) (number : Nat) (e : Errno) :
    (read number (.error e)).run h = .error (.read e (cstr h.self.name)) h := rfl

theorem run_write (h : Holder ρ) (buffer : Str) (number : Nat) (answer : Str → Except Errno Nat) :
    (write buffer number answer).run h =
      match answer (buffer.take number) with
      | .ok count => .ok count h
      | .error e => .error (.write e (cstr h.self.name)) h := by
  unfold write
  cases answer (buffer.take number) <;> rfl

end Descriptor

end OksSystem
