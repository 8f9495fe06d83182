import OksSystem.FIFOConnection.Basic

/-!
# One message through a descriptor of its own

`send_message` and `read_message` open the FIFO, transfer a message and close the FIFO again. Other processes run between
their system calls, so they are given here as trees of system calls.

* `Script` : what a function does next, a branch for each answer of its system call;
* `sendMessage`, `readMessage` : the two functions; `sendOpened`, `sendWritten`, `readOpened`, `readTaken` : what they do after
  their system calls.
-/

namespace OksSystem.FIFOConnection
open ByteBuffer

inductive Script (α : Type) where
  | ret (a : α)
  | throw (issue : Issue)
  | «open» (flags perm : Nat) (next : Option Errno → Script α)
  | write (bytes : Str) (next : Except Errno Nat → Script α)
  /-- `while(true)` around a `::read` of `number` bytes, with the answers after which it goes on. -/
  | loop (number : Nat) (again : Except Errno Str → Bool) (next : Except Errno Str → Script α)
  /-- `close_safe` in the destructor, which goes on in the same way when it fails. -/
  | close (next : Script α)

namespace Script

variable {α : Type}

/-- `connection_fd` is open. -/
def holds : Script α → Bool
  | ret _ => false
  | throw _ => false
  | «open» .. => false
  | write .. => true
  | loop .. => true
  | close _ => true

/-- `ERS_ASSERT_MSG(c,..)` before the rest. -/
def assert (c : Bool) (rest : Script α) : Script α := if c then rest else throw .assertion

/-- `ERS_RANGE_CHECK(min,val,max)` before the rest. -/
def rangeCheck (min val max : Nat) (rest : Script α) : Script α :=
  if min ≤ val ∧ val ≤ max then rest else throw (.range min val max)

end Script

/-! ## `send_message` -/

def sendWritten (name : Str) : Except Errno Nat → Script Unit
  | .error e => .close (.throw (.write e (cstr name)))
  | .ok _ => .close (.ret ())

def sendOpened (name message : Str) : Option Errno → Script Unit
  | some e => .throw (.openFile e (cstr name))
  | none => .write (message.take (messageLen message)) (sendWritten name)

/-- `existing` is what `exists()` says. A file that is no FIFO only brings a warning. -/
def sendMessage (f : File) (existing : Bool) (message : Str) : Script Unit :=
  .assert existing (.rangeCheck 1 (messageLen message) maxMessageLen
    (.open oWronly 0 (sendOpened f.fullName message)))

/-! ## `read_message` -/

/-- No bytes: the loop goes on. -/
def readAgain : Except Errno Str → Bool
  | .error _ => false
  | .ok buffer => buffer.length = 0

def readTaken (name : Str) : Except Errno Str → Script Str
  | .error e => .close (.throw (.read e (cstr name)))
  | .ok buffer => .close (if buffer.length < maxMessageLen then .ret (cstr (buffer ++ [0])) else .throw .assertion)

def readOpened (name : Str) : Option Errno → Script Str
  | some e => .throw (.openFile e (cstr name))
  | none => .loop (maxMessageLen - 1) readAgain (readTaken name)

def readMessage (f : File) (existing : Bool) : Script Str :=
  .assert existing (.open oRdonly 0 (readOpened f.fullName))

/-- A message passes the check, and all of it is written. -/
theorem sendMessage_eq (f : File) (m : Message) :
    sendMessage f true m.1 = .open oWronly 0 (sendOpened f.fullName m.1) ∧
      sendOpened f.fullName m.1 none = .write m.1 (sendWritten f.fullName) := by
  obtain ⟨hlen, hrange⟩ := m.2.rangeCheck
  constructor
  · unfold sendMessage Script.assert Script.rangeCheck
    rw [if_pos rfl, if_pos hrange]
  · unfold sendOpened
    rw [hlen, List.take_length]

end OksSystem.FIFOConnection
