import OksSystem.Descriptor.Heap
import OksSystem.File.Basic

/-!
# FIFO connections

* `FIFOConnection` : the members of the class; `FIFOConnection.World` : an object and the descriptors it made;
* `openFifo` : what the three openers do alike, with the mode that tells them apart; `openR`, `openW`, `openRw`, `close`;
  `run_mode` : what they do;
* `send`, `read` : one message on the open descriptor; `readLoop` is the loop of `read`, an answer of `::read` at a time;
* `firstRead` : the bytes that end the loop; `run_readLoop` : what a blocking reader returns.
-/

namespace OksSystem
open ByteBuffer EStateM

/-- The members, without the `m_` of their names. -/
structure FIFOConnection extends File where
  fifoFd : Descriptor.Pointer
  isBlocking : Bool
  deriving DecidableEq, Repr

namespace FIFOConnection

/-- MAX_MESSAGE_LEN. -/
def maxMessageLen : Nat := 512

/-- 1 to MAX_MESSAGE_LEN - 1 bytes without NUL. -/
def IsMessage (m : Str) : Prop := m ≠ [] ∧ m.length < maxMessageLen ∧ 0 ∉ m

abbrev Message := {m : Str // IsMessage m}

def letterA : Message := ⟨text "a", by decide, by decide, by decide⟩

def letterB : Message := ⟨text "b", by decide, by decide, by decide⟩

def construct (name : Str) : FIFOConnection := ⟨⟨name⟩, none, true⟩

/-- What the system calls of one member answer. -/
structure System where
  «open» : (flags perm : Nat) → Option Errno
  close : CloseAnswer

structure World where
  self : FIFOConnection
  heap : Descriptor.Heap

abbrev Member (α : Type) := EStateM Descriptor.Fault World α

def onHeap {α : Type} (x : Descriptor.OnHeap α) : Member α := zoom World.heap (fun s h => { s with heap := h }) x

/-- `ERS_ASSERT(c)`. -/
def ersAssert (c : Prop) [Decidable c] : Member Unit := if c then pure () else throw (.thrown .assertion)

/-- `ERS_RANGE_CHECK(min,val,max)`. -/
def rangeCheck (min val max : Nat) : Member Unit :=
  if min ≤ val ∧ val ≤ max then pure () else throw (.thrown (.range min val max))

/-- `m_fifo_fd = p`. -/
def setFifoFd (p : Descriptor.Pointer) : Member Unit := modify fun s => { s with self := { s.self with fifoFd := p } }

/-- `m_is_blocking = b`. -/
def setBlocking (b : Bool) : Member Unit := modify fun s => { s with self := { s.self with isBlocking := b } }

/-! ## Opening and closing -/

/-- `delete m_fifo_fd; m_fifo_fd = 0`. -/
def deleteFd (sys : System) : Member Unit := do
  onHeap (Descriptor.delete (← get).self.fifoFd sys.close)
  setFifoFd none

def openFlags (mode : Nat) (block : Bool) : Nat := if block then mode else mode ||| oNonblock

/-- An opener with `mode` among its flags. -/
def openFifo (mode : Nat) (block : Bool) (sys : System) : Member Descriptor.Pointer := do
  ersAssert ((← get).self.fifoFd = none)
  unless block do setBlocking false
  let name := (← get).self.fullName
  tryCatch (do setFifoFd (← onHeap (Descriptor.new name (sys.open (openFlags mode block) 0)))) fun
    | .thrown (.openFile error name) => do
      deleteFd sys
      throw (.thrown (.openFile error name))
    | ex => throw ex
  return (← get).self.fifoFd

def openR : Bool → System → Member Descriptor.Pointer := openFifo oRdonly

def openW : Bool → System → Member Descriptor.Pointer := openFifo oWronly

def openRw : Bool → System → Member Descriptor.Pointer := openFifo oRdwr

/-- The openers differ in their mode. -/
inductive Mode where
  | r
  | w
  | rw

def Mode.run : Mode → Bool → System → Member Descriptor.Pointer
  | r => openR
  | w => openW
  | rw => openRw

def Mode.flags : Mode → Nat
  | r => oRdonly
  | w => oWronly
  | rw => oRdwr

theorem Mode.run_eq (mode : Mode) : mode.run = openFifo mode.flags := by cases mode <;> rfl

def close (sys : System) : Member Unit := deleteFd sys

/-! ## Messages -/

/-- `size()` as an `unsigned int`. -/
def messageLen (message : Str) : Nat := message.length % 0x100000000

def send (message : Str) (answer : Str → Except Errno Nat) : Member Unit := do
  ersAssert ((← get).self.fifoFd ≠ none)
  let l := messageLen message
  rangeCheck 1 l maxMessageLen
  let _ ← onHeap (Descriptor.on (← get).self.fifoFd (Descriptor.write message l answer))

/-- The loop of `read`, with what the calls of `::read` answer; it goes on after the last of them. -/
def readLoop : List (Except Errno Str) → Member (Option Str)
  | [] => return none
  | answer :: answers => do
    let s ← get
    let buffer ← onHeap (Descriptor.on s.self.fifoFd (Descriptor.read (maxMessageLen - 1) answer))
    let status := buffer.length
    if status > 0 then
      ersAssert (status < maxMessageLen)
      return some (cstr (buffer ++ [0]))
    if s.self.isBlocking = false ∧ status = 0 then return some []
    readLoop answers

def read (answers : List (Except Errno Str)) : Member (Option Str) := do
  ersAssert ((← get).self.fifoFd ≠ none)
  readLoop answers

/-! ## What they do -/

section Outcome

variable {s : World} {sys : System} {mode : Nat} {block : Bool}

/-- After the flags of an opener are chosen. -/
def World.flagged (s : World) (block : Bool) : World :=
  { s with self := { s.self with isBlocking := s.self.isBlocking && block } }

def World.opened (s : World) : World :=
  { self := { s.self with fifoFd := some s.heap.objects.length }, heap := s.heap.made s.self.fullName }

theorem run_assert {c : Prop} [Decidable c] (hc : c) : (ersAssert c).run s = .ok () s := by
  unfold ersAssert
  rw [if_pos hc]
  rfl

/-- An opener up to its `try`. -/
theorem run_openFifo_try (hfd : s.self.fifoFd = none) : (openFifo mode block sys).run s =
    (do
      tryCatch (do setFifoFd (← onHeap (Descriptor.new s.self.fullName (sys.open (openFlags mode block) 0)))) fun
        | .thrown (.openFile error name) => do
          deleteFd sys
          throw (.thrown (.openFile error name))
        | ex => throw ex
      return (← get).self.fifoFd : Member Descriptor.Pointer).run (s.flagged block) := by
  unfold openFifo
  rw [run_bind_ok (run_get s), run_bind_ok (run_assert hfd)]
  cases block with
  | true =>
    have hself : s.flagged true = s := by unfold World.flagged; rw [Bool.and_true]
    rw [hself]
    rfl
  | false =>
    unfold World.flagged
    rw [Bool.and_false]
    rfl

theorem run_openFifo (hfd : s.self.fifoFd = none) (h : sys.open (openFlags mode block) 0 = none) :
    (openFifo mode block sys).run s = .ok (some s.heap.objects.length) (s.flagged block).opened := by
  rw [run_openFifo_try hfd, h]
  rfl

theorem run_openFifo_throws {e : Errno} (hfd : s.self.fifoFd = none) (h : sys.open (openFlags mode block) 0 = some e) :
    (openFifo mode block sys).run s = .error (.thrown (.openFile e (cstr s.self.fullName))) (s.flagged block) := by
  rw [run_openFifo_try hfd, h]
  -- the pointer that the handler sets is null already
  obtain ⟨⟨⟨name⟩, fd, blocking⟩, heap⟩ := s
  obtain rfl : fd = none := hfd
  rfl

/-- What an opener does with a null pointer. -/
theorem run_mode (mode : Mode) (block : Bool) (sys : System) {w : World} (hfd : w.self.fifoFd = none) :
    (sys.open (openFlags mode.flags block) 0 = none ∧
      (mode.run block sys).run w = .ok (some w.heap.objects.length) (w.flagged block).opened) ∨
    sys.open (openFlags mode.flags block) 0 ≠ none ∧ ∃ e, (mode.run block sys).run w = .error e (w.flagged block) := by
  rw [mode.run_eq]
  cases h : sys.open (openFlags mode.flags block) 0 with
  | none => exact .inl ⟨rfl, run_openFifo hfd h⟩
  | some e => exact .inr ⟨by simp, _, run_openFifo_throws hfd h⟩

/-- A descriptor is open. -/
def World.Ready (s : World) : Prop := ∃ d, s.heap.get s.self.fifoFd = some d

theorem ready_opened (s : World) : s.opened.Ready := ⟨_, Descriptor.Heap.get_made s.heap s.self.fullName⟩

theorem World.Ready.fifoFd_ne_none (h : s.Ready) : s.self.fifoFd ≠ none := by
  obtain ⟨d, hd⟩ := h
  intro hnone
  rw [hnone] at hd
  exact nomatch hd

theorem run_close {k : Nat} {d : Descriptor.Object} (hfd : s.self.fifoFd = some k) (hd : s.heap.get (some k) = some d) :
    (close sys).run s = .ok ()
      { self := { s.self with fifoFd := none }
        heap := s.heap.deleted k ((Descriptor.destroy sys.close).run ⟨s.heap.fds, d, s.heap.calls⟩).state } := by
  have hdelete : (onHeap (Descriptor.delete s.self.fifoFd sys.close)).run s = _ :=
    run_zoom_ok (hfd.symm ▸ Descriptor.run_delete sys.close hd)
  unfold close deleteFd
  rw [run_bind_ok (run_get s), run_bind_ok hdelete]
  rfl

theorem run_close_none (hfd : s.self.fifoFd = none) : (close sys).run s = .ok () s := by
  obtain ⟨⟨⟨name⟩, fd, blocking⟩, heap⟩ := s
  obtain rfl : fd = none := hfd
  rfl

/-! `send` -/

theorem IsMessage.rangeCheck {m : Str} (h : IsMessage m) :
    messageLen m = m.length ∧ 1 ≤ messageLen m ∧ messageLen m ≤ maxMessageLen := by
  have hpos := List.length_pos_of_ne_nil h.1
  have hlt := h.2.1
  have hlen : messageLen m = m.length := Nat.mod_eq_of_lt (by unfold maxMessageLen at hlt; omega)
  exact ⟨hlen, by omega, by omega⟩

theorem run_rangeCheck {min val max : Nat} (h : min ≤ val ∧ val ≤ max) : (rangeCheck min val max).run s = .ok () s := by
  unfold rangeCheck
  rw [if_pos h]
  rfl

/-- What `send` does with a message that passes its check. -/
theorem run_send {d : Descriptor.Object} {message : Str} {answer : Str → Except Errno Nat}
    (hd : s.heap.get s.self.fifoFd = some d) (hl : 1 ≤ messageLen message ∧ messageLen message ≤ maxMessageLen) :
    (send message answer).run s =
      match answer (message.take (messageLen message)) with
      | .ok _ => .ok () s
      | .error e => .error (.thrown (.write e (cstr d.name))) s := by
  have hfd := World.Ready.fifoFd_ne_none ⟨d, hd⟩
  have hwrite := Descriptor.run_on_write hd message (messageLen message) answer
  unfold send
  rw [run_bind_ok (run_get s), run_bind_ok (run_assert hfd), run_bind_ok (run_rangeCheck hl), run_bind_ok (run_get s)]
  cases hanswer : answer (message.take (messageLen message)) with
  | ok count =>
    rw [hanswer] at hwrite
    exact run_bind_ok (run_zoom_ok hwrite)
  | error e =>
    rw [hanswer] at hwrite
    exact run_bind_error (run_zoom_error hwrite)

/-! `read` -/

/-- The bytes of the first call of `::read` that gives some, unless one fails before. -/
def firstRead : List (Except Errno Str) → Option Str
  | [] => none
  | .error _ :: _ => none
  | .ok bytes :: answers => if bytes.take (maxMessageLen - 1) = [] then firstRead answers
    else some (bytes.take (maxMessageLen - 1))

theorem length_take_lt (bytes : Str) : (bytes.take (maxMessageLen - 1)).length < maxMessageLen := by
  have hle : (bytes.take (maxMessageLen - 1)).length ≤ maxMessageLen - 1 := List.length_take_le _ _
  unfold maxMessageLen at hle ⊢
  omega

/-- One turn of the loop in which the system gives bytes. -/
theorem run_readLoop_some {d : Descriptor.Object} {bytes : Str} {answers : List (Except Errno Str)}
    (hd : s.heap.get s.self.fifoFd = some d) (hne : bytes.take (maxMessageLen - 1) ≠ []) :
    (readLoop (.ok bytes :: answers)).run s = .ok (some (cstr (bytes.take (maxMessageLen - 1) ++ [0]))) s := by
  have hread : (onHeap (Descriptor.on s.self.fifoFd (Descriptor.read (maxMessageLen - 1) (.ok bytes)))).run s = _ :=
    run_zoom_ok (Descriptor.run_on_read hd (maxMessageLen - 1) bytes)
  unfold readLoop
  rw [run_bind_ok (run_get s), run_bind_ok hread, if_pos (List.length_pos_of_ne_nil hne),
    run_bind_ok (run_assert (length_take_lt bytes))]
  rfl

/-- One turn of the loop at the end of the FIFO. -/
theorem run_readLoop_nil {d : Descriptor.Object} {bytes : Str} {answers : List (Except Errno Str)}
    (hd : s.heap.get s.self.fifoFd = some d) (hnil : bytes.take (maxMessageLen - 1) = []) :
    (readLoop (.ok bytes :: answers)).run s =
      if s.self.isBlocking = false then .ok (some []) s else (readLoop answers).run s := by
  have hread : (onHeap (Descriptor.on s.self.fifoFd (Descriptor.read (maxMessageLen - 1) (.ok bytes)))).run s = _ :=
    run_zoom_ok (Descriptor.run_on_read hd (maxMessageLen - 1) bytes)
  rw [readLoop, run_bind_ok (run_get s), run_bind_ok hread, hnil]
  cases s.self.isBlocking <;> rfl

theorem run_readLoop_throws {d : Descriptor.Object} {e : Errno} {answers : List (Except Errno Str)}
    (hd : s.heap.get s.self.fifoFd = some d) :
    (readLoop (.error e :: answers)).run s = .error (.thrown (.read e (cstr d.name))) s := by
  have hread : (onHeap (Descriptor.on s.self.fifoFd (Descriptor.read (maxMessageLen - 1) (.error e)))).run s = _ :=
    run_zoom_error (Descriptor.run_on_read_throws hd (maxMessageLen - 1) e)
  unfold readLoop
  rw [run_bind_ok (run_get s), run_bind_error hread]

/-- What `read` returns through an object that is blocking. -/
theorem run_readLoop {d : Descriptor.Object} (hd : s.heap.get s.self.fifoFd = some d) (hb : s.self.isBlocking = true)
    (answers : List (Except Errno Str)) (message : Str) (t : World) :
    (readLoop answers).run s = .ok (some message) t ↔
      s = t ∧ ∃ bytes, firstRead answers = some bytes ∧ cstr (bytes ++ [0]) = message := by
  induction answers with
  | nil => exact iff_of_false nofun fun h => nomatch h.2
  | cons answer answers ih =>
    cases answer with
    | error e =>
      rw [run_readLoop_throws hd]
      exact iff_of_false nofun fun h => nomatch h.2
    | ok bytes =>
      unfold firstRead
      by_cases hnil : bytes.take (maxMessageLen - 1) = []
      · rw [run_readLoop_nil hd hnil, if_neg (by simp [hb]), if_pos hnil]
        exact ih
      · rw [run_readLoop_some hd hnil, if_neg hnil]
        simp only [Result.ok.injEq, Option.some.injEq, exists_eq_left', and_comm]

/-- `read` changes nothing. -/
theorem state_readLoop {d : Descriptor.Object} (hd : s.heap.get s.self.fifoFd = some d) (answers : List (Except Errno Str)) :
    ((readLoop answers).run s).state = s := by
  induction answers with
  | nil => rfl
  | cons answer answers ih =>
    cases answer with
    | error e =>
      rw [run_readLoop_throws hd]
      rfl
    | ok bytes =>
      by_cases hnil : bytes.take (maxMessageLen - 1) = []
      · rw [run_readLoop_nil hd hnil]
        split_ifs
        · rfl
        · exact ih
      · rw [run_readLoop_some hd hnil]
        rfl

theorem run_read (hfd : s.self.fifoFd ≠ none) (answers : List (Except Errno Str)) :
    (read answers).run s = (readLoop answers).run s := by
  unfold read
  rw [run_bind_ok (run_get s), run_bind_ok (run_assert hfd)]

theorem cstr_snoc_nul_eq_nil {bytes : Str} : cstr (bytes ++ [0]) = [] ↔ bytes = [] ∨ bytes.head? = some 0 := by
  cases bytes with
  | nil => simp [cstr]
  | cons b bytes => simp [cstr]

theorem firstRead_ne_nil {answers : List (Except Errno Str)} {bytes : Str} (h : firstRead answers = some bytes) :
    bytes ≠ [] := by
  induction answers with
  | nil => exact nomatch h
  | cons answer answers ih =>
    cases answer with
    | error e => exact nomatch h
    | ok bytes' =>
      unfold firstRead at h
      split_ifs at h with hnil
      · exact ih h
      · exact Option.some.inj h ▸ hnil

end Outcome

end FIFOConnection

end OksSystem
