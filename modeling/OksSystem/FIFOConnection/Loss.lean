import OksSystem.FIFOConnection.Messages
import OksSystem.Lib.Run

/-!
# Messages through a FIFO that is opened for each of them

Any number of processes call `send_message`, one calls `read_message` again and again, and the system calls of all of them
interleave. An open waits for the other side. The FIFO is the part of the byte stream that has not left it; when the last
open descriptor is closed, the rest of it leaves the FIFO.

* `Piece` : bytes and their place in the stream;
* `Exchange`, `exchanges` : the processes and the FIFO, a system call at a time;
* `Exchange.Kept` : each byte of a message whose `send_message` has returned is in a string that `read_message` returned or is
  returning, or in the FIFO;
* `Label.Tidy` : the call does not close the last descriptor while there are bytes in the FIFO;
* `kept_iff` : no byte is lost exactly when every call is tidy.
-/

namespace OksSystem.FIFOConnection
open ByteBuffer

structure Piece where
  start : Nat
  bytes : Str
  deriving DecidableEq, Repr

/-- `b` is the byte of the piece at place `p` of the stream. -/
def Piece.Has (x : Piece) (p : Nat) (b : Byte) : Prop := x.start ≤ p ∧ x.bytes[p - x.start]? = some b

structure Exchange where
  file : File
  /-- What the calls of `send_message` and of `read_message` still do. -/
  senders : Nat → Option (Script Unit)
  reader : Option (Script Str)
  /-- All bytes written, of which the first `gone` have left the FIFO. -/
  stream : Str
  gone : Nat
  /-- The message of each sender's call, and where it was written. -/
  sent : Nat → Piece
  /-- Where the bytes that the reader took last begin. -/
  start : Nat
  /-- The messages of the calls of `send_message` that returned, and the strings that `read_message` returned. -/
  accepted : List Piece
  returned : List Piece

namespace Exchange

/-- The bytes in the FIFO. -/
def queue (s : Exchange) : Str := s.stream.drop s.gone

/-- The string that a call of `read_message` is returning. -/
def inProgress (s : Exchange) : Option Piece :=
  match s.reader with
  | some (.close (.ret str)) => some ⟨s.start, str⟩
  | _ => none

/-- Nobody has the FIFO open. -/
def Unheld (s : Exchange) : Prop :=
  (∀ sc, s.reader = some sc → sc.holds = false) ∧ ∀ k sc, s.senders k = some sc → sc.holds = false

def setSender (s : Exchange) (k : Nat) (sc : Option (Script Unit)) : Exchange :=
  { s with senders := Function.update s.senders k sc }

def setReader (s : Exchange) (sc : Option (Script Str)) : Exchange := { s with reader := sc }

/-- The call of sender `k` begins. -/
def sendCalled (s : Exchange) (k : Nat) (existing : Bool) (m : Str) : Exchange :=
  { s.setSender k (some (sendMessage s.file existing m)) with sent := Function.update s.sent k ⟨0, m⟩ }

/-- Sender `k` has written `bytes`. -/
def wrote (s : Exchange) (k : Nat) (bytes : Str) (sc : Script Unit) : Exchange :=
  { s.setSender k (some sc) with
    stream := s.stream ++ bytes
    sent := Function.update s.sent k ⟨s.stream.length, (s.sent k).bytes⟩ }

/-- The reader has taken `count` bytes. -/
def took (s : Exchange) (count : Nat) (sc : Script Str) : Exchange :=
  { s.setReader (some sc) with
    gone := s.gone + count
    start := s.gone }

/-- The call of sender `k` is over, and has returned if its script says so. -/
def sendDone (s : Exchange) (k : Nat) (sc : Script Unit) : Exchange :=
  { s.setSender k none with
    accepted := match sc with
      | .ret () => s.accepted ++ [s.sent k]
      | _ => s.accepted }

def readDone (s : Exchange) (sc : Script Str) : Exchange :=
  { s.setReader none with
    returned := match sc with
      | .ret str => s.returned ++ [⟨s.start, str⟩]
      | _ => s.returned }

/-- What is left when a descriptor was closed. -/
inductive Closed (s : Exchange) : Exchange → Prop
  | last (h : s.Unheld) : Closed s { s with gone := s.stream.length }
  | other (h : ¬ s.Unheld) : Closed s s

/-- The system calls, and the error of one that fails. -/
inductive Label where
  | sendCall (k : Nat) (existing : Bool) (m : Message)
  | readCall (existing : Bool)
  | meet (k : Nat)
  | sendOpen (k : Nat) (error : Option Errno)
  | readOpen (error : Option Errno)
  | write (k : Nat) (error : Option Errno)
  | read (error : Option Errno)
  | sendClose (k : Nat)
  | readClose
  | sendLeave (k : Nat)
  | readLeave

inductive Step : Exchange → Label → Exchange → Prop
  | sendCall {s k existing} {m : Message} (hk : s.senders k = none) :
      Step s (.sendCall k existing m) (s.sendCalled k existing m.1)
  | readCall {s existing} (hr : s.reader = none) :
      Step s (.readCall existing) (s.setReader (some (readMessage s.file existing)))
  /-- Both sides wait for each other. -/
  | meet {s k f p next f' p' next'} (hk : s.senders k = some (.open f p next)) (hr : s.reader = some (.open f' p' next')) :
      Step s (.meet k) ((s.setSender k (some (next none))).setReader (some (next' none)))
  | sendOpen {s k f p next error} (hk : s.senders k = some (.open f p next))
      (hwait : error = none → ∃ sc, s.reader = some sc ∧ sc.holds = true) :
      Step s (.sendOpen k error) (s.setSender k (some (next error)))
  | readOpen {s f p next error} (hr : s.reader = some (.open f p next))
      (hwait : error = none → ∃ k sc, s.senders k = some sc ∧ sc.holds = true) :
      Step s (.readOpen error) (s.setReader (some (next error)))
  /-- A write is for a reader, and is not divided. -/
  | write {s k bytes next} (hk : s.senders k = some (.write bytes next))
      (hreader : ∃ sc, s.reader = some sc ∧ sc.holds = true) :
      Step s (.write k none) (s.wrote k bytes (next (.ok bytes.length)))
  | writeFails {s k bytes next error} (hk : s.senders k = some (.write bytes next)) :
      Step s (.write k (some error)) (s.setSender k (some (next (.error error))))
  /-- No bytes are given at the end of the FIFO, when nobody has it open for writing. -/
  | read {s n again next answer} (hr : s.reader = some (.loop n again next))
      (hwait : s.queue = [] → ∀ k sc, s.senders k = some sc → sc.holds = false) (hanswer : answer = .ok (s.queue.take n)) :
      Step s (.read none)
        (s.took (s.queue.take n).length (if again answer then .loop n again next else next answer))
  | readFails {s n again next error answer} (hr : s.reader = some (.loop n again next)) (hanswer : answer = .error error) :
      Step s (.read (some error)) (s.setReader (some (if again answer then .loop n again next else next answer)))
  | sendClose {s k next s'} (hk : s.senders k = some (.close next)) (h : Closed (s.sendDone k next) s') :
      Step s (.sendClose k) s'
  | readClose {s next s'} (hr : s.reader = some (.close next)) (h : Closed (s.readDone next) s') : Step s .readClose s'
  | sendLeave {s k i} (hk : s.senders k = some (.throw i)) : Step s (.sendLeave k) (s.setSender k none)
  | readLeave {s i} (hr : s.reader = some (.throw i)) : Step s .readLeave (s.setReader none)

/-- The runs on an empty FIFO that nobody has opened. -/
def exchanges : LTS Exchange Label where
  init s := (∀ k, s.senders k = none) ∧ s.reader = none ∧ s.stream = [] ∧ s.gone = 0 ∧ s.accepted = [] ∧ s.returned = []
  step := Step

/-- No byte of an accepted message is lost. -/
def Kept (s : Exchange) : Prop :=
  ∀ x ∈ s.accepted, ∀ p b, x.Has p b →
    (∃ r ∈ s.returned, r.Has p b) ∨ (∃ r, s.inProgress = some r ∧ r.Has p b) ∨ Piece.Has ⟨s.gone, s.queue⟩ p b

/-- The last open descriptor is closed only when the FIFO is empty. -/
def Label.Tidy (s : Exchange) : Label → Prop
  | sendClose k => (s.setSender k none).Unheld → s.queue = []
  | readClose => (s.setReader none).Unheld → s.queue = []
  | _ => True

variable {s s' t : Exchange} {i : Label} {k : Nat}

/-! ## Places in the stream -/

theorem has_drop {stream : Str} {a p : Nat} {b : Byte} :
    Piece.Has ⟨a, stream.drop a⟩ p b ↔ a ≤ p ∧ stream[p]? = some b := by
  refine and_congr_right fun hle => ?_
  show (stream.drop a)[p - a]? = some b ↔ _
  rw [List.getElem?_drop, Nat.add_sub_cancel' hle]

theorem getElem?_take_iff {l : Str} {n j : Nat} {b : Byte} :
    (l.take n)[j]? = some b ↔ j < (l.take n).length ∧ l[j]? = some b := by
  rw [List.getElem?_take, List.length_take]
  split_ifs with hlt
  · refine (and_iff_right_of_imp fun hb => ?_).symm
    have hj := (List.getElem?_eq_some_iff.1 hb).1
    omega
  · exact iff_of_false nofun fun h => hlt (by omega)

theorem has_take {stream : Str} {a n p : Nat} {b : Byte} :
    Piece.Has ⟨a, (stream.drop a).take n⟩ p b ↔
      a ≤ p ∧ p < a + ((stream.drop a).take n).length ∧ stream[p]? = some b := by
  refine and_congr_right fun hle : a ≤ p => ?_
  show ((stream.drop a).take n)[p - a]? = some b ↔ _
  rw [getElem?_take_iff, List.getElem?_drop, Nat.add_sub_cancel' hle]
  refine and_congr_left' ⟨fun _ => by omega, fun _ => by omega⟩

/-- What was written last. -/
theorem has_append {stream bytes : Str} {p : Nat} {b : Byte} (h : Piece.Has ⟨stream.length, bytes⟩ p b) :
    (stream ++ bytes)[p]? = some b := by
  rw [List.getElem?_append_right h.1]
  exact h.2

theorem getElem?_append_of {stream : Str} {p : Nat} {b : Byte} (h : stream[p]? = some b) (bytes : Str) :
    (stream ++ bytes)[p]? = some b := by
  obtain ⟨hlt, -⟩ := List.getElem?_eq_some_iff.1 h
  rwa [List.getElem?_append_left hlt]

/-! ## What the calls before tell -/

/-- Where a call of `send_message` with the message `x` can be. -/
inductive SendAt (f : File) (stream : Str) (x : Piece) : Option (Script Unit) → Prop
  | idle : SendAt f stream x none
  | throws (i : Issue) : SendAt f stream x (some (.throw i))
  | opens (h : IsMessage x.bytes) : SendAt f stream x (some (.open oWronly 0 (sendOpened f.fullName x.bytes)))
  | writes (h : IsMessage x.bytes) : SendAt f stream x (some (.write x.bytes (sendWritten f.fullName)))
  | fails (i : Issue) : SendAt f stream x (some (.close (.throw i)))
  | returns (h : ∀ p b, x.Has p b → stream[p]? = some b) : SendAt f stream x (some (.close (.ret ())))

theorem SendAt.append {f : File} {stream : Str} {x : Piece} {sc : Option (Script Unit)} (h : SendAt f stream x sc)
    (bytes : Str) : SendAt f (stream ++ bytes) x sc := by
  cases h with
  | idle => exact .idle
  | throws i => exact .throws i
  | opens h => exact .opens h
  | writes h => exact .writes h
  | fails i => exact .fails i
  | returns h => exact .returns fun p b hb => getElem?_append_of (h p b hb) bytes

/-- Where a call of `read_message` can be. -/
inductive ReadAt (f : File) : Option (Script Str) → Prop
  | idle : ReadAt f none
  | throws (i : Issue) : ReadAt f (some (.throw i))
  | opens : ReadAt f (some (.open oRdonly 0 (readOpened f.fullName)))
  | loops : ReadAt f (some (.loop (maxMessageLen - 1) readAgain (readTaken f.fullName)))
  | fails (i : Issue) : ReadAt f (some (.close (.throw i)))
  | returns (str : Str) : ReadAt f (some (.close (.ret str)))

/-- The strings returned or being returned. -/
def given (s : Exchange) : List Piece := s.returned ++ s.inProgress.toList

theorem inProgress_eq_none {sc : Option (Script Str)} (hr : s.reader = sc)
    (hsc : ∀ str, sc ≠ some (.close (.ret str))) : s.inProgress = none := by
  unfold inProgress
  split
  · rename_i str hstr
    exact absurd (hr.symm.trans hstr) (hsc str)
  · rfl

/-- As long as nothing is lost: what has left the FIFO is given, and what is in it belongs to a message that is accepted or
about to be. -/
structure Told (s : Exchange) : Prop where
  senders : ∀ k, SendAt s.file s.stream (s.sent k) (s.senders k)
  reader : ReadAt s.file s.reader
  bound : s.gone ≤ s.stream.length
  clean : 0 ∉ s.stream
  taken : ∀ p b, p < s.gone → s.stream[p]? = some b → ∃ r ∈ s.given, r.Has p b
  old : ∀ r ∈ s.given, ∀ p b, r.Has p b → p < s.gone
  accepted : ∀ x ∈ s.accepted, ∀ p b, x.Has p b → s.stream[p]? = some b
  queued : ∀ p b, s.gone ≤ p → s.stream[p]? = some b →
    (∃ x ∈ s.accepted, x.Has p b) ∨ ∃ k, s.senders k = some (.close (.ret ())) ∧ (s.sent k).Has p b

theorem Told.kept (h : s.Told) : s.Kept := by
  intro x hx p b hb
  have hbyte := h.accepted x hx p b hb
  by_cases hp : p < s.gone
  · obtain ⟨r, hr, hhas⟩ := h.taken p b hp hbyte
    obtain hr | hr := List.mem_append.1 hr
    · exact .inl ⟨r, hr, hhas⟩
    · exact .inr (.inl ⟨r, Option.mem_toList.1 hr, hhas⟩)
  · exact .inr (.inr (has_drop.2 ⟨by omega, hbyte⟩))

/-- A sender goes on, and its message is not about to be accepted. -/
theorem Told.sender (h : s.Told) {x : Piece} {sc : Option (Script Unit)} (hk : s.senders k ≠ some (.close (.ret ())))
    (hsc : SendAt s.file s.stream x sc) : Told { s.setSender k sc with sent := Function.update s.sent k x } := by
  refine ⟨fun j => ?_, h.reader, h.bound, h.clean, h.taken, h.old, h.accepted, fun p b hp hb => ?_⟩
  · show SendAt s.file s.stream (Function.update s.sent k x j) (Function.update s.senders k sc j)
    by_cases hj : j = k
    · rw [hj, Function.update_self, Function.update_self]
      exact hsc
    · rw [Function.update_of_ne hj, Function.update_of_ne hj]
      exact h.senders j
  · obtain hx | ⟨j, hj, hhas⟩ := h.queued p b hp hb
    · exact .inl hx
    · have hjk : j ≠ k := fun heq => hk (heq ▸ hj)
      refine .inr ⟨j, ?_, ?_⟩
      · exact (Function.update_of_ne hjk _ _).trans hj
      · show (Function.update s.sent k x j).Has p b
        rwa [Function.update_of_ne hjk]

theorem Told.setSender (h : s.Told) {sc : Option (Script Unit)} (hk : s.senders k ≠ some (.close (.ret ())))
    (hsc : SendAt s.file s.stream (s.sent k) sc) : (s.setSender k sc).Told := by
  have htold := h.sender hk hsc
  rwa [Function.update_eq_self] at htold

/-- The reader goes on, and gives nothing. -/
theorem Told.setReader (h : s.Told) {sc : Option (Script Str)} (hsc : ReadAt s.file sc) (hold : s.inProgress = none)
    (hnew : (s.setReader sc).inProgress = none) : (s.setReader sc).Told := by
  have hgiven : (s.setReader sc).given = s.given := by
    unfold given
    rw [hold, hnew]
    rfl
  refine ⟨h.senders, hsc, h.bound, h.clean, ?_, ?_, h.accepted, h.queued⟩
  · rw [hgiven]
    exact h.taken
  · rw [hgiven]
    exact h.old

/-- The message of `k` goes to the end of the stream. -/
theorem Told.wrote (h : s.Told) (hm : IsMessage (s.sent k).bytes)
    (hk : s.senders k = some (.write (s.sent k).bytes (sendWritten s.file.fullName))) :
    (s.wrote k (s.sent k).bytes (.close (.ret ()))).Told := by
  have hmono : ∀ p b, s.stream[p]? = some b → (s.stream ++ (s.sent k).bytes)[p]? = some b := fun p b hb =>
    getElem?_append_of hb _
  refine ⟨fun j => ?_, h.reader, ?_, ?_, fun p b hp hb => ?_, h.old, fun x hx p b hb => hmono p b (h.accepted x hx p b hb),
    fun p b hp hb => ?_⟩
  · show SendAt s.file (s.stream ++ _) (Function.update s.sent k _ j) (Function.update s.senders k _ j)
    by_cases hj : j = k
    · rw [hj, Function.update_self, Function.update_self]
      exact .returns fun p b => has_append
    · rw [Function.update_of_ne hj, Function.update_of_ne hj]
      exact (h.senders j).append _
  · show s.gone ≤ (s.stream ++ _).length
    have hbound := h.bound
    rw [List.length_append]
    omega
  · exact fun hmem => (List.mem_append.1 hmem).elim h.clean hm.2.2
  · have hlt : p < s.stream.length := Nat.lt_of_lt_of_le hp h.bound
    refine h.taken p b hp ?_
    rwa [← List.getElem?_append_left hlt]
  · by_cases hlt : p < s.stream.length
    · have hold : s.stream[p]? = some b := by rwa [← List.getElem?_append_left hlt]
      obtain hx | ⟨j, hj, hhas⟩ := h.queued p b hp hold
      · exact .inl hx
      · have hjk : j ≠ k := fun heq => nomatch (heq ▸ hj).symm.trans hk
        refine .inr ⟨j, (Function.update_of_ne hjk _ _).trans hj, ?_⟩
        show (Function.update s.sent k _ j).Has p b
        rwa [Function.update_of_ne hjk]
    · refine .inr ⟨k, Function.update_self _ _ _, ?_⟩
      show (Function.update s.sent k _ k).Has p b
      rw [Function.update_self]
      have hle : s.stream.length ≤ p := by omega
      refine ⟨hle, ?_⟩
      rwa [← List.getElem?_append_right hle]

/-- The bytes at the front of the FIFO go to the reader. -/
theorem Told.took (h : s.Told) (hold : s.inProgress = none) (n : Nat) :
    (s.took (s.queue.take n).length (.close (.ret (s.queue.take n)))).Told := by
  have hgiven : (s.took (s.queue.take n).length (.close (.ret (s.queue.take n)))).given =
      s.given ++ [⟨s.gone, s.queue.take n⟩] := by
    unfold given
    rw [hold]
    show s.returned ++ _ = s.returned ++ [] ++ _
    rw [List.append_nil]
    rfl
  have hbound := h.bound
  refine ⟨h.senders, .returns _, ?_, h.clean, fun p b hp hb => ?_, fun r hr p b hhas => ?_, h.accepted,
    fun p b hp hb => h.queued p b (Nat.le_trans (Nat.le_add_right _ _) hp) hb⟩
  · show s.gone + (s.queue.take n).length ≤ s.stream.length
    unfold queue
    rw [List.length_take, List.length_drop]
    omega
  · rw [hgiven]
    by_cases hlt : p < s.gone
    · obtain ⟨r, hr, hhas⟩ := h.taken p b hlt hb
      exact ⟨r, List.mem_append_left _ hr, hhas⟩
    · exact ⟨_, List.mem_append_right _ (List.mem_singleton_self _), has_take.2 ⟨by omega, hp, hb⟩⟩
  · rw [hgiven] at hr
    obtain hr | hr := List.mem_append.1 hr
    · exact Nat.lt_of_lt_of_le (h.old r hr p b hhas) (Nat.le_add_right _ _)
    · rw [List.mem_singleton.1 hr] at hhas
      exact (has_take.1 hhas).2.1

/-- The call of a sender is over. -/
theorem Told.sendDone (h : s.Told) {next : Script Unit} (hk : s.senders k = some (.close next)) :
    (s.sendDone k next).Told := by
  have hat := h.senders k
  rw [hk] at hat
  cases hat with
  | fails i => exact h.setSender (by rw [hk]; nofun) .idle
  | returns hslice =>
    refine ⟨fun j => ?_, h.reader, h.bound, h.clean, h.taken, h.old, fun x hx p b hb => ?_, fun p b hp hb => ?_⟩
    · show SendAt s.file s.stream (s.sent j) (Function.update s.senders k none j)
      by_cases hj : j = k
      · rw [hj, Function.update_self]
        exact .idle
      · rw [Function.update_of_ne hj]
        exact h.senders j
    · obtain hx | hx := List.mem_append.1 hx
      · exact h.accepted x hx p b hb
      · rw [List.mem_singleton.1 hx] at hb
        exact hslice p b hb
    · obtain ⟨x, hx, hhas⟩ | ⟨j, hj, hhas⟩ := h.queued p b hp hb
      · exact .inl ⟨x, List.mem_append_left _ hx, hhas⟩
      · by_cases hjk : j = k
        · exact .inl ⟨_, List.mem_append_right _ (List.mem_singleton_self _), hjk ▸ hhas⟩
        · exact .inr ⟨j, (Function.update_of_ne hjk _ _).trans hj, hhas⟩

/-- The call of the reader is over. -/
theorem Told.readDone (h : s.Told) {next : Script Str} (hr : s.reader = some (.close next)) : (s.readDone next).Told := by
  have hat := h.reader
  rw [hr] at hat
  cases hat with
  | fails i => exact h.setReader .idle (inProgress_eq_none hr nofun) rfl
  | returns str =>
    have hgiven : (s.readDone (.ret str)).given = s.given := by
      unfold given inProgress
      rw [hr]
      exact List.append_nil _
    refine ⟨h.senders, .idle, h.bound, h.clean, ?_, ?_, h.accepted, h.queued⟩
    · rw [hgiven]
      exact h.taken
    · rw [hgiven]
      exact h.old

/-! ## One call -/

theorem queue_eq_nil_iff (h : s.Told) : s.queue = [] ↔ s.gone = s.stream.length := by
  have hbound := h.bound
  unfold queue
  rw [List.drop_eq_nil_iff]
  omega

/-- The byte at the front of the FIFO belongs to an accepted message when nobody has the FIFO open. -/
theorem Told.accepted_front (h : s.Told) (hu : s.Unheld) {b : Byte} (hb : s.stream[s.gone]? = some b) :
    ∃ x ∈ s.accepted, x.Has s.gone b := by
  obtain hx | ⟨k, hk, -⟩ := h.queued s.gone b le_rfl hb
  · exact hx
  · exact nomatch hu.2 k _ hk

/-- When the last descriptor is closed, what is in the FIFO belongs to accepted messages, and is lost. -/
theorem kept_closed (h : s.Told) (hc : Closed s s') :
    (s'.Kept ↔ (s.Unheld → s.queue = [])) ∧ ((s.Unheld → s.queue = []) → s'.Told) := by
  cases hc with
  | other hheld => exact ⟨iff_of_true h.kept fun hu => absurd hu hheld, fun _ => h⟩
  | last hu =>
    rw [forall_prop_of_true hu]
    have hself : s.queue = [] → { s with gone := s.stream.length } = s := fun hq => by
      rw [← (queue_eq_nil_iff h).1 hq]
    refine ⟨⟨fun hkept => ?_, fun hq => ?_⟩, fun hq => ?_⟩
    · by_contra hq
      have hlt : s.gone < s.stream.length :=
        Nat.lt_of_le_of_ne h.bound fun heq => hq ((queue_eq_nil_iff h).2 heq)
      have hb := List.getElem?_eq_getElem hlt
      obtain ⟨x, hx, hhas⟩ := h.accepted_front hu hb
      obtain ⟨r, hr, hgone⟩ | ⟨r, hr, hgone⟩ | hgone := hkept x hx s.gone _ hhas
      · exact Nat.lt_irrefl _ (h.old r (List.mem_append_left _ hr) _ _ hgone)
      · exact Nat.lt_irrefl _ (h.old r (List.mem_append_right _ (Option.mem_toList.2 hr)) _ _ hgone)
      · exact Nat.lt_irrefl _ (Nat.lt_of_lt_of_le hlt hgone.1)
    · rw [hself hq]
      exact h.kept
    · rw [hself hq]
      exact h

theorem sendMessage_at (f : File) (existing : Bool) (stream : Str) (m : Message) :
    SendAt f stream ⟨0, m.1⟩ (some (sendMessage f existing m.1)) := by
  cases existing with
  | false => exact .throws _
  | true =>
    rw [(sendMessage_eq f m).1]
    exact .opens m.2

theorem readMessage_at (f : File) (existing : Bool) : ReadAt f (some (readMessage f existing)) := by
  cases existing with
  | false => exact .throws _
  | true => exact .opens

theorem sendOpened_at (f : File) (stream : Str) {x : Piece} (hm : IsMessage x.bytes) (error : Option Errno) :
    SendAt f stream x (some (sendOpened f.fullName x.bytes error)) := by
  cases error with
  | some e => exact .throws _
  | none =>
    rw [(sendMessage_eq f ⟨x.bytes, hm⟩).2]
    exact .writes hm

theorem readOpened_at (f : File) (error : Option Errno) : ReadAt f (some (readOpened f.fullName error)) := by
  cases error with
  | some e => exact .throws _
  | none => exact .loops

/-- A turn of the reader's loop. -/
theorem Told.read (h : s.Told) (hr : s.reader = some (.loop (maxMessageLen - 1) readAgain (readTaken s.file.fullName))) :
    (s.took (s.queue.take (maxMessageLen - 1)).length
      (if readAgain (.ok (s.queue.take (maxMessageLen - 1))) then
        .loop (maxMessageLen - 1) readAgain (readTaken s.file.fullName)
      else readTaken s.file.fullName (.ok (s.queue.take (maxMessageLen - 1))))).Told := by
  have hold : s.inProgress = none := inProgress_eq_none hr nofun
  have hclean : 0 ∉ s.queue.take (maxMessageLen - 1) := fun hmem =>
    h.clean (List.mem_of_mem_drop (List.mem_of_mem_take hmem))
  by_cases hnil : (s.queue.take (maxMessageLen - 1)).length = 0
  · have hagain : readAgain (.ok (s.queue.take (maxMessageLen - 1))) = true := decide_eq_true hnil
    rw [hagain, if_pos rfl, hnil]
    have hgiven : (s.took 0 (.loop (maxMessageLen - 1) readAgain (readTaken s.file.fullName))).given = s.given := by
      unfold given
      rw [hold]
      rfl
    refine ⟨h.senders, .loops, h.bound, h.clean, ?_, ?_, h.accepted, h.queued⟩
    · rw [hgiven]
      exact h.taken
    · rw [hgiven]
      exact h.old
  · have hstr : readTaken s.file.fullName (.ok (s.queue.take (maxMessageLen - 1))) =
        .close (.ret (s.queue.take (maxMessageLen - 1))) := by
      show Script.close (if (s.queue.take (maxMessageLen - 1)).length < maxMessageLen then _ else _) = _
      rw [if_pos (length_take_lt s.queue), cstr_append_nul hclean []]
    have hagain : readAgain (.ok (s.queue.take (maxMessageLen - 1))) = false := decide_eq_false hnil
    rw [hagain, if_neg Bool.false_ne_true, hstr]
    exact h.took hold _

/-- A call that closes nothing. -/
theorem Told.step (h : s.Told) (hs : s.Step i s') (hi : ∀ k, i ≠ .sendClose k) (hi' : i ≠ .readClose) : s'.Told := by
  cases hs with
  | @sendCall k existing m hk => exact h.sender (by rw [hk]; nofun) (sendMessage_at s.file existing s.stream m)
  | @readCall existing hr =>
    refine h.setReader (readMessage_at s.file existing) (inProgress_eq_none hr nofun) ?_
    cases existing <;> rfl
  | @meet k f p next f' p' next' hk hr =>
    have hsend := h.senders k
    have hread := h.reader
    rw [hk] at hsend
    rw [hr] at hread
    cases hsend with
    | opens hm =>
      cases hread with
      | opens =>
        have hopened := h.setSender (by rw [hk]; nofun) (sendOpened_at s.file s.stream hm none)
        exact hopened.setReader .loops (inProgress_eq_none hr nofun) rfl
  | @sendOpen k f p next error hk hwait =>
    have hsend := h.senders k
    rw [hk] at hsend
    cases hsend with
    | opens hm => exact h.setSender (by rw [hk]; nofun) (sendOpened_at s.file s.stream hm error)
  | @readOpen f p next error hr hwait =>
    have hread := h.reader
    rw [hr] at hread
    cases hread with
    | opens =>
      refine h.setReader (readOpened_at s.file error) (inProgress_eq_none hr nofun) ?_
      cases error <;> rfl
  | @write k bytes next hk hreader =>
    have hsend := h.senders k
    rw [hk] at hsend
    cases hsend with
    | writes hm => exact h.wrote hm hk
  | @writeFails k bytes next error hk =>
    have hsend := h.senders k
    rw [hk] at hsend
    cases hsend with
    | writes hm => exact h.setSender (by rw [hk]; nofun) (.fails _)
  | @read n again next answer hr hwait hanswer =>
    have hread := h.reader
    rw [hr] at hread
    cases hread with
    | loops =>
      rw [hanswer]
      exact h.read hr
  | @readFails n again next error answer hr hanswer =>
    have hread := h.reader
    rw [hr] at hread
    cases hread with
    | loops =>
      rw [hanswer]
      exact h.setReader (.fails _) (inProgress_eq_none hr nofun) rfl
  | sendClose hk hc => exact absurd rfl (hi _)
  | readClose hr hc => exact absurd rfl hi'
  | @sendLeave k i hk => exact h.setSender (by rw [hk]; nofun) .idle
  | readLeave hr => exact h.setReader .idle (inProgress_eq_none hr nofun) rfl

theorem told_step (h : s.Told) (hs : s.Step i s') : (s'.Kept ↔ i.Tidy s) ∧ (i.Tidy s → s'.Told) := by
  by_cases hi : ∃ k, i = .sendClose k
  · obtain ⟨k, rfl⟩ := hi
    cases hs with
    | sendClose hk hc =>
      have hclosed := kept_closed (h.sendDone hk) hc
      exact hclosed
  · by_cases hi' : i = .readClose
    · subst hi'
      cases hs with
      | readClose hr hc =>
        have hclosed := kept_closed (h.readDone hr) hc
        exact hclosed
    · have htold := h.step hs (not_exists.1 hi) hi'
      have htidy : i.Tidy s := by
        cases i with
        | sendClose k => exact absurd ⟨k, rfl⟩ hi
        | readClose => exact absurd rfl hi'
        | _ => trivial
      exact ⟨iff_of_true htold.kept htidy, fun _ => htold⟩

theorem told_init (h : exchanges.init s) : s.Told := by
  obtain ⟨hsenders, hreader, hstream, hgone, haccepted, hreturned⟩ := h
  have hgiven : s.given = [] := by
    unfold given
    rw [inProgress_eq_none hreader nofun, hreturned]
    rfl
  refine ⟨fun k => ?_, ?_, ?_, ?_, ?_, ?_, ?_, ?_⟩
  · rw [hsenders k]
    exact .idle
  · rw [hreader]
    exact .idle
  · rw [hgone]
    exact Nat.zero_le _
  · rw [hstream]
    exact List.not_mem_nil
  · rw [hgone]
    exact fun p b hp => absurd hp (Nat.not_lt_zero p)
  · rw [hgiven]
    exact fun r hr => absurd hr List.not_mem_nil
  · rw [haccepted]
    exact fun x hx => absurd hx List.not_mem_nil
  · rw [hstream]
    exact fun p b _ hb => nomatch hb

/-- **No byte of a message whose `send_message` has returned is lost, exactly when nobody closes the last open descriptor while
there are bytes in the FIFO.** -/
theorem kept_iff {xs : List (Exchange × Label)} (h : exchanges.Trace xs s) :
    ((∀ x ∈ xs, x.1.Kept) ∧ s.Kept) ↔ ∀ x ∈ xs, x.2.Tidy x.1 :=
  h.good_iff (I := Told) (fun _ => told_init) (fun _ hI => hI.kept) fun _ _ _ _ hI hs => told_step hI hs

/-! ## Two messages and one read -/

def start₀ : Exchange := ⟨⟨text "/tmp/f"⟩, fun _ => none, none, [], 0, fun _ => ⟨0, []⟩, 0, [], []⟩

/-- The reader and a sender have opened the FIFO. -/
def met : Exchange :=
  (((start₀.sendCalled 0 true letterA.1).setReader (some (readMessage start₀.file true))).setSender 0
    (some (sendOpened (text "/tmp/f") letterA.1 none))).setReader (some (readOpened (text "/tmp/f") none))

def filled : Exchange := met.wrote 0 letterA.1 (.close (.ret ()))

def drained : Exchange := filled.took 1 (.close (.ret letterA.1))

/-- The message is read, and its sender has returned; the reader has not. -/
def passed : Exchange := drained.sendDone 0 (.ret ())

theorem not_unheld {sc : Script Str} (hr : s.reader = some sc) (h : sc.holds = true) : ¬ s.Unheld := fun hu =>
  Bool.false_ne_true ((hu.1 sc hr).symm.trans h)

theorem trace_passed : ∃ xs, exchanges.Trace xs passed ∧ ∀ x ∈ xs, x.2.Tidy x.1 := by
  let called := start₀.sendCalled 0 true letterA.1
  let asked := called.setReader (some (readMessage start₀.file true))
  have hcall : start₀.Step (.sendCall 0 true letterA) called := .sendCall rfl
  have hread : called.Step (.readCall true) asked := .readCall rfl
  have hmeet : asked.Step (.meet 0) met := .meet rfl rfl
  have hwrite : met.Step (.write 0 none) filled :=
    @Step.write met 0 letterA.1 (sendWritten (text "/tmp/f")) rfl ⟨_, rfl, rfl⟩
  have htake : filled.Step (.read none) drained :=
    @Step.read _ (maxMessageLen - 1) readAgain (readTaken (text "/tmp/f")) (.ok letterA.1) rfl
      (fun hq => absurd hq (by decide)) rfl
  have hclose : drained.Step (.sendClose 0) passed := .sendClose rfl (.other (not_unheld rfl rfl))
  have hinit : exchanges.init start₀ := ⟨fun _ => rfl, rfl, rfl, rfl, rfl, rfl⟩
  refine ⟨_, ((((((LTS.Trace.init hinit).snoc hcall).snoc hread).snoc hmeet).snoc hwrite).snoc htake).snoc hclose, ?_⟩
  simp only [List.forall_mem_append, List.forall_mem_singleton]
  exact ⟨⟨⟨⟨⟨⟨fun _ hx => absurd hx List.not_mem_nil, trivial⟩, trivial⟩, trivial⟩, trivial⟩, trivial⟩,
    fun hu => absurd hu (not_unheld rfl rfl)⟩

/-- One message passes. -/
theorem kept_iff_passed : passed.Kept := by
  obtain ⟨xs, htrace, htidy⟩ := trace_passed
  exact ((kept_iff htrace).2 htidy).2

/-- A second message is written and accepted after the read of the first, and the reader closes the FIFO. -/
theorem second_message_lost : ¬ ∀ xs s, exchanges.Trace xs s → (∀ x ∈ xs, x.1.Kept) ∧ s.Kept := by
  intro hall
  obtain ⟨xs, htrace, -⟩ := trace_passed
  let called := passed.sendCalled 0 true letterB.1
  let opened := called.setSender 0 (some (sendOpened (text "/tmp/f") letterB.1 none))
  let filled := opened.wrote 0 letterB.1 (.close (.ret ()))
  let closed := filled.sendDone 0 (.ret ())
  let last := closed.readDone (.ret letterA.1)
  have hcall : passed.Step (.sendCall 0 true letterB) called := .sendCall rfl
  have hopen : called.Step (.sendOpen 0 none) opened := .sendOpen rfl fun _ => ⟨_, rfl, rfl⟩
  have hwrite : opened.Step (.write 0 none) filled :=
    @Step.write opened 0 letterB.1 (sendWritten (text "/tmp/f")) rfl ⟨_, rfl, rfl⟩
  have hclose : filled.Step (.sendClose 0) closed := .sendClose rfl (.other (not_unheld rfl rfl))
  have hunheld : last.Unheld := by
    refine ⟨nofun, fun k sc hk => ?_⟩
    have hnone : last.senders k = none := by cases k <;> rfl
    exact nomatch hnone.symm.trans hk
  have hlast : closed.Step .readClose { last with gone := last.stream.length } := .readClose rfl (.last hunheld)
  have hkept := (hall _ _ (((((htrace.snoc hcall).snoc hopen).snoc hwrite).snoc hclose).snoc hlast)).2
  obtain ⟨r, hr, hhas⟩ | ⟨r, hr, -⟩ | hqueue := hkept ⟨1, letterB.1⟩ (by decide) 1 98 ⟨le_rfl, rfl⟩
  · obtain rfl := List.mem_singleton.1 hr
    exact absurd hhas.2 (by decide)
  · exact nomatch hr
  · exact absurd hqueue.1 (by decide)

end Exchange

end OksSystem.FIFOConnection
