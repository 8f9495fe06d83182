import OksSystem.FIFOConnection.Basic
import OksSystem.Lib.Chunks
import OksSystem.Lib.Run

/-!
# Messages through a FIFO that stays open

The FIFO is a queue of bytes. `send` puts a whole message at its end, `read` takes as many bytes as it has room for, and no
frame tells it where a message ends.

* `Channel`, `channels` : one reader and any number of writers with open descriptors, and their calls in any order;
* `Call.Apart` : a `read` that takes bytes finds one message in the FIFO, or a longest one at its front;
* `delivered_iff` : the messages come one to one exactly when this holds of every call;
* `flatten_written` : in every run, the bytes that are read and those in the FIFO are the bytes that were written.
-/

namespace OksSystem.FIFOConnection
open ByteBuffer EStateM

/-- EAGAIN. -/
def eAgain : Errno := 11

/-- A `::write` that takes `bytes` and nothing else: a `send` that returns has written them. -/
def taking (bytes : Str) (asked : Str) : Except Errno Nat := if asked = bytes then .ok bytes.length else .error eAgain

/-- `queue` are the bytes in the FIFO, one chunk a `::write`. -/
structure Channel where
  reader : World
  writers : Nat → Option World
  queue : List Str
  /-- The messages of the `send` calls that returned, and what the `read` calls returned. -/
  written : List Str
  returned : List Str

namespace Channel

/-- A turn of `read`'s loop or a `send`, and the error if its system call fails. -/
inductive Call where
  | send (writer : Nat) (m : Message) (error : Option Errno)
  | read (error : Option Errno)

inductive Step : Channel → Call → Channel → Prop
  | send {s k m e bytes e'} (he : s.writers k = some e) (h : (FIFOConnection.send m.1 (taking bytes)).run e = .ok () e') :
      Step s (.send k m none) { s with
        writers := Function.update s.writers k (some e')
        queue := s.queue ++ [bytes]
        written := s.written ++ [m.1] }
  | sendThrows {s k m error e i e'} (he : s.writers k = some e)
      (h : (FIFOConnection.send m.1 fun _ => .error error).run e = .error i e') :
      Step s (.send k m (some error)) { s with writers := Function.update s.writers k (some e') }
  | read {s r e} (h : (FIFOConnection.read [.ok s.queue.flatten]).run s.reader = .ok r e) :
      Step s (.read none) { s with
        reader := e
        queue := s.queue.dropFront (maxMessageLen - 1)
        returned := s.returned ++ r.toList }
  | readThrows {s error i e} (h : (FIFOConnection.read [.error error]).run s.reader = .error i e) :
      Step s (.read (some error)) { s with reader := e }

/-- An opener of a new object has returned. -/
def OpenedOn (name : Str) (modes : List Mode) (e : World) : Prop :=
  ∃ mode ∈ modes, ∃ block sys p e₀, e₀.self = construct name ∧ (mode.run block sys).run e₀ = .ok p e

/-- The runs on an empty FIFO that a reader and any writers have opened. -/
def channels : LTS Channel Call where
  init s := (∃ name, OpenedOn name [.r, .rw] s.reader ∧ ∀ k e, s.writers k = some e → OpenedOn name [.w, .rw] e) ∧
    s.queue = [] ∧ s.written = [] ∧ s.returned = []
  step := Step

/-- The strings `read` returned, but the empty ones. -/
def delivered (s : Channel) : List Str := s.returned.filter (· ≠ [])

/-- When the call takes bytes, there is one message in the FIFO, or the first has MAX_MESSAGE_LEN - 1 bytes. -/
def Call.Apart (s : Channel) : Call → Prop
  | read none => s.queue.length ≤ 1 ∨ s.queue.head?.map List.length = some (maxMessageLen - 1)
  | read (some _) => True
  | send .. => True

variable {s s' : Channel} {i : Call}

/-! ## The descriptors stay open -/

theorem OpenedOn.ready {name : Str} {modes : List Mode} {e : World} (h : OpenedOn name modes e) : e.Ready := by
  obtain ⟨mode, -, block, sys, p, e₀, hself, hrun⟩ := h
  obtain ⟨-, hok⟩ | ⟨-, i, he⟩ := run_mode mode block sys (by rw [hself]; rfl : e₀.self.fifoFd = none)
  · obtain ⟨-, rfl⟩ := Result.ok.inj (hok.symm.trans hrun)
    exact ready_opened _
  · exact nomatch he.symm.trans hrun

/-- The objects can be used. -/
structure Open (s : Channel) : Prop where
  reader : s.reader.Ready
  writers : ∀ k e, s.writers k = some e → e.Ready

/-- A `send` that returns has written its message and nothing else. -/
theorem send_ok {m : Message} {e e' : World} {bytes : Str} (he : e.Ready)
    (h : (FIFOConnection.send m.1 (taking bytes)).run e = .ok () e') : bytes = m.1 ∧ e' = e := by
  obtain ⟨d, hd⟩ := he
  obtain ⟨hlen, hrange⟩ := m.2.rangeCheck
  rw [run_send hd hrange, hlen, List.take_length] at h
  unfold taking at h
  split_ifs at h with heq
  · exact ⟨heq.symm, (Result.ok.inj h).2.symm⟩

theorem send_throws {m : Message} {error : Errno} {i : Descriptor.Fault} {e e' : World} (he : e.Ready)
    (h : (FIFOConnection.send m.1 fun _ => .error error).run e = .error i e') : e' = e := by
  obtain ⟨d, hd⟩ := he
  rw [run_send hd m.2.rangeCheck.2] at h
  exact (Result.error.inj h).2.symm

/-- A turn of the loop that does not throw. -/
theorem read_ok {bytes : Str} {r : Option Str} {e e' : World} (he : e.Ready)
    (h : (FIFOConnection.read [.ok bytes]).run e = .ok r e') : e' = e ∧
      if bytes.take (maxMessageLen - 1) = [] then r = none ∨ r = some []
      else r = some (cstr (bytes.take (maxMessageLen - 1) ++ [0])) := by
  have hfd := he.fifoFd_ne_none
  obtain ⟨d, hd⟩ := he
  rw [run_read hfd] at h
  split_ifs with hnil
  · rw [run_readLoop_nil hd hnil] at h
    split_ifs at h
    · obtain ⟨rfl, rfl⟩ := Result.ok.inj h
      exact ⟨rfl, .inr rfl⟩
    · obtain ⟨rfl, rfl⟩ := Result.ok.inj h
      exact ⟨rfl, .inl rfl⟩
  · rw [run_readLoop_some hd hnil] at h
    obtain ⟨rfl, rfl⟩ := Result.ok.inj h
    exact ⟨rfl, rfl⟩

theorem read_throws {error : Errno} {i : Descriptor.Fault} {e e' : World} (he : e.Ready)
    (h : (FIFOConnection.read [.error error]).run e = .error i e') : e' = e := by
  have hfd := he.fifoFd_ne_none
  obtain ⟨d, hd⟩ := he
  rw [run_read hfd, run_readLoop_throws hd] at h
  exact (Result.error.inj h).2.symm

theorem update_same {k : Nat} {e : World} (he : s.writers k = some e) :
    Function.update s.writers k (some e) = s.writers := by
  rw [← he, Function.update_eq_self]

/-- What a call does: a message is queued, or nothing happens, or a turn of `read` takes bytes. -/
theorem step_cases (hopen : s.Open) (h : Step s i s') :
    (∃ k m, i = .send k m none ∧ s' = { s with queue := s.queue ++ [m.1], written := s.written ++ [m.1] }) ∨
    ((∀ t : Channel, i.Apart t) ∧ s' = s) ∨
    ∃ r, i = .read none ∧
      (if s.queue.flatten.take (maxMessageLen - 1) = [] then r = none ∨ r = some []
        else r = some (cstr (s.queue.flatten.take (maxMessageLen - 1) ++ [0]))) ∧
      s' = { s with queue := s.queue.dropFront (maxMessageLen - 1), returned := s.returned ++ r.toList } := by
  cases h with
  | @send k m e bytes e' he h =>
    obtain ⟨rfl, rfl⟩ := send_ok (hopen.writers k e he) h
    rw [update_same he]
    exact .inl ⟨k, m, rfl, rfl⟩
  | @sendThrows k m error e i e' he h =>
    obtain rfl := send_throws (hopen.writers k e he) h
    rw [update_same he]
    exact .inr (.inl ⟨fun _ => trivial, rfl⟩)
  | @read r e h =>
    obtain ⟨rfl, hr⟩ := read_ok hopen.reader h
    exact .inr (.inr ⟨r, rfl, hr, rfl⟩)
  | @readThrows error i e h =>
    obtain rfl := read_throws hopen.reader h
    exact .inr (.inl ⟨fun _ => trivial, rfl⟩)

/-! ## One call -/

/-- While the messages come one to one, the FIFO has the messages that are not delivered. -/
structure Told (s : Channel) : Prop where
  opened : s.Open
  messages : ∀ c ∈ s.queue, IsMessage c
  split : s.written = s.delivered ++ s.queue

theorem Told.nil_notMem (h : s.Told) : [] ∉ s.queue := fun hmem => (h.messages [] hmem).1 rfl

/-- The bytes in the FIFO are those of messages. -/
theorem Told.cstr_take (h : s.Told) (n : Nat) : cstr (s.queue.flatten.take n ++ [0]) = s.queue.flatten.take n := by
  refine cstr_append_nul (fun hmem => ?_) []
  obtain ⟨c, hc, h0⟩ := List.mem_flatten.1 (List.mem_of_mem_take hmem)
  exact (h.messages c hc).2.2 h0

theorem Told.send (h : s.Told) (m : Message) :
    Told { s with queue := s.queue ++ [m.1], written := s.written ++ [m.1] } := by
  refine ⟨⟨h.opened.reader, h.opened.writers⟩, fun c hc => ?_, ?_⟩
  · obtain hc | hc := List.mem_append.1 hc
    · exact h.messages c hc
    · rw [List.mem_singleton.1 hc]
      exact m.2
  · show s.written ++ [m.1] = s.delivered ++ (s.queue ++ [m.1])
    rw [h.split, List.append_assoc]

theorem delivered_read (r : Option Str) (queue : List Str) :
    delivered { s with queue, returned := s.returned ++ r.toList } = s.delivered ++ r.toList.filter (· ≠ []) :=
  List.filter_append _ _

/-- A turn that finds no bytes. -/
theorem Told.read_nil (h : s.Told) {r : Option Str} (hq : s.queue = []) (hr : r = none ∨ r = some []) :
    Told { s with queue := s.queue.dropFront (maxMessageLen - 1), returned := s.returned ++ r.toList } := by
  have hfilter : r.toList.filter (· ≠ []) = [] := by obtain rfl | rfl := hr <;> rfl
  have hdrop : s.queue.dropFront (maxMessageLen - 1) = [] := by rw [hq]; rfl
  refine ⟨⟨h.opened.reader, h.opened.writers⟩, fun c hc => ?_, ?_⟩
  · rw [show _ = [] from hdrop] at hc
    exact absurd hc List.not_mem_nil
  · rw [delivered_read, hfilter, List.append_nil]
    show s.written = s.delivered ++ s.queue.dropFront (maxMessageLen - 1)
    rw [hdrop, ← hq]
    exact h.split

/-- A turn that finds bytes returns them; they are the first message exactly when the call is apart. -/
theorem Told.read_cons (h : s.Told) {m : Str} {ms : List Str} (hq : s.queue = m :: ms) :
    (s.queue.flatten.take (maxMessageLen - 1) = m ↔ (Call.read none).Apart s) ∧
      ((Call.read none).Apart s → s.queue.dropFront (maxMessageLen - 1) = ms) := by
  have hnil := h.nil_notMem
  have hm := h.messages m (hq ▸ List.mem_cons_self)
  have hle : m.length ≤ maxMessageLen - 1 := Nat.le_sub_one_of_lt hm.2.1
  have hms : [] ∉ ms := fun hmem => hnil (hq ▸ List.mem_cons_of_mem m hmem)
  have hapart : (Call.read none).Apart s ↔ ms = [] ∨ m.length = maxMessageLen - 1 := by
    unfold Call.Apart
    rw [hq, List.length_cons, List.head?_cons, Option.map_some, Option.some.injEq]
    refine or_congr_left ?_
    rw [← List.length_eq_zero_iff]
    omega
  rw [hapart, hq]
  exact ⟨List.take_flatten_eq_head hms hle, List.dropFront_head hms hle⟩

/-- The turn delivers the bytes it takes. -/
theorem delivered_read_cons (h : s.Told) {r : Option Str} (hq : s.queue ≠ [])
    (hr : if s.queue.flatten.take (maxMessageLen - 1) = [] then r = none ∨ r = some []
      else r = some (cstr (s.queue.flatten.take (maxMessageLen - 1) ++ [0]))) :
    r.toList.filter (· ≠ []) = [s.queue.flatten.take (maxMessageLen - 1)] := by
  have hne : s.queue.flatten.take (maxMessageLen - 1) ≠ [] := by
    rw [Ne, List.take_eq_nil_iff, List.flatten_eq_nil_of h.nil_notMem]
    exact not_or.2 ⟨by decide, hq⟩
  rw [if_neg hne, h.cstr_take] at hr
  rw [hr]
  exact List.filter_cons_of_pos (decide_eq_true hne)

theorem Told.delivered_prefix (h : s.Told) : s.delivered <+: s.written := by
  rw [h.split]
  exact List.prefix_append _ _

/-- A turn that finds bytes keeps the messages apart, or delivers something else. -/
theorem Told.read_step (h : s.Told) {r : Option Str} {m : Str} {ms : List Str} (hq : s.queue = m :: ms)
    (hr : if s.queue.flatten.take (maxMessageLen - 1) = [] then r = none ∨ r = some []
      else r = some (cstr (s.queue.flatten.take (maxMessageLen - 1) ++ [0]))) :
    (delivered { s with queue := s.queue.dropFront (maxMessageLen - 1), returned := s.returned ++ r.toList } <+:
        s.written ↔ (Call.read none).Apart s) ∧
      ((Call.read none).Apart s →
        Told { s with queue := s.queue.dropFront (maxMessageLen - 1), returned := s.returned ++ r.toList }) := by
  obtain ⟨htake, hdrop⟩ := h.read_cons hq
  have hsplit := h.split
  rw [hq] at hsplit
  have hnew := delivered_read (s := s) r (s.queue.dropFront (maxMessageLen - 1))
  rw [delivered_read_cons h (hq ▸ List.cons_ne_nil m ms) hr] at hnew
  refine ⟨?_, fun hapart => ⟨⟨h.opened.reader, h.opened.writers⟩, fun c hc => ?_, ?_⟩⟩
  · rw [hnew, hsplit, List.prefix_append_right_inj, List.cons_prefix_cons, ← htake]
    exact and_iff_left List.nil_prefix
  · rw [show _ = ms from hdrop hapart] at hc
    exact h.messages c (hq ▸ List.mem_cons_of_mem m hc)
  · rw [hnew, htake.2 hapart]
    show s.written = _ ++ s.queue.dropFront (maxMessageLen - 1)
    rw [hdrop hapart, hsplit, List.append_assoc]
    rfl

/-- While the messages come one to one, the next call keeps it so exactly when it is apart. -/
theorem told_step (h : s.Told) (hs : s.Step i s') :
    (s'.delivered <+: s'.written ↔ i.Apart s) ∧ (i.Apart s → s'.Told) := by
  obtain ⟨k, m, rfl, rfl⟩ | ⟨hapart, rfl⟩ | ⟨r, rfl, hr, rfl⟩ := step_cases h.opened hs
  · have htold := h.send m
    exact ⟨iff_of_true htold.delivered_prefix trivial, fun _ => htold⟩
  · exact ⟨iff_of_true h.delivered_prefix (hapart s'), fun _ => h⟩
  · cases hq : s.queue with
    | nil =>
      have hnil : s.queue.flatten.take (maxMessageLen - 1) = [] := by rw [hq]; rfl
      rw [if_pos hnil] at hr
      have htold := h.read_nil hq hr
      rw [hq] at htold
      refine ⟨iff_of_true htold.delivered_prefix (.inl ?_), fun _ => htold⟩
      rw [hq]
      exact Nat.zero_le _
    | cons m ms =>
      have hstep := h.read_step hq hr
      rwa [hq] at hstep

/-- **What the reads return is a prefix of the messages written, the empty strings left out, exactly when every read that takes
bytes finds one message in the FIFO, or a longest one at its front.** -/
theorem delivered_iff {xs : List (Channel × Call)} (h : channels.Trace xs s) :
    ((∀ x ∈ xs, x.1.delivered <+: x.1.written) ∧ s.delivered <+: s.written) ↔ ∀ x ∈ xs, x.2.Apart x.1 := by
  refine h.good_iff (I := Told) (fun s hinit => ?_) (fun s hI => ?_) fun _ _ _ _ hI hs => told_step hI hs
  · obtain ⟨⟨name, hreader, hwriters⟩, hqueue, hwritten, hreturned⟩ := hinit
    refine ⟨⟨hreader.ready, fun k e he => (hwriters k e he).ready⟩, fun c hc => ?_, ?_⟩
    · rw [hqueue] at hc
      exact absurd hc List.not_mem_nil
    · unfold delivered
      rw [hwritten, hreturned, hqueue]
      rfl
  · exact hI.delivered_prefix

/-! ## Every run -/

/-- The books of the FIFO: every byte that a `send` wrote is returned or still queued, once and in its place. -/
structure Books (s : Channel) : Prop where
  opened : s.Open
  nul : 0 ∉ s.queue.flatten
  bytes : s.written.flatten = s.returned.flatten ++ s.queue.flatten

/-- A turn of `read` returns the bytes it takes. -/
theorem Books.flatten_read (h : s.Books) {r : Option Str}
    (hr : if s.queue.flatten.take (maxMessageLen - 1) = [] then r = none ∨ r = some []
      else r = some (cstr (s.queue.flatten.take (maxMessageLen - 1) ++ [0]))) :
    r.toList.flatten = s.queue.flatten.take (maxMessageLen - 1) := by
  have hnul : 0 ∉ s.queue.flatten.take (maxMessageLen - 1) := fun hmem => h.nul (List.mem_of_mem_take hmem)
  split_ifs at hr with hnil
  · rw [hnil]
    obtain rfl | rfl := hr <;> rfl
  · rw [hr, cstr_append_nul hnul]
    exact List.append_nil _

theorem books_step (h : s.Books) (hs : Step s i s') : s'.Books := by
  obtain ⟨k, m, rfl, rfl⟩ | ⟨-, rfl⟩ | ⟨r, rfl, hr, rfl⟩ := step_cases h.opened hs
  · refine ⟨⟨h.opened.reader, h.opened.writers⟩, ?_, ?_⟩
    · show 0 ∉ (s.queue ++ [m.1]).flatten
      rw [List.flatten_concat, List.mem_append]
      exact not_or.2 ⟨h.nul, m.2.2.2⟩
    · show (s.written ++ [m.1]).flatten = s.returned.flatten ++ (s.queue ++ [m.1]).flatten
      rw [List.flatten_concat, List.flatten_concat, h.bytes, List.append_assoc]
  · exact h
  · have hqueue := List.flatten_dropFront (maxMessageLen - 1) s.queue
    refine ⟨⟨h.opened.reader, h.opened.writers⟩, fun hmem => ?_, ?_⟩
    · rw [show (_ : List Str).flatten = _ from hqueue] at hmem
      exact h.nul (List.mem_of_mem_drop hmem)
    · show s.written.flatten = (s.returned ++ r.toList).flatten ++ (s.queue.dropFront _).flatten
      rw [hqueue, List.flatten_append, h.flatten_read hr, List.append_assoc, List.take_append_drop]
      exact h.bytes

/-- **In every run the bytes the reads returned are a prefix of the bytes written, and the rest is in the FIFO**: what can get
lost is where a message ends. -/
theorem flatten_written {is : List Call} (h : channels.Run is s) :
    s.written.flatten = s.returned.flatten ++ s.queue.flatten := by
  refine (h.invariant (I := Books) (fun s hinit => ?_) fun _ _ _ hI hs => books_step hI hs).bytes
  obtain ⟨⟨name, hreader, hwriters⟩, hqueue, hwritten, hreturned⟩ := hinit
  refine ⟨⟨hreader.ready, fun k e he => (hwriters k e he).ready⟩, ?_, ?_⟩
  · rw [hqueue]
    exact List.not_mem_nil
  · rw [hqueue, hwritten, hreturned]
    rfl

/-! ## One reader and one writer -/

/-- A new `FIFOConnection("/tmp/f")`. -/
def unconnected : World := ⟨construct (text "/tmp/f"), ⟨⟨[some .process, some .process, some .process]⟩, [], []⟩⟩

def connected : World := unconnected.opened

theorem openedOn_connected {mode : Mode} {modes : List Mode} (h : mode ∈ modes) :
    OpenedOn (text "/tmp/f") modes connected := by
  refine ⟨mode, h, true, ⟨fun _ _ => none, .done⟩, some 0, unconnected, rfl, ?_⟩
  rw [mode.run_eq]
  exact run_openFifo rfl rfl

def start : Channel := ⟨connected, fun k => if k = 0 then some connected else none, [], [], []⟩

theorem init_start : channels.init start := by
  refine ⟨⟨text "/tmp/f", openedOn_connected List.mem_cons_self, fun k e he => ?_⟩, rfl, rfl, rfl⟩
  have hsome : (if k = 0 then some connected else none) = some e := he
  split_ifs at hsome
  exact Option.some.inj hsome ▸ openedOn_connected List.mem_cons_self

/-- `start` when `m` is written. -/
def sent (s : Channel) (m : Message) : Channel :=
  { s with
    writers := Function.update s.writers 0 (some connected)
    queue := s.queue ++ [m.1]
    written := s.written ++ [m.1] }

theorem step_sent {m : Message} (he : s.writers 0 = some connected) : s.Step (.send 0 m none) (s.sent m) := by
  obtain ⟨hlen, hrange⟩ := m.2.rangeCheck
  refine .send he ?_
  rw [run_send (Descriptor.Heap.get_made _ _) hrange, hlen, List.take_length]
  unfold taking
  rw [if_pos rfl]

/-- The bytes of one message. -/
theorem flatten_written_one : ∃ s, channels.Run [.send 0 letterA none, .read none] s ∧ s.returned = [text "a"] ∧
    s.written.flatten = s.returned.flatten ++ s.queue.flatten := by
  have hread : (start.sent letterA).Step (.read none) { start.sent letterA with
      queue := (start.sent letterA).queue.dropFront (maxMessageLen - 1)
      returned := [text "a"] } := .read (r := some (text "a")) rfl
  have hrun := ((LTS.Run.init init_start).snoc (step_sent (m := letterA) rfl)).snoc hread
  exact ⟨_, hrun, rfl, flatten_written hrun⟩

/-- One message is written and read. -/
theorem delivered_iff_one : ∃ s, channels.Trace
    [(start, .send 0 letterA none), (start.sent letterA, .read none)] s ∧ s.delivered <+: s.written := by
  have hread : (start.sent letterA).Step (.read none) { start.sent letterA with
      queue := (start.sent letterA).queue.dropFront (maxMessageLen - 1)
      returned := [text "a"] } := .read (r := some (text "a")) rfl
  have htrace := ((LTS.Trace.init init_start).snoc (step_sent (m := letterA) rfl)).snoc hread
  refine ⟨_, htrace, ((delivered_iff htrace).2 fun x hx => ?_).2⟩
  obtain rfl | hx := List.mem_cons.1 hx
  · trivial
  · rw [List.mem_singleton.1 hx]
    exact .inl (by decide)

/-- Two messages are written, and one read returns both. -/
theorem read_merges : ¬ ∀ xs s, channels.Trace xs s →
    (∀ x ∈ xs, x.1.delivered <+: x.1.written) ∧ s.delivered <+: s.written := by
  intro hall
  let both := (start.sent letterA).sent letterB
  have hread : both.Step (.read none) { both with
      queue := both.queue.dropFront (maxMessageLen - 1)
      returned := [text "ab"] } := .read (r := some (text "ab")) rfl
  have htrace := (((LTS.Trace.init init_start).snoc (step_sent (m := letterA) rfl)).snoc
    (step_sent (m := letterB) rfl)).snoc hread
  exact absurd (hall _ _ htrace).2 (by decide)

end Channel

end OksSystem.FIFOConnection
