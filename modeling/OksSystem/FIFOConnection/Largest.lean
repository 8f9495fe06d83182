import OksSystem.FIFOConnection.Delivery
import OksSystem.FIFOConnection.Messages

/-!
# The largest message

The senders check that a message has at most MAX_MESSAGE_LEN bytes, the readers have room for one byte less.

* `Stopped`, `Fitting` : the lengths that the check stops, and those that a reader has room for;
* `Script.runOn` : a function that opens the FIFO for itself, when no call fails and nobody else uses the FIFO;
* `PassesOpen`, `PassesAlone` : a message is stopped or passes unchanged, through an open descriptor and through its own;
* `largest_message_iff` : **both hold iff the message is stopped or fits**.
-/

namespace OksSystem.FIFOConnection
open ByteBuffer EStateM

/-- The range check stops the message. -/
def Stopped (message : Str) : Prop := ¬ (1 ≤ messageLen message ∧ messageLen message ≤ maxMessageLen)

/-- The buffer of a reader holds it. -/
def Fitting (message : Str) : Prop := message.length < maxMessageLen

variable {message : Str} {w r : World}

theorem stopped_iff : Stopped message ↔ messageLen message = 0 ∨ maxMessageLen < messageLen message := by
  unfold Stopped
  omega

theorem messageLen_of_fitting (h : Fitting message) : messageLen message = message.length := by
  unfold Fitting maxMessageLen at h
  exact Nat.mod_eq_of_lt (by omega)

/-- What is read is the message iff nothing of it is cut off on either side. -/
theorem take_take_eq_iff (message : Str) :
    ((message.take (messageLen message)).take (maxMessageLen - 1) = message ∧
      (message.take (messageLen message)).drop (maxMessageLen - 1) = []) ↔ Fitting message := by
  rw [List.take_take, List.take_eq_self_iff, List.drop_eq_nil_iff, List.length_take]
  constructor
  · rintro ⟨hlen, -⟩
    unfold Fitting
    unfold maxMessageLen at hlen ⊢
    omega
  · intro h
    rw [messageLen_of_fitting h]
    unfold Fitting at h
    unfold maxMessageLen at h ⊢
    omega

/-- What a reader takes of a message that passes the check. -/
theorem taken_of_sent (hnul : 0 ∉ message) (hpass : ¬ Stopped message) :
    0 ∉ (message.take (messageLen message)).take (maxMessageLen - 1) ∧
      (message.take (messageLen message)).take (maxMessageLen - 1) ≠ [] := by
  obtain ⟨hone, -⟩ := not_not.1 hpass
  refine ⟨fun h => hnul (List.mem_of_mem_take (List.mem_of_mem_take h)), fun hnil => ?_⟩
  rw [List.take_take, List.take_eq_nil_iff] at hnil
  rcases hnil with hzero | rfl
  · unfold maxMessageLen at hzero
    omega
  · exact absurd hone (by decide)

/-! ## Through an open descriptor -/

/-- The check throws before anything is written. -/
theorem run_send_stopped (hw : w.Ready) (h : Stopped message) (answer : Str → Except Errno Nat) :
    (send message answer).run w = .error (.thrown (.range 1 (messageLen message) maxMessageLen)) w := by
  have hcheck : (rangeCheck 1 (messageLen message) maxMessageLen).run w =
      .error (.thrown (.range 1 (messageLen message) maxMessageLen)) w := by
    unfold rangeCheck
    rw [if_neg h]
    rfl
  unfold send
  rw [run_bind_ok (run_get w), run_bind_ok (run_assert hw.fifoFd_ne_none), run_bind_error hcheck]

/-- `send` throws at its check and writes nothing, or the next `read` gives the message and empties the FIFO. -/
def PassesOpen (w r : World) (message : Str) : Prop :=
  (∀ answer, (send message answer).run w = .error (.thrown (.range 1 (messageLen message) maxMessageLen)) w) ∨
    ∃ bytes w' r', (send message (taking bytes)).run w = .ok () w' ∧
      (read [.ok bytes]).run r = .ok (some message) r' ∧ bytes.drop (maxMessageLen - 1) = []

theorem passesOpen_iff (hw : w.Ready) (hr : r.Ready) (hnul : 0 ∉ message) :
    PassesOpen w r message ↔ Stopped message ∨ Fitting message := by
  by_cases hstop : Stopped message
  · exact iff_of_true (.inl (run_send_stopped hw hstop)) (.inl hstop)
  rw [or_iff_right hstop, ← take_take_eq_iff]
  obtain ⟨hcut, hsome⟩ := taken_of_sent hnul hstop
  obtain ⟨d, hd⟩ := hw
  have hsend : ∀ answer, (send message answer).run w = _ := fun answer => run_send hd (not_not.1 hstop)
  have hread : (read [.ok (message.take (messageLen message))]).run r =
      .ok (some ((message.take (messageLen message)).take (maxMessageLen - 1))) r := by
    have hfd := hr.fifoFd_ne_none
    obtain ⟨d', hd'⟩ := hr
    rw [run_read hfd, run_readLoop_some hd' hsome, cstr_append_nul hcut []]
  constructor
  · rintro (hthrows | ⟨bytes, w', r', hsent, hgiven, hempty⟩)
    · have hfirst := hthrows fun _ => .ok 0
      rw [hsend] at hfirst
      cases hfirst
    · rw [hsend] at hsent
      unfold taking at hsent
      split_ifs at hsent with heq
      · subst heq
        rw [hread] at hgiven
        exact ⟨Option.some.inj (Result.ok.inj hgiven).1, hempty⟩
  · rintro ⟨hsame, hempty⟩
    refine .inr ⟨_, w, r, ?_, ?_, hempty⟩
    · rw [hsend]
      unfold taking
      rw [if_pos rfl]
    · rw [hread, hsame]

/-! ## Through a descriptor of its own -/

/-- What a function comes to on a FIFO with the bytes `queue`, and what it leaves there; `none` if it waits. -/
def Script.runOn {α : Type} : Script α → (queue : Str) → Option (Except Issue α × Str)
  | .ret a, queue => some (.ok a, queue)
  | .throw issue, queue => some (.error issue, queue)
  | .open _ _ next, queue => (next none).runOn queue
  | .write bytes next, queue => (next (.ok bytes.length)).runOn (queue ++ bytes)
  | .loop number again next, queue =>
    if again (.ok (queue.take number)) then none else (next (.ok (queue.take number))).runOn (queue.drop number)
  | .close next, queue => next.runOn queue

/-- The same of `send_message` and `read_message`. -/
def PassesAlone (f : File) (message : Str) : Prop :=
  (sendMessage f true message).runOn [] = some (.error (.range 1 (messageLen message) maxMessageLen), []) ∨
    ∃ queue, (sendMessage f true message).runOn [] = some (.ok (), queue) ∧
      (readMessage f true).runOn queue = some (.ok message, [])

theorem runOn_sendMessage (f : File) (hrange : ¬ Stopped message) :
    (sendMessage f true message).runOn [] = some (.ok (), message.take (messageLen message)) := by
  unfold sendMessage Script.assert Script.rangeCheck
  rw [if_pos rfl, if_pos (not_not.1 hrange)]
  rfl

theorem runOn_readMessage (f : File) {queue : Str} (hnul : 0 ∉ queue.take (maxMessageLen - 1))
    (hsome : queue.take (maxMessageLen - 1) ≠ []) :
    (readMessage f true).runOn queue = some (.ok (queue.take (maxMessageLen - 1)), queue.drop (maxMessageLen - 1)) := by
  have hagain : readAgain (.ok (queue.take (maxMessageLen - 1))) = false :=
    decide_eq_false fun h => hsome (List.length_eq_zero_iff.1 h)
  have htaken : readTaken f.fullName (.ok (queue.take (maxMessageLen - 1))) =
      .close (.ret (queue.take (maxMessageLen - 1))) := by
    unfold readTaken
    simp only [if_pos (length_take_lt queue), cstr_append_nul hnul []]
  unfold readMessage Script.assert
  rw [if_pos rfl]
  change Script.runOn (.loop (maxMessageLen - 1) readAgain (readTaken f.fullName)) queue = _
  unfold Script.runOn
  rw [hagain, htaken]
  rfl

theorem passesAlone_iff (f : File) (hnul : 0 ∉ message) :
    PassesAlone f message ↔ Stopped message ∨ Fitting message := by
  by_cases hstop : Stopped message
  · refine iff_of_true (.inl ?_) (.inl hstop)
    unfold sendMessage Script.assert Script.rangeCheck
    rw [if_pos rfl, if_neg hstop]
    rfl
  obtain ⟨hcut, hsome⟩ := taken_of_sent hnul hstop
  have hsent := runOn_sendMessage f hstop
  have hread := runOn_readMessage f hcut hsome
  rw [or_iff_right hstop, ← take_take_eq_iff]
  constructor
  · rintro (hthrows | ⟨queue, hqueue, hgiven⟩)
    · rw [hsent] at hthrows
      cases hthrows
    · rw [hsent] at hqueue
      obtain rfl := (Prod.ext_iff.1 (Option.some.inj hqueue)).2
      rw [hread] at hgiven
      obtain ⟨hsame, hempty⟩ := Prod.ext_iff.1 (Option.some.inj hgiven)
      exact ⟨Except.ok.inj hsame, hempty⟩
  · rintro ⟨hsame, hempty⟩
    refine .inr ⟨_, hsent, ?_⟩
    rw [hread, hsame, hempty]

/-- **A message without NUL is stopped by the check of its sender or read as it was sent, iff its length as an `unsigned int`
is 0 or above MAX_MESSAGE_LEN, or its length is below MAX_MESSAGE_LEN.** -/
theorem largest_message_iff (message : Str) (hnul : 0 ∉ message) (w r : World) (hw : w.Ready) (hr : r.Ready) (f : File) :
    (PassesOpen w r message ↔
      messageLen message = 0 ∨ maxMessageLen < messageLen message ∨ message.length < maxMessageLen) ∧
    (PassesAlone f message ↔
      messageLen message = 0 ∨ maxMessageLen < messageLen message ∨ message.length < maxMessageLen) := by
  rw [passesOpen_iff hw hr hnul, passesAlone_iff f hnul, stopped_iff, or_assoc]
  exact ⟨Iff.rfl, Iff.rfl⟩

/-- An object whose FIFO is open. -/
def ready : World := World.opened ⟨construct (text "/tmp/f"), ⟨⟨[]⟩, [], []⟩⟩

theorem largest_message_iff_letter : PassesOpen ready ready (text "a") ∧ PassesAlone ⟨text "/tmp/f"⟩ (text "a") := by
  have hiff := largest_message_iff (text "a") (by decide) ready ready (ready_opened _) (ready_opened _) ⟨text "/tmp/f"⟩
  exact ⟨hiff.1.2 (.inr (.inr (by decide))), hiff.2.2 (.inr (.inr (by decide)))⟩

/-- MAX_MESSAGE_LEN bytes pass the check, and the last one is not read. -/
theorem longest_message_cut : ¬ (∀ (message : Str) (w r : World), 0 ∉ message → w.Ready → r.Ready → PassesOpen w r message) ∧
    ¬ ∀ (f : File) (message : Str), 0 ∉ message → PassesAlone f message := by
  have hnul : 0 ∉ List.replicate maxMessageLen (97 : Byte) := by
    intro h
    exact absurd (List.mem_replicate.1 h).2 (by decide)
  have hlen : messageLen (List.replicate maxMessageLen 97) = maxMessageLen := by
    unfold messageLen
    rw [List.length_replicate]
    rfl
  have hnot : ¬ (Stopped (List.replicate maxMessageLen 97) ∨ Fitting (List.replicate maxMessageLen 97)) := by
    rw [not_or]
    constructor
    · unfold Stopped
      rw [hlen]
      decide
    · unfold Fitting
      rw [List.length_replicate]
      exact Nat.lt_irrefl _
  constructor
  · intro h
    exact hnot ((passesOpen_iff (ready_opened _) (ready_opened _) hnul).1
      (h _ ready ready hnul (ready_opened _) (ready_opened _)))
  · intro h
    exact hnot ((passesAlone_iff ⟨text "/tmp/f"⟩ hnul).1 (h _ _ hnul))

end OksSystem.FIFOConnection
