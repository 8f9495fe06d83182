import OksSystem.Executable.Children

/-!
# `pipe_in` and a child that writes

The parent follows `pipe_in` from its `fork` on, the child writes to the pipes and exits, and every pipe holds at most
`capacity` bytes.

* `Parent`, `Plumbing`, `Step`, `plumbing` : the two processes and the pipes between them;
* `Blocked` : the child waits for room in a full pipe;
* `NeverBlocks` : the child is never blocked while the parent waits in `join`, the run can always finish, and `pipe_in`
  returns the whole standard output;
* `neverBlocks_iff` : this holds exactly when no pipe is given more than it can hold.
-/

namespace OksSystem
open ByteBuffer EStateM

/-- The bytes one `read` gave. -/
abbrev Chunk := {s : Str // 0 < s.length ∧ s.length ≤ 256}

def Chunk.result (c : Chunk) : ReadResult := .bytes c.1 c.2

/-- Where `pipe_in` is. The pipes still to be closed or copied are listed in order. -/
inductive Parent where
  | closingWriteEnds (left : List PipeName)
  | joining
  | copying (left : List PipeName)
  | closingReadEnds (left : List PipeName)
  | finished
  deriving DecidableEq, Repr

/-- The pipes in the order of `pipe_in`. -/
def pipes : List PipeName := [.input, .data, .error]

structure Plumbing where
  parent : Parent
  /-- The bytes the child still has to write, each to its pipe; `none` when it has exited. -/
  child : Option (List (PipeName × Byte))
  queue : PipeName → Str
  reads : PipeName → List Chunk

/-- The bytes for the pipe `p`. -/
def bytesFor (p : PipeName) (bs : List (PipeName × Byte)) : Str := bs.filterMap fun b => if b.1 = p then some b.2 else none

/-- The single bytes of a sequence of writes. -/
def bytesOf (writes : List (PipeName × Str)) : List (PipeName × Byte) :=
  writes.flatMap fun w => w.2.map fun b => (w.1, b)

inductive Actor where
  | parent
  | child
  deriving DecidableEq, Repr

/-- The parent closes no read end before the child has exited, so a write never fails. -/
inductive Plumbing.Step (capacity : Nat) : Plumbing → Actor → Plumbing → Prop
  | write {s p b bs} (hchild : s.child = some ((p, b) :: bs)) (hroom : (s.queue p).length < capacity) :
      Step capacity s .child
        { s with child := some bs, queue := Function.update s.queue p (s.queue p ++ [b]) }
  | exit {s} (hchild : s.child = some []) : Step capacity s .child { s with child := none }
  | closeWriteEnd {s p ps} (hparent : s.parent = .closingWriteEnds (p :: ps)) :
      Step capacity s .parent { s with parent := .closingWriteEnds ps }
  | join {s} (hparent : s.parent = .closingWriteEnds []) : Step capacity s .parent { s with parent := .joining }
  | joined {s} (hparent : s.parent = .joining) (hchild : s.child = none) :
      Step capacity s .parent { s with parent := .copying pipes }
  | read {s p ps} {c : Chunk} {rest : Str} (hparent : s.parent = .copying (p :: ps)) (hqueue : s.queue p = c.1 ++ rest) :
      Step capacity s .parent
        { s with queue := Function.update s.queue p rest, reads := Function.update s.reads p (s.reads p ++ [c]) }
  | endOfFile {s p ps} (hparent : s.parent = .copying (p :: ps)) (hqueue : s.queue p = []) (hchild : s.child = none) :
      Step capacity s .parent { s with parent := .copying ps }
  | copied {s} (hparent : s.parent = .copying []) : Step capacity s .parent { s with parent := .closingReadEnds pipes }
  | closeReadEnd {s p ps} (hparent : s.parent = .closingReadEnds (p :: ps)) :
      Step capacity s .parent { s with parent := .closingReadEnds ps }
  | finish {s} (hparent : s.parent = .closingReadEnds []) : Step capacity s .parent { s with parent := .finished }

/-- A child that makes `writes` and exits, under a parent in `pipe_in`. -/
def plumbing (capacity : Nat) (writes : List (PipeName × Str)) : LTS Plumbing Actor where
  init s := s = ⟨.closingWriteEnds pipes, some (bytesOf writes), fun _ => [], fun _ => []⟩
  step := Plumbing.Step capacity

/-- The child waits for room in a pipe. -/
def Plumbing.Blocked (capacity : Nat) (s : Plumbing) : Prop :=
  ∃ p b bs, s.child = some ((p, b) :: bs) ∧ capacity ≤ (s.queue p).length

/-- What the system calls of this `pipe_in` answer when the run has ended in `s` and the child has exited with 0. -/
def Plumbing.answers (s : Plumbing) (pid : Pid) : Answers :=
  { forks pid with child := ⟨.exited 0, fun p => (s.reads p).map Chunk.result⟩ }

structure NeverBlocks (capacity : Nat) (writes : List (PipeName × Str)) : Prop where
  apart : ∀ s, (plumbing capacity writes).Reachable s → ¬ (s.Blocked capacity ∧ s.parent = .joining)
  finishes : ∀ s, (plumbing capacity writes).Reachable s →
    ∃ is s', (plumbing capacity writes).Path s is s' ∧ s'.parent = .finished
  returns : ∀ s, (plumbing capacity writes).Reachable s → s.parent = .finished →
    ∀ (exe : Executable) (params : List Str) (pid : Pid) (proc : Proc), pid ≠ proc.pid →
      ∃ proc', (exe.pipeIn params (s.answers pid)).run proc = .ok (bytesFor .data (bytesOf writes)) proc'

/-! ## The bytes on their way -/

variable {capacity : Nat} {writes : List (PipeName × Str)} {s s' : Plumbing} {a : Actor}

theorem mem_pipes (p : PipeName) : p ∈ pipes := by
  cases p <;> decide

theorem bytesFor_cons_self (p : PipeName) (b : Byte) (bs : List (PipeName × Byte)) :
    bytesFor p ((p, b) :: bs) = b :: bytesFor p bs := by
  simp [bytesFor]

theorem bytesFor_cons_of_ne {p q : PipeName} (h : q ≠ p) (b : Byte) (bs : List (PipeName × Byte)) :
    bytesFor p ((q, b) :: bs) = bytesFor p bs := by
  simp [bytesFor, h]

/-- What the parent has copied from `p`. -/
def Plumbing.got (s : Plumbing) (p : PipeName) : Str := ((s.reads p).map Subtype.val).flatten

/-- `join` has returned. -/
def Parent.Waited : Parent → Prop
  | .closingWriteEnds _ => False
  | .joining => False
  | _ => True

/-- The pipes whose end of file has not been seen. -/
def Parent.uncopied : Parent → List PipeName
  | .closingWriteEnds _ => pipes
  | .joining => pipes
  | .copying left => left
  | _ => []

/-- Every byte of the child is copied, in the pipe or still to be written. -/
structure Plumbing.Inv (writes : List (PipeName × Str)) (s : Plumbing) : Prop where
  content : ∀ p, s.got p ++ s.queue p ++ bytesFor p (s.child.getD []) = bytesFor p (bytesOf writes)
  unread : ¬ s.parent.Waited → ∀ p, s.reads p = []
  exited : s.parent.Waited → s.child = none
  drained : ∀ p, p ∉ s.parent.uncopied → s.queue p = []

theorem Parent.uncopied_of_not_waited {c : Parent} (h : ¬ c.Waited) : c.uncopied = pipes := by
  cases c with
  | closingWriteEnds _ => rfl
  | joining => rfl
  | copying _ => exact absurd trivial h
  | closingReadEnds _ => exact absurd trivial h
  | finished => exact absurd trivial h

theorem Plumbing.Inv.of_write {p : PipeName} {b : Byte} {bs : List (PipeName × Byte)} (h : s.Inv writes)
    (hchild : s.child = some ((p, b) :: bs)) :
    Plumbing.Inv writes { s with child := some bs, queue := Function.update s.queue p (s.queue p ++ [b]) } := by
  have hwaits : ¬ s.parent.Waited := by
    intro hw
    rw [h.exited hw] at hchild
    cases hchild
  refine ⟨fun q => ?_, h.unread, fun hw => absurd hw hwaits, fun q hq => ?_⟩
  · have hc := h.content q
    rw [hchild] at hc
    rw [← hc]
    change s.got q ++ Function.update s.queue p _ q ++ bytesFor q bs = s.got q ++ s.queue q ++ bytesFor q ((p, b) :: bs)
    by_cases hq : q = p
    · subst hq
      rw [Function.update_self, bytesFor_cons_self]
      simp only [List.append_assoc, List.cons_append, List.nil_append]
    · rw [Function.update_of_ne hq, bytesFor_cons_of_ne (Ne.symm hq)]
  · exact absurd (mem_pipes q) (Parent.uncopied_of_not_waited hwaits ▸ hq)

theorem Plumbing.Inv.of_read {p : PipeName} {ps : List PipeName} {c : Chunk} {rest : Str} (h : s.Inv writes)
    (hparent : s.parent = .copying (p :: ps)) (hqueue : s.queue p = c.1 ++ rest) :
    Plumbing.Inv writes
      { s with queue := Function.update s.queue p rest, reads := Function.update s.reads p (s.reads p ++ [c]) } := by
  have hwaited : s.parent.Waited := hparent ▸ trivial
  refine ⟨fun q => ?_, fun hw => absurd hwaited hw, h.exited, fun q hq => ?_⟩
  · rw [← h.content q]
    unfold Plumbing.got
    change ((Function.update s.reads p _ q).map Subtype.val).flatten ++ Function.update s.queue p rest q ++ _ = _
    by_cases hq : q = p
    · subst hq
      rw [Function.update_self, Function.update_self, hqueue]
      simp
    · rw [Function.update_of_ne hq, Function.update_of_ne hq]
  · have hne : q ≠ p := by
      rintro rfl
      rw [hparent] at hq
      exact hq List.mem_cons_self
    exact (Function.update_of_ne hne _ _).trans (h.drained q hq)

/-- The parent goes on, and has not seen another end of file. -/
theorem Plumbing.Inv.of_parent {c : Parent} (h : s.Inv writes) (hwaited : c.Waited ↔ s.parent.Waited)
    (huncopied : ∀ p ∈ s.parent.uncopied, p ∈ c.uncopied) : Plumbing.Inv writes { s with parent := c } :=
  ⟨h.content, fun hw => h.unread fun h' => hw (hwaited.2 h'), fun hw => h.exited (hwaited.1 hw),
    fun p hp => h.drained p fun h' => hp (huncopied p h')⟩

theorem Plumbing.Inv.step (h : s.Inv writes) (hs : s.Step capacity a s') : s'.Inv writes := by
  cases hs with
  | write hchild _ => exact h.of_write hchild
  | exit hchild =>
    refine ⟨fun p => ?_, h.unread, fun _ => rfl, h.drained⟩
    have hc := h.content p
    rw [hchild] at hc
    exact hc
  | closeWriteEnd hparent => exact h.of_parent (by rw [hparent]; rfl) fun p _ => mem_pipes p
  | join hparent => exact h.of_parent (by rw [hparent]; rfl) fun p _ => mem_pipes p
  | joined _ hchild =>
    exact ⟨h.content, fun hw => absurd trivial hw, fun _ => hchild, fun p hp => absurd (mem_pipes p) hp⟩
  | read hparent hqueue => exact h.of_read hparent hqueue
  | @endOfFile p ps hparent hqueue hchild =>
    refine ⟨h.content, fun hw => absurd trivial hw, fun _ => hchild, fun q hq => ?_⟩
    by_cases hqp : q = p
    · exact hqp ▸ hqueue
    · apply h.drained q
      rw [hparent]
      exact fun hmem => (List.mem_cons.1 hmem).elim hqp hq
  | copied hparent => exact h.of_parent (by rw [hparent]; rfl) (by rw [hparent]; exact fun _ => id)
  | closeReadEnd hparent => exact h.of_parent (by rw [hparent]; rfl) (by rw [hparent]; exact fun _ => id)
  | finish hparent => exact h.of_parent (by rw [hparent]; rfl) (by rw [hparent]; exact fun _ => id)

theorem plumbing_inv (h : (plumbing capacity writes).Reachable s) : s.Inv writes := by
  refine h.invariant (fun s hs => ?_) (fun s a s' hi hs => hi.step hs)
  rw [show s = _ from hs]
  exact ⟨fun _ => rfl, fun _ _ => rfl, False.elim, fun p hp => absurd (mem_pipes p) hp⟩

/-! ## Room for everything -/

/-- A pipe that has room for all bytes it is given never blocks the child before the parent reads. -/
theorem not_blocked (h : s.Inv writes) (hroom : ∀ p, (bytesFor p (bytesOf writes)).length ≤ capacity)
    (hwaits : ¬ s.parent.Waited) : ¬ s.Blocked capacity := by
  rintro ⟨p, b, bs, hchild, hfull⟩
  have hcontent := congrArg List.length (h.content p)
  have hp := hroom p
  unfold Plumbing.got at hcontent
  rw [h.unread hwaits p, hchild, Option.getD_some, bytesFor_cons_self] at hcontent
  simp only [List.map_nil, List.flatten_nil, List.nil_append, List.length_append, List.length_cons] at hcontent
  omega

/-- The bytes in the pipes. -/
def stored (queue : PipeName → Str) : Nat := (queue .input).length + (queue .data).length + (queue .error).length

theorem stored_update (queue : PipeName → Str) (p : PipeName) (x : Str) :
    stored (Function.update queue p x) + (queue p).length = stored queue + x.length := by
  unfold stored
  cases p <;> simp only [Function.update_apply, reduceCtorEq, if_true, if_false] <;> omega

/-- How far the parent is from its end. -/
def Parent.ahead : Parent → Nat
  | .closingWriteEnds left => 20 + left.length
  | .joining => 19
  | .copying left => 10 + left.length
  | .closingReadEnds left => 1 + left.length
  | .finished => 0

/-- What is still to be done: a byte is written and read, the child exits, the parent goes on. -/
def Plumbing.ahead (s : Plumbing) : Nat :=
  (match s.child with
    | some bs => 2 * bs.length + 1
    | none => 0) + stored s.queue + s.parent.ahead

theorem progress (h : s.Inv writes) (hroom : ∀ p, (bytesFor p (bytesOf writes)).length ≤ capacity)
    (hend : s.parent ≠ .finished) : ∃ a s', s.Step capacity a s' ∧ s'.ahead < s.ahead := by
  have hparent : ∀ {c c' : Parent}, s.parent = c → c'.ahead < c.ahead →
      Plumbing.ahead { s with parent := c' } < s.ahead := by
    rintro c c' rfl hlt
    exact Nat.add_lt_add_left hlt _
  cases hp : s.parent with
  | closingWriteEnds left =>
    cases left with
    | nil => exact ⟨_, _, .join hp, hparent hp (by decide)⟩
    | cons p ps => exact ⟨_, _, .closeWriteEnd hp, hparent hp (by simp [Parent.ahead])⟩
  | joining =>
    cases hc : s.child with
    | none => exact ⟨_, _, .joined hp hc, hparent hp (by decide)⟩
    | some bs =>
      cases bs with
      | nil =>
        refine ⟨_, _, .exit hc, ?_⟩
        unfold Plumbing.ahead
        rw [hc]
        simp
      | cons pb bs =>
        obtain ⟨p, b⟩ := pb
        have hfree : (s.queue p).length < capacity := by
          by_contra hfull
          exact not_blocked h hroom (hp ▸ id) ⟨p, b, bs, hc, by omega⟩
        refine ⟨_, _, .write hc hfree, ?_⟩
        have hstored := stored_update s.queue p (s.queue p ++ [b])
        unfold Plumbing.ahead
        rw [hc]
        simp only [List.length_append, List.length_cons, List.length_nil] at hstored ⊢
        omega
  | copying left =>
    cases left with
    | nil => exact ⟨_, _, .copied hp, hparent hp (by decide)⟩
    | cons p ps =>
      cases hq : s.queue p with
      | nil => exact ⟨_, _, .endOfFile hp hq (h.exited (hp ▸ trivial)), hparent hp (by simp [Parent.ahead])⟩
      | cons b rest =>
        refine ⟨_, _, .read (c := ⟨[b], by simp⟩) hp hq, ?_⟩
        have hstored := stored_update s.queue p rest
        unfold Plumbing.ahead
        rw [hq, List.length_cons] at hstored
        dsimp only
        omega
  | closingReadEnds left =>
    cases left with
    | nil => exact ⟨_, _, .finish hp, hparent hp (by decide)⟩
    | cons p ps => exact ⟨_, _, .closeReadEnd hp, hparent hp (by simp [Parent.ahead])⟩
  | finished => exact absurd hp hend

theorem copied_map_result (cs : List Chunk) : copied (cs.map Chunk.result) = (cs.map Subtype.val).flatten := by
  induction cs with
  | nil => rfl
  | cons c cs ih =>
    rw [List.map_cons, List.map_cons, List.flatten_cons, ← ih]
    rfl

/-- In the end the parent has copied everything, and `pipe_in` returns it. -/
theorem pipeIn_of_finished (h : s.Inv writes) (hend : s.parent = .finished) (exe : Executable) (params : List Str)
    {pid : Pid} {proc : Proc} (hpid : pid ≠ proc.pid) :
    ∃ proc', (exe.pipeIn params (s.answers pid)).run proc = .ok (bytesFor .data (bytesOf writes)) proc' := by
  have hdrained : s.queue .data = [] := h.drained .data (by rw [hend]; exact List.not_mem_nil)
  have hcontent := h.content .data
  rw [h.exited (hend ▸ trivial), hdrained] at hcontent
  simp only [List.append_nil, Option.getD_none, bytesFor, List.filterMap_nil] at hcontent
  have hpipe : ∀ p, (s.answers pid).pipe p = none := fun _ => rfl
  obtain ⟨proc', -, hrun⟩ := run_pipeIn_exited exe params hpipe rfl hpid rfl rfl
  refine ⟨proc', hrun.trans ((if_pos rfl).trans ?_)⟩
  congr 1
  exact (copied_map_result _).trans hcontent

/-! ## A pipe that is given too much -/

/-- A write moves one byte of `q` into its pipe. -/
theorem length_write (queue : PipeName → Str) (p q : PipeName) (b : Byte) (bs : List (PipeName × Byte)) :
    (Function.update queue q (queue q ++ [b]) p).length + (bytesFor p bs).length =
      (queue p).length + (bytesFor p ((q, b) :: bs)).length := by
  by_cases hq : p = q
  · subst hq
    rw [Function.update_self, bytesFor_cons_self]
    simp only [List.length_append, List.length_cons, List.length_nil]
    omega
  · rw [Function.update_of_ne hq, bytesFor_cons_of_ne (Ne.symm hq)]

/-- While the parent waits in `join` the child writes on, until some pipe is full. -/
theorem jam {bs : List (PipeName × Byte)} (hs : (plumbing capacity writes).Reachable s) (hparent : s.parent = .joining)
    (hchild : s.child = some bs) {p : PipeName} (hmuch : capacity < (s.queue p).length + (bytesFor p bs).length)
    (hqueue : ∀ p, (s.queue p).length ≤ capacity) :
    ∃ s', (plumbing capacity writes).Reachable s' ∧ s'.Blocked capacity ∧ s'.parent = .joining := by
  induction bs generalizing s with
  | nil =>
    have hp := hqueue p
    simp only [bytesFor, List.filterMap_nil, List.length_nil] at hmuch
    omega
  | cons qb bs ih =>
    obtain ⟨q, b⟩ := qb
    rcases Nat.lt_or_ge (s.queue q).length capacity with hroom | hfull
    · refine ih (hs.step (.write hchild hroom)) hparent rfl ?_ fun p' => ?_
      · exact (length_write s.queue p q b bs).symm ▸ hmuch
      · change (Function.update s.queue q (s.queue q ++ [b]) p').length ≤ capacity
        rw [Function.update_apply]
        split_ifs
        · rw [List.length_append, List.length_singleton]
          exact hroom
        · exact hqueue p'
    · exact ⟨s, hs, ⟨q, b, bs, hchild, hfull⟩, hparent⟩

/-- The parent closes its write ends and calls `join` before the child has written anything. -/
theorem reachable_joining : (plumbing capacity writes).Reachable
    ⟨.joining, some (bytesOf writes), fun _ => [], fun _ => []⟩ := by
  have hinit : (plumbing capacity writes).Reachable
      ⟨.closingWriteEnds pipes, some (bytesOf writes), fun _ => [], fun _ => []⟩ := .init rfl
  exact (((hinit.step (.closeWriteEnd rfl)).step (.closeWriteEnd rfl)).step (.closeWriteEnd rfl)).step (.join rfl)

theorem blocks_of_overflow {p : PipeName} (h : capacity < (bytesFor p (bytesOf writes)).length) :
    ∃ s, (plumbing capacity writes).Reachable s ∧ s.Blocked capacity ∧ s.parent = .joining :=
  jam (p := p) reachable_joining rfl rfl (by simpa using h) fun _ => Nat.zero_le _

/-- **`pipe_in` and its child never block each other exactly when every pipe can hold all that is written to it.** -/
theorem neverBlocks_iff (capacity : Nat) (writes : List (PipeName × Str)) :
    NeverBlocks capacity writes ↔ ∀ p, (bytesFor p (bytesOf writes)).length ≤ capacity := by
  constructor
  · intro h p
    by_contra hover
    obtain ⟨s, hs, hblocked, hjoining⟩ := blocks_of_overflow (Nat.lt_of_not_le hover)
    exact h.apart s hs ⟨hblocked, hjoining⟩
  · intro hroom
    refine ⟨fun s hs ⟨hblocked, hjoining⟩ => ?_, fun s hs => ?_, fun s hs hend exe params pid proc hpid => ?_⟩
    · exact not_blocked (plumbing_inv hs) hroom (hjoining ▸ id) hblocked
    · apply hs.path_of_progress Plumbing.ahead
      intro s hs hend
      obtain ⟨a, s', hst, hlt⟩ := progress (plumbing_inv hs) hroom hend
      exact ⟨a, s', hst, hlt⟩
    · exact pipeIn_of_finished (plumbing_inv hs) hend exe params hpid

theorem bytesFor_bytesOf_singleton (p : PipeName) (s : Str) : bytesFor p (bytesOf [(p, s)]) = s := by
  unfold bytesOf
  rw [List.flatMap_singleton]
  induction s with
  | nil => rfl
  | cons b s ih => exact (bytesFor_cons_self p b _).trans (congrArg (b :: ·) ih)

/-- A child that prints 65537 bytes into a pipe of 65536. -/
theorem large_output_blocks :
    ¬ ∀ (capacity : Nat) (writes : List (PipeName × Str)), 1 ≤ capacity → NeverBlocks capacity writes := by
  intro h
  have hlarge : 65536 < (bytesFor .data (bytesOf [(.data, List.replicate 65537 (0 : Byte))])).length := by
    rw [bytesFor_bytesOf_singleton, List.length_replicate]
    decide
  obtain ⟨s, hs, hblocked, hjoining⟩ := blocks_of_overflow hlarge
  exact (h 65536 [(.data, List.replicate 65537 (0 : Byte))] (by decide)).apart s hs ⟨hblocked, hjoining⟩

end OksSystem
