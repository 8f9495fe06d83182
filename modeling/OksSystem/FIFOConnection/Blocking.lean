import OksSystem.FIFOConnection.Basic
import OksSystem.Lib.Run

/-!
# The blocking flag of a FIFO

An opener with `block` false sets `m_is_blocking` before it opens, and nothing sets it back.

* `Call`, `sessions` : the openers, `close` and `read` on one object, as far as their assertions allow;
* `Session.Described` : the flag is the `block` argument of the open that made the descriptor;
* `Call.Fair` : an open that throws changes nothing, and a FIFO opened with `block` true gives no empty message;
* `Call.Steady` : the calls that keep both; `blocking_iff` : both hold in a whole run exactly when every call is steady.
-/

namespace OksSystem.FIFOConnection
open ByteBuffer EStateM

inductive Call where
  | «open» (mode : Mode) (block : Bool) (sys : System)
  | close (sys : System)
  | read (answers : List (Except Errno Str))

/-- An object, and the `block` argument of the open that made its descriptor. -/
structure Session where
  world : World
  created : Bool

inductive Session.Step : Session → Call → Session → Prop
  | opens {s mode block sys p w} (hfd : s.world.self.fifoFd = none) (h : (mode.run block sys).run s.world = .ok p w) :
      Step s (.open mode block sys) ⟨w, block⟩
  | throws {s mode block sys e w} (hfd : s.world.self.fifoFd = none)
      (h : (mode.run block sys).run s.world = .error e w) : Step s (.open mode block sys) ⟨w, s.created⟩
  | close {s sys w} (h : ((FIFOConnection.close sys).run s.world).state = w) : Step s (.close sys) ⟨w, s.created⟩
  | read {s answers w} (hfd : s.world.self.fifoFd ≠ none)
      (h : ((FIFOConnection.read answers).run s.world).state = w) : Step s (.read answers) ⟨w, s.created⟩

/-- A new object and the calls on it. -/
def sessions : LTS Session Call where
  init s := ∃ name, s.world.self = construct name
  step := Session.Step

/-- In a state in which a descriptor is open. -/
def Session.Described (s : Session) : Prop := s.world.self.fifoFd ≠ none → s.world.self.isBlocking = s.created

def Call.Fair (s : Session) : Call → Prop
  | «open» mode block sys => ∀ e w, (mode.run block sys).run s.world = .error e w →
      w.self.isBlocking = s.world.self.isBlocking ∧ w.self.fifoFd = s.world.self.fifoFd
  | close _ => True
  | read answers => s.created = true → ∀ w, (FIFOConnection.read answers).run s.world ≠ .ok (some []) w

/-- An open that succeeds with `block` true finds the flag true, one that fails with `block` false finds it false, and the first
bytes that a blocking reader gets do not begin with NUL. -/
def Call.Steady (s : Session) : Call → Prop
  | «open» mode block sys => if block then sys.open (openFlags mode.flags block) 0 = none → s.world.self.isBlocking = true
      else sys.open (openFlags mode.flags block) 0 ≠ none → s.world.self.isBlocking = false
  | close _ => True
  | read answers => s.created = true → ∀ bytes, firstRead answers = some bytes → bytes.head? ≠ some 0

variable {s s' : Session} {i : Call} {mode : Mode} {block : Bool} {sys : System}

/-! ## The descriptor behind the pointer -/

/-- The pointer is null or points at an object. -/
def World.Sound (w : World) : Prop := w.self.fifoFd ≠ none → w.Ready

theorem sound_of_none {w : World} (h : w.self.fifoFd = none) : w.Sound := fun hfd => absurd h hfd

theorem fifoFd_close (hsound : s.world.Sound) :
    ((FIFOConnection.close sys).run s.world).state.self.fifoFd = none := by
  cases hfd : s.world.self.fifoFd with
  | none =>
    rw [run_close_none hfd]
    exact hfd
  | some k =>
    obtain ⟨d, hd⟩ := hsound (by simp [hfd])
    rw [run_close hfd (hfd ▸ hd)]
    rfl

theorem state_read (hsound : s.world.Sound) (hfd : s.world.self.fifoFd ≠ none) (answers : List (Except Errno Str)) :
    ((FIFOConnection.read answers).run s.world).state = s.world := by
  obtain ⟨d, hd⟩ := hsound hfd
  rw [run_read hfd]
  exact state_readLoop hd answers

theorem Session.Step.sound (hs : s.Step i s') (h : s.world.Sound) : s'.world.Sound := by
  cases hs with
  | @opens mode block sys p w hfd hrun =>
    obtain ⟨-, hok⟩ | ⟨-, e, he⟩ := run_mode mode block sys hfd
    · obtain ⟨-, rfl⟩ := Result.ok.inj (hok.symm.trans hrun)
      exact fun _ => ready_opened _
    · exact nomatch he.symm.trans hrun
  | @throws mode block sys e w hfd hrun =>
    obtain ⟨-, hok⟩ | ⟨-, e, he⟩ := run_mode mode block sys hfd
    · exact nomatch hok.symm.trans hrun
    · obtain ⟨-, rfl⟩ := Result.error.inj (he.symm.trans hrun)
      exact sound_of_none hfd
  | close hw => exact sound_of_none (hw ▸ fifoFd_close h)
  | read hfd hw =>
    rw [state_read h hfd] at hw
    exact hw ▸ h

theorem reachable_sound (h : sessions.Reachable s) : s.world.Sound := by
  refine h.invariant (I := fun s => s.world.Sound) (fun s hinit => ?_) fun _ _ _ hsound hs => Session.Step.sound hs hsound
  obtain ⟨name, hname⟩ := hinit
  exact sound_of_none (by rw [hname]; rfl)

/-! ## One call -/

theorem fair_read (hsound : s.world.Sound) (hfd : s.world.self.fifoFd ≠ none) (h : s.Described)
    (answers : List (Except Errno Str)) : (Call.read answers).Fair s ↔ (Call.read answers).Steady s := by
  obtain ⟨d, hd⟩ := hsound hfd
  refine forall_congr' fun hcreated => ?_
  have hblocking : s.world.self.isBlocking = true := (h hfd).trans hcreated
  rw [run_read hfd]
  constructor
  · intro hfair bytes hbytes hhead
    exact hfair s.world ((run_readLoop hd hblocking answers [] _).2
      ⟨rfl, bytes, hbytes, cstr_snoc_nul_eq_nil.2 (.inr hhead)⟩)
  · intro hsteady w hrun
    obtain ⟨-, bytes, hbytes, hnil⟩ := (run_readLoop hd hblocking answers [] w).1 hrun
    obtain hnil | hhead := cstr_snoc_nul_eq_nil.1 hnil
    · exact firstRead_ne_nil hbytes hnil
    · exact hsteady bytes hbytes hhead

theorem described_step (hsound : s.world.Sound) (h : s.Described) (hs : s.Step i s') :
    s'.Described ∧ i.Fair s ↔ i.Steady s := by
  cases hs with
  | @opens mode block sys p w hfd hrun =>
    obtain ⟨hopen, hok⟩ | ⟨-, e, he⟩ := run_mode mode block sys hfd
    · obtain ⟨-, rfl⟩ := Result.ok.inj (hok.symm.trans hrun)
      have hfair : (Call.open mode block sys).Fair s := fun e w he => nomatch he.symm.trans hok
      have hdescribed : Session.Described ⟨(s.world.flagged block).opened, block⟩ ↔
          (s.world.self.isBlocking && block) = block := forall_prop_of_true (by simp [World.opened])
      rw [and_iff_left hfair, hdescribed]
      unfold Call.Steady
      cases block <;> simp [hopen]
    · exact nomatch he.symm.trans hrun
  | @throws mode block sys e w hfd hrun =>
    obtain ⟨-, hok⟩ | ⟨hopen, e', he⟩ := run_mode mode block sys hfd
    · exact nomatch hok.symm.trans hrun
    · obtain ⟨-, rfl⟩ := Result.error.inj (he.symm.trans hrun)
      have hdescribed : Session.Described ⟨s.world.flagged block, s.created⟩ := fun hne => absurd hfd hne
      have hfair : (Call.open mode block sys).Fair s ↔ (s.world.self.isBlocking && block) = s.world.self.isBlocking := by
        refine ⟨fun hf => (hf _ _ he).1, fun hf e w hw => ?_⟩
        obtain ⟨-, rfl⟩ := Result.error.inj (he.symm.trans hw)
        exact ⟨hf, rfl⟩
      rw [and_iff_right hdescribed, hfair]
      unfold Call.Steady
      cases block <;> simp [hopen]
  | @close sys w hw =>
    have hfd : w.self.fifoFd = none := hw ▸ fifoFd_close hsound
    exact iff_of_true ⟨fun hne => absurd hfd hne, trivial⟩ trivial
  | @read answers w hfd hw =>
    rw [state_read hsound hfd] at hw
    subst hw
    rw [and_iff_right h]
    exact fair_read hsound hfd h answers

/-- **The flag describes the open descriptor in every state of a run, a throwing open changes nothing, and a FIFO opened with
`block` true gives no empty message, exactly when every call is steady.** -/
theorem blocking_iff {xs : List (Session × Call)} (h : sessions.Trace xs s) :
    ((∀ x ∈ xs, x.1.Described ∧ x.2.Fair x.1) ∧ s.Described) ↔ ∀ x ∈ xs, x.2.Steady x.1 := by
  refine h.fine_iff (fun s hinit => ?_) (fun _ => id) fun _ _ _ hr hd hs => ?_
  · obtain ⟨name, hname⟩ := hinit
    exact fun hne => absurd (by rw [hname]; rfl) hne
  · have hiff := described_step (reachable_sound hr) hd hs
    exact ⟨hiff, fun hsteady => (hiff.2 hsteady).1⟩

/-! ## One object opened in both ways -/

/-- A new `FIFOConnection("/tmp/f")`. -/
def fresh : Session := ⟨⟨construct (text "/tmp/f"), ⟨⟨[some .process, some .process, some .process]⟩, [], []⟩⟩, true⟩

/-- Every call succeeds. -/
def granted : System := ⟨fun _ _ => none, .done⟩

/-- Opened with `block` true, closed, and opened so again. -/
theorem blocking_iff_open : ∃ opened closed reopened, sessions.Trace [(fresh, .open .r true granted),
    (opened, .close granted), (closed, .open .rw true granted)] reopened ∧ reopened.world.self.fifoFd ≠ none ∧
      opened.Described ∧ reopened.Described := by
  let opened : Session := ⟨(fresh.world.flagged true).opened, true⟩
  let closed : Session := ⟨((FIFOConnection.close granted).run opened.world).state, true⟩
  let reopened : Session := ⟨(closed.world.flagged true).opened, true⟩
  have hopen : Session.Step fresh (.open .r true granted) opened := .opens rfl rfl
  have hclose : Session.Step opened (.close granted) closed := .close rfl
  have hreopen : Session.Step closed (.open .rw true granted) reopened := .opens rfl rfl
  have htrace := (((LTS.Trace.init (T := sessions) ⟨text "/tmp/f", rfl⟩).snoc hopen).snoc hclose).snoc hreopen
  have hfine := (blocking_iff htrace).2 (List.forall_mem_cons.2
    ⟨fun _ => rfl, List.forall_mem_cons.2 ⟨trivial, List.forall_mem_singleton.2 fun _ => rfl⟩⟩)
  refine ⟨opened, closed, reopened, htrace, by decide, ?_, hfine.2⟩
  exact (hfine.1 (opened, .close granted) (by simp)).1

/-- Opened with `block` false, closed, and opened with `block` true: the flag is false. -/
theorem reopened_not_blocking : ¬ ∀ xs s, sessions.Trace xs s →
    (∀ x ∈ xs, x.1.Described ∧ x.2.Fair x.1) ∧ s.Described := by
  intro hall
  let opened := (fresh.world.flagged false).opened
  let closed := ((FIFOConnection.close granted).run opened).state
  let reopened := (closed.flagged true).opened
  have hopen : Session.Step fresh (.open .r false granted) ⟨opened, false⟩ := .opens rfl rfl
  have hclose : Session.Step ⟨opened, false⟩ (.close granted) ⟨closed, false⟩ := .close rfl
  have hreopen : Session.Step ⟨closed, false⟩ (.open .r true granted) ⟨reopened, true⟩ := .opens rfl rfl
  have htrace := (((LTS.Trace.init (T := sessions) ⟨text "/tmp/f", rfl⟩).snoc hopen).snoc hclose).snoc hreopen
  exact absurd ((hall _ _ htrace).2 (by decide)) (by decide)

end OksSystem.FIFOConnection
