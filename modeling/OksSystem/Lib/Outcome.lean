import Mathlib.Tactic.TypeStar
import Mathlib.Tactic.SplitIfs

/-!
# Computations that leave a state behind

`EStateM` keeps the state when a computation throws. Here are the rules to run one.

* `state` : the state a result leaves, `thrown` : the exception;
* `cleanup` : a computation with a destructor, which runs when the computation returns and when it throws an exception
  that unwinds the stack (`run_cleanup`);
* `zoom` : a computation on a part of the state (`run_zoom_ok`, `run_zoom_error`);
* `run_throw_any`, `run_tryCatch_any`, `run_bind_ok`, `run_bind_error` : running one step;
* `Keeps f x` : `x` leaves `f` of the state as it was, with a rule for each way to put computations together;
* `Triple P x Q E` : from a state with `P`, `x` returns with `Q` or throws with `E`; `Triple.forM` is the rule for
  loops.
-/

universe u

namespace EStateM

variable {ε σ α β : Type u}

/-- The state a computation leaves, however it ends. -/
def Result.state : Result ε σ α → σ
  | .ok _ s => s
  | .error _ s => s

@[simp] theorem Result.state_ok (a : α) (s : σ) : (Result.ok a s : Result ε σ α).state = s := rfl

@[simp] theorem Result.state_error (e : ε) (s : σ) : (Result.error e s : Result ε σ α).state = s := rfl

/-- What a computation ends with that does not return. -/
def Result.thrown : Result ε σ α → Option ε
  | .ok _ _ => none
  | .error e _ => some e

@[simp] theorem run_throw_any (e : ε) (s : σ) : (throw e : EStateM ε σ α).run s = .error e s := rfl

theorem run_bind_ok {x : EStateM ε σ α} {f : α → EStateM ε σ β} {s s' : σ} {a : α} (h : x.run s = .ok a s') :
    (x >>= f).run s = (f a).run s' := by
  rw [run_bind, h]

theorem run_bind_error {x : EStateM ε σ α} {f : α → EStateM ε σ β} {s s' : σ} {e : ε} (h : x.run s = .error e s') :
    (x >>= f).run s = .error e s' := by
  rw [run_bind, h]

/-- What returns has run both parts. -/
theorem exists_of_bind_ok {x : EStateM ε σ α} {f : α → EStateM ε σ β} {s s' : σ} {b : β} (h : (x >>= f).run s = .ok b s') :
    ∃ a s₁, x.run s = .ok a s₁ ∧ (f a).run s₁ = .ok b s' := by
  cases hx : x.run s with
  | ok a s₁ =>
    rw [run_bind_ok hx] at h
    exact ⟨a, s₁, rfl, h⟩
  | error e s₁ =>
    rw [run_bind_error hx] at h
    cases h

@[simp] theorem run_tryCatch_any (x : EStateM ε σ α) (handle : ε → EStateM ε σ α) (s : σ) :
    (tryCatch x handle).run s = match x.run s with
      | .ok a s' => .ok a s'
      | .error e s' => (handle e).run s' := by
  change EStateM.tryCatch x handle s = match x s with
    | .ok a s' => .ok a s'
    | .error e s' => handle e s'
  unfold EStateM.tryCatch
  cases x s <;> rfl

/-- `x`, then `destroy` on the state it leaves; an exception that does not unwind the stack leaves it out. -/
def cleanup (unwinds : ε → Bool) (destroy : σ → σ) (x : EStateM ε σ α) : EStateM ε σ α := fun s =>
  match x s with
  | .ok a s' => .ok a (destroy s')
  | .error e s' => .error e (if unwinds e then destroy s' else s')

theorem run_cleanup (unwinds : ε → Bool) (destroy : σ → σ) (x : EStateM ε σ α) (s : σ) :
    (cleanup unwinds destroy x).run s = match x.run s with
      | .ok a s' => .ok a (destroy s')
      | .error e s' => .error e (if unwinds e then destroy s' else s') := rfl

theorem exists_of_cleanup_ok {unwinds : ε → Bool} {destroy : σ → σ} {x : EStateM ε σ α} {s s' : σ} {a : α}
    (h : (cleanup unwinds destroy x).run s = .ok a s') : ∃ s₁, x.run s = .ok a s₁ ∧ s' = destroy s₁ := by
  rw [run_cleanup] at h
  cases hx : x.run s with
  | ok b s₁ =>
    rw [hx] at h
    cases h
    exact ⟨s₁, rfl, rfl⟩
  | error e s₁ =>
    rw [hx] at h
    cases h

/-! ## A computation on a part of the state -/

section Zoom

variable {τ : Type u}

/-- `x` on the part of the state that `get` reads and `set` writes. -/
def zoom (get : σ → τ) (set : σ → τ → σ) (x : EStateM ε τ α) : EStateM ε σ α := fun s =>
  match x (get s) with
  | .ok a t => .ok a (set s t)
  | .error e t => .error e (set s t)

variable {get : σ → τ} {set : σ → τ → σ} {x : EStateM ε τ α} {s : σ} {t : τ}

theorem run_zoom_ok {a : α} (hx : x.run (get s) = .ok a t) : (zoom get set x).run s = .ok a (set s t) := by
  show (match x.run (get s) with | .ok a t => _ | .error e t => _) = _
  rw [hx]

theorem run_zoom_error {e : ε} (hx : x.run (get s) = .error e t) : (zoom get set x).run s = .error e (set s t) := by
  show (match x.run (get s) with | .ok a t => _ | .error e t => _) = _
  rw [hx]

theorem state_zoom (get : σ → τ) (set : σ → τ → σ) (x : EStateM ε τ α) (s : σ) :
    ((zoom get set x).run s).state = set s (x.run (get s)).state := by
  cases hx : x.run (get s) with
  | ok a t => rw [run_zoom_ok hx]; rfl
  | error e t => rw [run_zoom_error hx]; rfl

end Zoom

/-! ## What a computation leaves as it was -/

section Keeps

variable {γ : Type*}

/-- `x` leaves `f` of the state as it was, however it ends. -/
def Keeps (f : σ → γ) (x : EStateM ε σ α) : Prop := ∀ s, f (x.run s).state = f s

variable {f : σ → γ}

theorem Keeps.pure (a : α) : Keeps f (Pure.pure a : EStateM ε σ α) := fun _ => rfl

theorem Keeps.get : Keeps f (MonadState.get : EStateM ε σ σ) := fun _ => rfl

theorem Keeps.throw (e : ε) : Keeps f (MonadExcept.throw e : EStateM ε σ α) := fun _ => rfl

theorem Keeps.modify {g : σ → σ} (h : ∀ s, f (g s) = f s) : Keeps f (modifyThe σ g : EStateM ε σ PUnit) := h

theorem Keeps.modifyGet {g : σ → α × σ} (h : ∀ s, f (g s).2 = f s) :
    Keeps f (MonadState.modifyGet g : EStateM ε σ α) := h

theorem Keeps.bind {x : EStateM ε σ α} {k : α → EStateM ε σ β} (hx : Keeps f x) (hk : ∀ a, Keeps f (k a)) :
    Keeps f (x >>= k) := by
  intro s
  have hs := hx s
  rw [run_bind]
  cases hr : x.run s with
  | ok a s' =>
    rw [hr] at hs
    exact (hk a s').trans hs
  | error e s' =>
    rw [hr] at hs
    exact hs

theorem Keeps.zoom {τ : Type u} {get : σ → τ} {set : σ → τ → σ} (h : ∀ s t, f (set s t) = f s) (x : EStateM ε τ α) :
    Keeps f (EStateM.zoom get set x) := by
  intro s
  rw [state_zoom]
  exact h s _

/-- After a computation that ends in `ok`, the rest decides what is left. -/
theorem state_bind_of_ok {x : EStateM ε σ α} {k : α → EStateM ε σ β} {s s' : σ} {a : α} (h : x.run s = .ok a s') :
    ((x >>= k).run s).state = ((k a).run s').state := by
  rw [run_bind_ok h]

/-- A destructor that keeps `f` changes nothing about `f`. -/
theorem state_cleanup {unwinds : ε → Bool} {destroy : σ → σ} (h : ∀ s, f (destroy s) = f s) (x : EStateM ε σ α)
    (s : σ) : f ((cleanup unwinds destroy x).run s).state = f (x.run s).state := by
  rw [run_cleanup]
  cases x.run s with
  | ok a s' => exact h s'
  | error e s' =>
    change f (if unwinds e then destroy s' else s') = f s'
    split_ifs
    · exact h s'
    · rfl

end Keeps

/-! ## What holds of the state and the result -/

section Triple

variable {P P' : σ → Prop} {Q Q' : α → σ → Prop} {R : β → σ → Prop} {E E' : σ → Prop} {x : EStateM ε σ α}

/-- From a state with `P`, `x` returns with `Q` or throws with `E`. -/
def Triple (P : σ → Prop) (x : EStateM ε σ α) (Q : α → σ → Prop) (E : σ → Prop) : Prop :=
  ∀ s, P s → match x.run s with
    | .ok a s' => Q a s'
    | .error _ s' => E s'

theorem Triple.pure (a : α) (h : ∀ s, P s → Q a s) : Triple P (Pure.pure a : EStateM ε σ α) Q E := h

theorem Triple.throw (e : ε) (h : ∀ s, P s → E s) : Triple P (MonadExcept.throw e : EStateM ε σ α) Q E := h

theorem Triple.mono (hx : Triple P x Q E) (hP : ∀ s, P' s → P s) (hQ : ∀ a s, Q a s → Q' a s)
    (hE : ∀ s, E s → E' s) : Triple P' x Q' E' := by
  intro s hs
  have hrun := hx s (hP s hs)
  revert hrun
  cases x.run s with
  | ok a s' => exact hQ a s'
  | error e s' => exact hE s'

theorem Triple.bind {f : α → EStateM ε σ β} (hx : Triple P x Q E) (hf : ∀ a, Triple (Q a) (f a) R E) :
    Triple P (x >>= f) R E := by
  intro s hs
  have hrun := hx s hs
  rw [run_bind]
  revert hrun
  cases x.run s with
  | ok a s' => exact hf a s'
  | error e s' => exact id

theorem Triple.tryCatch {handle : ε → EStateM ε σ α} (hx : Triple P x Q E') (hh : ∀ e, Triple E' (handle e) Q E) :
    Triple P (MonadExcept.tryCatch x handle) Q E := by
  intro s hs
  have hrun := hx s hs
  show match (MonadExcept.tryCatch x handle : EStateM ε σ α).run s with | .ok a s' => Q a s' | .error _ s' => E s'
  rw [show (MonadExcept.tryCatch x handle : EStateM ε σ α).run s = match x.run s with
    | .ok a s' => .ok a s'
    | .error e s' => (handle e).run s' from run_tryCatch_any x handle s]
  revert hrun
  cases x.run s with
  | ok a s' => exact id
  | error e s' => exact hh e s'

theorem Triple.of_forall (h : ∀ s, P s → Triple (· = s) x Q E) : Triple P x Q E := fun s hs => h s hs s rfl

theorem Triple.of_run_ok {s s' : σ} {a : α} (hx : x.run s = .ok a s') (h : Q a s') : Triple (· = s) x Q E := by
  rintro _ rfl
  rw [hx]
  exact h

theorem Triple.of_run_error {s s' : σ} {e : ε} (hx : x.run s = .error e s') (h : E s') : Triple (· = s) x Q E := by
  rintro _ rfl
  rw [hx]
  exact h

theorem Triple.of_run_eq {y : EStateM ε σ α} {s : σ} (hxy : x.run s = y.run s) (hy : Triple (· = s) y Q E) :
    Triple (· = s) x Q E := by
  rintro _ rfl
  rw [hxy]
  exact hy _ rfl

theorem Triple.bind_ok {f : α → EStateM ε σ β} {s s' : σ} {a : α} (hx : x.run s = .ok a s')
    (hf : Triple (· = s') (f a) R E) : Triple (· = s) (x >>= f) R E := by
  rintro _ rfl
  rw [run_bind_ok hx]
  exact hf s' rfl

theorem Triple.ite {c : Prop} [Decidable c] {y : EStateM ε σ α} (hx : c → Triple P x Q E)
    (hy : ¬ c → Triple P y Q E) : Triple P (if c then x else y) Q E := by
  split_ifs with hc
  · exact hx hc
  · exact hy hc

theorem Triple.and (hx : Triple P x Q E) (hx' : Triple P x Q' E') :
    Triple P x (fun a s => Q a s ∧ Q' a s) (fun s => E s ∧ E' s) := by
  intro s hs
  have hrun := hx s hs
  have hrun' := hx' s hs
  revert hrun hrun'
  cases x.run s with
  | ok a s' => exact And.intro
  | error e s' => exact And.intro

/-- The state after `x`, however it ends. -/
theorem Triple.state (hx : Triple P x (fun _ => E) E) {s : σ} (hs : P s) : E (x.run s).state := by
  have hrun := hx s hs
  revert hrun
  cases x.run s with
  | ok a s' => exact id
  | error e s' => exact id

theorem Triple.forM {γ : Type u} {l : List γ} {f : γ → EStateM ε σ PUnit}
    (h : ∀ a ∈ l, Triple P (f a) (fun _ => P) E) : Triple P (l.forM f) (fun _ => P) E := by
  induction l with
  | nil => exact Triple.pure _ fun _ => id
  | cons a l ih =>
    exact Triple.bind (h a List.mem_cons_self) fun _ => ih fun b hb => h b (List.mem_cons_of_mem a hb)

end Triple

end EStateM
