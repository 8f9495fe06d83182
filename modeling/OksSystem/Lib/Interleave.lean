import Mathlib.Data.List.Count
import Mathlib.Logic.Function.Basic
import OksSystem.Lib.Outcome
import OksSystem.Lib.Run

/-!
# Programs that share a state

Several programs act on one state, a call at a time and in any order.

* `Prog` : a program as the calls it makes; `Prog.run` : the program alone; `Prog.atomic` : a computation as one call;
* `Prog.Amid R Q E p s` : while the others change the state within `R`, the calls of `p` stay within `R` and `p` ends
  with `Q` or `E`; one rule for each way to put programs together;
* `Prog.Within n p` : `p` makes at most `n` calls;
* `Pool`, `pool` : programs, and what they and the others do in any order;
* `pool_amid` : what holds of every program amid the others, holds of each in every run of all of them;
* `pool_count_le` : how often a program is scheduled; `pool_alone` : scheduled alone it does what `Prog.run` does;
* `FirstAgain` : the first program that is scheduled twice.
-/

universe u v

/-- What a program does next: it ends, or makes a call. The call changes the state by `f`, and what follows may depend on
the state before it. -/
inductive Prog (ε σ α : Type u) where
  | ret (a : α)
  | fail (e : ε)
  | call (f : σ → σ) (k : σ → Prog ε σ α)

namespace Prog

variable {ε σ α β : Type u}

def bind : Prog ε σ α → (α → Prog ε σ β) → Prog ε σ β
  | ret a, next => next a
  | fail e, _ => fail e
  | call f k, next => call f fun s => (k s).bind next

def catching : Prog ε σ α → (ε → Prog ε σ α) → Prog ε σ α
  | ret a, _ => ret a
  | fail e, handle => handle e
  | call f k, handle => call f fun s => (k s).catching handle

instance : Monad (Prog ε σ) where
  pure := ret
  bind := bind

instance : MonadExceptOf ε (Prog ε σ) where
  throw := fail
  tryCatch := catching

/-- The program that has ended with a result. -/
def ended : EStateM.Result ε σ α → Prog ε σ α
  | .ok a _ => ret a
  | .error e _ => fail e

/-- A computation that is one call. -/
def atomic (x : EStateM ε σ α) : Prog ε σ α := call (fun s => (x.run s).state) fun s => ended (x.run s)

/-! ## A program alone -/

/-- The program without the others. -/
def run : Prog ε σ α → EStateM ε σ α
  | ret a => pure a
  | fail e => throw e
  | call f k => fun s => (k s).run (f s)

theorem run_pure (a : α) : (pure a : Prog ε σ α).run = pure a := rfl

theorem run_bind (p : Prog ε σ α) (k : α → Prog ε σ β) : (p >>= k).run = p.run >>= fun a => (k a).run := by
  induction p with
  | ret a => rfl
  | fail e => rfl
  | call f j ih =>
    funext s
    exact congrFun (ih s) (f s)

theorem run_tryCatch (p : Prog ε σ α) (handle : ε → Prog ε σ α) :
    (tryCatch p handle).run = tryCatch p.run fun e => (handle e).run := by
  induction p with
  | ret a => rfl
  | fail e => rfl
  | call f j ih =>
    funext s
    exact congrFun (ih s) (f s)

theorem run_atomic (x : EStateM ε σ α) : (atomic x).run = x := by
  funext s
  show (ended (x s)).run (x s).state = x s
  cases x s with
  | ok a s' => rfl
  | error e s' => rfl

/-! ## A program amid others -/

section Amid

variable {R : σ → σ → Prop} {Q Q' : α → σ → Prop} {T : β → σ → Prop} {E E' : ε → σ → Prop} {p : Prog ε σ α} {s s' : σ}

/-- From `s` on the others change the state within `R`. Then each call of `p` stays within `R`, and when `p` has returned
or thrown, the state meets `Q` or `E`. -/
def Amid (R : σ → σ → Prop) (Q : α → σ → Prop) (E : ε → σ → Prop) : Prog ε σ α → σ → Prop
  | ret a, s => ∀ s', R s s' → Q a s'
  | fail e, s => ∀ s', R s s' → E e s'
  | call f k, s => ∀ s', R s s' → R s' (f s') ∧ Amid R Q E (k s') (f s')

theorem Amid.mono (h : Amid R Q E p s) (hQ : ∀ a t, Q a t → Q' a t) (hE : ∀ e t, E e t → E' e t) :
    Amid R Q' E' p s := by
  induction p generalizing s with
  | ret a => exact fun t ht => hQ a t (h t ht)
  | fail e => exact fun t ht => hE e t (h t ht)
  | call f k ih => exact fun t ht => ⟨(h t ht).1, ih t (h t ht).2⟩

theorem Amid.pure {a : α} (h : ∀ t, R s t → Q a t) : Amid R Q E (Pure.pure a) s := h

theorem Amid.throw {e : ε} (h : ∀ t, R s t → E e t) : Amid R Q E (MonadExcept.throw e) s := h

/-- What a call leaves must stay true amid the others. -/
theorem Amid.atomic {x : EStateM ε σ α} (h : ∀ t, R s t → match x.run t with
      | .ok a t' => R t t' ∧ ∀ t'', R t' t'' → Q a t''
      | .error e t' => R t t' ∧ ∀ t'', R t' t'' → E e t'') : Amid R Q E (atomic x) s := by
  intro t ht
  have hrun := h t ht
  show R t (x.run t).state ∧ Amid R Q E (ended (x.run t)) (x.run t).state
  revert hrun
  cases x.run t with
  | ok a t' => exact id
  | error e t' => exact id

variable [IsPreorder σ R]

/-- The others may do more before the next call. -/
theorem Amid.later (h : Amid R Q E p s) (hs : R s s') : Amid R Q E p s' := by
  cases p with
  | ret a => exact fun t ht => h t (trans_of R hs ht)
  | fail e => exact fun t ht => h t (trans_of R hs ht)
  | call f k => exact fun t ht => h t (trans_of R hs ht)

theorem Amid.bind {k : α → Prog ε σ β} (hp : Amid R Q E p s) (hk : ∀ a t, R s t → Q a t → Amid R T E (k a) t) :
    Amid R T E (p >>= k) s := by
  induction p generalizing s with
  | ret a => exact hk a s (refl_of R s) (hp s (refl_of R s))
  | fail e => exact hp
  | call f j ih =>
    intro t ht
    obtain ⟨hR, hj⟩ := hp t ht
    exact ⟨hR, ih t hj fun a t' ht' => hk a t' (trans_of R ht (trans_of R hR ht'))⟩

theorem Amid.tryCatch {handle : ε → Prog ε σ α} (hp : Amid R Q E' p s)
    (hh : ∀ e t, R s t → E' e t → Amid R Q E (handle e) t) : Amid R Q E (tryCatch p handle) s := by
  induction p generalizing s with
  | ret a => exact hp
  | fail e => exact hh e s (refl_of R s) (hp s (refl_of R s))
  | call f j ih =>
    intro t ht
    obtain ⟨hR, hj⟩ := hp t ht
    exact ⟨hR, ih t hj fun e t' ht' => hh e t' (trans_of R ht (trans_of R hR ht'))⟩

end Amid

/-! ## How many calls a program makes -/

section Within

variable {m n : Nat} {p : Prog ε σ α}

/-- The program ends after at most `n` calls, whatever they answer. -/
def Within : Nat → Prog ε σ α → Prop
  | _, ret _ => True
  | _, fail _ => True
  | 0, call _ _ => False
  | n + 1, call _ k => ∀ s, Within n (k s)

theorem within_ret (n : Nat) (a : α) : Within n (ret a : Prog ε σ α) := by
  cases n <;> trivial

theorem within_fail (n : Nat) (e : ε) : Within n (fail e : Prog ε σ α) := by
  cases n <;> trivial

theorem Within.mono (h : Within m p) (hmn : m ≤ n) : Within n p := by
  induction p generalizing m n with
  | ret a => exact within_ret n a
  | fail e => exact within_fail n e
  | call f k ih =>
    obtain _ | m := m
    · exact h.elim
    · obtain ⟨n, rfl⟩ : ∃ j, n = j + 1 := ⟨n - 1, by omega⟩
      exact fun s => ih s (h s) (by omega)

theorem within_atomic (x : EStateM ε σ α) : Within 1 (atomic x) := by
  intro s
  show Within 0 (ended (x.run s))
  cases x.run s with
  | ok a _ => exact within_ret 0 a
  | error e _ => exact within_fail 0 e

theorem Within.bind {k : α → Prog ε σ β} (hp : Within m p) (hk : ∀ a, Within n (k a)) : Within (m + n) (p >>= k) := by
  induction p generalizing m with
  | ret a => exact (hk a).mono (by omega)
  | fail e => exact within_fail _ e
  | call f j ih =>
    obtain _ | m := m
    · exact hp.elim
    · rw [Nat.add_right_comm]
      exact fun s => ih s (hp s)

theorem Within.tryCatch {handle : ε → Prog ε σ α} (hp : Within m p) (hh : ∀ e, Within n (handle e)) :
    Within (m + n) (tryCatch p handle) := by
  induction p generalizing m with
  | ret a => exact within_ret _ a
  | fail e => exact (hh e).mono (by omega)
  | call f j ih =>
    obtain _ | m := m
    · exact hp.elim
    · rw [Nat.add_right_comm]
      exact fun s => ih s (hp s)

end Within

end Prog

/-! ## Many programs -/

structure Pool (ι : Type v) (ε σ α : Type u) where
  state : σ
  progs : ι → Prog ε σ α

namespace Pool

variable {ι : Type v} {ε σ α : Type u} [DecidableEq ι]

/-- One of the programs makes its next call, or the rest of the world changes the state within `S`. -/
inductive Step (S : σ → σ → Prop) : Pool ι ε σ α → Option ι → Pool ι ε σ α → Prop
  | call {s : Pool ι ε σ α} {i f k} (h : s.progs i = .call f k) :
    Step S s (some i) ⟨f s.state, Function.update s.progs i (k s.state)⟩
  | others {s : Pool ι ε σ α} {t} (h : S s.state t) : Step S s none ⟨t, s.progs⟩

variable {S : σ → σ → Prop} {β : Type u} {s t : Pool ι ε σ α} {i : ι}

/-- A program that starts with one call makes that call. -/
theorem Step.of_atomic {x : EStateM ε σ β} {k : β → Prog ε σ α} (hi : s.progs i = Prog.atomic x >>= k)
    (h : Step S s (some i) t) : t = ⟨(x.run s.state).state,
      Function.update s.progs i (Prog.ended (x.run s.state) >>= k)⟩ := by
  cases h with
  | call hcall =>
    obtain ⟨rfl, rfl⟩ := Prog.call.inj (hcall.symm.trans hi)
    rfl

end Pool

section Pool

variable {ι : Type v} {ε σ α : Type u} [DecidableEq ι] {R S : σ → σ → Prop} {s t : Pool ι ε σ α} {i : Option ι}
  {is : List (Option ι)}

/-- The programs, in any order, from any state. -/
def pool (S : σ → σ → Prop) : LTS (Pool ι ε σ α) (Option ι) where
  init _ := True
  step := Pool.Step S

section Amid

variable [IsPreorder σ R] {Q : ι → α → σ → Prop} {E : ι → ε → σ → Prop}

/-- A call of one program is a step of the others for the rest of them. -/
theorem Pool.Step.amid (hS : ∀ a b, S a b → R a b) (h : ∀ i, (s.progs i).Amid R (Q i) (E i) s.state)
    (hs : Pool.Step S s i t) : R s.state t.state ∧ ∀ i, (t.progs i).Amid R (Q i) (E i) t.state := by
  cases hs with
  | others ht => exact ⟨hS _ _ ht, fun i => (h i).later (hS _ _ ht)⟩
  | @call i f k hi =>
    have hself := h i
    rw [hi] at hself
    obtain ⟨hcall, hrest⟩ := hself s.state (refl_of R _)
    refine ⟨hcall, fun j => ?_⟩
    by_cases hj : j = i
    · rw [hj]
      show (Function.update s.progs i (k s.state) i).Amid _ _ _ _
      rwa [Function.update_self]
    · show (Function.update s.progs i (k s.state) j).Amid _ _ _ _
      rw [Function.update_of_ne hj]
      exact (h j).later hcall

/-- **What is shown of each program amid the others holds when they all run.** -/
theorem pool_amid (hS : ∀ a b, S a b → R a b) (h : ∀ i, (s.progs i).Amid R (Q i) (E i) s.state)
    (hp : (pool S).Path s is t) : R s.state t.state ∧ ∀ i, (t.progs i).Amid R (Q i) (E i) t.state := by
  induction hp with
  | nil s => exact ⟨refl_of R _, h⟩
  | cons hs _ ih =>
    obtain ⟨hR, h'⟩ := Pool.Step.amid hS h hs
    obtain ⟨hR', hend⟩ := ih h'
    exact ⟨trans_of R hR hR', hend⟩

end Amid

/-- A program is scheduled no more often than it makes calls. -/
theorem pool_count_le {i : ι} {n : Nat} (h : (s.progs i).Within n) (hp : (pool S).Path s is t) :
    is.count (some i) ≤ n := by
  induction hp generalizing n with
  | nil _ => exact Nat.zero_le n
  | @cons s j s' is t hs _ ih =>
    cases hs with
    | others _ =>
      rw [List.count_cons_of_ne (by simp)]
      exact ih h
    | @call j f k hj =>
      by_cases hij : j = i
      · subst hij
        rw [hj] at h
        obtain _ | n := n
        · exact h.elim
        · rw [List.count_cons_self]
          refine Nat.succ_le_succ (ih ?_)
          show (Function.update s.progs j _ j).Within n
          rw [Function.update_self]
          exact h s.state
      · rw [List.count_cons_of_ne (by simpa using hij)]
        refine ih ?_
        show (Function.update s.progs j _ i).Within n
        rwa [Function.update_of_ne (Ne.symm hij)]

/-- A program that is scheduled alone does what it does without the others. -/
theorem pool_alone (i : ι) {p : Prog ε σ α} (hp : s.progs i = p) :
    ∃ is, (pool S).Path s is
      ⟨(p.run.run s.state).state, Function.update s.progs i (.ended (p.run.run s.state))⟩ := by
  induction p generalizing s with
  | ret a =>
    refine ⟨[], ?_⟩
    show (pool S).Path s [] ⟨s.state, Function.update s.progs i (.ret a)⟩
    rw [← hp, Function.update_eq_self]
    exact .nil s
  | fail e =>
    refine ⟨[], ?_⟩
    show (pool S).Path s [] ⟨s.state, Function.update s.progs i (.fail e)⟩
    rw [← hp, Function.update_eq_self]
    exact .nil s
  | call f k ih =>
    obtain ⟨is, hpath⟩ := ih s.state (s := ⟨f s.state, Function.update s.progs i (k s.state)⟩)
      (Function.update_self ..)
    rw [Function.update_idem] at hpath
    exact ⟨some i :: is, .cons (.call hp) hpath⟩

end Pool

/-! ## Who is scheduled again first -/

section FirstAgain

variable {ι : Type v} [DecidableEq ι] {is pre : List (Option ι)} {j : ι}

/-- After `pre`, in which no program is scheduled twice, `j` is the first to be scheduled again. -/
structure FirstAgain (is pre : List (Option ι)) (j : ι) : Prop where
  starts : ∃ post, is = pre ++ some j :: post
  once : ∀ i : ι, pre.count (some i) ≤ 1
  again : some j ∈ pre

theorem once_or_firstAgain (is : List (Option ι)) :
    (∀ i : ι, is.count (some i) ≤ 1) ∨ ∃ pre j, FirstAgain is pre j := by
  induction is using List.reverseRecOn with
  | nil => exact .inl fun i => by simp
  | append_singleton is x ih =>
    rcases ih with honce | ⟨pre, j, ⟨post, rfl⟩, honce, hagain⟩
    · cases x with
      | none => exact .inl fun i => by simpa using honce i
      | some j =>
        by_cases hj : some j ∈ is
        · exact .inr ⟨is, j, ⟨[], rfl⟩, honce, hj⟩
        · refine .inl fun i => ?_
          rw [List.count_append, List.count_singleton]
          split_ifs with hij
          · obtain rfl : j = i := by simpa using hij
            simp [List.count_eq_zero.2 hj]
          · exact honce i
    · exact .inr ⟨pre, j, ⟨post ++ [x], by simp⟩, honce, hagain⟩

end FirstAgain
