import OksSystem.Lib.Interleave

/-!
# Programs that share nothing

* `Prog.Local V W Q p` : states that `V` takes for the same are the same to `p`, and its calls change the state within
  `W`; one rule for each way to put programs together;
* `Prog.run_foldlM`, `Prog.run_forM`, `Prog.run_mapM` : loops alone; `Prog.steps` : how many calls a program makes alone;
* `Pool.Step.separate`, `pool_separate` : **when no program changes what another sees, each does in every run of all of
  them what it does alone**.
-/

universe u v w

namespace Prog

variable {ε σ α β : Type u} {γ : Type w}

theorem bind_ret (p : Prog ε σ α) : p.bind ret = p := by
  induction p with
  | ret a => rfl
  | fail e => rfl
  | call f k ih => exact congrArg (call f) (funext ih)

theorem bind_bind {δ : Type u} (p : Prog ε σ α) (k : α → Prog ε σ β) (j : β → Prog ε σ δ) :
    (p.bind k).bind j = p.bind fun a => (k a).bind j := by
  induction p with
  | ret a => rfl
  | fail e => rfl
  | call f i ih => exact congrArg (call f) (funext ih)

instance : LawfulMonad (Prog ε σ) := LawfulMonad.mk' _ bind_ret (fun _ _ => rfl) bind_bind

/-! ## Loops alone -/

theorem run_foldlM (l : List γ) (f : β → γ → Prog ε σ β) (b : β) :
    (l.foldlM f b).run = l.foldlM (fun b c => (f b c).run) b := by
  induction l generalizing b with
  | nil => rfl
  | cons c l ih =>
    rw [List.foldlM_cons, List.foldlM_cons, run_bind]
    exact congrArg _ (funext ih)

theorem run_forM (l : List γ) (f : γ → Prog ε σ PUnit) : (l.forM f).run = l.forM fun c => (f c).run := by
  induction l with
  | nil => rfl
  | cons c l ih =>
    show (f c >>= fun _ => l.forM f).run = (f c).run >>= fun _ => l.forM fun c => (f c).run
    rw [run_bind, ih]

theorem run_mapM (l : List γ) (f : γ → Prog ε σ β) : (l.mapM f).run = l.mapM fun c => (f c).run := by
  induction l with
  | nil => rfl
  | cons c l ih =>
    rw [List.mapM_cons, List.mapM_cons, run_bind]
    congr 1
    funext b
    rw [run_bind, ih]
    rfl

/-- How many calls the program makes alone. -/
def steps : Prog ε σ α → σ → Nat
  | ret _, _ => 0
  | fail _, _ => 0
  | call f k, s => (k s).steps (f s) + 1

theorem ended_of_steps {p : Prog ε σ α} {s : σ} (h : p.steps s = 0) : p = ended (p.run.run s) := by
  cases p with
  | ret a => rfl
  | fail e => rfl
  | call f k => exact absurd h (Nat.succ_ne_zero _)

/-! ## A program that sees a part of the state -/

section Local

variable {V W : σ → σ → Prop} {Q Q' : α → Prop} {T : β → Prop} {p : Prog ε σ α}

/-- On two states that `V` takes for the same `p` makes the same calls. They keep `V` and change the state within `W`, and
what `p` returns meets `Q`. -/
def Local (V W : σ → σ → Prop) (Q : α → Prop) : Prog ε σ α → Prop
  | ret a => Q a
  | fail _ => True
  | call f k => ∀ s u, V s u → W s (f s) ∧ V (f s) (f u) ∧ k s = k u ∧ Local V W Q (k s)

theorem Local.pure {a : α} (h : Q a) : Local V W Q (Pure.pure a : Prog ε σ α) := h

theorem Local.throw (e : ε) : Local V W Q (MonadExcept.throw e : Prog ε σ α) := trivial

theorem Local.mono (h : Local V W Q p) (hQ : ∀ a, Q a → Q' a) : Local V W Q' p := by
  induction p with
  | ret a => exact hQ a h
  | fail e => trivial
  | call f k ih =>
    intro s u hsu
    obtain ⟨hW, hV, hk, hrest⟩ := h s u hsu
    exact ⟨hW, hV, hk, ih s hrest⟩

/-- One call that gives the same answer. -/
theorem Local.atomic {x : EStateM ε σ α} (h : ∀ s u, V s u → ∃ s' u', W s s' ∧ V s' u' ∧
      ((∃ a, x.run s = .ok a s' ∧ x.run u = .ok a u' ∧ Q a) ∨ ∃ e, x.run s = .error e s' ∧ x.run u = .error e u')) :
    Local V W Q (atomic x) := by
  intro s u hsu
  obtain ⟨s', u', hW, hV, ⟨a, hs, hu, hQ⟩ | ⟨e, hs, hu⟩⟩ := h s u hsu
  · show W s (x.run s).state ∧ V (x.run s).state (x.run u).state ∧ ended (x.run s) = ended (x.run u) ∧
      Local V W Q (ended (x.run s))
    rw [hs, hu]
    exact ⟨hW, hV, rfl, hQ⟩
  · show W s (x.run s).state ∧ V (x.run s).state (x.run u).state ∧ ended (x.run s) = ended (x.run u) ∧
      Local V W Q (ended (x.run s))
    rw [hs, hu]
    exact ⟨hW, hV, rfl, trivial⟩

theorem Local.bind {k : α → Prog ε σ β} (hp : Local V W Q p) (hk : ∀ a, Q a → Local V W T (k a)) :
    Local V W T (p >>= k) := by
  induction p with
  | ret a => exact hk a hp
  | fail e => trivial
  | call f j ih =>
    intro s u hsu
    obtain ⟨hW, hV, hj, hrest⟩ := hp s u hsu
    exact ⟨hW, hV, congrArg (fun p => Prog.bind p k) hj, ih s hrest⟩

theorem Local.tryCatch {handle : ε → Prog ε σ α} (hp : Local V W Q p) (hh : ∀ e, Local V W Q (handle e)) :
    Local V W Q (tryCatch p handle) := by
  induction p with
  | ret a => exact hp
  | fail e => exact hh e
  | call f j ih =>
    intro s u hsu
    obtain ⟨hW, hV, hj, hrest⟩ := hp s u hsu
    exact ⟨hW, hV, congrArg (fun p => Prog.catching p handle) hj, ih s hrest⟩

theorem Local.foldlM {l : List γ} {f : β → γ → Prog ε σ β} {b : β} (hb : T b)
    (hf : ∀ b, ∀ c ∈ l, T b → Local V W T (f b c)) : Local V W T (l.foldlM f b) := by
  induction l generalizing b with
  | nil => exact hb
  | cons c l ih =>
    rw [List.foldlM_cons]
    refine Local.bind (hf b c List.mem_cons_self hb) fun b' hb' => ?_
    exact ih hb' fun b c' hc' => hf b c' (List.mem_cons_of_mem c hc')

theorem Local.forM {l : List γ} {f : γ → Prog ε σ PUnit} (hf : ∀ c ∈ l, Local V W (fun _ => True) (f c)) :
    Local V W (fun _ => True) (l.forM f) := by
  induction l with
  | nil => trivial
  | cons c l ih =>
    refine Local.bind (p := f c) (hf c List.mem_cons_self) fun _ _ => ?_
    exact ih fun c' hc' => hf c' (List.mem_cons_of_mem c hc')

theorem Local.mapM {l : List γ} {f : γ → Prog ε σ β} (hf : ∀ c ∈ l, Local V W T (f c)) :
    Local V W (fun bs => ∀ b ∈ bs, T b) (l.mapM f) := by
  induction l with
  | nil => exact fun b hb => absurd hb List.not_mem_nil
  | cons c l ih =>
    rw [List.mapM_cons]
    refine Local.bind (hf c List.mem_cons_self) fun b hb =>
      Local.bind (ih fun c' hc' => hf c' (List.mem_cons_of_mem c hc')) fun bs hbs => Local.pure fun b' hb' => ?_
    rcases List.mem_cons.1 hb' with rfl | hmem
    · exact hb
    · exact hbs b' hmem

end Local

end Prog

/-! ## Together -/

section Pool

variable {ι : Type v} {ε σ α : Type u} [DecidableEq ι] {R S : σ → σ → Prop} {V W : ι → σ → σ → Prop} {Q : ι → α → Prop}
  {s t : Pool ι ε σ α} {u : ι → σ} {i : Option ι} {is : List (Option ι)}

/-- Program `i` sees no difference between the state and `u i`. -/
structure Pool.Separate (V W : ι → σ → σ → Prop) (Q : ι → α → Prop) (s : Pool ι ε σ α) (u : ι → σ) : Prop where
  sees : ∀ i, V i s.state (u i)
  runs : ∀ i, (s.progs i).Local (V i) (W i) (Q i)

/-- What is left to do alone after the calls of `is`. -/
structure Pool.Left (s : Pool ι ε σ α) (u : ι → σ) (is : List (Option ι)) (t : Pool ι ε σ α) (u' : ι → σ) : Prop where
  run : ∀ i, (s.progs i).run.run (u i) = (t.progs i).run.run (u' i)
  steps : ∀ i, (s.progs i).steps (u i) = is.count (some i) + (t.progs i).steps (u' i)

variable (hothers : ∀ i j s s' u, i ≠ j → V i s u → W j s s' → V i s' u)
  (hS : ∀ i s s' u, V i s u → S s s' → V i s' u)

include hothers hS in
/-- A call of one program is the same call alone, and is nothing to the others. -/
theorem Pool.Step.separate (h : s.Separate V W Q u) (hs : Pool.Step S s i t) :
    ((∃ j, W j s.state t.state) ∨ S s.state t.state) ∧ ∃ u', t.Separate V W Q u' ∧ s.Left u [i] t u' := by
  cases hs with
  | others ht =>
    refine ⟨.inr ht, u, ⟨fun i => hS i _ _ _ (h.sees i) ht, h.runs⟩, fun _ => rfl, fun i => ?_⟩
    rw [List.count_singleton, if_neg (by simp), Nat.zero_add]
  | @call j f k hj =>
    have hlocal := h.runs j
    rw [hj] at hlocal
    obtain ⟨hW, hV, hk, hrest⟩ := hlocal s.state (u j) (h.sees j)
    have hself : Function.update s.progs j (k s.state) j = k s.state := Function.update_self ..
    have hother : ∀ i ≠ j, Function.update s.progs j (k s.state) i = s.progs i := fun i hij => Function.update_of_ne hij ..
    refine ⟨.inl ⟨j, hW⟩, Function.update u j (f (u j)), ⟨fun i => ?_, fun i => ?_⟩, fun i => ?_, fun i => ?_⟩
    · by_cases hij : i = j
      · subst hij
        rwa [Function.update_self]
      · rw [Function.update_of_ne hij]
        exact hothers i j _ _ _ hij (h.sees i) hW
    · show (Function.update s.progs j (k s.state) i).Local _ _ _
      by_cases hij : i = j
      · subst hij
        rwa [hself]
      · rw [hother i hij]
        exact h.runs i
    · show _ = (Function.update s.progs j (k s.state) i).run.run _
      by_cases hij : i = j
      · subst hij
        rw [hself, Function.update_self, hj, hk]
        rfl
      · rw [hother i hij, Function.update_of_ne hij]
    · show _ = _ + (Function.update s.progs j (k s.state) i).steps _
      by_cases hij : i = j
      · subst hij
        rw [hself, Function.update_self, hj, hk, List.count_singleton_self, Nat.add_comm]
        rfl
      · rw [hother i hij, Function.update_of_ne hij, List.count_singleton, if_neg (by simpa using Ne.symm hij), Nat.zero_add]

include hothers hS in
/-- **Programs that do not change what the others see do together what each does alone.** -/
theorem pool_separate [IsPreorder σ R] (hW : ∀ j s s', W j s s' → R s s') (hSR : ∀ s s', S s s' → R s s')
    (h : s.Separate V W Q u) (hp : (pool S).Path s is t) :
    R s.state t.state ∧ ∃ u', t.Separate V W Q u' ∧ s.Left u is t u' := by
  induction hp generalizing u with
  | nil s => exact ⟨refl_of R _, u, h, fun _ => rfl, fun _ => (Nat.zero_add _).symm⟩
  | @cons s i s₁ is t hs _ ih =>
    obtain ⟨hstep, u₁, h₁, hleft₁⟩ := Pool.Step.separate hothers hS h hs
    obtain ⟨hR, u', h', hleft⟩ := ih h₁
    refine ⟨trans_of R ?_ hR, u', h', fun k => (hleft₁.run k).trans (hleft.run k), fun k => ?_⟩
    · rcases hstep with ⟨j, hj⟩ | hother
      · exact hW j _ _ hj
      · exact hSR _ _ hother
    · rw [hleft₁.steps k, hleft.steps k, ← Nat.add_assoc, ← List.count_append, List.singleton_append]

end Pool
