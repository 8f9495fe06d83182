import Mathlib.Algebra.GroupWithZero.Nat
import Mathlib.Data.List.Induction

/-!
# Labelled transition systems

* `LTS` : initial states and labelled steps; `LTS.Run` : the labels of a finite run and the state it ends in;
* `LTS.Run.invariant` : what holds initially and is kept by every step holds after every run;
* `LTS.Path` : runs from a given state; `LTS.Run.split` cuts a run in two;
* `LTS.Path.last_iff` : what some labels bring about and others end, told by the last of these labels;
* `LTS.Path.sum_eq` : a quantity that every label adds to;
* `LTS.Along` : paths with their states;
* `LTS.Run.after` : what a label brings about and the labels after it keep;
* `LTS.Run.safe_iff` : runs that a safety property holds of, told by their labels;
* `LTS.Trace` : a run with its states; `LTS.Trace.good_iff` : traces all of whose states are good, told by their steps;
  `LTS.Trace.fine_iff` : traces whose steps are fine as well;
* `LTS.Reachable.path_of_progress` : a goal is reached if some step brings every other reachable state nearer to it;
* `LTS.Simulates` : a forward simulation, `LTS.Simulates.run` carries it to whole runs.
-/

universe u v w

structure LTS (σ : Type u) (ι : Type v) where
  init : σ → Prop
  step : σ → ι → σ → Prop

namespace LTS

variable {σ : Type u} {τ : Type w} {ι : Type v}

/-- The finite runs: their labels in order and the state they end in. -/
inductive Run (T : LTS σ ι) : List ι → σ → Prop where
  | init {s} (h : T.init s) : Run T [] s
  | snoc {is s i s'} (hr : Run T is s) (hs : T.step s i s') : Run T (is ++ [i]) s'

/-- The runs from `s`. -/
inductive Path (T : LTS σ ι) : σ → List ι → σ → Prop where
  | nil (s) : Path T s [] s
  | cons {s i s' is s''} (hs : T.step s i s') (hp : Path T s' is s'') : Path T s (i :: is) s''

def Reachable (T : LTS σ ι) (s : σ) : Prop := ∃ is, T.Run is s

theorem Reachable.init {T : LTS σ ι} {s : σ} (h : T.init s) : T.Reachable s := ⟨[], .init h⟩

theorem Reachable.step {T : LTS σ ι} {s s' : σ} {i : ι} (h : T.Reachable s) (hs : T.step s i s') : T.Reachable s' := by
  obtain ⟨is, hr⟩ := h
  exact ⟨is ++ [i], hr.snoc hs⟩

/-- What holds initially and is kept by every step holds after every run. -/
theorem Run.invariant {T : LTS σ ι} {I : σ → Prop} (h0 : ∀ s, T.init s → I s)
    (hstep : ∀ s i s', I s → T.step s i s' → I s') {is : List ι} {s : σ} (h : T.Run is s) : I s := by
  induction h with
  | init h => exact h0 _ h
  | snoc _ hs ih => exact hstep _ _ _ ih hs

theorem Reachable.invariant {T : LTS σ ι} {I : σ → Prop} (h0 : ∀ s, T.init s → I s)
    (hstep : ∀ s i s', I s → T.step s i s' → I s') {s : σ} (h : T.Reachable s) : I s := by
  obtain ⟨is, hr⟩ := h
  exact hr.invariant h0 hstep

theorem Path.trans {T : LTS σ ι} {s s' s'' : σ} {is js : List ι} (h : T.Path s is s') (h' : T.Path s' js s'') :
    T.Path s (is ++ js) s'' := by
  induction h with
  | nil _ => exact h'
  | cons hs _ ih => exact .cons hs (ih h')

theorem Path.single {T : LTS σ ι} {s s' : σ} {i : ι} (h : T.step s i s') : T.Path s [i] s' := .cons h (.nil s')

theorem Path.of_append {T : LTS σ ι} {is js : List ι} {s s' : σ} (h : T.Path s (is ++ js) s') :
    ∃ t, T.Path s is t ∧ T.Path t js s' := by
  induction is generalizing s with
  | nil => exact ⟨s, .nil s, h⟩
  | cons i is ih =>
    cases h with
    | cons hs hp =>
      obtain ⟨t, his, hjs⟩ := ih hp
      exact ⟨t, .cons hs his, hjs⟩

theorem Path.of_single {T : LTS σ ι} {i : ι} {s s' : σ} (h : T.Path s [i] s') : T.step s i s' := by
  cases h with
  | cons hs hp =>
    cases hp with
    | nil _ => exact hs

theorem Run.of_snoc {T : LTS σ ι} {is : List ι} {i : ι} {s : σ} (h : T.Run (is ++ [i]) s) :
    ∃ s₀, T.Run is s₀ ∧ T.step s₀ i s := by
  generalize hjs : is ++ [i] = js at h
  cases h with
  | init _ => simp at hjs
  | snoc hr hs =>
    obtain ⟨rfl, hi⟩ := List.append_inj' hjs rfl
    obtain rfl := List.singleton_inj.1 hi
    exact ⟨_, hr, hs⟩

theorem Run.split {T : LTS σ ι} {is js : List ι} {s : σ} (h : T.Run (is ++ js) s) :
    ∃ s₀, T.Run is s₀ ∧ T.Path s₀ js s := by
  induction js using List.reverseRecOn generalizing s with
  | nil => exact ⟨s, by simpa using h, .nil s⟩
  | append_singleton js j ih =>
    rw [← List.append_assoc] at h
    obtain ⟨s₁, hr, hs⟩ := h.of_snoc
    obtain ⟨s₀, hr₀, hp⟩ := ih hr
    exact ⟨s₀, hr₀, hp.trans (.single hs)⟩

/-- The runs from `s` with their states: every step with the state it starts from. -/
inductive Along (T : LTS σ ι) : σ → List (σ × ι) → σ → Prop where
  | nil (s) : Along T s [] s
  | cons {s i s' xs s''} (hs : T.step s i s') (hp : Along T s' xs s'') : Along T s ((s, i) :: xs) s''

theorem Along.step_of_mem {T : LTS σ ι} {s s' : σ} {xs : List (σ × ι)} (h : T.Along s xs s') {x : σ × ι} (hx : x ∈ xs) :
    ∃ t, T.step x.1 x.2 t := by
  induction h with
  | nil _ => exact absurd hx List.not_mem_nil
  | cons hs _ ih =>
    rcases List.mem_cons.1 hx with rfl | hx
    · exact ⟨_, hs⟩
    · exact ih hx

theorem Path.keeps {T : LTS σ ι} {Q : σ → Prop} {ok : ι → Prop}
    (hkeep : ∀ s j s', Q s → ok j → T.step s j s' → Q s') {s s' : σ} {is : List ι} (h : T.Path s is s')
    (hok : ∀ j ∈ is, ok j) (hs : Q s) : Q s' := by
  induction h with
  | nil _ => exact hs
  | cons hst _ ih =>
    exact ih (fun j hj => hok j (List.mem_cons_of_mem _ hj)) (hkeep _ _ _ hs (hok _ List.mem_cons_self) hst)

/-- An invariant of the states and of the labels so far. -/
theorem Path.past {T : LTS σ ι} {I : List ι → σ → Prop} (hstep : ∀ is s i s', I is s → T.step s i s' → I (is ++ [i]) s')
    {pre is : List ι} {s s' : σ} (h : T.Path s is s') (hs : I pre s) : I (pre ++ is) s' := by
  induction h generalizing pre with
  | nil s => rwa [List.append_nil]
  | @cons s i t is s' hst _ ih =>
    have ht := ih (hstep _ _ _ _ hs hst)
    rwa [List.append_assoc, List.singleton_append] at ht

/-- What some labels bring about and others end, holds after a path exactly when the last of these labels brought it about,
or it held before and no label ended it. -/
theorem Path.last_iff {T : LTS σ ι} {P : σ → Prop} {brings ends : ι → Prop}
    (hstep : ∀ s i s', T.step s i s' → (P s' ↔ brings i ∨ P s ∧ ¬ ends i)) {s s' : σ} {is : List ι} (h : T.Path s is s') :
    P s' ↔ (∃ pre i post, is = pre ++ i :: post ∧ brings i ∧ ∀ j ∈ post, ¬ ends j) ∨ P s ∧ ∀ j ∈ is, ¬ ends j := by
  induction h with
  | nil s => simp
  | @cons s i t is s' hs _ ih =>
    rw [ih, hstep _ _ _ hs]
    constructor
    · rintro (⟨pre, j, post, rfl, hj, hpost⟩ | ⟨hi | ⟨hP, hi⟩, his⟩)
      · exact .inl ⟨i :: pre, j, post, rfl, hj, hpost⟩
      · exact .inl ⟨[], i, is, rfl, hi, his⟩
      · exact .inr ⟨hP, List.forall_mem_cons.2 ⟨hi, his⟩⟩
    · rintro (⟨pre, j, post, heq, hj, hpost⟩ | ⟨hP, hall⟩)
      · cases pre with
        | nil =>
          obtain ⟨rfl, rfl⟩ := List.cons.inj heq
          exact .inr ⟨.inl hj, hpost⟩
        | cons k pre =>
          obtain ⟨rfl, rfl⟩ := List.cons.inj heq
          exact .inl ⟨pre, j, post, rfl, hj, hpost⟩
      · obtain ⟨hi, his⟩ := List.forall_mem_cons.1 hall
        exact .inr ⟨.inr ⟨hP, hi⟩, his⟩

/-- A quantity that every label adds to, as long as the states keep to `I`. -/
theorem Path.sum_eq {T : LTS σ ι} {I : σ → Prop} {μ : σ → Nat} {gain : ι → Nat}
    (hstep : ∀ s i s', I s → T.step s i s' → I s' ∧ μ s' = μ s + gain i) {s s' : σ} {is : List ι} (h : T.Path s is s')
    (hs : I s) : I s' ∧ μ s' = μ s + (is.map gain).sum := by
  induction h with
  | nil s => exact ⟨hs, rfl⟩
  | @cons s i t is s' hst _ ih =>
    obtain ⟨ht, hμ⟩ := hstep _ _ _ hs hst
    obtain ⟨hs', hsum⟩ := ih ht
    refine ⟨hs', ?_⟩
    rw [hsum, hμ, List.map_cons, List.sum_cons, Nat.add_assoc]

/-- What the label `i` brings about holds in the end, if every label after it keeps it. -/
theorem Run.after {T : LTS σ ι} {Q : σ → Prop} {ok : ι → Prop} {pre post : List ι} {i : ι} {s : σ}
    (h : T.Run (pre ++ i :: post) s) (hest : ∀ s s', T.Run pre s → T.step s i s' → Q s')
    (hkeep : ∀ s j s', Q s → ok j → T.step s j s' → Q s') (hok : ∀ j ∈ post, ok j) : Q s := by
  obtain ⟨s₀, hr, hp⟩ := h.split
  cases hp with
  | cons hs hp => exact hp.keeps hkeep hok (hest _ _ hr hs)

/-- The same with labels that all keep it. -/
theorem Run.ever_after {T : LTS σ ι} {Q : σ → Prop} {pre post : List ι} {i : ι} {s : σ} (h : T.Run (pre ++ i :: post) s)
    (hest : ∀ s s', T.Run pre s → T.step s i s' → Q s') (hkeep : ∀ s j s', Q s → T.step s j s' → Q s') : Q s :=
  h.after hest (fun s j s' hQ (_ : True) hs => hkeep s j s' hQ hs) fun _ _ => trivial

/-- A safety property of the past, told by the labels: `ok` keeps it, and what is not `ok` breaks it for good. -/
theorem Run.safe_iff {T : LTS σ ι} {Safe : σ → Prop} {ok : List ι → ι → Prop} {I : List ι → σ → Prop}
    (hinit : ∀ s, T.init s → Safe s ∧ I [] s)
    (hkeep : ∀ is s i s', Safe s → I is s → T.step s i s' → ok is i → Safe s' ∧ I (is ++ [i]) s')
    (hbreak : ∀ is s i s', Safe s → I is s → T.step s i s' → ¬ ok is i → ¬ Safe s')
    (hpast : ∀ s i s', T.step s i s' → Safe s' → Safe s) {is : List ι} {s : σ} (h : T.Run is s) :
    Safe s ↔ ∀ pre i post, is = pre ++ i :: post → ok pre i := by
  suffices hsafe : (Safe s → I is s) ∧ (Safe s ↔ ∀ pre i post, is = pre ++ i :: post → ok pre i) from hsafe.2
  induction h with
  | init h => exact ⟨fun _ => (hinit _ h).2, iff_of_true (hinit _ h).1 fun pre i post hnil => by simp at hnil⟩
  | @snoc is s i s' hr hs ih =>
    obtain ⟨hinv, hiff⟩ := ih
    have hok : Safe s' → ok is i := fun h' => by
      by_contra hnot
      have hsafe := hpast _ _ _ hs h'
      exact hbreak _ _ _ _ hsafe (hinv hsafe) hs hnot h'
    refine ⟨fun h' => ?_, fun h' pre j post hsplit => ?_, fun hall => ?_⟩
    · have hsafe := hpast _ _ _ hs h'
      exact (hkeep _ _ _ _ hsafe (hinv hsafe) hs (hok h')).2
    · rcases List.eq_nil_or_concat post with rfl | ⟨post, k, rfl⟩
      · obtain ⟨rfl, hj⟩ := List.append_inj' hsplit rfl
        obtain rfl := List.singleton_inj.1 hj
        exact hok h'
      · rw [List.concat_eq_append, ← List.cons_append, ← List.append_assoc] at hsplit
        obtain ⟨rfl, -⟩ := List.append_inj' hsplit rfl
        exact hiff.1 (hpast _ _ _ hs h') pre j post rfl
    · have hsafe : Safe s := hiff.2 fun pre j post hsplit => hall pre j (post ++ [i]) (by rw [hsplit]; simp)
      exact (hkeep _ _ _ _ hsafe (hinv hsafe) hs (hall is i [] rfl)).1

/-- The finite runs with their states: every step with the state it starts from, and the last state. -/
inductive Trace (T : LTS σ ι) : List (σ × ι) → σ → Prop where
  | init {s} (h : T.init s) : Trace T [] s
  | snoc {xs s i s'} (hr : Trace T xs s) (hs : T.step s i s') : Trace T (xs ++ [(s, i)]) s'

theorem Trace.run {T : LTS σ ι} {xs : List (σ × ι)} {s : σ} (h : T.Trace xs s) : T.Run (xs.map Prod.snd) s := by
  induction h with
  | init h => exact .init h
  | snoc _ hs ih =>
    rw [List.map_append]
    exact ih.snoc hs

/-- Every state of a trace is good and every step is fine, exactly when every step is `ok`. What is known while they are, is
the invariant `I`. -/
theorem Trace.fine_iff {T : LTS σ ι} {I Good : σ → Prop} {fine ok : σ → ι → Prop} (hinit : ∀ s, T.init s → I s)
    (hgood : ∀ s, I s → Good s)
    (hstep : ∀ s i s', T.Reachable s → I s → T.step s i s' → (Good s' ∧ fine s i ↔ ok s i) ∧ (ok s i → I s'))
    {xs : List (σ × ι)} {s : σ} (h : T.Trace xs s) :
    ((∀ x ∈ xs, Good x.1 ∧ fine x.1 x.2) ∧ Good s) ↔ ∀ x ∈ xs, ok x.1 x.2 := by
  suffices hall : (((∀ x ∈ xs, Good x.1 ∧ fine x.1 x.2) ∧ Good s) ↔ ∀ x ∈ xs, ok x.1 x.2) ∧
    ((∀ x ∈ xs, ok x.1 x.2) → I s) from hall.1
  induction h with
  | @init s h =>
    have hI := hinit s h
    refine ⟨iff_of_true ⟨fun _ hx => absurd hx List.not_mem_nil, hgood s hI⟩ fun _ hx => absurd hx List.not_mem_nil,
      fun _ => hI⟩
  | @snoc xs s i s' hr hs ih =>
    obtain ⟨hiff, hinv⟩ := ih
    have hstep := fun hI => hstep s i s' ⟨_, hr.run⟩ hI hs
    simp only [List.forall_mem_append, List.forall_mem_singleton]
    refine ⟨⟨?_, ?_⟩, fun hall => (hstep (hinv hall.1)).2 hall.2⟩
    · rintro ⟨⟨hall, hgood, hfine⟩, hgood'⟩
      have hok := hiff.1 ⟨hall, hgood⟩
      exact ⟨hok, (hstep (hinv hok)).1.1 ⟨hgood', hfine⟩⟩
    · rintro ⟨hok, hoki⟩
      obtain ⟨hall, hgood⟩ := hiff.2 hok
      obtain ⟨hgood', hfine⟩ := (hstep (hinv hok)).1.2 hoki
      exact ⟨⟨hall, hgood, hfine⟩, hgood'⟩

/-- Every state of a trace is good exactly when every step is one that keeps states good. -/
theorem Trace.good_iff {T : LTS σ ι} {I Good : σ → Prop} {ok : σ → ι → Prop} (hinit : ∀ s, T.init s → I s)
    (hgood : ∀ s, I s → Good s)
    (hstep : ∀ s i s', T.Reachable s → I s → T.step s i s' → (Good s' ↔ ok s i) ∧ (ok s i → I s'))
    {xs : List (σ × ι)} {s : σ} (h : T.Trace xs s) : ((∀ x ∈ xs, Good x.1) ∧ Good s) ↔ ∀ x ∈ xs, ok x.1 x.2 := by
  have hfine := @Trace.fine_iff σ ι T I Good (fun _ _ => True) ok hinit hgood (fun s i s' hr hI hs => by
    obtain ⟨hiff, hkeep⟩ := hstep s i s' hr hI hs
    exact ⟨(and_iff_left trivial).trans hiff, hkeep⟩) xs s h
  simpa only [and_true] using hfine

/-- A goal is reached from every reachable state, if from all those short of it a step makes the measure `μ` smaller. -/
theorem Reachable.path_of_progress {T : LTS σ ι} {goal : σ → Prop} (μ : σ → Nat)
    (h : ∀ s, T.Reachable s → ¬ goal s → ∃ i s', T.step s i s' ∧ μ s' < μ s) {s : σ} (hs : T.Reachable s) :
    ∃ is s', T.Path s is s' ∧ goal s' := by
  induction hn : μ s using Nat.strongRecOn generalizing s with
  | ind n ih =>
    by_cases hg : goal s
    · exact ⟨[], s, .nil s, hg⟩
    · obtain ⟨i, s', hst, hlt⟩ := h s hs hg
      obtain ⟨is, s'', hp, hg'⟩ := ih (μ s') (hn ▸ hlt) (hs.step hst) rfl
      exact ⟨i :: is, s'', .cons hst hp, hg'⟩

/-- A forward simulation of `T` by `U`, step for step with the same labels. -/
structure Simulates (T : LTS σ ι) (U : LTS τ ι) (R : σ → τ → Prop) : Prop where
  init : ∀ s, T.init s → ∃ t, U.init t ∧ R s t
  step : ∀ s i s' t, T.Reachable s → R s t → T.step s i s' → ∃ t', U.step t i t' ∧ R s' t'

theorem Simulates.run {T : LTS σ ι} {U : LTS τ ι} {R : σ → τ → Prop} (h : Simulates T U R) {is : List ι} {s : σ}
    (hr : T.Run is s) : ∃ t, U.Run is t ∧ R s t := by
  induction hr with
  | init hi =>
    obtain ⟨t, ht, hR⟩ := h.init _ hi
    exact ⟨t, .init ht, hR⟩
  | snoc hr hs ih =>
    obtain ⟨t, ht, hR⟩ := ih
    obtain ⟨t', ht', hR'⟩ := h.step _ _ _ t ⟨_, hr⟩ hR hs
    exact ⟨t', ht.snoc ht', hR'⟩

end LTS
