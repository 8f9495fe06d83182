import OksSystem.Executable.Alloc
import OksSystem.Executable.Redirect

/-!
# The arrays of `exec(params,envs)`

Unlike `exec(params)` this overload counts in `unsigned int`, takes its memory with `new`, which throws when there is none,
and releases it with `delete[]`.

* `Heap` : the blocks given out and released, and what `execve` was called with; `Cell` : a place of a `new char*[n]`;
* `execEnvsAllocated` : `exec(params,envs)` with any of its allocations failing;
* `strings` : what a loop puts into an array; `run_fillLoop`, `run_deleteLoop` : the two loops;
* `Exact` : how a call ends that touches nothing outside its arrays;
* `execEnvs_exact_iff` : **no access is outside an array iff both sizes fit into an `unsigned int`**.
-/

namespace OksSystem
open ByteBuffer EStateM

namespace Executable

structure Heap where
  calls : Nat
  allocated : List Nat
  freed : List Nat
  /-- The vectors that `execve` was called with. -/
  passed : Option (List Str × List Str)

/-- What a `new char*[n]` holds at one place. -/
inductive Cell where
  | indeterminate
  | null
  | string (block : Nat) (chars : Str)
  deriving DecidableEq, Repr

inductive HeapLeave where
  | issue (i : Issue)
  /-- `std::bad_alloc`. -/
  | badAlloc
  /-- `execve` has replaced the program. -/
  | replaced
  /-- An access outside an array, or to a place never written. -/
  | undefined
  deriving DecidableEq, Repr

abbrev HeapM (α : Type) := EStateM HeapLeave Heap α

def unsignedInt (n : Nat) : Nat := n % 4294967296

/-- A call of `new`. -/
def newBlock (answers : Nat → Bool) : HeapM Nat := do
  let m ← get
  set { m with calls := m.calls + 1 }
  if answers m.calls then
    modify fun m' => { m' with allocated := m'.allocated ++ [m.calls] }
    return m.calls
  throw .badAlloc

/-- `cells[i] = cell`. -/
def putCell (cells : List Cell) (i : Nat) (cell : Cell) : HeapM (List Cell) :=
  if i < cells.length then pure (cells.set i cell) else throw .undefined

/-- `cells[i] = new char[s.size() + 1]` and the `strcpy` into it, which copies no more than that. -/
def putString (answers : Nat → Bool) (cells : List Cell) (i : Nat) (s : Str) : HeapM (List Cell) := do
  let block ← newBlock answers
  putCell cells i (.string block (cstr s))

/-- The loop over the entries or the parameters. -/
def fillLoop (answers : Nat → Bool) : List Str → Nat → List Cell → HeapM (List Cell)
  | [], _, cells => pure cells
  | s :: ss, counter, cells => do
    let cells ← putString answers cells counter s
    fillLoop answers ss (unsignedInt (counter + 1)) cells

/-- The strings up to the null pointer. -/
def strings? : List Cell → Option (List Str)
  | [] => none
  | .indeterminate :: _ => none
  | .null :: _ => some []
  | .string _ chars :: cells => (strings? cells).map (chars :: ·)

/-- `exec(argv,env)`. -/
def execVectors (par env : List Cell) (execve : Option Errno) : HeapM Unit := do
  match par with
  | .string _ name :: _ =>
    match strings? par, strings? env with
    | some argv, some envp =>
      modify fun m => { m with passed := some (argv, envp) }
      match execve with
      | none => throw .replaced
      | some e => throw (.issue (.execution e name (-1)))
    | _, _ => throw .undefined
  | .null :: _ => throw (.issue .precondition)
  | _ => throw .undefined

/-- `delete[]` on a pointer to a block. -/
def deleteBlock (block : Nat) : HeapM Unit := modify fun m => { m with freed := m.freed ++ [block] }

/-- The loop over an array that releases its strings. -/
def deleteLoop : List Cell → HeapM Unit
  | [] => pure ()
  | .indeterminate :: _ => throw .undefined
  | .null :: cells => deleteLoop cells
  | .string block _ :: cells => do
    deleteBlock block
    deleteLoop cells

/-- The `try` block with its handler. -/
def execHandled (envBlock parBlock : Nat) (env par : List Cell) (execve : Option Errno) : HeapM Unit :=
  tryCatch (execVectors par env execve) fun
    | .issue (.execution e command status) => do
      deleteLoop env
      deleteBlock envBlock
      deleteLoop par
      deleteBlock parBlock
      throw (.issue (.execution e command status))
    | leave => throw leave

/-- `array[size - 1] = 0` in an `unsigned int`. -/
def putLast (cells : List Cell) (size : Nat) : HeapM (List Cell) := putCell cells (unsignedInt (size + 4294967295)) .null

/-- `exec(params,envs)`; `answers` says which of its allocations succeed. -/
def execEnvsAllocated (exe : Executable) (params : List Str) (envs : List (Str × Str)) (answers : Nat → Bool)
    (execve : Option Errno) : HeapM Unit := do
  let envArraySize := unsignedInt (envs.length + 1)
  let envBlock ← newBlock answers
  let env ← fillLoop answers (envs.map fun e => e.1 ++ text "=" ++ e.2) 0 (List.replicate envArraySize .indeterminate)
  let env ← putLast env envArraySize
  let paramArraySize := unsignedInt (params.length + 2)
  let parBlock ← newBlock answers
  let par ← putString answers (List.replicate paramArraySize .indeterminate) 0 exe.fullName
  let par ← fillLoop answers params 1 par
  let par ← putLast par paramArraySize
  execHandled envBlock parBlock env par execve

/-! ## The parts -/

variable {α : Type} {answers : Nat → Bool} {m m' : Heap} {cells pre : List Cell} {i c n : Nat} {ss : List Str}

/-- The heap after `n` successful allocations. -/
def Heap.took (m : Heap) (n : Nat) : Heap :=
  { m with calls := m.calls + n, allocated := m.allocated ++ List.range' m.calls n }

@[simp] theorem Heap.took_calls : (m.took n).calls = m.calls + n := rfl

theorem Heap.took_took (m : Heap) (n k : Nat) : (m.took n).took k = m.took (n + k) := by
  unfold Heap.took
  rw [← List.range'_append_1, ← List.append_assoc, Nat.add_assoc]

/-- No memory: the exception leaves what was given out, and nothing was executed or released. -/
def NoMemory (m : Heap) (r : Result HeapLeave Heap α) : Prop :=
  ∃ m', r = .error .badAlloc m' ∧ m'.passed = m.passed ∧ m'.freed = m.freed

theorem run_newBlock (h : answers m.calls = true) : (newBlock answers).run m = .ok m.calls (m.took 1) := by
  unfold newBlock
  change EStateM.run (if answers m.calls = true then _ else _) _ = _
  rw [if_pos h]
  rfl

theorem noMemory_newBlock (h : answers m.calls = false) : NoMemory m ((newBlock answers).run m) := by
  refine ⟨{ m with calls := m.calls + 1 }, ?_, rfl, rfl⟩
  unfold newBlock
  change EStateM.run (if answers m.calls = true then _ else _) _ = _
  rw [if_neg (by simp [h])]
  rfl

theorem NoMemory.bind {β : Type} {x : HeapM α} (f : α → HeapM β) (h : NoMemory m (x.run m)) :
    NoMemory m ((x >>= f).run m) := by
  obtain ⟨m', hrun, hpassed, hfreed⟩ := h
  exact ⟨m', run_bind_error hrun, hpassed, hfreed⟩

theorem run_putCell {cell : Cell} (h : i < cells.length) : (putCell cells i cell).run m = .ok (cells.set i cell) m := by
  unfold putCell
  rw [if_pos h]
  rfl

theorem run_putCell_outside {cell : Cell} (h : cells.length ≤ i) : (putCell cells i cell).run m = .error .undefined m := by
  unfold putCell
  rw [if_neg h.not_gt]
  rfl

/-- What a loop puts into an array, from allocation call `c` on. -/
def stringCells : Nat → List Str → List Cell
  | _, [] => []
  | c, s :: ss => .string c (cstr s) :: stringCells (c + 1) ss

@[simp] theorem length_stringCells (c : Nat) (ss : List Str) : (stringCells c ss).length = ss.length := by
  induction ss generalizing c with
  | nil => rfl
  | cons s ss ih => exact congrArg (· + 1) (ih (c + 1))

theorem set_append_replicate (cell : Cell) : (pre ++ List.replicate (n + 1) Cell.indeterminate).set pre.length cell =
    pre ++ [cell] ++ List.replicate n Cell.indeterminate := by
  rw [List.set_append_right _ _ le_rfl, Nat.sub_self, List.replicate_succ, List.set_cons_zero, List.append_assoc,
    List.singleton_append]

theorem length_append_replicate : (pre ++ List.replicate n Cell.indeterminate).length = pre.length + n := by
  rw [List.length_append, List.length_replicate]

theorem run_putString (pre : List Cell) (s : Str) (h : answers m.calls = true) :
    (putString answers (pre ++ List.replicate (n + 1) .indeterminate) pre.length s).run m =
      .ok (pre ++ [.string m.calls (cstr s)] ++ List.replicate n .indeterminate) (m.took 1) := by
  unfold putString
  rw [run_bind_ok (run_newBlock h), run_putCell (by rw [length_append_replicate]; omega), set_append_replicate]

/-- The loop fills the places behind `pre`, if the counter stays below 2^32. -/
theorem run_fillLoop (ss : List Str) : ∀ (pre : List Cell) (m : Heap), pre.length + ss.length < 4294967296 →
    (∀ i < ss.length, answers (m.calls + i) = true) →
    (fillLoop answers ss pre.length (pre ++ List.replicate (ss.length + n) .indeterminate)).run m =
      .ok (pre ++ stringCells m.calls ss ++ List.replicate n .indeterminate) (m.took ss.length) := by
  induction ss with
  | nil =>
    intro pre m _ _
    unfold fillLoop stringCells Heap.took
    simp
  | cons s ss ih =>
    intro pre m hfits hanswers
    rw [List.length_cons] at hfits hanswers ⊢
    have hnext : unsignedInt (pre.length + 1) = (pre ++ [Cell.string m.calls (cstr s)]).length := by
      unfold unsignedInt
      rw [List.length_append, List.length_singleton, Nat.mod_eq_of_lt (by omega)]
    have hfirst : answers m.calls = true := hanswers 0 (Nat.succ_pos _)
    have hrest : ∀ i < ss.length, answers ((m.took 1).calls + i) = true := by
      intro i hi
      rw [Heap.took_calls, Nat.add_assoc, Nat.add_comm 1]
      exact hanswers (i + 1) (by omega)
    unfold fillLoop
    rw [show ss.length + 1 + n = ss.length + n + 1 by omega, run_bind_ok (run_putString _ _ hfirst), hnext,
      ih _ _ (by rw [List.length_append, List.length_singleton]; omega) hrest, Heap.took_took, Nat.add_comm 1,
      show stringCells m.calls (s :: ss) = .string m.calls (cstr s) :: stringCells (m.calls + 1) ss from rfl]
    simp

/-- Or one of its allocations fails. -/
theorem noMemory_fillLoop (ss : List Str) : ∀ (pre : List Cell) (m : Heap), pre.length + ss.length < 4294967296 →
    (∃ i < ss.length, answers (m.calls + i) = false) →
    NoMemory m ((fillLoop answers ss pre.length (pre ++ List.replicate (ss.length + n) .indeterminate)).run m) := by
  induction ss with
  | nil =>
    rintro pre m - ⟨i, hi, -⟩
    exact absurd hi i.not_lt_zero
  | cons s ss ih =>
    rintro pre m hfits ⟨i, hi, hanswer⟩
    rw [List.length_cons] at hfits hi ⊢
    unfold fillLoop
    cases hfirst : answers m.calls with
    | false => exact .bind _ (.bind _ (noMemory_newBlock hfirst))
    | true =>
      have hnext : unsignedInt (pre.length + 1) = (pre ++ [Cell.string m.calls (cstr s)]).length := by
        unfold unsignedInt
        rw [List.length_append, List.length_singleton, Nat.mod_eq_of_lt (by omega)]
      rw [show ss.length + 1 + n = ss.length + n + 1 by omega, run_bind_ok (run_putString _ _ hfirst), hnext]
      refine ih _ (m.took 1) (by rw [List.length_append, List.length_singleton]; omega) ?_
      cases i with
      | zero =>
        rw [Nat.add_zero, hfirst] at hanswer
        cases hanswer
      | succ i =>
        refine ⟨i, by omega, ?_⟩
        rw [Heap.took_calls, Nat.add_assoc, Nat.add_comm 1]
        exact hanswer

/-- All allocations succeed. -/
def allGiven : Nat → Bool := fun _ => true

/-- Or there are more strings than places. -/
theorem run_fillLoop_outside (ss : List Str) : ∀ (pre : List Cell) (k : Nat) (m : Heap), k < ss.length →
    pre.length + k < 4294967296 → ∃ m',
    (fillLoop allGiven ss pre.length (pre ++ List.replicate k .indeterminate)).run m = .error .undefined m' := by
  induction ss with
  | nil => exact fun pre k m hk => absurd hk k.not_lt_zero
  | cons s ss ih =>
    intro pre k m hk hfits
    unfold fillLoop
    cases k with
    | zero =>
      unfold putString
      refine ⟨m.took 1, run_bind_error ((run_bind_ok (run_newBlock rfl)).trans (run_putCell_outside ?_))⟩
      rw [length_append_replicate]
      exact le_rfl
    | succ k =>
      have hnext : unsignedInt (pre.length + 1) = (pre ++ [Cell.string m.calls (cstr s)]).length := by
        unfold unsignedInt
        rw [List.length_append, List.length_singleton, Nat.mod_eq_of_lt (by omega)]
      rw [run_bind_ok (run_putString _ _ rfl), hnext]
      exact ih _ k _ (Nat.lt_of_succ_lt_succ hk) (by rw [List.length_append, List.length_singleton]; omega)

theorem strings?_stringCells (c : Nat) (ss : List Str) : strings? (stringCells c ss ++ [.null]) = some (ss.map cstr) := by
  induction ss generalizing c with
  | nil => rfl
  | cons s ss ih =>
    unfold stringCells
    rw [List.cons_append, strings?, ih]
    rfl

/-- Every string is released, in order. -/
theorem run_deleteLoop (c : Nat) (ss : List Str) : (deleteLoop (stringCells c ss ++ [.null])).run m =
    .ok () { m with freed := m.freed ++ List.range' c ss.length } := by
  induction ss generalizing c m with
  | nil =>
    rw [show List.range' c ([] : List Str).length = [] from rfl, List.append_nil]
    rfl
  | cons s ss ih =>
    have hfirst : (deleteBlock c).run m = .ok () { m with freed := m.freed ++ [c] } := rfl
    unfold stringCells
    rw [List.cons_append, deleteLoop, run_bind_ok hfirst, ih, List.length_cons, List.range'_succ, List.append_assoc,
      List.singleton_append]

/-- The null pointer goes to the last place. -/
theorem run_putLast (pre : List Cell) (hn : pre.length + 1 < 4294967296) :
    (putLast (pre ++ List.replicate 1 .indeterminate) (pre.length + 1)).run m = .ok (pre ++ [.null]) m := by
  have hlast : unsignedInt (pre.length + 1 + 4294967295) = pre.length := by
    unfold unsignedInt
    omega
  unfold putLast
  rw [hlast, run_putCell (by rw [length_append_replicate]; omega), set_append_replicate, List.replicate_zero,
    List.append_nil]

/-! ## A call -/

variable {exe : Executable} {params : List Str} {envs : List (Str × Str)} {execve : Option Errno}

def emptyHeap : Heap := ⟨0, [], [], none⟩

/-- The entries of the environment, as they are copied. -/
def entries (envs : List (Str × Str)) : List Str := envs.map fun e => e.1 ++ text "=" ++ e.2

theorem map_cstr_entries (envs : List (Str × Str)) : (entries envs).map cstr = environment envs := by
  unfold entries environment
  rw [List.map_map]
  rfl

/-- The blocks in the order in which the handler releases them. -/
def released (n p : Nat) : List Nat := List.range' 1 n ++ [0] ++ List.range' (n + 2) (p + 1) ++ [n + 1]

theorem released_perm (n p : Nat) : (released n p).Perm (List.range' 0 (n + p + 3)) := by
  have hsplit : List.range' 0 (n + p + 3) = 0 :: (List.range' 1 n ++ (n + 1) :: List.range' (n + 2) (p + 1)) := by
    rw [show n + p + 3 = (n + (p + 1 + 1)) + 1 by omega, List.range'_succ, ← List.range'_append_1, List.range'_succ,
      show 0 + 1 + n = n + 1 by omega]
  rw [hsplit, List.perm_iff_count]
  intro a
  unfold released
  simp only [List.count_append, List.count_cons, List.count_nil]
  omega

/-- The part that builds the environment. -/
def buildEnv (envs : List (Str × Str)) (answers : Nat → Bool) : HeapM (Nat × List Cell) := do
  let envBlock ← newBlock answers
  let env ← fillLoop answers (entries envs) 0 (List.replicate (unsignedInt (envs.length + 1)) .indeterminate)
  return (envBlock, ← putLast env (unsignedInt (envs.length + 1)))

/-- The part that builds the argument vector. -/
def buildPar (exe : Executable) (params : List Str) (answers : Nat → Bool) : HeapM (Nat × List Cell) := do
  let parBlock ← newBlock answers
  let par ← putString answers (List.replicate (unsignedInt (params.length + 2)) .indeterminate) 0 exe.fullName
  let par ← fillLoop answers params 1 par
  return (parBlock, ← putLast par (unsignedInt (params.length + 2)))

theorem execEnvsAllocated_eq : exe.execEnvsAllocated params envs answers execve = (do
    let env ← buildEnv envs answers
    let par ← exe.buildPar params answers
    execHandled env.1 par.1 env.2 par.2 execve) := by
  unfold execEnvsAllocated buildEnv buildPar
  simp only [bind_assoc, pure_bind]
  rfl

theorem run_buildEnv (envs : List (Str × Str)) (answers : Nat → Bool) (hfits : envs.length + 1 < 4294967296)
    (h : ∀ i ≤ envs.length, answers (m.calls + i) = true) :
    (buildEnv envs answers).run m =
      .ok (m.calls, stringCells (m.calls + 1) (entries envs) ++ [.null]) (m.took (envs.length + 1)) := by
  have hlength : (entries envs).length = envs.length := List.length_map _
  have hcells : List.replicate (envs.length + 1) Cell.indeterminate =
      [] ++ List.replicate ((entries envs).length + 1) .indeterminate := by rw [hlength, List.nil_append]
  have hrest : ∀ i < (entries envs).length, answers ((m.took 1).calls + i) = true := by
    intro i hi
    rw [Heap.took_calls, Nat.add_assoc, Nat.add_comm 1]
    exact h (i + 1) (by omega)
  have hloop := run_fillLoop (n := 1) (entries envs) [] (m.took 1)
    (by rw [hlength, List.length_nil]; omega) hrest
  have hlast := run_putLast (m := m.took (envs.length + 1)) (stringCells (m.calls + 1) (entries envs))
    (by rw [length_stringCells, hlength]; exact hfits)
  rw [length_stringCells, hlength] at hlast
  unfold buildEnv
  rw [show unsignedInt (envs.length + 1) = envs.length + 1 from Nat.mod_eq_of_lt hfits,
    run_bind_ok (run_newBlock (h 0 (Nat.zero_le _))), hcells, show (0 : Nat) = ([] : List Cell).length from rfl,
    run_bind_ok hloop, hlength, Heap.took_took, Nat.add_comm 1]
  exact run_bind_ok hlast

theorem noMemory_buildEnv (hfits : envs.length + 1 < 4294967296) (h : ∃ i ≤ envs.length, answers (m.calls + i) = false) :
    NoMemory m ((buildEnv envs answers).run m) := by
  have hlength : (entries envs).length = envs.length := List.length_map _
  have hcells : List.replicate (envs.length + 1) Cell.indeterminate =
      [] ++ List.replicate ((entries envs).length + 1) .indeterminate := by rw [hlength, List.nil_append]
  obtain ⟨i, hi, hanswer⟩ := h
  unfold buildEnv
  cases hfirst : answers m.calls with
  | false => exact .bind _ (noMemory_newBlock hfirst)
  | true =>
    rw [show unsignedInt (envs.length + 1) = envs.length + 1 from Nat.mod_eq_of_lt hfits, run_bind_ok (run_newBlock hfirst),
      hcells, show (0 : Nat) = ([] : List Cell).length from rfl]
    refine .bind _ (noMemory_fillLoop (entries envs) [] (m.took 1) (by rw [hlength, List.length_nil]; omega) ?_)
    cases i with
    | zero =>
      rw [Nat.add_zero, hfirst] at hanswer
      cases hanswer
    | succ i =>
      refine ⟨i, by omega, ?_⟩
      rw [Heap.took_calls, Nat.add_assoc, Nat.add_comm 1]
      exact hanswer

/-- The name at the first place of the array. -/
theorem run_putName (exe : Executable) (h : answers (m.calls + 1) = true) :
    (putString answers (List.replicate (n + 1) .indeterminate) 0 exe.fullName).run (m.took 1) =
      .ok (.string (m.calls + 1) (cstr exe.fullName) :: List.replicate n .indeterminate) (m.took 2) := by
  have hput := run_putString (m := m.took 1) (n := n) [] exe.fullName h
  rw [Heap.took_took] at hput
  exact hput

theorem run_buildPar (exe : Executable) (answers : Nat → Bool) (hfits : params.length + 2 < 4294967296)
    (h : ∀ i ≤ params.length + 1, answers (m.calls + i) = true) :
    (exe.buildPar params answers).run m =
      .ok (m.calls, stringCells (m.calls + 1) (exe.fullName :: params) ++ [.null]) (m.took (params.length + 2)) := by
  obtain ⟨name, hname⟩ : ∃ name, name = Cell.string (m.calls + 1) (cstr exe.fullName) := ⟨_, rfl⟩
  have hput := run_putName (n := params.length + 1) exe (h 1 (by omega))
  have hrest : ∀ i < params.length, answers ((m.took 2).calls + i) = true := by
    intro i hi
    rw [Heap.took_calls, Nat.add_assoc]
    exact h (2 + i) (by omega)
  have hloop : (fillLoop answers params 1 (name :: List.replicate (params.length + 1) .indeterminate)).run (m.took 2) =
      .ok (name :: stringCells (m.calls + 2) params ++ List.replicate 1 .indeterminate) ((m.took 2).took params.length) :=
    run_fillLoop (n := 1) params [name] (m.took 2) (by rw [List.length_singleton]; omega) hrest
  have hlast := run_putLast (m := m.took (params.length + 2)) (name :: stringCells (m.calls + 2) params)
    (by rw [List.length_cons, length_stringCells]; exact hfits)
  rw [List.length_cons, length_stringCells] at hlast
  unfold buildPar
  rw [show unsignedInt (params.length + 2) = params.length + 2 from Nat.mod_eq_of_lt hfits,
    run_bind_ok (run_newBlock (h 0 (Nat.zero_le _))), run_bind_ok hput, ← hname, run_bind_ok hloop, Heap.took_took,
    Nat.add_comm 2, run_bind_ok hlast, hname]
  rfl

theorem noMemory_buildPar (exe : Executable) (hfits : params.length + 2 < 4294967296)
    (h : ∃ i ≤ params.length + 1, answers (m.calls + i) = false) : NoMemory m ((exe.buildPar params answers).run m) := by
  obtain ⟨i, hi, hanswer⟩ := h
  unfold buildPar
  cases hfirst : answers m.calls with
  | false => exact .bind _ (noMemory_newBlock hfirst)
  | true =>
    rw [show unsignedInt (params.length + 2) = params.length + 2 from Nat.mod_eq_of_lt hfits,
      run_bind_ok (run_newBlock hfirst)]
    cases hsecond : answers (m.calls + 1) with
    | false => exact .bind _ (.bind _ (noMemory_newBlock (m := m.took 1) hsecond))
    | true =>
      rw [run_bind_ok (run_putName exe hsecond)]
      refine .bind _ (noMemory_fillLoop params [.string (m.calls + 1) (cstr exe.fullName)] (m.took 2)
        (by rw [List.length_singleton]; omega) ?_)
      match i with
      | 0 =>
        rw [Nat.add_zero, hfirst] at hanswer
        cases hanswer
      | 1 =>
        rw [hsecond] at hanswer
        cases hanswer
      | i + 2 =>
        refine ⟨i, by omega, ?_⟩
        rw [Heap.took_calls, Nat.add_assoc, Nat.add_comm 2]
        exact hanswer

theorem run_buildEnv_outside (h : ¬ envs.length + 1 < 4294967296) :
    ∃ m', (buildEnv envs allGiven).run m = .error .undefined m' := by
  have hlength : (entries envs).length = envs.length := List.length_map _
  have hsize : unsignedInt (envs.length + 1) < (entries envs).length := by
    unfold unsignedInt
    omega
  obtain ⟨m', hrun⟩ := run_fillLoop_outside (entries envs) [] (unsignedInt (envs.length + 1))
    (m.took 1) hsize (by unfold unsignedInt; rw [List.length_nil]; omega)
  refine ⟨m', ?_⟩
  unfold buildEnv
  rw [run_bind_ok (run_newBlock (rfl : allGiven _ = true))]
  exact run_bind_error hrun

theorem run_buildPar_outside (exe : Executable) (h : ¬ params.length + 2 < 4294967296) :
    ∃ m', (exe.buildPar params allGiven).run m = .error .undefined m' := by
  unfold buildPar
  rw [run_bind_ok (run_newBlock (rfl : allGiven _ = true))]
  cases hsize : unsignedInt (params.length + 2) with
  | zero =>
    refine ⟨(m.took 1).took 1, run_bind_error ?_⟩
    unfold putString
    rw [run_bind_ok (run_newBlock (rfl : allGiven _ = true))]
    exact run_putCell_outside le_rfl
  | succ k =>
    have hk : k + 1 < params.length + 1 ∧ k + 1 < 4294967296 := by
      unfold unsignedInt at hsize
      omega
    have hput := run_putString (m := m.took 1) (n := k) [] exe.fullName (rfl : allGiven _ = true)
    obtain ⟨m', hrun⟩ := run_fillLoop_outside params
      [Cell.string (m.took 1).calls (cstr exe.fullName)] k ((m.took 1).took 1) (by omega)
      (by rw [List.length_singleton]; omega)
    refine ⟨m', (run_bind_ok hput).trans ?_⟩
    exact run_bind_error hrun

/-! ## What a call amounts to -/

/-- How many allocations a call makes. -/
def allocations (params : List Str) (envs : List (Str × Str)) : Nat := envs.length + params.length + 3

/-- How `exec(params,envs)` ends: without memory nothing is executed; else `execve` gets the exact vectors, and when it fails
every block is released once before the issue goes on. -/
structure Exact (exe : Executable) (params : List Str) (envs : List (Str × Str)) (answers : Nat → Bool)
    (execve : Option Errno) (leave : HeapLeave) (m : Heap) : Prop where
  memory : (∃ i < allocations params envs, answers i = false) → leave = .badAlloc ∧ m.passed = none
  passed : (∀ i < allocations params envs, answers i = true) →
    m.passed = some (cstr exe.fullName :: params.map cstr, environment envs)
  replaced : (∀ i < allocations params envs, answers i = true) → execve = none → leave = .replaced
  released : (∀ i < allocations params envs, answers i = true) → ∀ e, execve = some e →
    leave = .issue (.execution e (cstr exe.fullName) (-1)) ∧ m.freed.Perm m.allocated ∧ m.freed.Nodup

theorem run_execVectors (e p : Nat) (params : List Str) (envs : List (Str × Str)) (execve : Option Errno) :
    (execVectors (stringCells (p + 1) (exe.fullName :: params) ++ [.null]) (stringCells (e + 1) (entries envs) ++ [.null])
        execve).run m =
      .error (execve.elim .replaced fun err => .issue (.execution err (cstr exe.fullName) (-1)))
        { m with passed := some (cstr exe.fullName :: params.map cstr, environment envs) } := by
  have hpar := strings?_stringCells (p + 1) (exe.fullName :: params)
  have henv := strings?_stringCells (e + 1) (entries envs)
  rw [map_cstr_entries] at henv
  unfold execVectors
  change EStateM.run (match strings? (stringCells (p + 1) (exe.fullName :: params) ++ [.null]),
    strings? (stringCells (e + 1) (entries envs) ++ [.null]) with | some _, some _ => _ | _, _ => _) m = _
  rw [hpar, henv]
  cases execve with
  | none => rfl
  | some err => rfl

theorem run_execHandled_replaced (e p : Nat) (params : List Str) (envs : List (Str × Str)) :
    (execHandled e p (stringCells (e + 1) (entries envs) ++ [.null])
        (stringCells (p + 1) (exe.fullName :: params) ++ [.null]) none).run m =
      .error .replaced { m with passed := some (cstr exe.fullName :: params.map cstr, environment envs) } := by
  unfold execHandled
  rw [run_tryCatch_any, run_execVectors]
  rfl

/-- The handler releases the strings of each array and then the array. -/
theorem run_execHandled_released (e p : Nat) (params : List Str) (envs : List (Str × Str)) (err : Errno) :
    (execHandled e p (stringCells (e + 1) (entries envs) ++ [.null])
        (stringCells (p + 1) (exe.fullName :: params) ++ [.null]) (some err)).run m =
      .error (.issue (.execution err (cstr exe.fullName) (-1)))
        { m with
          passed := some (cstr exe.fullName :: params.map cstr, environment envs)
          freed := m.freed ++ List.range' (e + 1) (entries envs).length ++ [e] ++
            List.range' (p + 1) (params.length + 1) ++ [p] } := by
  have hfree : ∀ (block : Nat) (m : Heap), (deleteBlock block).run m = .ok () { m with freed := m.freed ++ [block] } :=
    fun _ _ => rfl
  unfold execHandled
  rw [run_tryCatch_any, run_execVectors]
  change EStateM.run (deleteLoop _ >>= fun _ => deleteBlock e >>= fun _ => deleteLoop _ >>= fun _ => deleteBlock p >>=
    fun _ => throw _) _ = _
  rw [run_bind_ok (run_deleteLoop _ _), run_bind_ok (hfree _ _), run_bind_ok (run_deleteLoop _ _),
    run_bind_ok (hfree _ _)]
  rfl

theorem run_execEnvsAllocated (henvs : envs.length + 1 < 4294967296) (hparams : params.length + 2 < 4294967296)
    (h : ∀ i < allocations params envs, answers i = true) :
    (exe.execEnvsAllocated params envs answers execve).run emptyHeap =
      (execHandled 0 (envs.length + 1) (stringCells 1 (entries envs) ++ [.null])
        (stringCells (envs.length + 2) (exe.fullName :: params) ++ [.null]) execve).run
          (emptyHeap.took (allocations params envs)) := by
  unfold allocations at h ⊢
  have henv := run_buildEnv (m := emptyHeap) envs answers henvs fun i hi => h _ (by
    rw [show emptyHeap.calls = 0 from rfl]
    omega)
  have hpar := run_buildPar (m := emptyHeap.took (envs.length + 1)) exe answers hparams
    fun i hi => h _ (by
      rw [Heap.took_calls, show emptyHeap.calls = 0 from rfl]
      omega)
  rw [Heap.took_took, Heap.took_calls, show emptyHeap.calls = 0 from rfl, Nat.zero_add] at hpar
  rw [execEnvsAllocated_eq, run_bind_ok henv, run_bind_ok hpar,
    show envs.length + params.length + 3 = envs.length + 1 + (params.length + 2) by omega]
  rfl

theorem noMemory_execEnvsAllocated (exe : Executable) (execve : Option Errno) (henvs : envs.length + 1 < 4294967296)
    (hparams : params.length + 2 < 4294967296)
    (h : ∃ i < allocations params envs, answers i = false) :
    NoMemory emptyHeap ((exe.execEnvsAllocated params envs answers execve).run emptyHeap) := by
  rw [execEnvsAllocated_eq]
  obtain ⟨i, hi, hanswer⟩ := h
  unfold allocations at hi
  by_cases henv : ∃ i ≤ envs.length, answers (emptyHeap.calls + i) = false
  · exact .bind _ (noMemory_buildEnv henvs henv)
  · have hall : ∀ i ≤ envs.length, answers (emptyHeap.calls + i) = true := by
      intro i hi
      exact Bool.of_not_eq_false fun hf => henv ⟨i, hi, hf⟩
    have hlater : envs.length < i := by
      by_contra hle
      refine henv ⟨i, by omega, ?_⟩
      rwa [show emptyHeap.calls = 0 from rfl, Nat.zero_add]
    have hpar : NoMemory (emptyHeap.took (envs.length + 1))
        ((exe.buildPar params answers).run (emptyHeap.took (envs.length + 1))) := by
      refine noMemory_buildPar exe hparams ⟨i - (envs.length + 1), by omega, ?_⟩
      rw [Heap.took_calls, show emptyHeap.calls = 0 from rfl]
      rwa [show 0 + (envs.length + 1) + (i - (envs.length + 1)) = i by omega]
    rw [run_bind_ok (run_buildEnv envs answers henvs hall)]
    exact .bind _ hpar

/-- **`exec(params,envs)` stays inside its arrays, and then gives `execve` all there is or nothing, exactly when both sizes
fit into an `unsigned int`.** -/
theorem execEnvs_exact_iff (exe : Executable) (params : List Str) (envs : List (Str × Str)) :
    (∀ answers execve, ∃ leave m, (exe.execEnvsAllocated params envs answers execve).run emptyHeap = .error leave m ∧
        Exact exe params envs answers execve leave m) ↔
      envs.length + 1 < 4294967296 ∧ params.length + 2 < 4294967296 := by
  constructor
  · intro h
    obtain ⟨leave, m, hrun, hexact⟩ := h allGiven none
    obtain rfl := hexact.replaced (fun _ _ => rfl) rfl
    rw [execEnvsAllocated_eq] at hrun
    have henvs : envs.length + 1 < 4294967296 := by
      by_contra hnot
      obtain ⟨m', hout⟩ := run_buildEnv_outside (m := emptyHeap) hnot
      rw [run_bind_error hout] at hrun
      cases hrun
    refine ⟨henvs, ?_⟩
    by_contra hnot
    obtain ⟨m', hout⟩ := run_buildPar_outside (m := emptyHeap.took (envs.length + 1)) exe hnot
    rw [run_bind_ok (run_buildEnv envs allGiven henvs fun _ _ => rfl), run_bind_error hout] at hrun
    cases hrun
  · rintro ⟨henvs, hparams⟩ answers execve
    by_cases hall : ∀ i < allocations params envs, answers i = true
    · have hnone : ¬ ∃ i < allocations params envs, answers i = false := by
        rintro ⟨i, hi, hf⟩
        rw [hall i hi] at hf
        cases hf
      rw [run_execEnvsAllocated henvs hparams hall]
      cases execve with
      | none =>
        rw [run_execHandled_replaced 0 (envs.length + 1)]
        exact ⟨_, _, rfl, fun h => absurd h hnone, fun _ => rfl, fun _ _ => rfl, fun _ e he => nomatch he⟩
      | some err =>
        rw [run_execHandled_released 0 (envs.length + 1)]
        refine ⟨_, _, rfl, fun h => absurd h hnone, fun _ => rfl, nofun, fun _ e he => ?_⟩
        obtain rfl := Option.some.inj he
        have hperm := released_perm envs.length params.length
        have hlength : (entries envs).length = envs.length := List.length_map _
        rw [hlength]
        exact ⟨rfl, hperm, hperm.nodup_iff.2 List.nodup_range'⟩
    · simp only [not_forall, Bool.not_eq_true] at hall
      obtain ⟨i, hi, hf⟩ := hall
      obtain ⟨m', hrun, hpassed, -⟩ := noMemory_execEnvsAllocated exe execve henvs hparams ⟨i, hi, hf⟩
      have hnot : ¬ ∀ i < allocations params envs, answers i = true := by
        intro h
        rw [h i hi] at hf
        cases hf
      exact ⟨_, m', hrun, fun _ => ⟨rfl, hpassed⟩, fun h => absurd h hnot, fun h => absurd h hnot, fun h => absurd h hnot⟩

end Executable

end OksSystem
