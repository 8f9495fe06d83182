import OksSystem.Executable.Launch
import OksSystem.Lib.Narrow

/-!
# The allocations of `exec(params)`

* `Memory` : the blocks given out and released, and what `execv` was called with; `calloc`, `strdup`, `free`, `store`;
* `execAllocated` : `exec(params)` with any of its allocations failing;
* `dups`, `vector` : the array that its loop builds, and what `execv` sees of it;
* `Whole` : the program gets all of its arguments, or an `AllocIssue` is thrown, and nothing is leaked;
* `exec_whole_iff` : **this holds iff no `strdup` of a parameter fails, or the issue is thrown before**.
-/

namespace OksSystem
open ByteBuffer EStateM Narrow

/-- ENOMEM. -/
def eNomem : Errno := 12

namespace Executable

/-- A copy made by `strdup`, in a block of its own. -/
structure Dup where
  block : Nat
  chars : Str
  deriving DecidableEq, Repr

/-- A block is named by the number of its call. -/
structure Memory where
  calls : Nat
  allocated : List Nat
  freed : List Nat
  /-- The argument vector that `execv` was called with. -/
  passed : Option (List Str)

inductive ExecLeave where
  | issue (i : Issue)
  | allocIssue (error : Errno) (size : Int)
  /-- `execv` has replaced the program. -/
  | replaced
  /-- A signed overflow, or an access outside the array. -/
  | undefined
  deriving DecidableEq, Repr

abbrev ExecM (α : Type) := EStateM ExecLeave Memory α

/-- `char **argv`. -/
abbrev Argv := List (Option Dup)

/-- The next allocation call. -/
def allocate (answers : Nat → Bool) : ExecM (Option Nat) := modifyGet fun m =>
  if answers m.calls then (some m.calls, { m with calls := m.calls + 1, allocated := m.allocated ++ [m.calls] })
  else (none, { m with calls := m.calls + 1 })

/-- `calloc(size,n)` for pointers: it fails when the product overflows. -/
def calloc (answers : Nat → Bool) (size n : Nat) : ExecM (Option (Nat × Argv)) := do
  if size * n < 18446744073709551616 then
    return (← allocate answers).map fun block => (block, List.replicate n none)
  return none

def strdup (answers : Nat → Bool) (s : Str) : ExecM (Option Dup) := do
  return (← allocate answers).map fun block => ⟨block, cstr s⟩

def free (block : Nat) : ExecM Unit := modify fun m => { m with freed := m.freed ++ [block] }

/-- `argv[i] = p`. -/
def store (argv : Argv) (i : Nat) (p : Option Dup) : ExecM Argv :=
  if i < argv.length then pure (argv.set i p) else throw .undefined

/-- The strings up to the null pointer, if there is one. -/
def vector : Argv → Option (List Str)
  | [] => none
  | none :: _ => some []
  | some d :: argv => (vector argv).map (d.chars :: ·)

/-- `exec(argv)`. -/
def execArgv (argv : Argv) (execv : Option Errno) : ExecM Unit := do
  match argv with
  | some name :: _ =>
    match vector argv with
    | none => throw .undefined
    | some v =>
      modify fun m => { m with passed := some v }
      match execv with
      | none => throw .replaced
      | some e => throw (.issue (.execution e name.chars (-1)))
  | none :: _ => throw (.issue .precondition)
  | [] => throw .undefined

/-- The loop over the parameters. -/
def dupLoop (answers : Nat → Bool) : List Str → Nat → Argv → ExecM Argv
  | [], _, argv => pure argv
  | p :: params, i, argv => do
    let argv ← store argv (i + 1) (← strdup answers p)
    dupLoop answers params (i + 1) argv

/-- The loop of the handlers. -/
def freeLoop : Argv → ExecM Unit
  | [] => throw .undefined
  | none :: _ => pure ()
  | some d :: argv => do
    free d.block
    freeLoop argv

/-- An `int` as a `size_t`. -/
def toSize (i : Int) : Nat := (i % 18446744073709551616).toNat

/-- `i + j` in an `int`. -/
def addInt (i j : Int) : ExecM Int := if i + j < 2147483648 then pure (i + j) else throw .undefined

/-- `OKSSYSTEM_ALLOC_CHECK(p,size)`, the size cut to the `int` of the issue. -/
def allocCheck (null : Bool) (size : Nat) : ExecM Unit :=
  if null then throw (.allocIssue eNomem (toInt (size % 18446744073709551616))) else pure ()

/-- The call of `exec(argv)` with its handlers. -/
def execTry (block : Nat) (argv : Argv) (execv : Option Errno) : ExecM Unit :=
  tryCatch (execArgv argv execv) fun
    | .issue i => do
      freeLoop argv
      free block
      throw (.issue i)
    | leave => throw leave

/-- What comes after `calloc`. -/
def execFilled (exe : Executable) (params : List Str) (answers : Nat → Bool) (execv : Option Errno) (argc : Int) (block : Nat)
    (argv : Argv) : ExecM Unit := do
  let name ← strdup answers exe.fullName
  let argv ← store argv 0 name
  allocCheck name.isNone (cstr exe.fullName).length
  let argv ← dupLoop answers (params.take argc.toNat) 0 argv
  let argv ← store argv (argc + 1).toNat none
  execTry block argv execv

/-- `exec(params)`; `answers` says which of its allocation calls succeed. -/
def execAllocated (exe : Executable) (params : List Str) (answers : Nat → Bool) (execv : Option Errno) : ExecM Unit := do
  let argc := toInt params.length
  let argclen ← addInt argc 2
  let argv ← calloc answers 8 (toSize argclen)
  allocCheck argv.isNone (8 * toSize argclen)
  match argv with
  | none => return
  | some (block, argv) => exe.execFilled params answers execv argc block argv

/-! ## The parts -/

variable {answers : Nat → Bool} {m m' : Memory} {params : List Str} {argv : Argv} {i c n : Nat}

/-- What `strdup` gives as allocation call `c`. -/
def dup (answers : Nat → Bool) (c : Nat) (s : Str) : Option Dup := if answers c then some ⟨c, cstr s⟩ else none

/-- What the loop puts into the array, from allocation call `c` on. -/
def dups (answers : Nat → Bool) : Nat → List Str → Argv
  | _, [] => []
  | c, p :: params => dup answers c p :: dups answers (c + 1) params

/-- The blocks of an array. -/
def blocks (argv : Argv) : List Nat := argv.filterMap (Option.map Dup.block)

theorem length_dups (answers : Nat → Bool) (c : Nat) (params : List Str) : (dups answers c params).length = params.length := by
  induction params generalizing c with
  | nil => rfl
  | cons p params ih => exact congrArg (· + 1) (ih (c + 1))

/-- The memory after calls of `strdup` that gave `ds`. -/
def Memory.duped (m : Memory) (ds : Argv) : Memory :=
  { m with calls := m.calls + ds.length, allocated := m.allocated ++ blocks ds }

theorem run_strdup (s : Str) : (strdup answers s).run m =
    .ok (dup answers m.calls s) (m.duped [dup answers m.calls s]) := by
  have halloc : (allocate answers).run m = if answers m.calls
      then .ok (some m.calls) { m with calls := m.calls + 1, allocated := m.allocated ++ [m.calls] }
      else .ok none { m with calls := m.calls + 1 } := by
    unfold allocate
    rw [run_modifyGet]
    cases answers m.calls <;> rfl
  unfold strdup Memory.duped blocks dup
  rw [run_bind, halloc]
  cases answers m.calls with
  | true => rfl
  | false =>
    simp only [Bool.false_eq_true, if_false]
    refine congrArg (Result.ok none) ?_
    simp

theorem run_store {p : Option Dup} (h : i < argv.length) : (store argv i p).run m = .ok (argv.set i p) m := by
  unfold store
  rw [if_pos h]
  rfl

theorem run_store_outside {p : Option Dup} (h : argv.length ≤ i) : (store argv i p).run m = .error .undefined m := by
  unfold store
  rw [if_neg h.not_gt]
  rfl

theorem Memory.duped_duped (m : Memory) (ds es : Argv) : (m.duped ds).duped es = m.duped (ds ++ es) := by
  unfold Memory.duped blocks
  rw [List.filterMap_append, List.length_append, ← List.append_assoc, Nat.add_assoc]

theorem set_append_cons (pre rest : Argv) (d p : Option Dup) : (pre ++ d :: rest).set pre.length p = pre ++ [p] ++ rest := by
  rw [List.set_append_right _ _ le_rfl, Nat.sub_self, List.set_cons_zero, List.append_assoc, List.singleton_append]

/-- The loop fills the null pointers behind what is there. -/
theorem run_dupLoop (answers : Nat → Bool) : ∀ (params : List Str) (pre : Argv) (n i : Nat) (m : Memory), pre.length = i + 1 →
    (dupLoop answers params i (pre ++ List.replicate (params.length + n) none)).run m =
      .ok (pre ++ dups answers m.calls params ++ List.replicate n none) (m.duped (dups answers m.calls params))
  | [], pre, n, i, m, _ => by
    unfold dupLoop dups Memory.duped blocks
    simp
  | p :: params, pre, n, i, m, hpre => by
    have hlength : (p :: params).length + n = params.length + n + 1 := by
      rw [List.length_cons]
      omega
    have hinside : i + 1 < (pre ++ none :: List.replicate (params.length + n) (none : Option Dup)).length := by
      rw [List.length_append, List.length_cons]
      omega
    have hnext : (pre ++ [dup answers m.calls p]).length = i + 1 + 1 := by
      rw [List.length_append, hpre, List.length_singleton]
    have hset : (pre ++ none :: List.replicate (params.length + n) none).set (i + 1) (dup answers m.calls p) =
        pre ++ [dup answers m.calls p] ++ List.replicate (params.length + n) none := hpre ▸ set_append_cons _ _ _ _
    unfold dupLoop
    rw [run_bind_ok (run_strdup p), hlength, List.replicate_succ, run_bind_ok (run_store hinside), hset,
      run_dupLoop answers params _ n (i + 1) _ hnext, Memory.duped_duped, List.append_assoc pre, List.singleton_append]
    rfl

/-- `execv` sees all the strings iff all of them were copied. -/
theorem vector_dups (answers : Nat → Bool) : ∀ (c : Nat) (params : List Str), ∃ v,
    vector (dups answers c params ++ [none]) = some v ∧ v.length ≤ params.length ∧
      (v = params.map cstr ↔ ∀ i < params.length, answers (c + i) = true)
  | c, [] => ⟨[], rfl, le_rfl, iff_of_true rfl fun i hi => absurd hi i.not_lt_zero⟩
  | c, p :: params => by
    obtain ⟨v, hv, hlength, hall⟩ := vector_dups answers (c + 1) params
    cases hc : answers c with
    | false =>
      refine ⟨[], ?_, Nat.zero_le _, iff_of_false (List.cons_ne_nil _ _).symm fun h => ?_⟩
      · unfold dups dup
        rw [hc]
        rfl
      · have hfirst := h 0 (Nat.succ_pos _)
        rw [Nat.add_zero, hc] at hfirst
        cases hfirst
    | true =>
      refine ⟨cstr p :: v, ?_, Nat.succ_le_succ hlength, ?_⟩
      · unfold dups dup
        rw [hc]
        show (vector (dups answers (c + 1) params ++ [none])).map (cstr p :: ·) = _
        rw [hv]
        rfl
      · rw [List.map_cons, List.cons_inj_right, hall]
        constructor
        · intro h i hi
          cases i with
          | zero => exact hc
          | succ i =>
            rw [show c + (i + 1) = c + 1 + i by omega]
            exact h i (Nat.lt_of_succ_lt_succ hi)
        · intro h i hi
          rw [show c + 1 + i = c + (i + 1) by omega]
          exact h (i + 1) (Nat.succ_lt_succ hi)

/-- The handlers release the strings up to the null pointer. -/
theorem run_freeLoop (h : none ∈ argv) : (freeLoop argv).run m =
    .ok () { m with freed := m.freed ++ blocks (argv.takeWhile Option.isSome) } := by
  induction argv generalizing m with
  | nil => cases h
  | cons d argv ih =>
    cases d with
    | none =>
      unfold freeLoop blocks
      simp
    | some d =>
      have hrest : none ∈ argv := by simpa using h
      have hfree : (free d.block).run m = .ok () { m with freed := m.freed ++ [d.block] } := rfl
      unfold freeLoop
      rw [run_bind_ok hfree, ih hrest, List.takeWhile_cons_of_pos rfl, List.append_assoc]
      rfl

/-- Nothing in the array is behind a null pointer when all copies were made. -/
theorem takeWhile_dups : ∀ {c : Nat} {params : List Str}, (∀ i < params.length, answers (c + i) = true) →
    (dups answers c params ++ [none]).takeWhile Option.isSome = dups answers c params
  | c, [], _ => rfl
  | c, p :: params, h => by
    have hc : answers c = true := h 0 (Nat.succ_pos _)
    have hrest : ∀ i < params.length, answers (c + 1 + i) = true := by
      intro i hi
      rw [show c + 1 + i = c + (i + 1) by omega]
      exact h (i + 1) (Nat.succ_lt_succ hi)
    unfold dups dup
    rw [hc, if_pos rfl, List.cons_append, List.takeWhile_cons_of_pos rfl, takeWhile_dups hrest]

/-- The blocks are new ones. -/
theorem blocks_dups (answers : Nat → Bool) : ∀ (c : Nat) (params : List Str),
    (∀ b ∈ blocks (dups answers c params), c ≤ b) ∧ (blocks (dups answers c params)).Nodup
  | c, [] => ⟨fun b hb => absurd hb List.not_mem_nil, .nil⟩
  | c, p :: params => by
    obtain ⟨hle, hnodup⟩ := blocks_dups answers (c + 1) params
    unfold dups dup
    cases answers c with
    | false => exact ⟨fun b hb => (hle b hb).trans' c.le_succ, hnodup⟩
    | true =>
      have hblocks : blocks (some ⟨c, cstr p⟩ :: dups answers (c + 1) params) =
          c :: blocks (dups answers (c + 1) params) := rfl
      rw [if_pos rfl, hblocks]
      refine ⟨List.forall_mem_cons.2 ⟨le_rfl, fun b hb => (hle b hb).trans' c.le_succ⟩, List.nodup_cons.2 ⟨fun hc => ?_, hnodup⟩⟩
      exact absurd (hle c hc) (Nat.not_succ_le_self c)

/-- The array, the copy of the name and those of the parameters are different blocks. -/
theorem nodup_allocated (answers : Nat → Bool) (params : List Str) : (0 :: 1 :: blocks (dups answers 2 params)).Nodup := by
  obtain ⟨hnew, hnodup⟩ := blocks_dups answers 2 params
  have hname : 1 ∉ blocks (dups answers 2 params) := fun hmem => absurd (hnew 1 hmem) (by decide)
  have harray : 0 ∉ 1 :: blocks (dups answers 2 params) := by
    rw [List.mem_cons, not_or]
    exact ⟨by decide, fun hmem => absurd (hnew 0 hmem) (by decide)⟩
  exact .cons harray (.cons hname hnodup)

/-! ## A call -/

variable {exe : Executable} {execv : Option Errno} {argc : Int} {block : Nat}

/-- Before the first allocation. -/
def fresh : Memory := ⟨0, [], [], none⟩

theorem run_addInt {k : Int} (h : argc + k < 2147483648) : (addInt argc k).run m = .ok (argc + k) m := by
  unfold addInt
  rw [if_pos h]
  rfl

theorem run_addInt_overflow {k : Int} (h : ¬ argc + k < 2147483648) : (addInt argc k).run m = .error .undefined m := by
  unfold addInt
  rw [if_neg h]
  rfl

variable (answers) in
theorem run_calloc (h : n < 2147483648) : (calloc answers 8 n).run fresh =
    if answers 0 then .ok (some (0, List.replicate n none)) ⟨1, [0], [], none⟩ else .ok none ⟨1, [], [], none⟩ := by
  unfold calloc
  rw [if_pos (by omega)]
  unfold allocate fresh
  rw [run_bind, run_modifyGet]
  cases answers 0 <;> rfl

theorem run_calloc_overflow (h : 2305843009213693952 ≤ n) : (calloc answers 8 n).run m = .ok none m := by
  unfold calloc
  rw [if_neg (by omega)]
  rfl

/-- The array of a negative size is too large. -/
theorem toSize_neg {i : Int} (hlow : -2147483648 ≤ i) (h : i < 0) : 2305843009213693952 ≤ toSize i := by
  unfold toSize
  omega

theorem toSize_nonneg {i : Int} (h : 0 ≤ i) (hhigh : i < 2147483648) : (toSize i : Int) = i := by
  unfold toSize
  omega

variable (execv block) in
/-- When `execv` is reached: what it sees, and what the handlers release. -/
theorem run_execTry (name : Dup) {ds : Argv} {v : List Str} (hv : vector (ds ++ [none]) = some v) :
    (execTry block (some name :: ds ++ [none]) execv).run m = .error
      (execv.elim .replaced fun e => .issue (.execution e name.chars (-1)))
      { m with
        passed := some (name.chars :: v)
        freed := execv.elim m.freed fun _ =>
          m.freed ++ blocks ((some name :: ds ++ [none]).takeWhile Option.isSome) ++ [block] } := by
  have hmem : none ∈ some name :: ds ++ [none] := List.mem_append_right _ List.mem_cons_self
  have hvector : vector (some name :: (ds ++ [none])) = some (name.chars :: v) := by
    show (vector (ds ++ [none])).map (name.chars :: ·) = _
    rw [hv]
    rfl
  have hexec : (execArgv (some name :: ds ++ [none]) execv).run m = .error
      (execv.elim .replaced fun e => .issue (.execution e name.chars (-1))) { m with passed := some (name.chars :: v) } := by
    unfold execArgv
    simp only [List.cons_append, hvector]
    cases execv <;> rfl
  unfold execTry
  rw [run_tryCatch_any, hexec]
  cases execv with
  | none => rfl
  | some e =>
    simp only [Option.elim]
    rw [run_bind_ok (run_freeLoop hmem)]
    rfl

/-- The memory with the array. -/
def arrayMade : Memory := ⟨1, [0], [], none⟩

/-- An array for a negative number of parameters has no place for the name. -/
theorem run_execFilled_outside : (exe.execFilled params answers execv argc block []).run m =
    .error .undefined (m.duped [dup answers m.calls exe.fullName]) := by
  unfold execFilled
  rw [run_bind_ok (run_strdup exe.fullName), run_bind_error (run_store_outside (Nat.zero_le 0))]

theorem run_execFilled_noName (h : answers m.calls = false) (hpos : 0 < argv.length) :
    (exe.execFilled params answers execv argc block argv).run m =
      .error (.allocIssue eNomem (toInt ((cstr exe.fullName).length % 18446744073709551616))) (m.duped [none]) := by
  have hdup : dup answers m.calls exe.fullName = none := if_neg (by simp [h])
  unfold execFilled
  rw [run_bind_ok (run_strdup exe.fullName), run_bind_ok (run_store hpos), hdup]
  rfl

variable (params exe execv block) in
/-- With -1 parameters the null pointer at the end goes over the name. -/
theorem run_execFilled_overwritten (h : answers m.calls = true) : ∃ m',
    (exe.execFilled params answers execv (-1) block [none]).run m = .error (.issue .precondition) m' ∧ m'.passed = m.passed := by
  have hdup : dup answers m.calls exe.fullName = some ⟨m.calls, cstr exe.fullName⟩ := if_pos h
  have hpos : 0 < [(none : Option Dup)].length := Nat.one_pos
  unfold execFilled
  rw [run_bind_ok (run_strdup exe.fullName), run_bind_ok (run_store hpos), hdup]
  exact ⟨_, rfl, rfl⟩

/-- The last place of the array is null already. -/
theorem set_last_null {ds : List (Option Dup)} {n : Nat} (h : ds.length = n) :
    n < (ds ++ List.replicate 1 none).length ∧ (ds ++ List.replicate 1 none).set n none = ds ++ [none] := by
  subst h
  have hset := set_append_cons ds [] none none
  rw [List.append_nil] at hset
  refine ⟨?_, hset⟩
  rw [List.length_append, List.length_replicate]
  omega

variable (exe execv) in
/-- The usual way to `execv`. -/
theorem run_execFilled {k : Nat} {v : List Str} (h : answers 1 = true) (hk : k ≤ params.length)
    (hv : vector (dups answers 2 (params.take k) ++ [none]) = some v) : ∃ m,
    (exe.execFilled params answers execv k 0 (List.replicate (k + 2) none)).run arrayMade =
        .error (execv.elim .replaced fun e => .issue (.execution e (cstr exe.fullName) (-1))) m ∧
      m.passed = some (cstr exe.fullName :: v) ∧
      m.allocated = 0 :: 1 :: blocks (dups answers 2 (params.take k)) ∧
      ∀ e, execv = some e → m.freed =
        1 :: blocks ((dups answers 2 (params.take k) ++ [none]).takeWhile Option.isSome) ++ [0] := by
  obtain ⟨name, hname⟩ : ∃ name : Dup, name = ⟨1, cstr exe.fullName⟩ := ⟨_, rfl⟩
  have hdup : dup answers arrayMade.calls exe.fullName = some name := hname ▸ if_pos h
  have hlength : (params.take k).length = k := List.length_take_of_le hk
  have hfirst : (List.replicate (k + 2) none).set 0 (some name) =
      [some name] ++ List.replicate ((params.take k).length + 1) none := by
    rw [hlength]
    rfl
  have hloop := run_dupLoop answers (params.take k) [some name] 1 0 (arrayMade.duped [some name]) rfl
  rw [show (arrayMade.duped [some name]).calls = 2 from rfl] at hloop
  have hcount : ([some name] ++ dups answers 2 (params.take k)).length = k + 1 := by
    rw [List.length_append, length_dups, hlength, List.length_singleton, Nat.add_comm]
  obtain ⟨hinside, hend⟩ := set_last_null hcount
  have htry := run_execTry execv 0 name (m := (arrayMade.duped [some name]).duped (dups answers 2 (params.take k))) hv
  have hrun : (exe.execFilled params answers execv k 0 (List.replicate (k + 2) none)).run arrayMade =
      (execTry 0 (some name :: dups answers 2 (params.take k) ++ [none]) execv).run
        ((arrayMade.duped [some name]).duped (dups answers 2 (params.take k))) := by
    unfold execFilled
    rw [run_bind_ok (run_strdup exe.fullName), hdup, run_bind_ok (run_store (by rw [List.length_replicate]; omega)), hfirst]
    change (dupLoop answers (params.take (k : Int).toNat) 0 _ >>= _).run _ = _
    rw [Int.toNat_natCast, run_bind_ok hloop]
    rw [show ((k : Int) + 1).toNat = k + 1 by omega, run_bind_ok (run_store hinside), hend]
    rfl
  subst hname
  refine ⟨_, hrun.trans htry, rfl, rfl, ?_⟩
  rintro e rfl
  show [] ++ blocks ((some ⟨1, cstr exe.fullName⟩ :: (dups answers 2 (params.take k) ++ [none])).takeWhile Option.isSome) ++
    [0] = _
  rw [List.takeWhile_cons_of_pos rfl]
  rfl

/-! ## All of the arguments, or none -/

/-- How a call ends that runs the program with all of its arguments or not at all. -/
structure Complete (exe : Executable) (params : List Str) (execv : Option Errno) (leave : ExecLeave) (m : Memory) : Prop where
  /-- `exec(params,envs)` passes the same vector. -/
  passes : ∀ v, m.passed = some v → v = exe.fullName :: params ∧ ∀ envs ans s, ans.execve = none →
    ∃ env s', (exe.execEnvs params envs ans).run s = .error (.exec v (some env)) s'
  otherwise : m.passed = none → ∃ error size, leave = .allocIssue error size
  released : ∀ e, execv = some e → m.passed ≠ none → m.freed.Nodup ∧ ∀ block, block ∈ m.freed ↔ block ∈ m.allocated

def Whole (exe : Executable) (params : List Str) (answers : Nat → Bool) (execv : Option Errno) : Prop :=
  ∃ leave m, (exe.execAllocated params answers execv).run fresh = .error leave m ∧ Complete exe params execv leave m

/-- No parameter is lost, or an allocation fails that is looked at. -/
def Checked (params : List Str) (answers : Nat → Bool) : Prop :=
  toInt params.length + 2 < 2147483648 ∧
    (toInt params.length < -2 ∨ answers 0 = false ∨ toInt params.length ≠ -2 ∧ answers 1 = false ∨
      toInt params.length = params.length ∧ ∀ i < params.length, answers (2 + i) = true)

theorem whole_iff_of_run {leave : ExecLeave} (h : (exe.execAllocated params answers execv).run fresh = .error leave m) :
    Whole exe params answers execv ↔ Complete exe params execv leave m := by
  unfold Whole
  rw [h]
  constructor
  · rintro ⟨leave', m', heq, hcomplete⟩
    cases heq
    exact hcomplete
  · exact fun hcomplete => ⟨leave, m, rfl, hcomplete⟩

/-- An `AllocIssue` before `execv`. -/
theorem whole_of_allocIssue {e : Errno} {size : Int} (hm : m.passed = none)
    (h : (exe.execAllocated params answers execv).run fresh = .error (.allocIssue e size) m) : Whole exe params answers execv := by
  rw [whole_iff_of_run h]
  refine ⟨fun v hv => ?_, fun _ => ⟨e, size, rfl⟩, fun _ _ hnot => absurd hm hnot⟩
  rw [hm] at hv
  cases hv

/-- Another end before `execv`. -/
theorem not_whole_of_other {leave : ExecLeave} (hm : m.passed = none) (hleave : ∀ e size, leave ≠ .allocIssue e size)
    (h : (exe.execAllocated params answers execv).run fresh = .error leave m) : ¬ Whole exe params answers execv := by
  rw [whole_iff_of_run h]
  intro hcomplete
  obtain ⟨e, size, heq⟩ := hcomplete.otherwise hm
  exact hleave e size heq

theorem run_execAllocated_overflow (h : ¬ toInt params.length + 2 < 2147483648) :
    (exe.execAllocated params answers execv).run fresh = .error .undefined fresh := by
  unfold execAllocated
  exact run_bind_error (run_addInt_overflow h)

variable (exe execv) in
/-- When `calloc` fails nothing else is allocated. -/
theorem run_execAllocated_noArray (hint : toInt params.length + 2 < 2147483648)
    (h : toInt params.length < -2 ∨ answers 0 = false) : ∃ e size m,
      (exe.execAllocated params answers execv).run fresh = .error (.allocIssue e size) m ∧ m.passed = none := by
  have hcalloc : ∃ m : Memory, (calloc answers 8 (toSize (toInt params.length + 2))).run fresh = .ok none m ∧
      m.passed = none := by
    rcases lt_or_ge (toInt params.length + 2) 0 with hneg | hpos
    · have hlow := le_toInt params.length
      exact ⟨fresh, run_calloc_overflow (toSize_neg (by omega) hneg), rfl⟩
    · have hsize := toSize_nonneg hpos hint
      rw [run_calloc answers (by omega), if_neg (by simp [h.resolve_left (by omega)])]
      exact ⟨_, rfl, rfl⟩
  obtain ⟨m, hrun, hm⟩ := hcalloc
  unfold execAllocated
  rw [run_bind_ok (run_addInt hint), run_bind_ok hrun]
  exact ⟨_, _, m, rfl, hm⟩

variable (exe execv) in
theorem run_execAllocated_array (hint : toInt params.length + 2 < 2147483648) (hneg : -2 ≤ toInt params.length)
    (h : answers 0 = true) : (exe.execAllocated params answers execv).run fresh =
      (exe.execFilled params answers execv (toInt params.length) 0
        (List.replicate (toInt params.length + 2).toNat none)).run arrayMade := by
  have hsize := toSize_nonneg (i := toInt params.length + 2) (by omega) hint
  have hcalloc := run_calloc answers (n := toSize (toInt params.length + 2)) (by omega)
  rw [if_pos h, show toSize (toInt params.length + 2) = (toInt params.length + 2).toNat by omega] at hcalloc
  unfold execAllocated
  rw [run_bind_ok (run_addInt hint), show toSize (toInt params.length + 2) = (toInt params.length + 2).toNat by omega,
    run_bind_ok hcalloc]
  have hcheck : ∀ size : Nat, (allocCheck false size).run arrayMade = .ok () arrayMade := fun _ => rfl
  exact run_bind_ok (hcheck _)

/-- All arguments are passed, and what a failing `execv` leaves is freed. -/
theorem complete_of_passed {leave : ExecLeave} (hnul : ∀ s ∈ exe.fullName :: params, 0 ∉ s)
    (hpassed : m.passed = some (exe.fullName :: params))
    (hfreed : ∀ e, execv = some e → m.freed.Perm m.allocated ∧ m.allocated.Nodup) : Complete exe params execv leave m := by
  have hname : cstr exe.fullName = exe.fullName := cstr_of_notMem (hnul _ List.mem_cons_self)
  have hparams : params.map cstr = params := map_cstr_of_notMem fun p hp => hnul p (List.mem_cons_of_mem _ hp)
  refine ⟨fun w hw => ?_, fun hnone => ?_, fun e he _ => ?_⟩
  · rw [hpassed] at hw
    obtain rfl := Option.some.inj hw
    refine ⟨rfl, fun envs ans s hans => ⟨envs.map fun e => cstr (e.1 ++ text "=" ++ e.2), s, ?_⟩⟩
    unfold execEnvs exec
    rw [hans, hname, hparams]
    rfl
  · rw [hpassed] at hnone
    cases hnone
  · obtain ⟨hperm, hnodup⟩ := hfreed e he
    exact ⟨hperm.nodup_iff.2 hnodup, fun block => hperm.mem_iff⟩

/-- Once the name is copied, only the copies of the parameters count. -/
theorem whole_iff_copied (hnul : ∀ s ∈ exe.fullName :: params, 0 ∉ s) (hint : toInt params.length + 2 < 2147483648)
    (hneg : 0 ≤ toInt params.length) (h0 : answers 0 = true) (h1 : answers 1 = true) : Whole exe params answers execv ↔
      toInt params.length = params.length ∧ ∀ i < params.length, answers (2 + i) = true := by
  obtain ⟨k, hk⟩ := Int.eq_ofNat_of_zero_le hneg
  have hle : k ≤ params.length := by
    have hle := toInt_le params.length
    omega
  have hname : cstr exe.fullName = exe.fullName := cstr_of_notMem (hnul _ List.mem_cons_self)
  have hparams : params.map cstr = params := map_cstr_of_notMem fun p hp => hnul p (List.mem_cons_of_mem _ hp)
  obtain ⟨v, hv, hlength, hall⟩ := vector_dups answers 2 (params.take k)
  obtain ⟨m, hrun, hpassed, hallocated, hfreed⟩ := run_execFilled exe execv h1 hle hv
  have hfilled := run_execAllocated_array exe execv hint (by omega) h0
  rw [hk, show ((k : Int) + 2).toNat = k + 2 by omega, hrun] at hfilled
  rw [whole_iff_of_run hfilled, hk]
  rw [List.length_take_of_le hle] at hlength hall
  constructor
  · intro hcomplete
    have heq := (hcomplete.passes _ hpassed).1
    have hvector : v = params := (List.cons.inj heq).2
    rw [hvector] at hlength hall
    obtain rfl : k = params.length := Nat.le_antisymm hle hlength
    rw [List.take_length, hparams] at hall
    exact ⟨rfl, hall.1 rfl⟩
  · rintro ⟨hsize, hcopied⟩
    obtain rfl : k = params.length := Int.ofNat_inj.1 hsize
    rw [List.take_length] at hall hallocated hfreed
    rw [hall.2 hcopied, hparams, hname] at hpassed
    apply complete_of_passed hnul hpassed
    intro e he
    rw [hfreed e he, takeWhile_dups hcopied, hallocated]
    exact ⟨List.perm_append_singleton 0 _, nodup_allocated answers params⟩

/-- The launchers call `exec(params)` where it passes all of the arguments. -/
theorem Complete.execParams {leave : ExecLeave} {v : List Str} (hnul : ∀ s ∈ exe.fullName :: params, 0 ∉ s)
    (h : Complete exe params execv leave m) (hv : m.passed = some v) {ans : Answers} (hans : ans.execve = none) (s : Proc) :
    (exe.execParams params ans).run s = .error (.exec v none) s := by
  have hparams : params.map cstr = params := map_cstr_of_notMem fun p hp => hnul p (List.mem_cons_of_mem _ hp)
  rw [(h.passes v hv).1]
  unfold Executable.execParams exec
  rw [hans, cstr_of_notMem (hnul _ List.mem_cons_self), hparams]
  rfl

/-- **`exec` runs the program with all of its arguments or not at all, and releases all it has allocated, iff all its copies of
parameters are made, or it throws before for an allocation that it checks.** -/
theorem exec_whole_iff (exe : Executable) (params : List Str) (hnul : ∀ s ∈ exe.fullName :: params, 0 ∉ s)
    (answers : Nat → Bool) (execv : Option Errno) : Whole exe params answers execv ↔ Checked params answers := by
  unfold Checked
  by_cases hint : toInt params.length + 2 < 2147483648
  swap
  · exact iff_of_false (not_whole_of_other rfl (by simp) (run_execAllocated_overflow hint)) fun h => hint h.1
  by_cases hnone : toInt params.length < -2 ∨ answers 0 = false
  · obtain ⟨e, size, m, hrun, hm⟩ := run_execAllocated_noArray exe execv hint hnone
    refine iff_of_true (whole_of_allocIssue hm hrun) ⟨hint, ?_⟩
    exact hnone.imp id .inl
  rw [not_or, Int.not_lt, Bool.not_eq_false] at hnone
  obtain ⟨hneg, h0⟩ := hnone
  have harray := run_execAllocated_array exe execv hint hneg h0
  by_cases htwo : toInt params.length = -2
  · rw [htwo, show ((-2 : Int) + 2).toNat = 0 from rfl, List.replicate_zero, run_execFilled_outside] at harray
    refine iff_of_false (not_whole_of_other rfl (by simp) harray) fun h => ?_
    simp [htwo, h0] at h
  cases h1 : answers 1 with
  | false =>
    rw [run_execFilled_noName h1 (by rw [List.length_replicate]; omega)] at harray
    exact iff_of_true (whole_of_allocIssue rfl harray) ⟨hint, .inr (.inr (.inl ⟨htwo, rfl⟩))⟩
  | true =>
    by_cases hone : toInt params.length = -1
    · obtain ⟨m, hrun, hm⟩ := run_execFilled_overwritten params exe execv 0 (m := arrayMade) h1
      rw [hone, show ((-1 : Int) + 2).toNat = 1 from rfl, List.replicate_one, hrun] at harray
      refine iff_of_false (not_whole_of_other hm (by simp) harray) fun h => ?_
      simp [hone, h0] at h
    · rw [whole_iff_copied hnul hint (by omega) h0 h1]
      simp [hint, h0]
      omega

theorem exec_whole_iff_ls : Whole ⟨⟨text "ls"⟩⟩ [text "-l"] (fun _ => true) (some 2) := by
  refine (exec_whole_iff ⟨⟨text "ls"⟩⟩ [text "-l"] (by decide) (fun _ => true) (some 2)).2 ⟨by decide, ?_⟩
  exact .inr (.inr (.inr ⟨by decide, fun _ _ => rfl⟩))

/-- Without memory for the copy of its second parameter, `ls -l /tmp` runs as `ls -l`. -/
theorem lost_parameter : ¬ ∀ (exe : Executable) (params : List Str) (answers : Nat → Bool) (execv : Option Errno),
    (∀ s ∈ exe.fullName :: params, 0 ∉ s) → Whole exe params answers execv := by
  intro h
  have hwhole := h ⟨⟨text "ls"⟩⟩ [text "-l", text "/tmp"] (fun call => call ≠ 3) none (by decide)
  rw [whole_iff_copied (by decide) (by decide) (by decide) rfl rfl] at hwhole
  exact absurd (hwhole.2 1 (by decide)) (by decide)

end Executable

end OksSystem
