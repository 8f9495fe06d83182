import OksSystem.File.Rename
import OksSystem.Lib.Separate

/-!
# What a process does with files

* `Calls.directory`, `Calls.unlink`, `Calls.rmdir`, `Calls.remove` : more members of `File` as the system calls they make,
  each of which is one step; `Op.calls` : any of those that change the tree; alone they are the members;
* `Work` : what a process does, which may depend on all that it was told;
* `Work.run` : the process alone, with the members; `Work.calls` : one system call at a time; `Work.run_calls` : the same;
* `Work.From` : the process names nothing but what is from a name on.
-/

namespace OksSystem
open ByteBuffer EStateM FileTree Pieces

namespace File

/-! ## The members, one system call at a time -/

namespace Calls

/-- `::opendir` and the names that `::readdir` gives, with what `::closedir` will answer. -/
def opened (host : Host) (f : File) : FileM (Except Errno (List Str × Option Errno)) := do
  let k ← tick
  match host.opendir k, (← get).opendir f.fullName with
  | some e, _ | none, .error e => return .error e
  | none, .ok names => return .ok (proper (host.readdir k names), host.closedir k)

def pushBack (host : Host) (v : FileList) (f : File) : Calls FileList := do
  let f ← Prog.atomic (copy host f)
  if v.items.length < v.capacity then return ⟨v.items ++ [f], v.capacity⟩
  else return ⟨(← v.items.mapM fun g => Prog.atomic (copy host g)) ++ [f], max 1 (2 * v.capacity)⟩

def directory (host : Host) (f : File) : Calls FileList := do
  match ← Prog.atomic (opened host f) with
  | .error e => throwCall e (text "opendir") (text "on directory " ++ f.fullName)
  | .ok (names, closed) =>
    let files ← names.foldlM
      (fun (v : FileList) name => do pushBack host v (← Prog.atomic (new host (f.fullName ++ slash :: name)))) ⟨[], 0⟩
    match closed with
    | some e => throwCall e (text "closedir") (text "on directory " ++ f.fullName)
    | none => return files

def unlink (host : Host) (f : File) : Calls Unit := do
  if let some e ← Prog.atomic (removeNode host FileTree.unlink f) then
    throw (.issue (.removeFile e (cstr f.fullName)))

def rmdir (host : Host) (f : File) : Calls Unit := do
  if let some e ← Prog.atomic (removeNode host FileTree.rmdir f) then
    throwCall e (text "rmdir") (text "on directory " ++ f.fullName)

/-- `remove()`, on a stack that has room for so many of its frames. -/
def remove (host : Host) : Nat → File → Calls Unit
  | 0, _ => throw .stackOverflow
  | depth + 1, f => do
    if ← Prog.atomic (isDirectory f) then
      let childs ← directory host f
      childs.items.forM fun p => do
        let f ← Prog.atomic (copy host p)
        if ← Prog.atomic (exists? f) then remove host depth f
      rmdir host f
    else unlink host f

variable (host : Host)

theorem run_pushBack (v : FileList) (f : File) : (pushBack host v f).run = v.pushBack host f := by
  unfold pushBack FileList.pushBack
  rw [Prog.run_bind, Prog.run_atomic]
  congr 1
  funext f
  split_ifs
  · rfl
  · rw [Prog.run_bind, Prog.run_mapM]
    simp only [Prog.run_atomic]
    rfl

theorem run_opened (f : File) (m : Machine) : (opened host f).run m =
    .ok (match host.opendir m.clock, m.opendir f.fullName with
      | some e, _ | none, .error e => .error e
      | none, .ok names => .ok (proper (host.readdir m.clock names), host.closedir m.clock)) m.ticked := by
  have hticked : m.ticked.opendir f.fullName = m.opendir f.fullName := rfl
  unfold opened
  rw [run_bind_ok run_tick, run_bind_ok (run_get _), hticked]
  cases host.opendir m.clock with
  | some e => rfl
  | none => cases m.opendir f.fullName <;> rfl

theorem run_directory (f : File) : (directory host f).run = File.directory host f := by
  unfold directory File.directory
  rw [Prog.run_bind, Prog.run_atomic]
  funext m
  show EStateM.run _ m = EStateM.run _ m
  have hticked : m.ticked.opendir f.fullName = m.opendir f.fullName := rfl
  rw [run_bind_ok (run_opened host f m), run_bind_ok run_tick, run_bind_ok (run_get _), hticked]
  cases host.opendir m.clock with
  | some e => rfl
  | none =>
    cases m.opendir f.fullName with
    | error e => rfl
    | ok names =>
      show EStateM.run (Prog.run (List.foldlM _ _ _ >>= _)) _ = _
      rw [Prog.run_bind, Prog.run_foldlM]
      simp only [Prog.run_bind, Prog.run_atomic, run_pushBack]
      congr 2
      funext files
      cases host.closedir m.clock <;> rfl

theorem run_unlink (f : File) : (unlink host f).run = File.unlink host f := by
  unfold unlink File.unlink
  rw [Prog.run_bind, Prog.run_atomic]
  congr 1
  funext r
  cases r <;> rfl

theorem run_rmdir (f : File) : (rmdir host f).run = File.rmdir host f := by
  unfold rmdir File.rmdir
  rw [Prog.run_bind, Prog.run_atomic]
  congr 1
  funext r
  cases r <;> rfl

theorem run_remove (depth : Nat) (f : File) : (remove host depth f).run = File.remove host depth f := by
  induction depth generalizing f with
  | zero => rfl
  | succ depth ih =>
    unfold remove File.remove
    rw [Prog.run_bind, Prog.run_atomic]
    congr 1
    funext b
    cases b with
    | false => exact run_unlink host f
    | true =>
      show (directory host f >>= _ : Calls Unit).run = _
      rw [Prog.run_bind, run_directory]
      congr 1
      funext childs
      rw [Prog.run_bind, Prog.run_forM, run_rmdir]
      congr 1
      congr 1
      funext p
      rw [Prog.run_bind, Prog.run_atomic]
      congr 1
      funext g
      rw [Prog.run_bind, Prog.run_atomic]
      congr 1
      funext b
      cases b with
      | false => rfl
      | true => exact ih g

end Calls

def Op.calls (c : FifoCreator) (f : File) : Op → Calls Unit
  | makeDir perm => Calls.makeDir c.toCreator perm f
  | makePath depth perm => Calls.makePath c.toCreator depth perm f
  | makeFifo perm => Calls.makeFifo c perm f
  | permissions perm => Calls.setPermissions c.toCreator perm f
  | unlink => Calls.unlink c.toHost f
  | rmdir => Calls.rmdir c.toHost f
  | remove depth => Calls.remove c.toHost depth f

theorem Op.run_calls (c : FifoCreator) (f : File) (op : Op) : (op.calls c f).run = op.run c f := by
  cases op with
  | makeDir perm => exact Calls.run_makeDir c.toCreator perm f
  | makePath depth perm => exact Calls.run_makePath c.toCreator depth perm f
  | makeFifo perm => rfl
  | permissions perm => exact Calls.run_setPermissions c.toCreator perm f
  | unlink => exact Calls.run_unlink c.toHost f
  | rmdir => exact Calls.run_rmdir c.toHost f
  | remove depth => exact Calls.run_remove c.toHost depth f

/-! ## What a process does -/

/-- The exception is a result. -/
def attempt {μ : Type → Type} [Monad μ] [MonadExceptOf Stop μ] {α : Type} (x : μ α) : μ (Except Stop α) :=
  tryCatch (do return .ok (← x)) fun stop => return .error stop

/-- `rename`, with its exception as a result. -/
def renamed (r : Renamer) (other f : File) : FileM (Option RenameFileIssue) :=
  modifyGet fun m => (((rename r other f).run m).thrown, ((rename r other f).run m).state)

/-- What a process does with files: each step may depend on all that it was told. -/
inductive Work (α : Type) where
  | done (a : α)
  | op (call : Op) (p : List Name) (next : Except Stop Unit → Work α)
  | rename (p q : List Name) (next : Option RenameFileIssue → Work α)
  | exists? (p : List Name) (next : Bool → Work α)
  | directory (p : List Name) (next : Except Stop FileList → Work α)

namespace Work

variable {α : Type}

def run (c : FifoCreator) (r : Renamer) : Work α → FileM α
  | done a => return a
  | op call p next => do (next (← attempt (call.run c ⟨render p⟩))).run c r
  | rename p q next => do (next (← renamed r ⟨render q⟩ ⟨render p⟩)).run c r
  | exists? p next => do (next (← File.exists? ⟨render p⟩)).run c r
  | directory p next => do (next (← attempt (File.directory c.toHost ⟨render p⟩))).run c r

/-- One system call at a time. -/
def calls (c : FifoCreator) (r : Renamer) : Work α → Calls α
  | done a => return a
  | op call p next => do (next (← attempt (call.calls c ⟨render p⟩))).calls c r
  | rename p q next => do (next (← Prog.atomic (renamed r ⟨render q⟩ ⟨render p⟩))).calls c r
  | exists? p next => do (next (← Prog.atomic (File.exists? ⟨render p⟩))).calls c r
  | directory p next => do (next (← attempt (Calls.directory c.toHost ⟨render p⟩))).calls c r

/-- The process names only what is from `s` on. -/
def From (s : List Name) : Work α → Prop
  | done _ => True
  | op _ p next => s <+: p ∧ ∀ r, (next r).From s
  | rename p q next => s <+: p ∧ s <+: q ∧ ∀ r, (next r).From s
  | exists? p next => s <+: p ∧ ∀ r, (next r).From s
  | directory p next => s <+: p ∧
    ∀ r, (∀ v, r = .ok v → ∀ g ∈ v.items, ∃ n, g = ⟨render (p ++ [n])⟩) → (next r).From s

theorem run_attempt (p : Calls α) : (attempt p).run = attempt p.run := by
  unfold attempt
  rw [Prog.run_tryCatch, Prog.run_bind]
  rfl

theorem run_calls (c : FifoCreator) (r : Renamer) (w : Work α) : (w.calls c r).run = w.run c r := by
  induction w with
  | done a => rfl
  | op call p next ih =>
    rw [calls, run, Prog.run_bind, run_attempt, Op.run_calls]
    exact congrArg _ (funext ih)
  | rename p q next ih =>
    rw [calls, run, Prog.run_bind, Prog.run_atomic]
    exact congrArg _ (funext ih)
  | exists? p next ih =>
    rw [calls, run, Prog.run_bind, Prog.run_atomic]
    exact congrArg _ (funext ih)
  | directory p next ih =>
    rw [calls, run, Prog.run_bind, run_attempt, Calls.run_directory]
    exact congrArg _ (funext ih)

/-- A process returns: an exception is a result. -/
theorem exists_run_attempt (x : FileM α) (m : Machine) : ∃ y m', (attempt x).run m = .ok y m' := by
  unfold attempt
  rw [run_tryCatch_any, run_bind]
  cases x.run m with
  | ok a m' => exact ⟨_, m', rfl⟩
  | error stop m' => exact ⟨_, m', rfl⟩

theorem exists_run (c : FifoCreator) (r : Renamer) (w : Work α) (m : Machine) : ∃ a m', (w.run c r).run m = .ok a m' := by
  induction w generalizing m with
  | done a => exact ⟨a, m, rfl⟩
  | op call p next ih =>
    obtain ⟨y, m', hrun⟩ := exists_run_attempt (call.run c ⟨render p⟩) m
    rw [run, run_bind_ok hrun]
    exact ih y m'
  | rename p q next ih => exact ih _ _
  | exists? p next ih => exact ih _ _
  | directory p next ih =>
    obtain ⟨y, m', hrun⟩ := exists_run_attempt (File.directory c.toHost ⟨render p⟩) m
    rw [run, run_bind_ok hrun]
    exact ih y m'

end Work

end File

end OksSystem
