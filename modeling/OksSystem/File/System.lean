import OksSystem.File.Basic
import OksSystem.User.Basic

/-!
# The members of `File` on a file system

* `Machine` : the file system and the working directory; `Host` : what else decides how a call ends;
* `FileM` : the members run here, and keep the machine also when they throw;
* `setName`, `new`, `copy`, `exists?`, `getMode`, `isDirectory`, `directory`, `unlink`, `rmdir`, `remove`.

The names of the nodes are short enough, and no link on a path keeps the process from following it: `realpath` and
`stat` fail on the paths that do not resolve, and on no others.
-/

namespace OksSystem
open ByteBuffer EStateM Pieces

/-! ## Nodes -/

abbrev Mode := BitVec 32

abbrev Perm := BitVec 12

def sIfdir : Mode := 0o040000

/-- The types of what is neither a directory nor a link. -/
inductive FileType where
  | fifo
  | charDevice
  | blockDevice
  | regular
  | socket
  deriving DecidableEq, Repr

def FileType.bits : FileType → Mode
  | .fifo => 0o010000
  | .charDevice => 0o020000
  | .blockDevice => 0o060000
  | .regular => 0o100000
  | .socket => 0o140000

structure Inode where
  type : FileType
  perm : Perm
  deriving DecidableEq, Repr

abbrev Tree := FileTree Name Perm Inode

/-- `st_mode`. -/
def mode : Node Name Perm Inode → Mode
  | .dir perm => sIfdir ||| perm.setWidth 32
  | .link _ => 0o120777
  | .other a => a.type.bits ||| a.perm.setWidth 32

/-! ## The machine -/

structure Machine where
  tree : Tree
  cwd : List Name
  /-- How many calls the host has decided. -/
  clock : Nat

/-- What the file system leaves open: the users, the order and number of the entries that `readdir` gives, and which
calls fail for a reason that is not in the tree. -/
structure Host where
  users : UserDb
  readdir : Nat → List Str → List Str
  readdir_subperm : ∀ k names, (readdir k names).Subperm names
  opendir : Nat → Option Errno
  closedir : Nat → Option Errno
  remove : Nat → Option Errno

inductive Stop where
  | issue (i : Issue)
  | stackOverflow
  deriving DecidableEq, Repr

abbrev FileM (α : Type) := EStateM Stop Machine α

def errnoOf : Failure → Errno
  | .noEntry => 2
  | .notDirectory => 20
  | .tooManyLinks => 40
  | .exists => 17
  | .notEmpty => 39
  | .isDirectory => 21
  | .busy => 16
  | .invalid => 22

/-- The number of links the resolution of one path follows. -/
def maxLinks : Nat := 40

namespace Machine

/-- Where a path starts. -/
def start (m : Machine) (path : Str) : List Name := if path.head? = some slash then [] else m.cwd

def resolve (m : Machine) (path : Str) : Except Failure (List Name) :=
  if cstr path = [] then .error .noEntry
  else m.tree.resolve maxLinks (m.start (cstr path)) (comps (cstr path))

def realpath (m : Machine) (path : Str) : Option Str := (m.resolve path).toOption.map render

def stat (m : Machine) (path : Str) : Except Errno Mode :=
  match m.resolve path with
  | .error e => .error (errnoOf e)
  | .ok p =>
    match m.tree.node p with
    | some n => .ok (mode n)
    | none => .error (errnoOf .noEntry)

/-- The names `readdir` can give for a path. -/
def opendir (m : Machine) (path : Str) : Except Errno (List Str) :=
  match m.resolve path with
  | .error e => .error (errnoOf e)
  | .ok p =>
    if m.tree.IsDir p then .ok ([dot] :: [dot, dot] :: (m.tree.entries p).map Subtype.val)
    else .error (errnoOf .notDirectory)

/-- `unlink` or `rmdir` of a path. -/
def remove (m : Machine) (call : Tree → Nat → List Name → List (Comp Name) → Except Failure Tree) (path : Str) :
    Except Errno Tree :=
  if cstr path = [] then .error (errnoOf .noEntry)
  else match call m.tree maxLinks (m.start (cstr path)) (comps (cstr path)) with
    | .error e => .error (errnoOf e)
    | .ok t => .ok t

end Machine

def throwIssue {α : Type} (i : Issue) : FileM α := throw (.issue i)

/-- `throw OksSystemCallIssue(ERS_HERE, errno, name, message.c_str())`. -/
def throwCall {α : Type} (error : Errno) (name message : Str) : FileM α :=
  throwIssue (.osSystemCall error name (cstr message))

/-- The next decision of the host. -/
def tick : FileM Nat := modifyGet fun m => (m.clock, { m with clock := m.clock + 1 })

namespace File

/-! ## Names -/

/-- `working_directory()`. -/
def workingDirectory : FileM Str := do
  let m ← get
  if m.tree.IsDir m.cwd then return render m.cwd
  else throwCall (errnoOf .noEntry) (text "getcwd") (text "getting the current working directory")

variable (host : Host)

def expandHome (path : Str) : FileM Str := do
  if path = [] then throwIssue .precondition
  if path.head? ≠ some tilde then throwIssue .precondition
  -- without a slash the user name is all the rest, and `substr` throws
  match find path slash 0 with
  | none => throwIssue .outOfRange
  | some i =>
    let userName := substr path 1 (i - 1)
    let user ← if userName = [] then pure (User.current host.users) else
      match User.ofName host.users userName with
      | .ok user => pure user
      | .error e => throwIssue e
    match (User.home host.users).run user with
    | .ok home _ => return home ++ path.drop i
    | .error e _ => throwIssue e

/-- The name `set_name` stores. -/
def setName (name : Str) : FileM Str := do
  let longPath ←
    match name with
    | [] => throwIssue .precondition
    | c :: _ =>
      if c = slash then pure name
      else if c = tilde then expandHome host name
      else pure ((← workingDirectory) ++ slash :: name)
  return ((← get).realpath longPath).getD longPath

/-- `File(name)`. -/
def new (name : Str) : FileM File := return ⟨← setName host name⟩

/-- `File(other)` : the copy constructor sets the name again. -/
def copy (other : File) : FileM File := new host other.fullName

/-! ## Questions -/

def exists? (f : File) : FileM Bool := return ((← get).stat f.fullName).toBool

def getMode (f : File) : FileM Mode := do
  match (← get).stat f.fullName with
  | .ok mode => return mode
  | .error e => throwCall e (text "stat") (text "on file/directory " ++ f.fullName)

def isDirectory (f : File) : FileM Bool := return (← getMode f) &&& sIfdir != 0

/-! ## Directories -/

/-- A `std::vector<File>`. -/
structure FileList where
  items : List File
  capacity : Nat
  deriving DecidableEq, Repr

/-- A vector that is full grows to the double, and copies its elements. -/
def FileList.pushBack (v : FileList) (f : File) : FileM FileList := do
  let f ← copy host f
  if v.items.length < v.capacity then return ⟨v.items ++ [f], v.capacity⟩
  else return ⟨(← v.items.mapM (copy host)) ++ [f], max 1 (2 * v.capacity)⟩

/-- The names of a listing that get into the vector. -/
def proper (names : List Str) : List Str := names.filter fun name => name ≠ [dot] ∧ name ≠ [dot, dot]

def directory (f : File) : FileM FileList := do
  let k ← tick
  match host.opendir k, (← get).opendir f.fullName with
  | some e, _ | none, .error e => throwCall e (text "opendir") (text "on directory " ++ f.fullName)
  | none, .ok names =>
    let files ← (proper (host.readdir k names)).foldlM
      (fun (v : FileList) name => do v.pushBack host (← new host (f.fullName ++ slash :: name))) ⟨[], 0⟩
    match host.closedir k with
    | some e => throwCall e (text "closedir") (text "on directory " ++ f.fullName)
    | none => return files

/-! ## Deletion -/

/-- `::unlink` or `::rmdir`: the error if the call fails. -/
def removeNode (call : Tree → Nat → List Name → List (Comp Name) → Except Failure Tree) (f : File) :
    FileM (Option Errno) := do
  let k ← tick
  match host.remove k, (← get).remove call f.fullName with
  | some e, _ | none, .error e => return some e
  | none, .ok t =>
    modify fun m => { m with tree := t }
    return none

def unlink (f : File) : FileM Unit := do
  if let some e ← removeNode host FileTree.unlink f then throwIssue (.removeFile e (cstr f.fullName))

def rmdir (f : File) : FileM Unit := do
  if let some e ← removeNode host FileTree.rmdir f then
    throwCall e (text "rmdir") (text "on directory " ++ f.fullName)

/-- `remove()`, on a stack that has room for so many of its frames. -/
def remove : Nat → File → FileM Unit
  | 0, _ => throw .stackOverflow
  | depth + 1, f => do
    if ← isDirectory f then
      let childs ← directory host f
      childs.items.forM fun p => do
        let f ← copy host p
        if ← exists? f then remove depth f
      rmdir host f
    else unlink host f

end File

end OksSystem
