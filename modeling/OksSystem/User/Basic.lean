import OksSystem.Exceptions
import OksSystem.Lib.Outcome
import OksSystem.Lib.Pieces

/-!
# Users

* `UserDb` : what the calls that read the user database answer;
* `User` : a user with the fields that `resolve` fills in; the members run in `EStateM` over the object.
-/

namespace OksSystem
open ByteBuffer

abbrev Uid := Nat

/-- The members of `struct passwd` that are read. -/
structure Passwd where
  pwUid : Uid
  pwName : Str
  pwDir : Str
  pwGecos : Str
  deriving DecidableEq, Repr

/-- What `getpwnam_r` or `getpwuid_r` answers: an entry, no entry with the `errno` it leaves, or an error. -/
inductive Looked where
  | entry (pwd : Passwd)
  | absent (error : Errno)
  | failed (res : Errno)
  deriving DecidableEq, Repr

structure UserDb where
  /-- The `errno` of `sysconf(_SC_GETPW_R_SIZE_MAX)` if that fails with one. -/
  sysconf : Option Errno
  getuid : Uid
  getpwnam : Str → Looked
  getpwuid : Uid → Looked

structure User where
  userId : Uid
  userName : Str
  userHome : Str
  userRealName : Str
  deriving DecidableEq, Repr

namespace User

/-- `User(user_id)`. -/
def ofId (userId : Uid) : User := ⟨userId, [], [], []⟩

/-- `User()`. -/
def current (db : UserDb) : User := ofId db.getuid

def sysconfAction : Str := text "with argument _SC_GETPW_R_SIZE_MAX while getting info about user "

/-- `User(s_name)`. -/
def ofName (db : UserDb) (name : Str) : Except Issue User :=
  match db.sysconf with
  | some e => .error (.osSystemCall e (text "sysconf") (sysconfAction ++ name))
  | none =>
    match db.getpwnam (cstr name) with
    | .entry pwd => .ok { ofId pwd.pwUid with userName := name }
    | .absent e => .error (.osSystemCall e (text "getpwnam_r") (text "User " ++ name ++ text " not found"))
    | .failed res => .error (.osSystemCall res (text "getpwnam_r") (text "while getting info about user " ++ name))

variable (db : UserDb)

def resolve : EStateM Issue User Unit := do
  let id := text (toString (← get).userId)
  if let some e := db.sysconf then throw (.osSystemCall e (text "sysconf") (sysconfAction ++ text "with id " ++ id))
  match db.getpwuid (← get).userId with
  | .entry pwd =>
    modify fun u => { u with userName := pwd.pwName, userHome := pwd.pwDir, userRealName := pwd.pwGecos }
  | .absent e => throw (.osSystemCall e (text "getpwuid_r") (text "User " ++ id ++ text " not found"))
  | .failed res =>
    throw (.osSystemCall res (text "getpwnam_r") (text "while getting info about user with id " ++ id))

/-- Does not throw: what it cannot find is "unknown". -/
def resolveSafe : EStateM Issue User Unit := do
  let unknown := modify fun u : User =>
    { u with userName := text "unknown", userHome := text "unknown", userRealName := text "unknown" }
  match db.sysconf with
  | some _ => unknown
  | none =>
    match db.getpwuid (← get).userId with
    | .entry pwd =>
      modify fun u => { u with userName := pwd.pwName, userHome := pwd.pwDir, userRealName := pwd.pwGecos }
    | .absent _ => unknown
    | .failed _ => unknown

def name : EStateM Issue User Str := do
  if (← get).userName = [] then resolve db
  return (← get).userName

def nameSafe : EStateM Issue User Str := do
  if (← get).userName = [] then resolveSafe db
  return (← get).userName

def home : EStateM Issue User Str := do
  if (← get).userHome = [] then resolve db
  return (← get).userHome

def realName : EStateM Issue User Str := do
  if (← get).userRealName = [] then resolve db
  return (← get).userRealName

/-- What `operator<<` writes. -/
def output : EStateM Issue User Str := do
  let i := (← get).userId
  let name ← nameSafe db
  return name ++ text "(" ++ text (toString i) ++ text ")"

end User

end OksSystem
