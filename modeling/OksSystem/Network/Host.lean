import OksSystem.Exceptions

/-!
# Hosts

* `AddrInfo`, `Answer` : what `getaddrinfo` answers, a failure or a list of addresses of the two families;
* `Resolver` : the answers of `getaddrinfo` and `getnameinfo`;
* `Host` : a host with the full name it caches; what it asks the resolver for is recorded in `Lookups`.
-/

namespace OksSystem.Network
open ByteBuffer

/-- `struct in_addr` : four bytes in the order of the memory. -/
structure InAddr where
  w : Byte
  x : Byte
  y : Byte
  z : Byte
  deriving DecidableEq, Repr

/-- 0.0.0.0, the one with `s_addr` 0. -/
def InAddr.any : InAddr := ⟨0, 0, 0, 0⟩

def AF_INET : UInt16 := 2

def AF_INET6 : UInt16 := 10

/-- `struct sockaddr_in` : the fields are at the bytes 0, 2, 4 and 8. -/
structure SockaddrIn where
  sinFamily : UInt16
  sinPort : UInt16
  sinAddr : InAddr
  sinZero : UInt64
  deriving DecidableEq, Repr

/-- An entry of an answer, with the content of its `ai_addr`. -/
inductive AddrInfo where
  | inet (sinPort : UInt16) (sinAddr : InAddr) (sinZero : UInt64)
  /-- In `struct sockaddr_in6` the fields are at the bytes 0 (the family), 2, 4, 8 and 24. -/
  | inet6 (sin6Port : UInt16) (sin6Flowinfo : InAddr) (sin6Addr : UInt64 × UInt64) (sin6ScopeId : UInt32)
  deriving DecidableEq, Repr

/-- `*(sockaddr_in *) ai_addr` : the first sixteen bytes, whatever the family. -/
def AddrInfo.castIn : AddrInfo → SockaddrIn
  | .inet sinPort sinAddr sinZero => ⟨AF_INET, sinPort, sinAddr, sinZero⟩
  | .inet6 sin6Port sin6Flowinfo sin6Addr _ => ⟨AF_INET6, sin6Port, sin6Flowinfo, sin6Addr.1⟩

/-- What `getaddrinfo` answers: a status that is not 0, or a list that is not empty. -/
inductive Answer where
  | failed
  | list (first : AddrInfo) (rest : List AddrInfo)
  deriving DecidableEq, Repr

def Answer.entries : Answer → List AddrInfo
  | .failed => []
  | .list first rest => first :: rest

structure Resolver where
  getaddrinfo : Str → Answer
  /-- The buffer that `getnameinfo` fills, `none` if its status is not 0. -/
  getnameinfo : SockaddrIn → Option Str

/-- A call of `getaddrinfo` or of `getnameinfo`, with what it is asked for. -/
inductive Lookup where
  | name (name : Str)
  | address (address : SockaddrIn)
  deriving DecidableEq, Repr

abbrev Lookups (α : Type) := StateM (List Lookup) α

structure Host where
  mName : Str
  /-- Empty until it is known. -/
  mFullName : Str
  deriving DecidableEq, Repr

namespace Host

/-- `inet_ntoa`. -/
def inetNtoa (a : InAddr) : Str :=
  text (Nat.repr a.w) ++ text "." ++ text (Nat.repr a.x) ++ text "." ++ text (Nat.repr a.y) ++ text "." ++ text (Nat.repr a.z)

def toString (ipAddr : SockaddrIn) : Str := inetNtoa ipAddr.sinAddr

variable (net : Resolver)

/-- `resolve(name)`. -/
def resolve (name : Str) : Lookups SockaddrIn := do
  modify (· ++ [.name (cstr name)])
  let address : SockaddrIn := ⟨AF_INET, 0, .any, 0⟩
  match net.getaddrinfo (cstr name) with
  | .list first _ => return first.castIn
  | .failed => return address

/-- `resolve(address)`. -/
def resolveAddress (address : SockaddrIn) : Lookups Str := do
  modify (· ++ [.address address])
  match net.getnameinfo address with
  | none => return toString address
  | some buffer => return cstr buffer

def expand (name : Str) : Lookups Str := do
  let address ← resolve net name
  if address.sinAddr ≠ .any then resolveAddress net address else return name

/-- `Host(s_name)`. -/
def ofName (sName : Str) : Host := ⟨sName, []⟩

/-- `Host(ip_addr)`. -/
def ofAddress (ipAddr : SockaddrIn) : Lookups Host := do
  let name ← resolveAddress net ipAddr
  return ⟨name, name⟩

/-- `Host(other)`. -/
def copy (other : Host) : Host := ⟨other.mName, if other.mFullName ≠ [] then other.mFullName else []⟩

/-- `host = other`, the implicit assignment of both members. -/
def assign (_host other : Host) : Host := ⟨other.mName, other.mFullName⟩

def ip (host : Host) : Lookups SockaddrIn := resolve net host.mName

/-- `full_name()` with the host after it. -/
def fullName (host : Host) : Lookups (Str × Host) := do
  if host.mFullName = [] then
    let full ← expand net host.mName
    return (full, { host with mFullName := full })
  else return (host.mFullName, host)

/-- `equals(other)` with both hosts after it. The two names may be looked up at different times. -/
def equals (net' : Resolver) (host other : Host) : Lookups (Bool × Host × Host) := do
  let (full, host) ← fullName net host
  let (full', other) ← fullName net' other
  return (full == full', host, other)

end Host

end OksSystem.Network
