import OksSystem.Lib.ByteBuffer

/-!
# The exceptions

`Issue` : the exceptions that leave the library with their attributes; `text` : the bytes of a text of the source.
-/

namespace OksSystem
open ByteBuffer

abbrev Errno := Nat

def text (s : String) : Str := s.toList.map fun c => Fin.ofNat 256 c.toNat

inductive Issue where
  | notFound (name : Str)
  | osSystemCall (error : Errno) (name action : Str)
  | execution (error : Errno) (command : Str) (status : Int)
  | openFile (error : Errno) (name : Str)
  | removeFile (error : Errno) (name : Str)
  | closeFile (error : Errno) (name : Str)
  | read (error : Errno) (name : Str)
  | write (error : Errno) (name : Str)
  | termination (error : Errno) (status : Nat)
  | signal (error : Errno) (signal : Nat)
  | precondition
  | assertion
  | range (min val max : Nat)
  /-- `std::out_of_range`. -/
  | outOfRange
  deriving DecidableEq, Repr

end OksSystem
