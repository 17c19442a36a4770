/-!
The ways in which an operation on a collection can fail. A missed lookup and the removal of what
is not there are no faults.
-/

set_option autoImplicit false

namespace Persistent

inductive Fault where
  /-- An index past the place behind the last element, or before the first. -/
  | indexOutOfRange (index : Int64) (size : Nat)
  | underflow (kind : String)
  | unsupported (operation kind : String)
  /-- A key that cannot be a key of that kind of collection, with the key's text. -/
  | invalidKey (kind key : String)
deriving DecidableEq

def Fault.message : Fault → String
  | .indexOutOfRange index size =>
    s!"index {index.toInt} out of range for vector of length {size}"
  | .underflow kind => s!"can't pop empty {kind}"
  | .unsupported operation kind => s!"{operation} not supported on {kind}"
  | .invalidKey kind key => s!"invalid key for {kind}: {key}"

end Persistent
