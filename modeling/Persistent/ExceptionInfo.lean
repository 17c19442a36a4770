import Persistent.Value.Comparison

/-!
Errors that carry a map of data, and perhaps the error that caused them.
-/

set_option autoImplicit false

namespace Persistent

inductive ExceptionInfo where
  | mk (message : String) (data : Map Metadata Value Value) (cause : Option ExceptionInfo)

variable [Hasher]

namespace ExceptionInfo

def message : ExceptionInfo → String
  | .mk message _ _ => message

def data : ExceptionInfo → Map Metadata Value Value
  | .mk _ data _ => data

def cause : ExceptionInfo → Option ExceptionInfo
  | .mk _ _ cause => cause

/-- The error of the first link, caused by that of the second, and so on. -/
def ofChain? : List (String × Map Metadata Value Value) → Option ExceptionInfo
  | [] => none
  | (message, data) :: chain => some (.mk message data (ofChain? chain))

mutual

/-- The error and its causes, from the outside in. -/
def chain : ExceptionInfo → List ExceptionInfo
  | .mk message data cause => .mk message data cause :: causes cause

def causes : Option ExceptionInfo → List ExceptionInfo
  | none => []
  | some cause => cause.chain

end

/-- The message and the data, whatever the cause. -/
def text (fuel : Nat) (e : ExceptionInfo) : Demand Value String := do
  return e.message ++ " " ++ (← (Value.map e.data).print {} fuel)

/-- Equal messages and data, link by link. -/
def equalLinks (fuel : Nat) : List ExceptionInfo → List ExceptionInfo → Demand Value Bool
  | [], [] => return true
  | d :: ds, e :: es => do
    if d.message != e.message then return false
    if ← Value.equal fuel (.map d.data) (.map e.data) then equalLinks fuel ds es
    else return false
  | _, _ => return false

def equal (fuel : Nat) (d e : ExceptionInfo) : Demand Value Bool :=
  equalLinks fuel d.chain e.chain

end ExceptionInfo

end Persistent
