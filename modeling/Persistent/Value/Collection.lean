import Persistent.Value.Keyed
import Persistent.Value.Stack

/-!
What every collection value can do: grow by several items, be emptied, tell whether it is empty.
Stacks can also be taken down item by item.
-/

set_option autoImplicit false

namespace Persistent

namespace Value

variable [Hasher]

/-- Adds the items from left to right. -/
def conjAll (fuel : Nat) (coll : Value) (items : List Value) : Action Value := do
  match coll with
  | .list l => return .list (l.pushAll items)
  | .vector v => return .vector (v.pushAll items)
  | .set s => return .set (← insertItems fuel s items)
  | .seq s => return .seq (items.foldl (fun s x => .cons x s) s)
  | coll => unsupported "conj" coll

/-- The empty collection of the same kind, without metadata. -/
def emptied? : Value → Option Value
  | .list _ => some (.list {})
  | .vector _ => some (.vector {})
  | .map _ => some (.map {})
  | .set _ => some (.set {})
  | .seq _ => some (.seq .nil)
  | _ => none

/-- Whether a collection is empty. A sequence is looked at for it. -/
def isEmptyCollection? : Value → Demand Value (Option Bool)
  | .list l => return some l.isEmpty
  | .vector v => return some v.isEmpty
  | .map m => return some m.isEmpty
  | .set s => return some s.isEmpty
  | .seq s => return some (← s.isEmpty)
  | _ => return none

/-- The top item of a list or a vector. -/
def top? : Value → Option Value
  | .list l => l.peek?
  | .vector v => v.peek?
  | _ => none

/-- The items of a stack as they are taken off, at most `n` of them. -/
def unstack : Nat → Value → Except Fault (List Value)
  | 0, _ => .ok []
  | n + 1, v =>
    match v.top? with
    | none => .ok []
    | some x => do return x :: (← unstack n (← v.pop))

end Value

end Persistent
