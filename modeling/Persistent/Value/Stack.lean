import Persistent.Value.Equality

/-!
Values as stacks, and their metadata.
-/

set_option autoImplicit false

namespace Persistent

namespace Value

/-- The head of a list or the last item of a vector, nil when there is none. -/
def peek : Value → Except Fault Value
  | .nil => .ok .nil
  | .list l => .ok (l.peek?.getD .nil)
  | .vector v => .ok (v.peek?.getD .nil)
  | v => .error (.unsupported "peek" v.kind)

/-- The collection without its `peek` item. -/
def pop : Value → Except Fault Value
  | .nil => .ok .nil
  | .list l => l.pop.map .list
  | .vector v => v.pop.map .vector
  | v => .error (.unsupported "pop" v.kind)

/-- The metadata as a map, or nil. -/
def metadata (v : Value) : Value :=
  match v.metadata? with
  | none => .nil
  | some m => .map m

variable [Hasher]

/-- The same value with new metadata merged over what it has. -/
def withMetadata (v : Value) (new : Map Metadata Value Value) : Except Fault Value :=
  match v with
  | .symbol s => .ok (.symbol { s with metadata := some (.over new s.metadata) })
  | .list l => .ok (.list { l with metadata := some (.over new l.metadata) })
  | .vector v => .ok (.vector { v with metadata := some (.over new v.metadata) })
  | .map m => .ok (.map { m with metadata := some (.over new m.metadata) })
  | .set s => .ok (.set { s with metadata := some (.over new s.metadata) })
  | v => .error (.unsupported "with-meta" v.kind)

end Value

end Persistent
