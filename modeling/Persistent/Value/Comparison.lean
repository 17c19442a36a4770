import Persistent.Value.Observe

/-!
Equality of values with lazy cells in them. It looks at two sequences in step and stops at the
first difference. The hash of a value looks at all of it.
-/

set_option autoImplicit false

namespace Persistent

namespace Value

/-- A list, a vector or a sequence as a sequence to walk. -/
def sequence? : Value → Option (Seq Value)
  | .list l => some (.ofList l.items)
  | .vector v => some (.ofList v.toList)
  | .seq s => some s
  | _ => none

variable [Hasher]

/-- Two maps have the same keys, with equal values under each. -/
def equalEntries (same : Value → Value → Demand Value Bool) (n : Map Metadata Value Value) :
    List (Value × Value) → Demand Value Bool
  | [] => return true
  | e :: entries => do
    match n.get? e.1 with
    | none => return false
    | some value => if ← same value e.2 then equalEntries same n entries else return false

/-- Equality that looks at lazy cells only as far as it needs to. Two lists, and two vectors, of
different sizes are unequal without a look at their items. -/
def equal : Nat → Value → Value → Demand Value Bool
  | 0, _, _ => .exhausted
  | fuel + 1, a, b =>
    match a, b with
    | .map m, .map n =>
      if m.size != n.size then return false else equalEntries (equal fuel) n m.toList
    | .list l, .list k =>
      if l.size != k.size then return false
      else Seq.equal (equal fuel) fuel (.ofList l.items) (.ofList k.items)
    | .vector v, .vector w =>
      if v.size != w.size then return false
      else Seq.equal (equal fuel) fuel (.ofList v.toList) (.ofList w.toList)
    | a, b =>
      match a.sequence?, b.sequence? with
      | some s, some t => Seq.equal (equal fuel) fuel s t
      | none, none => return a == b
      | _, _ => return false

/-- The hash of a value, all of it looked at. -/
def demandHash (fuel : Nat) (v : Value) : Demand Value UInt64 := do
  return hash (← v.realize fuel)

end Value

end Persistent
