import Persistent.Value.Observe

/-!
The text of a collection as such: its items between brackets, each of them printed on its own when
the walk comes to it, whatever the collection is an item of.
-/

set_option autoImplicit false

namespace Persistent

/-- What is made of the items, of each one before the next is looked at. -/
def Seq.traverse {α β : Type} (make : α → Demand α β) : Nat → Seq α → Demand α (List β)
  | 0, _ => .exhausted
  | fuel + 1, s => do
    match ← s.look with
    | none => return []
    | some (x, rest) => return (← make x) :: (← traverse make fuel rest)

namespace Value

def displayEntry (fuel : Nat) (e : Value × Value) : Demand Value String := do
  return (← e.1.print {} fuel) ++ " " ++ (← e.2.print {} fuel)

/-- The text of a name or a collection, none of any other value. -/
def display (fuel : Nat) : Value → Demand Value (Option String)
  | .keyword k => return some k.text
  | .symbol s => return some s.text
  | .list l => return some (Text.enclosed "(" " " ")" (← l.items.mapM (print {} fuel)))
  | .seq s => return some (Text.enclosed "(" " " ")" (← s.traverse (print {} fuel) fuel))
  | .vector v => return some (Text.enclosed "[" " " "]" (← v.toList.mapM (print {} fuel)))
  | .set s => return some (Text.enclosed "#\x7b" " " "\x7d" (← s.elements.mapM (print {} fuel)))
  | .map m =>
    return some (Text.enclosed "\x7b" ", " "\x7d" (← m.toList.mapM (displayEntry fuel)))
  | _ => return none

end Value

end Persistent
