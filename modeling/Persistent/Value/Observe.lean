import Persistent.Value.Print

/-!
Looking at values. Printing looks at what its options show and at no more: `observe` answers the
value with every sequence cut behind the last cell that printing meets, and that value is rendered.
Realizing a value looks at all of it, metadata apart.
-/

set_option autoImplicit false

namespace Persistent

namespace Value

/-- Replaces the items that the options show. -/
def observeShown {α : Type} (opts : PrintOptions) (look : α → Demand Value α) (xs : List α) :
    Demand Value (List α) := do
  let seen ← (opts.shown xs).mapM look
  return seen ++ xs.drop seen.length

def observeEntries (opts : PrintOptions) (look : Value → Demand Value Value)
    (m : Map Metadata Value Value) : Demand Value (Map Metadata Value Value) := do
  let entries ← observeShown opts (fun e => return (← look e.1, ← look e.2)) m.toList
  return { m with toTable := m.toTable.refill entries }

/-- The items of a sequence that printing meets: one more than it shows. -/
def observeItems (opts : PrintOptions) (fuel : Nat) (s : Seq Value) : Demand Value (List Value) :=
  match opts.length with
  | none => s.toList fuel
  | some n => s.take (n + 1)

/-- Metadata as printing meets it. -/
def observeMetadata (opts : PrintOptions) (depth : Nat) (look : Value → Demand Value Value)
    (metadata : Option Metadata) : Demand Value (Option Metadata) :=
  match metadata with
  | none => return none
  | some (.of m) =>
    if !opts.metadata || opts.hides depth then return some (.of m)
    else return some (.of (← observeEntries opts look m))

/-- The value with every sequence that the options show cut to the cells that printing meets. -/
def observe (opts : PrintOptions) : Nat → Nat → Value → Demand Value Value
  | 0, _, _ => .exhausted
  | fuel + 1, depth, v => do
    let look := observe opts fuel (depth + 1)
    let hidden := opts.hides depth
    match v with
    | .symbol s =>
      return .symbol { s with metadata := ← observeMetadata opts depth look s.metadata }
    | .list l =>
      let metadata ← observeMetadata opts depth look l.metadata
      let items ← if hidden then pure l.items else observeShown opts look l.items
      return .list { items, metadata }
    | .vector v =>
      let metadata ← observeMetadata opts depth look v.metadata
      if hidden then return .vector { v with metadata }
      let items ← observeShown opts look v.toList
      return .vector { (Vector.ofList items : Vector Metadata Value) with metadata }
    | .set s =>
      let metadata ← observeMetadata opts depth look s.metadata
      if hidden then return .set { s with metadata }
      let items ← observeShown opts look s.elements
      return .set { s with toTable := s.toTable.refill (items.map (·, ())), metadata }
    | .map m =>
      let metadata ← observeMetadata opts depth look m.metadata
      if hidden then return .map { m with metadata }
      return .map { (← observeEntries opts look m) with metadata }
    | .seq s =>
      if hidden then return .seq s
      let items ← observeItems opts fuel s
      return .seq (s.refill (← observeShown opts look items))
    | v => return v

/-- The value with every lazy cell in it looked at. Metadata stays as it is. -/
def realize (fuel : Nat) (v : Value) : Demand Value Value :=
  observe {} fuel 0 v

/-- The printed text. -/
def print (opts : PrintOptions) (fuel : Nat) (v : Value) : Demand Value String := do
  return (← observe opts fuel 0 v).render opts 0

end Value

end Persistent
