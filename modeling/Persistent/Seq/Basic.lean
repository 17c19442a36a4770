import Persistent.Seq.Store
import Persistent.Text

/-!
Sequences: chains of realized cells, shared tails of linked lists, and lazy cells. Whatever looks
at a lazy cell may change the store, so those operations take it and answer it anew.
-/

set_option autoImplicit false

namespace Persistent

inductive Seq (α : Type) where
  | nil
  | cons (first : α) (rest : Seq α)
  | list (first : α) (rest : List α)
  | lazy (cell : Nat)

/-- A computation that may look at lazy cells. It has no result when it runs out of fuel. -/
abbrev Demand (α β : Type) : Type :=
  StateT (Store α) Option β

namespace Demand

/-- The result of a computation that cannot finish within its fuel. -/
def exhausted {α β : Type} : Demand α β :=
  fun _ => none

end Demand

namespace Seq

variable {α : Type}

/-- The items of a linked list, shared and not copied. -/
def ofList : List α → Seq α
  | [] => .nil
  | x :: xs => .list x xs

/-- A chain of realized cells. -/
def realized (xs : List α) : Seq α :=
  xs.foldr .cons .nil

/-- The sequence with its items replaced, in order, by those given. Known cells keep their form,
and what is behind a lazy cell becomes a chain of realized ones. -/
def refill : Seq α → List α → Seq α
  | .cons _ rest, x :: xs => .cons x (rest.refill xs)
  | .list _ _, x :: xs => .list x xs
  | _, xs => realized xs

/-- Looks at the first cell. -/
def uncons (s : Seq α) (st : Store α) : Option (α × Seq α) × Store α :=
  match s with
  | .nil => (none, st)
  | .cons x rest => (some (x, rest), st)
  | .list x rest => (some (x, ofList rest), st)
  | .lazy cell =>
    let (step, st) := st.force cell
    (step.map fun (x, next) => (x, .lazy next), st)

def look (s : Seq α) : Demand α (Option (α × Seq α)) :=
  fun st => some (s.uncons st)

/-- A sequence over a source that has not been called yet. -/
def lazily (answer : Nat → Option α) : Demand α (Seq α) :=
  fun st =>
    let (cell, st) := st.wrap answer
    some (.lazy cell, st)

def first? (s : Seq α) : Demand α (Option α) := do
  return (← s.look).map (·.1)

def isEmpty (s : Seq α) : Demand α Bool := do
  return (← s.look).isNone

/-- What follows the first cell; nothing follows the end. -/
def rest (s : Seq α) : Demand α (Seq α) := do
  match ← s.look with
  | none => return .nil
  | some (_, rest) => return rest

/-- The first items, up to `n` of them. No cell behind the last one taken is looked at. -/
def take : Nat → Seq α → Demand α (List α)
  | 0, _ => return []
  | n + 1, s => do
    match ← s.look with
    | none => return []
    | some (x, rest) => return x :: (← take n rest)

/-- The item at position `n`. -/
def get? : Nat → Seq α → Demand α (Option α)
  | 0, s => s.first?
  | n + 1, s => do
    match ← s.look with
    | none => return none
    | some (_, rest) => get? n rest

/-- All items. Each one takes a unit of fuel, and so does the end. -/
def toList : Nat → Seq α → Demand α (List α)
  | 0, _ => .exhausted
  | fuel + 1, s => do
    match ← s.look with
    | none => return []
    | some (x, rest) => return x :: (← toList fuel rest)

def count (fuel : Nat) (s : Seq α) : Demand α Nat := do
  return (← s.toList fuel).length

/-- Compares item by item, the left side looked at first and the right side only after it, up to
the first difference. When the left side ends, the right side is asked for one more item. -/
def equal (same : α → α → Demand α Bool) : Nat → Seq α → Seq α → Demand α Bool
  | 0, _, _ => .exhausted
  | fuel + 1, s, t => do
    match ← s.look with
    | none => return (← t.look).isNone
    | some (x, s) =>
      match ← t.look with
      | none => return false
      | some (y, t) => if ← same x y then equal same fuel s t else return false

/-- The items in front of the first lazy cell. -/
def known : Seq α → List α
  | .nil => []
  | .cons x rest => x :: rest.known
  | .list x rest => x :: rest
  | .lazy _ => []

/-- The lazy cell at the end of the known items. -/
def pending? : Seq α → Option Nat
  | .nil => none
  | .cons _ rest => rest.pending?
  | .list _ _ => none
  | .lazy cell => some cell

/-- Items yielded by the source of a lazy sequence, and calls made on it. -/
def pulls (s : Seq α) (st : Store α) : Option (Nat × Nat) :=
  (s.pending?.bind st.sourceOf?).map fun source => (source.yielded, source.calls)

def text (item : α → String) (fuel : Nat) (s : Seq α) : Demand α String := do
  return Text.enclosed "(" " " ")" ((← s.toList fuel).map item)

def listing (item : α → String) (fuel : Nat) (s : Seq α) : Demand α String := do
  return Text.listing ((← s.toList fuel).map item)

end Seq

end Persistent
