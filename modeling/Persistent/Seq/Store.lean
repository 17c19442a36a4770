/-!
Lazy cells. A source answers one call after another, each with an item or with its end. A cell
asks its source once, when it is first looked at, and remembers the answer; only then does the
cell behind it come to be. All cells and sources live in a store, and a sequence names its cell.
-/

set_option autoImplicit false

namespace Persistent

/-- A source of items, with the number of calls made on it. `answer k` is what call `k` gets. -/
structure Source (α : Type) where
  answer : Nat → Option α
  calls : Nat := 0

/-- A cell is pending until its step is known: an item with the cell behind it, or the end. -/
structure Cell (α : Type) where
  source : Nat
  step : Option (Option (α × Nat)) := none

structure Store (α : Type) where
  cells : Array (Cell α) := #[]
  sources : Array (Source α) := #[]

namespace Source

variable {α : Type}

def ofArray (items : Array α) : Nat → Option α :=
  fun k => items[k]?

/-- The items `item 0`, `item 1`, and so on, up to the limit if there is one. -/
def iterate (item : Nat → α) (limit : Option Nat) : Nat → Option α :=
  fun k => if limit.all (k < ·) then some (item k) else none

/-- The number of items that the calls made so far have yielded. -/
def yielded (s : Source α) : Nat :=
  (List.range s.calls).countP fun k => (s.answer k).isSome

end Source

namespace Store

variable {α : Type}

/-- A new source with one pending cell; answers the cell. -/
def wrap (st : Store α) (answer : Nat → Option α) : Nat × Store α :=
  (st.cells.size,
    { cells := st.cells.push { source := st.sources.size }
      sources := st.sources.push { answer } })

/-- Looks at a cell. A pending cell calls its source once. -/
def force (st : Store α) (cell : Nat) : Option (α × Nat) × Store α :=
  match st.cells[cell]? with
  | none => (none, st)
  | some c =>
    match c.step, st.sources[c.source]? with
    | some step, _ => (step, st)
    | none, none => (none, st)
    | none, some s =>
      let sources := st.sources.setIfInBounds c.source { s with calls := s.calls + 1 }
      match s.answer s.calls with
      | none =>
        (none, { cells := st.cells.setIfInBounds cell { c with step := some none }, sources })
      | some x =>
        let step := some (x, st.cells.size)
        let cells := st.cells.setIfInBounds cell { c with step := some step }
        (step, { cells := cells.push { source := c.source }, sources })

/-- The source behind a cell. -/
def sourceOf? (st : Store α) (cell : Nat) : Option (Source α) :=
  st.cells[cell]?.bind fun c => st.sources[c.source]?

end Store

end Persistent
