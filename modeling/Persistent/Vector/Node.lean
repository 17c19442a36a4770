/-!
The nodes of a vector: leaves of up to 32 elements under interior nodes of up to 32 children, all
leaves at one depth. Index and height say which child to follow.
-/

set_option autoImplicit false

namespace Persistent

inductive Node (α : Type) where
  | leaf (items : List α)
  | interior (children : List (Node α))

namespace Node

variable {α : Type}

/-- Which child of a node at `height` an index belongs to. Leaves are at height zero. -/
def bucket (index height : Nat) : Nat :=
  (index >>> (5 * height)) % 32

mutual

def toList : Node α → List α
  | .leaf items => items
  | .interior children => childrenToList children

def childrenToList : List (Node α) → List α
  | [] => []
  | child :: children => child.toList ++ childrenToList children

end

/-- A single path of the given height down to one element. -/
def spine (x : α) : Nat → Node α
  | 0 => .leaf [x]
  | height + 1 => .interior [spine x height]

mutual

/-- Stores `x` at `index`. An index one past the last element appends, and creates the path that
is missing below this node. -/
def set (x : α) (index : Nat) : Nat → Node α → Node α
  | _, .leaf items =>
    if index % 32 < items.length then .leaf (items.set (index % 32) x) else .leaf (items ++ [x])
  | height, .interior children => .interior (setAt x index height (bucket index height) children)

def setAt (x : α) (index : Nat) : Nat → Nat → List (Node α) → List (Node α)
  | height, _, [] => [spine x (height - 1)]
  | height, 0, child :: children => child.set x index (height - 1) :: children
  | height, n + 1, child :: children => child :: setAt x index height n children

end

def isEmpty : Node α → Bool
  | .leaf items => items.isEmpty
  | .interior children => children.isEmpty

mutual

/-- Removes the last element. -/
def pop : Node α → Node α
  | .leaf items => .leaf items.dropLast
  | .interior children => .interior (popLast children)

/-- Removes the last element of the last child, and the child with it if nothing remains. -/
def popLast : List (Node α) → List (Node α)
  | [] => []
  | [child] => if child.pop.isEmpty then [] else [child.pop]
  | child :: next :: children => child :: popLast (next :: children)

end

mutual

/-- The elements of the leaf that holds `index`. -/
def leaf? (index : Nat) : Nat → Node α → Option (List α)
  | _, .leaf items => some items
  | height, .interior children => leafAt? index height (bucket index height) children

def leafAt? (index : Nat) : Nat → Nat → List (Node α) → Option (List α)
  | _, _, [] => none
  | 0, 0, _ :: _ => none
  | height + 1, 0, child :: _ => child.leaf? index height
  | height, n + 1, _ :: children => leafAt? index height n children

end

end Node

end Persistent
