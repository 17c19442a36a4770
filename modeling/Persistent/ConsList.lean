import Persistent.Fault
import Persistent.Text

/-!
Persistent linked lists with metadata. The head is the place of every change.
-/

set_option autoImplicit false

namespace Persistent

structure ConsList (μ α : Type) where
  items : List α := []
  metadata : Option μ := none

namespace ConsList

variable {μ α : Type}

def ofList (xs : List α) : ConsList μ α :=
  { items := xs }

def size (l : ConsList μ α) : Nat :=
  l.items.length

def isEmpty (l : ConsList μ α) : Bool :=
  l.items.isEmpty

def push (l : ConsList μ α) (x : α) : ConsList μ α :=
  { l with items := x :: l.items }

def pushAll (l : ConsList μ α) (xs : List α) : ConsList μ α :=
  xs.foldl push l

def peek? (l : ConsList μ α) : Option α :=
  l.items.head?

def pop (l : ConsList μ α) : Except Fault (ConsList μ α) :=
  match l.items with
  | [] => .error (.underflow "list")
  | _ :: items => .ok { l with items }

/-- Metadata has no part in equality. -/
instance [BEq α] : BEq (ConsList μ α) where
  beq l k := l.items == k.items

def text (element : α → String) (l : ConsList μ α) : String :=
  Text.enclosed "(" " " ")" (l.items.map element)

def listing (element : α → String) (l : ConsList μ α) : String :=
  Text.listing (l.items.map element)

/-- The counts of elements still to come, before each element and at the end. -/
def countsFrom (remaining : Nat) : List α → List Nat
  | [] => [remaining]
  | _ :: items => remaining :: countsFrom (remaining - 1) items

def counts (l : ConsList μ α) : List Nat :=
  countsFrom l.size l.items

end ConsList

end Persistent
