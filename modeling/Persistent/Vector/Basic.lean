import Persistent.Fault
import Persistent.Text
import Persistent.Vector.Node

/-!
Persistent vectors: a trie of nodes, its height, the number of elements, and metadata. Every
operation keeps the metadata of the vector it is called on.
-/

set_option autoImplicit false

namespace Persistent

structure Vector (μ α : Type) where
  root : Option (Node α) := none
  size : Nat := 0
  height : Nat := 0
  metadata : Option μ := none

namespace Vector

variable {μ α : Type}

def isEmpty (v : Vector μ α) : Bool :=
  v.size == 0

def toList (v : Vector μ α) : List α :=
  match v.root with
  | none => []
  | some root => root.toList

/-- The elements of the leaf that holds `index`. -/
def leaf? (v : Vector μ α) (index : Nat) : Option (List α) :=
  if index < v.size then v.root.bind (·.leaf? index v.height) else none

def get? (v : Vector μ α) (index : Nat) : Option α :=
  (v.leaf? index).bind (·[index % 32]?)

/-- The position that an index denotes. A negative index counts from the end. -/
def resolve (v : Vector μ α) (index : Int64) : Option Nat :=
  let size := Int64.ofNat v.size
  let position := if index < 0 then size + index else index
  if v.size < 0x8000000000000000 ∧ 0 ≤ position ∧ position < size then some position.toNatClampNeg
  else none

def lookup? (v : Vector μ α) (index : Int64) : Option α :=
  (v.resolve index).bind v.get?

def contains (v : Vector μ α) (index : Int64) : Bool :=
  (v.resolve index).isSome

def peek? (v : Vector μ α) : Option α :=
  if v.size = 0 then none else v.get? (v.size - 1)

/-- No element can be appended without a further level. -/
def isFull (v : Vector μ α) : Bool :=
  v.root.isNone || v.size == 1 <<< (5 * (v.height + 1))

/-- One more level. The new root has a single child until the next element is appended. -/
def addLevel (v : Vector μ α) : Vector μ α :=
  match v.root with
  | none => { v with root := some (.leaf []) }
  | some root => { v with root := some (.interior [root]), height := v.height + 1 }

def push (v : Vector μ α) (x : α) : Vector μ α :=
  let v := if v.isFull then v.addLevel else v
  { v with root := v.root.map (·.set x v.size v.height), size := v.size + 1 }

def pushAll (v : Vector μ α) (xs : List α) : Vector μ α :=
  xs.foldl push v

def ofList (xs : List α) : Vector μ α :=
  ({} : Vector μ α).pushAll xs

/-- Replaces the element that the index denotes, or appends at the index behind the last one. -/
def set (v : Vector μ α) (index : Int64) (x : α) : Except Fault (Vector μ α) :=
  if index.toInt = v.size then .ok (v.push x)
  else
    match v.resolve index with
    | none => .error (.indexOutOfRange index v.size)
    | some position => .ok { v with root := v.root.map (·.set x position v.height) }

/-- Sets from left to right. Each index meets the size that the pairs before it produced, and the
first one out of range ends the run. -/
def setAll (v : Vector μ α) : List (Int64 × α) → Except Fault (Vector μ α)
  | [] => .ok v
  | (index, x) :: pairs =>
    match v.set index x with
    | .error fault => .error fault
    | .ok v => v.setAll pairs

/-- The same as a fold of `set`. -/
def setEach (v : Vector μ α) (pairs : List (Int64 × α)) : Except Fault (Vector μ α) :=
  pairs.foldlM (fun v pair => v.set pair.1 pair.2) v

/-- Drops a level when the root has a single child, and the root when nothing remains. -/
def shrink (v : Vector μ α) : Vector μ α :=
  let v :=
    match v.root with
    | some (.interior [child]) => { v with root := some child, height := v.height - 1 }
    | _ => v
  if v.size = 0 then { v with root := none, height := 0 } else v

def pop (v : Vector μ α) : Except Fault (Vector μ α) :=
  if v.size = 0 then .error (.underflow "vector")
  else .ok (shrink { v with root := v.root.map Node.pop, size := v.size - 1 })

/-- Metadata has no part in equality. -/
instance [BEq α] : BEq (Vector μ α) where
  beq v w := v.size == w.size && v.toList == w.toList

def text (element : α → String) (v : Vector μ α) : String :=
  Text.enclosed "[" " " "]" (v.toList.map element)

def listing (element : α → String) (v : Vector μ α) : String :=
  Text.listing (v.toList.map element)

end Vector

end Persistent
