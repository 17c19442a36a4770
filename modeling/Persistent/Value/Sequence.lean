import Persistent.Table.Cursor
import Persistent.Text.Cursor
import Persistent.Value.Observe
import Persistent.Vector.Cursor

/-!
Every collection as a sequence: lists share their tails, vectors, maps, sets and strings become
lazy sequences, maps of their entries as vectors of two, strings of their characters as strings.
-/

set_option autoImplicit false

namespace Persistent

/-- A computation on values that may look at lazy cells and may fail. -/
abbrev Action (β : Type) : Type :=
  ExceptT Fault (Demand Value) β

namespace Value

def unsupported {β : Type} (operation : String) (v : Value) : Action β :=
  throw (.unsupported operation v.kind)

def ofChar (c : Char) : Value :=
  .str c.toString

def charAt? (s : String) (index : Int64) : Option Value :=
  if index < 0 then none else (s.toList[index.toNatClampNeg]?).map ofChar

/-- A map as a sequence of its entries. -/
def mapSeq (m : Map Metadata Value Value) : Demand Value (Seq Value) :=
  if m.isEmpty then return .nil
  else Seq.lazily (Source.ofArray (m.drain.toList.map fun e => ofEntry ⟨e.1, e.2⟩).toArray)

def setSeq (s : Set Metadata Value) : Demand Value (Seq Value) :=
  if s.isEmpty then return .nil
  else Seq.lazily (Source.ofArray (s.drain.toList.map (·.1)).toArray)

def vectorSeq (v : Vector Metadata Value) : Demand Value (Seq Value) :=
  if v.isEmpty then return .nil else Seq.lazily v.get?

def stringSeq (s : String) : Demand Value (Seq Value) :=
  if s.isEmpty then return .nil
  else Seq.lazily (Source.ofArray (({ text := s } : Text.Cursor).toList.map ofChar).toArray)

/-- The sequence over a value, before its first cell is looked at. -/
def asSeq (v : Value) : Action (Seq Value) :=
  match v with
  | .nil => return .nil
  | .list l => return Seq.ofList l.items
  | .vector v => (vectorSeq v : Demand Value (Seq Value))
  | .set s => (setSeq s : Demand Value (Seq Value))
  | .seq s => return s
  | .map m => (mapSeq m : Demand Value (Seq Value))
  | .str s => (stringSeq s : Demand Value (Seq Value))
  | v => unsupported "seq" v

/-- The sequence over a value, none when it is empty. Looks at the first cell. -/
def seq? (v : Value) : Action (Option (Seq Value)) := do
  let s ← v.asSeq
  return if ← s.isEmpty then none else some s

/-- As `seq?`, an empty sequence in place of none. -/
def seqOrEmpty (v : Value) : Action (Seq Value) := do
  return (← v.seq?).getD .nil

def first (v : Value) : Action Value := do
  return (← (← v.seqOrEmpty).first?).getD .nil

/-- What follows the first item; an empty sequence where nothing follows. -/
def rest (v : Value) : Action Value := do
  return .seq (← (← v.seqOrEmpty).rest)

/-- What follows the first item, nil where nothing follows. Looks at the second cell as well. -/
def next (v : Value) : Action Value := do
  let rest ← (← v.seqOrEmpty).rest
  return if ← rest.isEmpty then .nil else .seq rest

def count (fuel : Nat) (v : Value) : Action Nat :=
  match v with
  | .nil => return 0
  | .str s => return s.length
  | .list l => return l.size
  | .vector v => return v.size
  | .map m => return m.size
  | .set s => return s.size
  | .seq s => (s.count fuel : Demand Value Nat)
  | v => unsupported "count" v

/-- The item at a position, if the value has positions and this one. -/
def item? (v : Value) (index : Int64) : Action (Option Value) :=
  match v with
  | .nil => return none
  | .vector v => return if index < 0 then none else v.get? index.toNatClampNeg
  | .list l => return if index < 0 then none else l.items[index.toNatClampNeg]?
  | .seq s => do if index < 0 then return none else s.get? index.toNatClampNeg
  | .str s => return charAt? s index
  | v => unsupported "nth" v

/-- The item at a position. Without a default, a position out of range is a fault. -/
def nth (fuel : Nat) (v : Value) (index : Int64) (default : Option Value) : Action Value := do
  match ← v.item? index, default with
  | some x, _ => return x
  | none, some x => return x
  | none, none => throw (.indexOutOfRange index (← v.count fuel))

end Value

end Persistent
