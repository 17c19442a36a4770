import Persistent.ConsList
import Persistent.Map.Entry
import Persistent.Name
import Persistent.Seq.Basic
import Persistent.Set
import Persistent.Vector.Basic

/-!
The dynamic value: scalars, names, and the collections over values. Names and collections other
than sequences carry metadata, which is a map of values.
-/

set_option autoImplicit false

namespace Persistent

mutual

inductive Value where
  | nil
  | bool (b : Bool)
  | int (n : Int64)
  | str (s : String)
  | keyword (k : Keyword)
  | symbol (s : Symbol Metadata)
  | list (l : ConsList Metadata Value)
  | vector (v : Vector Metadata Value)
  | map (m : Map Metadata Value Value)
  | set (s : Set Metadata Value)
  | seq (s : Seq Value)

inductive Metadata where
  | of (entries : Map Metadata Value Value)

end

/-- The map that metadata is, which may itself have metadata. -/
def Metadata.map : Metadata → Map Metadata Value Value
  | .of entries => entries

namespace Value

instance : Inhabited Value := ⟨.nil⟩

def kind : Value → String
  | .nil => "nil"
  | .bool _ => "boolean"
  | .int _ => "integer"
  | .str _ => "string"
  | .keyword _ => "keyword"
  | .symbol _ => "symbol"
  | .list _ => "list"
  | .vector _ => "vector"
  | .map _ => "map"
  | .set _ => "set"
  | .seq _ => "seq"

def isNil : Value → Bool
  | .nil => true
  | _ => false

/-- Everything but nil and false counts as true. -/
def truthy : Value → Bool
  | .nil | .bool false => false
  | _ => true

def asInt? : Value → Option Int64
  | .int n => some n
  | _ => none

/-- An entry as a vector of two. -/
def ofEntry (e : Entry Value Value) : Value :=
  .vector (Vector.ofList [e.key, e.value])

def metadata? : Value → Option (Map Metadata Value Value)
  | .symbol s => s.metadata.map (·.map)
  | .list l => l.metadata.map (·.map)
  | .vector v => v.metadata.map (·.map)
  | .map m => m.metadata.map (·.map)
  | .set s => s.metadata.map (·.map)
  | _ => none

end Value

end Persistent
