import Persistent.Hash
import Persistent.Table.Basic
import Persistent.Text

/-!
Persistent hash maps: tables that also carry metadata. Every operation keeps the metadata of the
map it is called on.
-/

set_option autoImplicit false

namespace Persistent

structure Map (μ K V : Type) extends Table K V where
  metadata : Option μ := none

namespace Map

variable {μ K V : Type} [BEq K] [Hashable K]

def insert (m : Map μ K V) (key : K) (value : V) : Map μ K V :=
  { m with toTable := m.toTable.insert key value }

def insertAll (m : Map μ K V) (entries : List (K × V)) : Map μ K V :=
  { m with toTable := m.toTable.insertAll entries }

def ofList (entries : List (K × V)) : Map μ K V :=
  ({} : Map μ K V).insertAll entries

def erase (m : Map μ K V) (key : K) : Map μ K V :=
  { m with toTable := m.toTable.erase key }

def eraseAll (m : Map μ K V) (keys : List K) : Map μ K V :=
  { m with toTable := m.toTable.eraseAll keys }

/-- Every entry of `n` inserted over `m`. -/
def merge (m n : Map μ K V) : Map μ K V :=
  m.insertAll n.toList

/-- Metadata has no part in equality. -/
instance [BEq V] : BEq (Map μ K V) where
  beq m n := m.toTable.equal n.toTable

omit [BEq K] [Hashable K] in
/-- What a map feeds to a hash, by what its keys and values feed. -/
def words [Hasher] (key : K → List UInt64) (value : V → List UInt64) (m : Map μ K V) :
    List UInt64 :=
  Hash.unordered (m.toList.map fun e => key e.1 ++ value e.2)

omit [BEq K] [Hashable K] in
def text (key : K → String) (value : V → String) (m : Map μ K V) : String :=
  Text.enclosed "\x7b" ", " "\x7d" (m.toList.map fun e => key e.1 ++ " " ++ value e.2)

omit [BEq K] [Hashable K] in
def listing (key : K → String) (value : V → String) (m : Map μ K V) : String :=
  Text.braced (m.toList.map fun e => key e.1 ++ ": " ++ value e.2)

end Map

end Persistent
