import Persistent.Table.Basic
import Persistent.Text

/-!
Persistent hash sets: tables from elements to nothing, with metadata. Of two equal elements the
one stored first stays. Every operation keeps the metadata of the set it is called on.
-/

set_option autoImplicit false

namespace Persistent

structure Set (μ α : Type) extends Table α Unit where
  metadata : Option μ := none

namespace Set

variable {μ α : Type}

def elements (s : Set μ α) : List α :=
  s.keys

variable [BEq α] [Hashable α]

/-- The stored element equal to `x`. -/
def get? (s : Set μ α) (x : α) : Option α :=
  (s.find? x).map (·.1)

def insert (s : Set μ α) (x : α) : Set μ α :=
  if s.contains x then s else { s with toTable := s.toTable.insert x () }

def insertAll (s : Set μ α) (xs : List α) : Set μ α :=
  { s with toTable := s.toTable.insertAll (xs.map (·, ())) }

def ofList (xs : List α) : Set μ α :=
  ({} : Set μ α).insertAll xs

def erase (s : Set μ α) (x : α) : Set μ α :=
  { s with toTable := s.toTable.erase x }

def eraseAll (s : Set μ α) (xs : List α) : Set μ α :=
  { s with toTable := s.toTable.eraseAll xs }

def isSubset (s t : Set μ α) : Bool :=
  s.size ≤ t.size && s.elements.all t.contains

def union (s t : Set μ α) : Set μ α :=
  s.insertAll t.elements

/-- Built afresh from the elements of `s` that `t` holds. -/
def inter (s t : Set μ α) : Set μ α :=
  { (ofList (s.elements.filter t.contains) : Set μ α) with metadata := s.metadata }

def diff (s t : Set μ α) : Set μ α :=
  s.eraseAll t.elements

/-- Metadata has no part in equality. -/
instance : BEq (Set μ α) where
  beq s t := s.toTable.equal t.toTable

omit [BEq α] [Hashable α] in
def text (element : α → String) (s : Set μ α) : String :=
  Text.enclosed "#\x7b" " " "\x7d" (s.elements.map element)

omit [BEq α] [Hashable α] in
def listing (element : α → String) (s : Set μ α) : String :=
  Text.braced (s.elements.map element)

end Set

end Persistent
