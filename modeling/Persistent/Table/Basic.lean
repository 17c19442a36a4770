import Persistent.Trie.Basic

/-!
Tables of distinct keys: a hash trie whose root is a branch, absent when nothing is stored, with
the number of entries kept beside it.
-/

set_option autoImplicit false

namespace Persistent

structure Table (K V : Type) where
  root : Option (Trie K V) := none
  size : Nat := 0

namespace Table

variable {K V : Type}

def isEmpty (t : Table K V) : Bool :=
  t.size == 0

def toList (t : Table K V) : List (K × V) :=
  match t.root with
  | none => []
  | some root => root.toList

def keys (t : Table K V) : List K :=
  t.toList.map (·.1)

def values (t : Table K V) : List V :=
  t.toList.map (·.2)

/-- The stored key equal to `key`, with its value. -/
def find? [BEq K] [Hashable K] (t : Table K V) (key : K) : Option (K × V) :=
  t.root.bind (·.find? (hash key) (key == ·) 0)

def get? [BEq K] [Hashable K] (t : Table K V) (key : K) : Option V :=
  (t.find? key).map (·.2)

def contains [BEq K] [Hashable K] (t : Table K V) (key : K) : Bool :=
  (t.find? key).isSome

/-- Binds `key` to `value`; a key that is already stored stays the stored one. -/
def insert [BEq K] [Hashable K] (t : Table K V) (key : K) (value : V) : Table K V :=
  let (root, fresh) := (t.root.getD (.branch 0 [])).insert (hash key) key value 0
  { root := some root, size := if fresh then t.size + 1 else t.size }

def insertAll [BEq K] [Hashable K] (t : Table K V) (entries : List (K × V)) : Table K V :=
  entries.foldl (fun t e => t.insert e.1 e.2) t

def ofList [BEq K] [Hashable K] (entries : List (K × V)) : Table K V :=
  ({} : Table K V).insertAll entries

/-- A key that is not stored leaves the table as it is. -/
def erase [BEq K] [Hashable K] (t : Table K V) (key : K) : Table K V :=
  match t.root.bind (·.erase (hash key) (key == ·) 0) with
  | none => t
  | some rest => if t.size - 1 = 0 then {} else { root := rest, size := t.size - 1 }

def eraseAll [BEq K] [Hashable K] (t : Table K V) (keys : List K) : Table K V :=
  keys.foldl erase t

/-- The same table with its entries replaced, in order, by those given. -/
def refill (t : Table K V) (entries : List (K × V)) : Table K V :=
  { t with root := t.root.map (·.refill entries |>.1) }

/-- Same size, and every entry of the left table has an equal value in the right one. -/
def equal [BEq K] [Hashable K] [BEq V] (s t : Table K V) : Bool :=
  s.size == t.size && s.toList.all fun e =>
    match t.get? e.1 with
    | none => false
    | some value => value == e.2

end Table

end Persistent
