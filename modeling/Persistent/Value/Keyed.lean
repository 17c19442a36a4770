import Persistent.Value.Sequence

/-!
Lookup by key, and the changes that go through keys. A key is realized before it is hashed, so
every key of a map and every element of a set is known. An empty table is searched without a look
at the key.
-/

set_option autoImplicit false

namespace Persistent

namespace Value

/-- The key as a table is searched for it. -/
def searchKey {V : Type} (fuel : Nat) (t : Table Value V) (key : Value) : Demand Value Value :=
  if t.isEmpty then return key else key.realize fuel

variable [Hasher]

/-- What a value holds under a known key. -/
def find? : Value → Value → Option Value
  | .map m, key => m.get? key
  | .set s, key => s.get? key
  | .vector v, .int index => v.lookup? index
  | .str s, .int index => charAt? s index
  | _, _ => none

/-- The key as a value is searched for it. -/
def lookupKey (fuel : Nat) (coll key : Value) : Demand Value Value :=
  match coll with
  | .map m => searchKey fuel m.toTable key
  | .set s => searchKey fuel s.toTable key
  | _ => return key

/-- What a value holds under a key, else the default, else nil. No value is without lookup. -/
def get (fuel : Nat) (coll key : Value) (default : Option Value) : Demand Value Value := do
  let key ← lookupKey fuel coll key
  return (coll.find? key).getD (default.getD .nil)

def contains (fuel : Nat) (coll key : Value) : Action Bool := do
  let key ← lookupKey fuel coll key
  match coll, key with
  | .nil, _ => return false
  | .map m, key => return m.contains key
  | .set s, key => return s.contains key
  | .vector v, .int index => return v.contains index
  | .vector _, _ => return false
  | coll, _ => unsupported "contains" coll

def invalidKey {β : Type} (fuel : Nat) (kind : String) (key : Value) : Action β := do
  throw (.invalidKey kind (← key.print {} fuel))

/-- Binds a key. Nil stands for an empty map. -/
def assoc (fuel : Nat) (coll key value : Value) : Action Value := do
  match coll with
  | .nil => return .map (({} : Map Metadata Value Value).insert (← key.realize fuel) value)
  | .map m => return .map (m.insert (← key.realize fuel) value)
  | .vector v =>
    match key with
    | .int index => return .vector (← v.set index value)
    | key => invalidKey fuel "vector" key
  | coll => unsupported "assoc" coll

def dissoc (fuel : Nat) (coll key : Value) : Action Value := do
  match coll with
  | .nil => return .nil
  | .map m => return .map (m.erase (← searchKey fuel m.toTable key))
  | coll => unsupported "dissoc" coll

/-- Adds an item where the collection grows: lists and sequences in front, vectors at the end. A
map takes a vector of a key and a value, or another map. -/
def conj (fuel : Nat) (coll item : Value) : Action Value := do
  match coll with
  | .nil => return .list (ConsList.ofList [item])
  | .list l => return .list (l.push item)
  | .vector v => return .vector (v.push item)
  | .set s => return .set (s.insert (← item.realize fuel))
  | .seq s => return .seq (.cons item s)
  | .map m =>
    match item with
    | .vector pair =>
      match pair.toList with
      | [key, value] => return .map (m.insert (← key.realize fuel) value)
      | _ => invalidKey fuel "map" item
    | .map n => return .map (m.merge n)
    | item => invalidKey fuel "map" item
  | coll => unsupported "conj" coll

def disj (fuel : Nat) (coll item : Value) : Action Value := do
  match coll with
  | .nil => return .nil
  | .set s => return .set (s.erase (← searchKey fuel s.toTable item))
  | coll => unsupported "disj" coll

def isCallable : Value → Bool
  | .map _ | .set _ | .vector _ | .keyword _ => true
  | _ => false

/-- Calls a value on an argument. Maps look the argument up, keywords look themselves up in it,
and vectors index by it. A set answers its own element or nil, whatever the default. -/
def call (fuel : Nat) (f argument : Value) (default : Option Value) : Action Value := do
  match f with
  | .map _ => f.get fuel argument default
  | .set _ => f.get fuel argument none
  | .keyword _ => argument.get fuel f default
  | .vector v =>
    match argument with
    | .int index =>
      match v.lookup? index with
      | some x => return x
      | none => throw (.indexOutOfRange index v.size)
    | argument => invalidKey fuel "vector" argument
  | f => unsupported "call" f

/-- Inserts pairs from left to right, each key realized as it is reached. -/
def insertPairs (fuel : Nat) (m : Map Metadata Value Value) :
    List (Value × Value) → Demand Value (Map Metadata Value Value)
  | [] => return m
  | e :: entries => do insertPairs fuel (m.insert (← e.1.realize fuel) e.2) entries

/-- Inserts items from left to right. Of two equal items the first stays. -/
def insertItems (fuel : Nat) (s : Set Metadata Value) :
    List Value → Demand Value (Set Metadata Value)
  | [] => return s
  | x :: items => do insertItems fuel (s.insertAll [← x.realize fuel]) items

/-- Erases keys from left to right. Keys behind the last entry erased are not looked at. -/
def eraseKeys {V : Type} (fuel : Nat) (t : Table Value V) :
    List Value → Demand Value (Table Value V)
  | [] => return t
  | key :: keys => do eraseKeys fuel (t.erase (← searchKey fuel t key)) keys

def hashMap (fuel : Nat) (entries : List (Value × Value)) : Demand Value Value := do
  return .map (← insertPairs fuel {} entries)

def hashSet (fuel : Nat) (items : List Value) : Demand Value Value := do
  return .set (← insertItems fuel {} items)

end Value

end Persistent
