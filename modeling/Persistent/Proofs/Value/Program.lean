import Mathlib.Data.Nat.Notation
import Persistent.Value.Collection
import Persistent.Value.Comparison

/-!
Programs over values. Each step builds a value from those built before, or looks at one, and may
fail or run out of fuel. All cells live in one store, which starts empty.
-/

set_option autoImplicit false

namespace Persistent.Value

/-- The store, and the values built so far. -/
structure World where
  store : Store Value := {}
  values : List Value := []

/-- The value at a place; nil where there is none. -/
def World.value (w : World) (i : ℕ) : Value :=
  w.values.getD i .nil

/-- A step names the values it reads by their places. -/
inductive Step where
  | nil
  | bool (b : Bool)
  | int (n : Int64)
  | str (s : String)
  | keyword (k : Keyword)
  | symbol (s : Symbol Metadata)
  | list (items : List ℕ)
  | vector (items : List ℕ)
  | hashMap (entries : List (ℕ × ℕ))
  | hashSet (items : List ℕ)
  /-- A lazy sequence over a source that answers each call with a value, or ends. -/
  | lazy (answer : ℕ → Option ℕ)
  | assoc (coll key value : ℕ)
  | assocAll (coll : ℕ) (entries : List (ℕ × ℕ))
  | dissoc (coll key : ℕ)
  | dissocAll (coll : ℕ) (keys : List ℕ)
  | conj (coll item : ℕ)
  | conjAll (coll : ℕ) (items : List ℕ)
  | disj (coll item : ℕ)
  | disjAll (coll : ℕ) (items : List ℕ)
  | union (s t : ℕ)
  | inter (s t : ℕ)
  | diff (s t : ℕ)
  | pop (coll : ℕ)
  | withMetadata (v metadata : ℕ)
  /-- What follows the first cell of a sequence. -/
  | tail (v : ℕ)
  /-- The value with every lazy cell in it looked at. -/
  | realize (v : ℕ)
  /-- The outcome of a comparison. -/
  | equal (v w : ℕ)

/-- An operation on two sets. -/
def combine (operation : String)
    (f : Set Metadata Value → Set Metadata Value → Set Metadata Value) :
    Value → Value → Action Value
  | .set s, .set t => return .set (f s t)
  | v, _ => unsupported operation v

variable [Hasher]

/-- What a step does, given the values it may read. -/
def Step.act (fuel : ℕ) (value : ℕ → Value) : Step → Action Value
  | .nil => return .nil
  | .bool b => return .bool b
  | .int n => return .int n
  | .str s => return .str s
  | .keyword k => return .keyword k
  | .symbol s => return .symbol s
  | .list items => return .list (ConsList.ofList (items.map value))
  | .vector items => return .vector (Vector.ofList (items.map value))
  | .hashMap entries => Value.hashMap fuel (entries.map fun e => (value e.1, value e.2))
  | .hashSet items => Value.hashSet fuel (items.map value)
  | .lazy answer => return .seq (← Seq.lazily fun k => (answer k).map value)
  | .assoc coll key x => (value coll).assoc fuel (value key) (value x)
  | .assocAll coll entries =>
    match value coll with
    | .map m => return .map (← insertPairs fuel m (entries.map fun e => (value e.1, value e.2)))
    | coll => unsupported "assoc" coll
  | .dissoc coll key => (value coll).dissoc fuel (value key)
  | .dissocAll coll keys =>
    match value coll with
    | .map m => return .map { m with toTable := ← eraseKeys fuel m.toTable (keys.map value) }
    | coll => unsupported "dissoc" coll
  | .conj coll item => (value coll).conj fuel (value item)
  | .conjAll coll items => (value coll).conjAll fuel (items.map value)
  | .disj coll item => (value coll).disj fuel (value item)
  | .disjAll coll items =>
    match value coll with
    | .set s => return .set { s with toTable := ← eraseKeys fuel s.toTable (items.map value) }
    | coll => unsupported "disj" coll
  | .union s t => combine "union" Set.union (value s) (value t)
  | .inter s t => combine "intersection" Set.inter (value s) (value t)
  | .diff s t => combine "difference" Set.diff (value s) (value t)
  | .pop coll => (value coll).pop
  | .withMetadata v metadata =>
    match value metadata with
    | .map m => (value v).withMetadata m
    | metadata => unsupported "with-meta" metadata
  | .tail v =>
    match value v with
    | .seq s => return .seq (← s.rest)
    | v => unsupported "rest" v
  | .realize v => (value v).realize fuel
  | .equal v w => return .bool (← Value.equal fuel (value v) (value w))

/-- A step that fails builds nothing, and a step without enough fuel does nothing. -/
def step (w : World) (s : Step) (fuel : ℕ) : World :=
  match (s.act fuel w.value).run w.store with
  | none => w
  | some (.error _, store) => { w with store }
  | some (.ok v, store) => { store, values := w.values ++ [v] }

def run (steps : List (Step × ℕ)) : World :=
  steps.foldl (fun w s => step w s.1 s.2) {}

end Persistent.Value
