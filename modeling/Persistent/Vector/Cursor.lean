import Persistent.Vector.Basic

/-!
Walking a vector one element at a time, in two ways. A slice cursor borrows the vector: it holds
the leaf it stands in, and fetches the next one at each multiple of 32. A drain owns the vector
and looks every element up by its index. A subvector is what a slice cursor yields.
-/

set_option autoImplicit false

namespace Persistent

namespace Vector

variable {μ α : Type}

structure Cursor (μ α : Type) where
  source : Vector μ α
  index : Nat
  stop : Nat
  chunk : List α := []

namespace Cursor

/-- The walk over the positions from `start` up to `stop`, none of them behind the vector. -/
def ofRange (v : Vector μ α) (start stop : Nat) : Cursor μ α :=
  { source := v, index := start, stop := min stop v.size }

def remaining (c : Cursor μ α) : Nat :=
  c.stop - c.index

def next? (c : Cursor μ α) : Option (α × Cursor μ α) :=
  if c.stop ≤ c.index then none
  else
    let fetched :=
      if c.index % 32 = 0 ∨ c.chunk.isEmpty then c.source.leaf? c.index else some c.chunk
    match fetched with
    | none => none
    | some chunk =>
      match chunk[c.index % 32]? with
      | none => none
      | some x => some (x, { c with index := c.index + 1, chunk })

theorem remaining_next? {c d : Cursor μ α} {x : α} (h : c.next? = some (x, d)) :
    d.remaining < c.remaining := by
  grind [next?, remaining]

/-- Every element still to come. -/
def toList (c : Cursor μ α) : List α :=
  match h : c.next? with
  | none => []
  | some (x, d) =>
    have := remaining_next? h
    x :: d.toList
termination_by c.remaining

/-- The counts reported before each element and at the end. -/
def counts (c : Cursor μ α) : List Nat :=
  match h : c.next? with
  | none => [c.remaining]
  | some (_, d) =>
    have := remaining_next? h
    c.remaining :: d.counts
termination_by c.remaining

end Cursor

structure Drain (μ α : Type) where
  source : Vector μ α
  index : Nat := 0

namespace Drain

def remaining (d : Drain μ α) : Nat :=
  d.source.size - d.index

def next? (d : Drain μ α) : Option (α × Drain μ α) :=
  match d.source.get? d.index with
  | none => none
  | some x => some (x, { d with index := d.index + 1 })

theorem remaining_next? {d e : Drain μ α} {x : α} (h : d.next? = some (x, e)) :
    e.remaining < d.remaining := by
  grind [next?, remaining, get?, leaf?]

/-- Every element still to come. -/
def toList (d : Drain μ α) : List α :=
  match h : d.next? with
  | none => []
  | some (x, e) =>
    have := remaining_next? h
    x :: e.toList
termination_by d.remaining

/-- The counts reported before each element and at the end. -/
def counts (d : Drain μ α) : List Nat :=
  match h : d.next? with
  | none => [d.remaining]
  | some (_, e) =>
    have := remaining_next? h
    d.remaining :: e.counts
termination_by d.remaining

end Drain

def cursor (v : Vector μ α) : Cursor μ α :=
  .ofRange v 0 v.size

def drain (v : Vector μ α) : Drain μ α :=
  { source := v }

/-- One end of a range of positions. -/
inductive Bound where
  | unbounded
  | included (position : UInt64)
  | excluded (position : UInt64)

namespace Bound

/-- The successor of a word, or the greatest word. -/
def successor (n : UInt64) : UInt64 :=
  if n = 0xffffffffffffffff then n else n + 1

def start : Bound → Nat
  | .unbounded => 0
  | .included position => position.toNat
  | .excluded position => (successor position).toNat

def stop (size : Nat) : Bound → Nat
  | .unbounded => size
  | .included position => (successor position).toNat
  | .excluded position => position.toNat

end Bound

/-- The elements between two bounds as a vector of their own, with the metadata of `v`. -/
def subvec (v : Vector μ α) (low high : Bound) : Vector μ α :=
  let items := (Cursor.ofRange v low.start (high.stop v.size)).toList
  { (ofList items : Vector μ α) with metadata := v.metadata }

end Vector

end Persistent
