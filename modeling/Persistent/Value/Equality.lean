import Persistent.Value.Size

/-!
Equality and hash of values that are known, as keys of maps and elements of sets are. Lists,
vectors and sequences with equal items are equal and hash alike. Maps and sets are compared by
looking the parts of one up in the other. Metadata has no part in either. A lazy cell that has not
been looked at stands for itself.
-/

set_option autoImplicit false

namespace Persistent

namespace Value

/-- The items of a list, a vector or a sequence, with the lazy cell behind them. -/
def spine? : Value → Option (List Value × Option Nat)
  | .list l => some (l.items, none)
  | .vector v => some (v.toList, none)
  | .seq s => some (s.known, s.pending?)
  | _ => none

theorem sizeOf_spine {v x : Value} {xs : List Value} {cell : Option Nat}
    (h : v.spine? = some (xs, cell)) (mem : x ∈ xs) : sizeOf x < sizeOf v := by
  cases v <;> simp only [spine?, Option.some.injEq, Prod.mk.injEq, reduceCtorEq] at h <;>
    obtain ⟨rfl, -⟩ := h
  · have := ConsList.sizeOf_mem mem; simp; omega
  · have := Vector.sizeOf_mem mem; simp; omega
  · have := Seq.sizeOf_mem mem; simp; omega

variable [Hasher]

/-- What a value feeds to a hash. -/
def words : Value → List UInt64
  | .nil => [0]
  | .bool b => [1, if b then 1 else 0]
  | .int n => [2, n.toUInt64]
  | .str s => 3 :: Hash.text s
  | .keyword k => 4 :: k.words
  | .symbol s => 5 :: s.words
  | .list l => 6 :: Hash.ordered (l.items.attach.map fun ⟨x, _⟩ => words x)
  | .vector v => 6 :: Hash.ordered (v.toList.attach.map fun ⟨x, _⟩ => words x)
  | .seq s =>
    6 :: Hash.ordered (s.known.attach.map fun ⟨x, _⟩ => words x) ++
      s.pending?.toList.map UInt64.ofNat
  | .map m => 7 :: Hash.unordered (m.toList.attach.map fun ⟨e, _⟩ => words e.1 ++ words e.2)
  | .set s => 8 :: Hash.unordered (s.elements.attach.map fun ⟨x, _⟩ => words x)
termination_by v => sizeOf v
decreasing_by
  · have := ConsList.sizeOf_mem ‹_›; simp; omega
  · have := Vector.sizeOf_mem ‹_›; simp; omega
  · have := Seq.sizeOf_mem ‹_›; simp; omega
  · have := Map.sizeOf_mem ‹_›; simp; omega
  · have := Map.sizeOf_mem ‹_›; simp; omega
  · have := Set.sizeOf_mem ‹_›; simp; omega

instance : Hashable Value where
  hash v := Hasher.digest v.words

def beq : Value → Value → Bool
  | .nil, .nil => true
  | .bool a, .bool b => a == b
  | .int a, .int b => a == b
  | .str a, .str b => a == b
  | .keyword a, .keyword b => a == b
  | .symbol a, .symbol b => a == b
  | .map m, .map n =>
    m.size == n.size && m.toList.attach.all fun ⟨e, _⟩ =>
      match n.root.bind (·.find? (hash e.1) (fun key => beq e.1 key) 0) with
      | none => false
      | some (_, value) => beq e.2 value
  | .set s, .set t =>
    s.size == t.size && s.elements.attach.all fun ⟨x, _⟩ =>
      (t.root.bind (·.find? (hash x) (fun y => beq x y) 0)).isSome
  | a, b =>
    match _h : a.spine?, b.spine? with
    | some (xs, i), some (ys, j) =>
      i == j && xs.length == ys.length && (xs.attach.zip ys).all fun (⟨x, _⟩, y) => beq x y
    | _, _ => false
termination_by a => sizeOf a
decreasing_by
  · have := Map.sizeOf_mem ‹_›; simp; omega
  · have := Map.sizeOf_mem ‹_›; simp; omega
  · have := Set.sizeOf_mem ‹_›; simp; omega
  · exact sizeOf_spine ‹_› ‹_›

instance : BEq Value where
  beq := beq

end Value

/-- New metadata merged over old; where there is no old, the new as it is. -/
def Metadata.over [Hasher] (new : Map Metadata Value Value) : Option Metadata → Metadata
  | none => .of new
  | some (.of old) => .of (old.merge new)

end Persistent
