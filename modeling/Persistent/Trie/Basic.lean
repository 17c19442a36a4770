/-!
Hash tries. An entry sits at the end of a path spelled by five-bit fragments of its 64-bit hash,
least significant fragment first. A branch keeps only its occupied slots, in fragment order, and
a bit set says which they are. Entries whose hashes agree in all bits share a collision node.
-/

set_option autoImplicit false

namespace Persistent

inductive Trie (K V : Type) where
  | entry (hash : UInt64) (key : K) (value : V)
  | branch (bits : BitVec 32) (slots : List (Trie K V))
  | collision (hash : UInt64) (entries : List (K × V))

namespace Trie

variable {K V : Type}

/-- The five bits of a hash that a node at `shift` reads. Past bit 64 every fragment is zero. -/
def fragment (hash : UInt64) (shift : Nat) : Nat :=
  (hash.toNat >>> shift) % 32

/-- Where the slot of fragment `i` stands among the occupied slots. -/
def rank (bits : BitVec 32) (i : Nat) : Nat :=
  (List.range i).countP bits.getLsbD

def occupy (bits : BitVec 32) (i : Nat) : BitVec 32 :=
  bits ||| BitVec.twoPow 32 i

def vacate (bits : BitVec 32) (i : Nat) : BitVec 32 :=
  bits &&& ~~~BitVec.twoPow 32 i

mutual

/-- The entries in the order of their slots. -/
def toList : Trie K V → List (K × V)
  | .entry _ key value => [(key, value)]
  | .branch _ slots => slotsToList slots
  | .collision _ entries => entries

def slotsToList : List (Trie K V) → List (K × V)
  | [] => []
  | slot :: slots => slot.toList ++ slotsToList slots

end

mutual

/-- The stored key that satisfies `same`, with its value, on the path of `hash` below `shift`. -/
def find? (hash : UInt64) (same : K → Bool) : Nat → Trie K V → Option (K × V)
  | _, .entry h key value => if h == hash && same key then some (key, value) else none
  | shift, .branch bits slots =>
    let i := fragment hash shift
    if bits.getLsbD i then findAt? hash same (shift + 5) (rank bits i) slots else none
  | _, .collision h entries => if h == hash then entries.find? (same ·.1) else none

def findAt? (hash : UInt64) (same : K → Bool) : Nat → Nat → List (Trie K V) → Option (K × V)
  | _, _, [] => none
  | shift, 0, slot :: _ => slot.find? hash same shift
  | shift, n + 1, _ :: slots => findAt? hash same shift n slots

end

/-- What a trie brings to a collision node: an entry its binding, a larger trie nothing. -/
def single : Trie K V → List (K × V)
  | .entry _ key value => [(key, value)]
  | _ => []

/-- A trie at `shift` that tells two tries of the given hashes apart, or the collision node of two
entries with one hash. Distinct hashes differ in a fragment below bit 64, so the last case is
never met by tries that lie on their paths. -/
def pair (shift : Nat) (h₁ : UInt64) (t₁ : Trie K V) (h₂ : UInt64) (t₂ : Trie K V) : Trie K V :=
  let f₁ := fragment h₁ shift
  let f₂ := fragment h₂ shift
  if h₁ = h₂ then .collision h₁ (t₁.single ++ t₂.single)
  else if f₁ < f₂ then .branch (occupy (occupy 0 f₁) f₂) [t₁, t₂]
  else if f₂ < f₁ then .branch (occupy (occupy 0 f₁) f₂) [t₂, t₁]
  else if shift < 64 then .branch (occupy 0 f₁) [pair (shift + 5) h₁ t₁ h₂ t₂]
  else .branch 0 []
termination_by 64 - shift

/-- Replaces the value of the first key that satisfies `same`, keeping that key. -/
def replace (same : K → Bool) (value : V) : List (K × V) → List (K × V)
  | [] => []
  | (k, v) :: entries =>
    if same k then (k, value) :: entries else (k, v) :: replace same value entries

mutual

/-- Binds `key` to `value` below `shift`, and tells whether the key is new. A key that is already
stored stays the stored one. -/
def insert [BEq K] (hash : UInt64) (key : K) (value : V) : Nat → Trie K V → Trie K V × Bool
  | shift, .entry h k v =>
    if h == hash && key == k then (.entry h k value, false)
    else (pair shift h (.entry h k v) hash (.entry hash key value), true)
  | shift, .branch bits slots =>
    let i := fragment hash shift
    if bits.getLsbD i then
      let (slots, fresh) := insertAt hash key value (shift + 5) (rank bits i) slots
      (.branch bits slots, fresh)
    else (.branch (occupy bits i) (slots.insertIdx (rank bits i) (.entry hash key value)), true)
  | shift, .collision h entries =>
    if h == hash then
      if entries.any (key == ·.1) then (.collision h (replace (key == ·) value entries), false)
      else (.collision h (entries ++ [(key, value)]), true)
    else (pair shift h (.collision h entries) hash (.entry hash key value), true)

def insertAt [BEq K] (hash : UInt64) (key : K) (value : V) :
    Nat → Nat → List (Trie K V) → List (Trie K V) × Bool
  | _, _, [] => ([], true)
  | shift, 0, slot :: slots =>
    let (slot, fresh) := slot.insert hash key value shift
    (slot :: slots, fresh)
  | shift, n + 1, slot :: slots =>
    let (slots, fresh) := insertAt hash key value shift n slots
    (slot :: slots, fresh)

end

/-- What a branch keeps of a child after a removal: nothing of an empty one, and of a child with
one entry just that entry. -/
def fold : Trie K V → Option (Trie K V)
  | .branch _ [] => none
  | .branch _ [.entry h key value] => some (.entry h key value)
  | .collision h [(key, value)] => some (.entry h key value)
  | t => some t

mutual

/-- The trie without the key that satisfies `same`: `none` if no such key is stored, `some none`
if nothing is left. -/
def erase (hash : UInt64) (same : K → Bool) : Nat → Trie K V → Option (Option (Trie K V))
  | _, .entry h key _ => if h == hash && same key then some none else none
  | shift, .branch bits slots =>
    let i := fragment hash shift
    if bits.getLsbD i then
      match eraseAt hash same (shift + 5) (rank bits i) slots with
      | none => none
      | some (slots, true) => some (some (.branch bits slots))
      | some (slots, false) => some (some (.branch (vacate bits i) slots))
    else none
  | _, .collision h entries =>
    if h == hash && entries.any (same ·.1) then
      some (some (.collision h (entries.eraseP (same ·.1))))
    else none

/-- Removes below slot `n`, and tells whether that slot is still occupied. -/
def eraseAt (hash : UInt64) (same : K → Bool) :
    Nat → Nat → List (Trie K V) → Option (List (Trie K V) × Bool)
  | _, _, [] => none
  | shift, 0, slot :: slots =>
    match slot.erase hash same shift with
    | none => none
    | some rest =>
      match rest.bind fold with
      | none => some (slots, false)
      | some slot => some (slot :: slots, true)
  | shift, n + 1, slot :: slots =>
    match eraseAt hash same shift n slots with
    | none => none
    | some (slots, kept) => some (slot :: slots, kept)

end

mutual

/-- The same trie with its entries replaced, in order, by those given. Answers those left over. -/
def refill : Trie K V → List (K × V) → Trie K V × List (K × V)
  | .entry h key value, [] => (.entry h key value, [])
  | .entry h _ _, (key, value) :: entries => (.entry h key value, entries)
  | .branch bits slots, entries =>
    let (slots, entries) := refillSlots slots entries
    (.branch bits slots, entries)
  | .collision h old, entries =>
    (.collision h (entries.take old.length), entries.drop old.length)

def refillSlots : List (Trie K V) → List (K × V) → List (Trie K V) × List (K × V)
  | [], entries => ([], entries)
  | slot :: slots, entries =>
    let (slot, entries) := slot.refill entries
    let (slots, entries) := refillSlots slots entries
    (slot :: slots, entries)

end

end Trie

end Persistent
