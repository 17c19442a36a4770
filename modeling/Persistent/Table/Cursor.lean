import Persistent.Table.Basic

/-!
Walking a table one entry at a time, in two ways. A cursor borrows the trie: it keeps the slots
still to visit in every open branch, and apart from them the rest of one collision node. A drain
owns the trie: it keeps each open node with the position reached in it. Both count the entries
still to come.
-/

set_option autoImplicit false

namespace Persistent

namespace Trie

variable {K V : Type}

mutual

/-- A number of steps that suffices to walk the trie. -/
def weight : Trie K V → Nat
  | .entry .. => 3
  | .branch _ slots => slotsWeight slots + 2
  | .collision _ entries => entries.length + 2

def slotsWeight : List (Trie K V) → Nat
  | [] => 0
  | slot :: slots => slot.weight + slotsWeight slots

end

end Trie

namespace Table

structure Cursor (K V : Type) where
  stack : List (List (Trie K V))
  bucket : List (K × V) := []
  remaining : Nat

namespace Cursor

variable {K V : Type}

/-- A root that is no branch offers nothing to a cursor. -/
def ofTable (t : Table K V) : Cursor K V :=
  match t.root with
  | some (.branch _ slots) => { stack := [slots], remaining := t.size }
  | _ => { stack := [], remaining := t.size }

def stackWeight : List (List (Trie K V)) → Nat
  | [] => 0
  | slots :: stack => Trie.slotsWeight slots + 1 + stackWeight stack

/-- The next entry and the cursor behind it. -/
def advance (stack : List (List (Trie K V))) (bucket : List (K × V)) (remaining : Nat) :
    Option ((K × V) × Cursor K V) :=
  match bucket, stack with
  | entry :: bucket, stack => some (entry, ⟨stack, bucket, remaining - 1⟩)
  | [], [] => none
  | [], [] :: stack => advance stack [] remaining
  | [], (.entry _ key value :: slots) :: stack =>
    some ((key, value), ⟨slots :: stack, [], remaining - 1⟩)
  | [], (.branch _ inner :: slots) :: stack => advance (inner :: slots :: stack) [] remaining
  | [], (.collision _ entries :: slots) :: stack => advance (slots :: stack) entries remaining
termination_by stackWeight stack
decreasing_by all_goals simp [stackWeight, Trie.slotsWeight, Trie.weight]; try omega

def next? (c : Cursor K V) : Option ((K × V) × Cursor K V) :=
  advance c.stack c.bucket c.remaining

def weight (c : Cursor K V) : Nat :=
  stackWeight c.stack + c.bucket.length

theorem weight_advance {stack : List (List (Trie K V))} {bucket : List (K × V)} {remaining : Nat}
    {entry : K × V} {c : Cursor K V} (h : advance stack bucket remaining = some (entry, c)) :
    c.weight < stackWeight stack + bucket.length := by
  fun_induction advance stack bucket remaining <;>
    simp_all [weight, stackWeight, Trie.slotsWeight, Trie.weight] <;> grind [weight, stackWeight]

theorem weight_next? {c d : Cursor K V} {entry : K × V} (h : c.next? = some (entry, d)) :
    d.weight < c.weight :=
  weight_advance h

/-- Every entry still to come. -/
def toList (c : Cursor K V) : List (K × V) :=
  match h : c.next? with
  | none => []
  | some (entry, d) =>
    have := weight_next? h
    entry :: d.toList
termination_by c.weight

/-- The counts reported before each entry and at the end. -/
def counts (c : Cursor K V) : List Nat :=
  match h : c.next? with
  | none => [c.remaining]
  | some (_, d) =>
    have := weight_next? h
    c.remaining :: d.counts
termination_by c.weight

end Cursor

structure Drain (K V : Type) where
  stack : List (Trie K V × Nat)
  remaining : Nat

namespace Drain

variable {K V : Type}

def ofTable (t : Table K V) : Drain K V :=
  { stack := t.root.toList.map (·, 0), remaining := t.size }

def stackWeight : List (Trie K V × Nat) → Nat
  | [] => 0
  | (.entry .., position) :: stack => (1 - position) + 1 + stackWeight stack
  | (.branch _ slots, position) :: stack =>
    Trie.slotsWeight (slots.drop position) + 1 + stackWeight stack
  | (.collision _ entries, position) :: stack =>
    (entries.length - position) + 1 + stackWeight stack

theorem slotsWeight_drop {slots : List (Trie K V)} {position : Nat} {child : Trie K V}
    (h : slots[position]? = some child) :
    child.weight + Trie.slotsWeight (slots.drop (position + 1)) =
      Trie.slotsWeight (slots.drop position) := by
  obtain ⟨inside, rfl⟩ := List.getElem?_eq_some_iff.1 h
  rw [List.drop_eq_getElem_cons inside, Trie.slotsWeight]

theorem stackWeight_child (child : Trie K V) (stack : List (Trie K V × Nat)) :
    stackWeight ((child, 0) :: stack) + 1 = child.weight + stackWeight stack := by
  cases child <;> simp [stackWeight, Trie.weight] <;> omega

/-- The next entry and the drain behind it. -/
def advance (stack : List (Trie K V × Nat)) (remaining : Nat) :
    Option ((K × V) × Drain K V) :=
  match stack with
  | [] => none
  | (.entry hash key value, position) :: stack =>
    if position = 0 then some ((key, value), ⟨(.entry hash key value, 1) :: stack, remaining - 1⟩)
    else advance stack remaining
  | (.branch bits slots, position) :: stack =>
    match h : slots[position]? with
    | none => advance stack remaining
    | some (.entry _ key value) =>
      some ((key, value), ⟨(.branch bits slots, position + 1) :: stack, remaining - 1⟩)
    | some child => advance ((child, 0) :: (.branch bits slots, position + 1) :: stack) remaining
  | (.collision hash entries, position) :: stack =>
    match entries[position]? with
    | none => advance stack remaining
    | some entry => some (entry, ⟨(.collision hash entries, position + 1) :: stack, remaining - 1⟩)
termination_by stackWeight stack
decreasing_by
  · simp only [stackWeight]; omega
  · simp only [stackWeight]; omega
  · have descent := stackWeight_child child ((.branch bits slots, position + 1) :: stack)
    have slot := slotsWeight_drop h
    simp only [stackWeight] at descent ⊢
    omega
  · simp only [stackWeight]; omega

def next? (d : Drain K V) : Option ((K × V) × Drain K V) :=
  advance d.stack d.remaining

theorem weight_advance {stack : List (Trie K V × Nat)} {remaining : Nat} {entry : K × V}
    {d : Drain K V} (h : advance stack remaining = some (entry, d)) :
    stackWeight d.stack < stackWeight stack := by
  fun_induction advance stack remaining with
  | case1 => simp at h
  | case2 => simp at h; obtain ⟨-, rfl⟩ := h; simp only [stackWeight]; omega
  | case3 _ _ _ _ _ _ ih => have := ih h; simp only [stackWeight]; omega
  | case4 _ _ _ _ _ ih => have := ih h; simp only [stackWeight]; omega
  | case5 _ _ _ _ _ _ _ slot =>
    simp at h
    obtain ⟨-, rfl⟩ := h
    have here := slotsWeight_drop slot
    simp only [stackWeight, Trie.weight] at here ⊢
    omega
  | case6 bits slots position stack child _ slot ih =>
    have below := ih h
    have here := slotsWeight_drop slot
    have descent := stackWeight_child child ((.branch bits slots, position + 1) :: stack)
    simp only [stackWeight] at descent below ⊢
    omega
  | case7 _ _ _ _ _ ih => have := ih h; simp only [stackWeight]; omega
  | case8 _ _ _ _ _ slot =>
    simp at h
    obtain ⟨-, rfl⟩ := h
    obtain ⟨inside, -⟩ := List.getElem?_eq_some_iff.1 slot
    simp only [stackWeight]
    omega

theorem weight_next? {d e : Drain K V} {entry : K × V} (h : d.next? = some (entry, e)) :
    stackWeight e.stack < stackWeight d.stack :=
  weight_advance h

/-- Every entry still to come. -/
def toList (d : Drain K V) : List (K × V) :=
  match h : d.next? with
  | none => []
  | some (entry, e) =>
    have := weight_next? h
    entry :: e.toList
termination_by stackWeight d.stack

/-- The counts reported before each entry and at the end. -/
def counts (d : Drain K V) : List Nat :=
  match h : d.next? with
  | none => [d.remaining]
  | some (_, e) =>
    have := weight_next? h
    d.remaining :: e.counts
termination_by stackWeight d.stack

end Drain

def cursor {K V : Type} (t : Table K V) : Cursor K V :=
  .ofTable t

def drain {K V : Type} (t : Table K V) : Drain K V :=
  .ofTable t

end Table

end Persistent
