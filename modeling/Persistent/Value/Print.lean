import Persistent.Value.Equality

/-!
Printed text of values. Options bound how many items of each collection and how many levels of
nesting are shown, and say whether metadata is shown and strings are quoted. What is printed is
known already; a lazy cell that has not been looked at prints as nothing.
-/

set_option autoImplicit false

namespace Persistent

structure PrintOptions where
  /-- At most this many items of each collection are shown, then an ellipsis. -/
  length : Option Nat := none
  /-- A collection nested this deep is shown as a mark only. -/
  level : Option Nat := none
  metadata : Bool := false
  readably : Bool := true

namespace PrintOptions

def hides (opts : PrintOptions) (depth : Nat) : Bool :=
  opts.level.any (· ≤ depth)

/-- The items that are shown. -/
def shown {α : Type} (opts : PrintOptions) (xs : List α) : List α :=
  match opts.length with
  | none => xs
  | some n => xs.take n

/-- The mark for items that are not shown. -/
def ellipsis {α : Type} (opts : PrintOptions) (xs : List α) : List String :=
  if opts.length.any (· < xs.length) then ["..."] else []

theorem mem_of_mem_shown {α : Type} {opts : PrintOptions} {xs : List α} {x : α}
    (h : x ∈ opts.shown xs) : x ∈ xs := by
  rw [shown] at h
  split at h
  · exact h
  · exact List.mem_of_mem_take h

end PrintOptions

namespace Value

/-- Whether a value prints between brackets, and so has a depth. -/
def isCollection : Value → Bool
  | .list _ | .vector _ | .map _ | .set _ | .seq _ => true
  | _ => false

/-- The text of a value at a depth. Metadata, when shown and not empty, stands in front as a map at
the same depth, without metadata of its own. -/
def render (opts : PrintOptions) (depth : Nat) (v : Value) : String :=
  let attached :=
    match _h : v.metadata? with
    | none => ""
    | some m =>
      if !opts.metadata || m.isEmpty then ""
      else if opts.hides depth then "^# "
      else
        let pieces := (opts.shown m.toList).attach.map fun ⟨e, _⟩ =>
          render opts (depth + 1) e.1 ++ " " ++ render opts (depth + 1) e.2
        "^" ++ Text.enclosed "\x7b" ", " "\x7d" (pieces ++ opts.ellipsis m.toList) ++ " "
  let own :=
    if v.isCollection && opts.hides depth then "#"
    else
      match v with
      | .nil => "nil"
      | .bool b => if b then "true" else "false"
      | .int n => toString n.toInt
      | .str s => if opts.readably then Text.quoted s else s
      | .keyword k => k.text
      | .symbol s => s.text
      | .list l =>
        let pieces := (opts.shown l.items).attach.map fun ⟨x, _⟩ => render opts (depth + 1) x
        Text.enclosed "(" " " ")" (pieces ++ opts.ellipsis l.items)
      | .seq s =>
        let pieces := (opts.shown s.known).attach.map fun ⟨x, _⟩ => render opts (depth + 1) x
        Text.enclosed "(" " " ")" (pieces ++ opts.ellipsis s.known)
      | .vector v =>
        let pieces := (opts.shown v.toList).attach.map fun ⟨x, _⟩ => render opts (depth + 1) x
        Text.enclosed "[" " " "]" (pieces ++ opts.ellipsis v.toList)
      | .set s =>
        let pieces := (opts.shown s.elements).attach.map fun ⟨x, _⟩ => render opts (depth + 1) x
        Text.enclosed "#\x7b" " " "\x7d" (pieces ++ opts.ellipsis s.elements)
      | .map m =>
        let pieces := (opts.shown m.toList).attach.map fun ⟨e, _⟩ =>
          render opts (depth + 1) e.1 ++ " " ++ render opts (depth + 1) e.2
        Text.enclosed "\x7b" ", " "\x7d" (pieces ++ opts.ellipsis m.toList)
  attached ++ own
termination_by sizeOf v
decreasing_by
  · have := sizeOf_metadata ‹_›
    have := Map.sizeOf_mem (PrintOptions.mem_of_mem_shown ‹_›)
    omega
  · have := sizeOf_metadata ‹_›
    have := Map.sizeOf_mem (PrintOptions.mem_of_mem_shown ‹_›)
    omega
  · have := ConsList.sizeOf_mem (PrintOptions.mem_of_mem_shown ‹_›); simp; omega
  · have := Seq.sizeOf_mem (PrintOptions.mem_of_mem_shown ‹_›); simp; omega
  · have := Vector.sizeOf_mem (PrintOptions.mem_of_mem_shown ‹_›); simp; omega
  · have := Set.sizeOf_mem (PrintOptions.mem_of_mem_shown ‹_›); simp; omega
  · have := Map.sizeOf_mem (PrintOptions.mem_of_mem_shown ‹_›); simp; omega
  · have := Map.sizeOf_mem (PrintOptions.mem_of_mem_shown ‹_›); simp; omega

/-- The text of a value without limits, strings quoted and metadata left out. -/
def text (v : Value) : String :=
  v.render {} 0

/-- The text of a name or a collection as such, its parts printed each on their own. -/
def innerText : Value → Option String
  | .keyword k => some k.text
  | .symbol s => some s.text
  | .list l => some (l.text text)
  | .vector v => some (v.text text)
  | .set s => some (s.text text)
  | .map m => some (m.text text text)
  | .seq s => some (Text.enclosed "(" " " ")" (s.known.map text))
  | _ => none

end Value

end Persistent
