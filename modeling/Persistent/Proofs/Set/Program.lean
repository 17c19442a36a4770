import Mathlib.Data.List.Induction
import Persistent.Proofs.Table.WellFormed
import Persistent.Set

/-!
Programs on sets, as on maps: from the empty set, each step makes a set from sets made before. With
their elements in a domain whose equality and hash are lawful, all sets made are well-formed.
-/

set_option autoImplicit false

namespace Persistent.Set

variable {μ α : Type} [BEq α] [Hashable α]

/-- A step names the sets it reads by their place among those made so far. -/
inductive Step (μ α : Type) where
  | insert (s : ℕ) (x : α)
  | insertAll (s : ℕ) (xs : List α)
  | erase (s : ℕ) (x : α)
  | eraseAll (s : ℕ) (xs : List α)
  | union (s t : ℕ)
  | inter (s t : ℕ)
  | diff (s t : ℕ)
  | withMetadata (s : ℕ) (metadata : Option μ)

/-- The elements that a step names are in the domain. -/
def Step.Inside (D : α → Prop) : Step μ α → Prop
  | .insert _ x | .erase _ x => D x
  | .insertAll _ xs | .eraseAll _ xs => ∀ x ∈ xs, D x
  | .union _ _ | .inter _ _ | .diff _ _ | .withMetadata _ _ => True

/-- The set a step makes. A place that no set has taken yet reads as the empty set. -/
def step (made : List (Set μ α)) : Step μ α → Set μ α
  | .insert s x => (made.getD s {}).insert x
  | .insertAll s xs => (made.getD s {}).insertAll xs
  | .erase s x => (made.getD s {}).erase x
  | .eraseAll s xs => (made.getD s {}).eraseAll xs
  | .union s t => (made.getD s {}).union (made.getD t {})
  | .inter s t => (made.getD s {}).inter (made.getD t {})
  | .diff s t => (made.getD s {}).diff (made.getD t {})
  | .withMetadata s metadata => { made.getD s {} with metadata }

/-- All sets that a program makes, the empty set first. -/
def run (steps : List (Step μ α)) : List (Set μ α) :=
  steps.foldl (fun made s => made ++ [step made s]) [{}]

theorem run_concat (steps : List (Step μ α)) (s : Step μ α) :
    run (steps ++ [s]) = run steps ++ [step (run steps) s] := by
  unfold run
  rw [List.foldl_append]
  rfl

section Law

variable {D : α → Prop}

theorem elements_in {s : Set μ α} (keyed : s.Over D) : ∀ x ∈ s.elements, D x :=
  List.forall_mem_map.2 keyed.keys

theorem over_getD {made : List (Set μ α)} (keyed : ∀ s ∈ made, s.Over D) (i : ℕ) :
    (made.getD i {}).Over D := by
  rw [List.getD_eq_getElem?_getD]
  cases h : made[i]? with
  | none => exact Table.over_empty D
  | some s => exact keyed s (List.mem_of_getElem? h)

variable (law : KeyLaw D) {s t : Set μ α} (hs : s.Over D)
include law hs

theorem over_insert {x : α} (hx : D x) : (s.insert x).Over D := by
  unfold insert
  split
  · exact hs
  · exact hs.insert law () hx

theorem over_insertAll {xs : List α} (hxs : ∀ x ∈ xs, D x) : (s.insertAll xs).Over D :=
  hs.insertAll law (List.forall_mem_map.2 hxs)

theorem over_inter : (s.inter t).Over D :=
  over_insertAll law (s := {}) (Table.over_empty D) fun x hx =>
    elements_in hs x (List.mem_filter.1 hx).1

theorem over_union (ht : t.Over D) : (s.union t).Over D :=
  over_insertAll law hs (elements_in ht)

theorem over_diff (ht : t.Over D) : (s.diff t).Over D :=
  hs.eraseAll law (elements_in ht)

omit hs in
theorem over_step {made : List (Set μ α)} (keyed : ∀ s ∈ made, s.Over D) {s : Step μ α}
    (inside : s.Inside D) : (step made s).Over D := by
  have stored := over_getD keyed
  cases s with
  | insert s x => exact over_insert law (stored s) inside
  | insertAll s xs => exact over_insertAll law (stored s) inside
  | erase s x => exact (stored s).erase law inside
  | eraseAll s xs => exact (stored s).eraseAll law inside
  | union s t => exact over_union law (stored s) (stored t)
  | inter s t => exact over_inter law (stored s)
  | diff s t => exact over_diff law (stored s) (stored t)
  | withMetadata s metadata => exact stored s

omit hs in
theorem over_run {steps : List (Step μ α)} (inside : ∀ s ∈ steps, s.Inside D) :
    ∀ s ∈ run steps, s.Over D := by
  induction steps using List.reverseRecOn with
  | nil =>
    intro s hs
    rw [List.mem_singleton.1 hs]
    exact Table.over_empty D
  | append_singleton steps last ih =>
    have before := ih fun s hs => inside s (List.mem_append_left _ hs)
    intro s hs
    rw [run_concat, List.mem_append, List.mem_singleton] at hs
    rcases hs with hs | rfl
    · exact before s hs
    · exact over_step law before (inside last (List.mem_append_right _ List.mem_cons_self))

end Law

end Persistent.Set
