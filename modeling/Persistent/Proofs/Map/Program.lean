import Mathlib.Data.List.Induction
import Persistent.Map.Basic
import Persistent.Proofs.Table.WellFormed

/-!
Programs on maps. A program starts from the empty map, and each of its steps makes a map from maps
made before, all of which stay at hand. Every map a program makes is well-formed.
-/

set_option autoImplicit false

namespace Persistent.Map

variable {μ K V : Type} [BEq K] [Hashable K]

/-- A step names the maps it reads by their place among those made so far. -/
inductive Step (K V : Type) where
  | insert (m : ℕ) (key : K) (value : V)
  | insertAll (m : ℕ) (entries : List (K × V))
  | erase (m : ℕ) (key : K)
  | eraseAll (m : ℕ) (keys : List K)
  | merge (m n : ℕ)

/-- The map a step makes. A place that no map has taken yet reads as the empty map. -/
def step (made : List (Map μ K V)) : Step K V → Map μ K V
  | .insert m key value => (made.getD m {}).insert key value
  | .insertAll m entries => (made.getD m {}).insertAll entries
  | .erase m key => (made.getD m {}).erase key
  | .eraseAll m keys => (made.getD m {}).eraseAll keys
  | .merge m n => (made.getD m {}).merge (made.getD n {})

/-- All maps that a program makes, the empty map first. -/
def run (steps : List (Step K V)) : List (Map μ K V) :=
  steps.foldl (fun made s => made ++ [step made s]) [{}]

theorem run_concat (steps : List (Step K V)) (s : Step K V) :
    (run (steps ++ [s]) : List (Map μ K V)) = run steps ++ [step (run steps) s] := by
  unfold run
  rw [List.foldl_append]
  rfl

theorem keyed {m : Map μ K V} (wf : m.WellFormed) : m.Over fun _ => True :=
  ⟨wf, fun _ _ => trivial⟩

theorem wellFormed_getD {made : List (Map μ K V)} (wf : ∀ m ∈ made, m.WellFormed) (i : ℕ) :
    (made.getD i {}).WellFormed := by
  rw [List.getD_eq_getElem?_getD]
  cases h : made[i]? with
  | none => exact Table.wellFormed_empty
  | some m => exact wf m (List.mem_of_getElem? h)

variable [EquivBEq K] [LawfulHashable K]

theorem wellFormed_step {made : List (Map μ K V)} (wf : ∀ m ∈ made, m.WellFormed)
    (s : Step K V) : (step made s).WellFormed := by
  have law := KeyLaw.of_lawful (K := K)
  cases s with
  | insert m key value =>
    exact ((keyed (wellFormed_getD wf m)).insert law value trivial).toWellFormed
  | insertAll m entries =>
    exact ((keyed (wellFormed_getD wf m)).insertAll law fun _ _ => trivial).toWellFormed
  | erase m key =>
    exact ((keyed (wellFormed_getD wf m)).erase law trivial).toWellFormed
  | eraseAll m keys =>
    exact ((keyed (wellFormed_getD wf m)).eraseAll law fun _ _ => trivial).toWellFormed
  | merge m n =>
    exact ((keyed (wellFormed_getD wf m)).insertAll law fun _ _ => trivial).toWellFormed

theorem wellFormed_run (steps : List (Step K V)) :
    ∀ m ∈ (run steps : List (Map μ K V)), m.WellFormed := by
  induction steps using List.reverseRecOn with
  | nil =>
    intro m hm
    rw [List.mem_singleton.1 hm]
    exact Table.wellFormed_empty
  | append_singleton steps s ih =>
    intro m hm
    rw [run_concat, List.mem_append, List.mem_singleton] at hm
    rcases hm with hm | rfl
    · exact ih m hm
    · exact wellFormed_step ih s

end Persistent.Map
