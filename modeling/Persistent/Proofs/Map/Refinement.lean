import Mathlib.Data.List.Forall2
import Persistent.Proofs.Map.Program

/-!
Maps as functions. A reference map tells of every key which key is stored for it and with what
value. Hashes have no part in it, so no choice of a hash function is seen through a map.
-/

set_option autoImplicit false

namespace Persistent

/-- What is bound: to each key the stored key equal to it and the value. -/
abbrev Reference (K V : Type) := K → Option (K × V)

namespace Reference

variable {K V : Type} [BEq K]

def empty : Reference K V := fun _ => none

/-- The key that is stored for `key`, which is `key` itself where none is bound yet. -/
def keep (r : Reference K V) (k key : K) : K :=
  ((r k).map (·.1)).getD key

def insert (r : Reference K V) (key : K) (value : V) : Reference K V := fun k =>
  if (k == key) = true then some (r.keep key key, value) else r k

def erase (r : Reference K V) (key : K) : Reference K V := fun k =>
  if (k == key) = true then none else r k

def merge (r s : Reference K V) : Reference K V := fun k =>
  match s k with
  | none => r k
  | some (key, value) => some (r.keep k key, value)

def step (made : List (Reference K V)) : Map.Step K V → Reference K V
  | .insert m key value => (made.getD m empty).insert key value
  | .insertAll m entries => entries.foldl (fun r e => r.insert e.1 e.2) (made.getD m empty)
  | .erase m key => (made.getD m empty).erase key
  | .eraseAll m keys => keys.foldl erase (made.getD m empty)
  | .merge m n => (made.getD m empty).merge (made.getD n empty)

def run (steps : List (Map.Step K V)) : List (Reference K V) :=
  steps.foldl (fun made s => made ++ [step made s]) [empty]

theorem run_concat (steps : List (Map.Step K V)) (s : Map.Step K V) :
    (run (steps ++ [s]) : List (Reference K V)) = run steps ++ [step (run steps) s] := by
  unfold run
  rw [List.foldl_append]
  rfl

/-- The bound keys are `n`, up to equality. -/
def Counts (r : Reference K V) (n : ℕ) : Prop :=
  ∃ keys : List K, keys.length = n ∧ keys.Pairwise (fun a b => (a == b) = false) ∧
    ∀ k, (r k).isSome = true ↔ ∃ key ∈ keys, (k == key) = true

end Reference

namespace Map

variable {μ K V : Type} [BEq K] [Hashable K]

/-- A map shows nothing but what is bound. -/
structure Agrees (m : Map μ K V) (r : Reference K V) : Prop where
  find?_eq : ∀ k, m.find? k = r k
  get?_eq : ∀ k, m.get? k = (r k).map (·.2)
  contains_eq : ∀ k, m.contains k = (r k).isSome
  counts : r.Counts m.size

/-- A well-formed map whose lookups are those of a reference map. -/
def Simulates (m : Map μ K V) (r : Reference K V) : Prop :=
  m.WellFormed ∧ ∀ k, m.find? k = r k

theorem simulates_empty : ({} : Map μ K V).Simulates Reference.empty :=
  ⟨Table.wellFormed_empty, fun _ => rfl⟩

theorem simulates_getD {made : List (Map μ K V)} {refs : List (Reference K V)}
    (h : List.Forall₂ Simulates made refs) (i : ℕ) :
    (made.getD i {}).Simulates (refs.getD i Reference.empty) := by
  induction h generalizing i with
  | nil => exact simulates_empty
  | cons first _ ih =>
    cases i with
    | zero => exact first
    | succ i => exact ih i

section Lawful

variable [EquivBEq K] [LawfulHashable K]

theorem Simulates.insert {m : Map μ K V} {r : Reference K V} (h : m.Simulates r) (key : K)
    (value : V) : (m.insert key value).Simulates (r.insert key value) := by
  have law := KeyLaw.of_lawful (K := K)
  refine ⟨((keyed h.1).insert law value trivial).toWellFormed, ?_⟩
  intro k
  refine ((keyed h.1).find?_insert law value trivial trivial).trans ?_
  rw [h.2 k, h.2 key]
  rfl

theorem Simulates.erase {m : Map μ K V} {r : Reference K V} (h : m.Simulates r) (key : K) :
    (m.erase key).Simulates (r.erase key) := by
  have law := KeyLaw.of_lawful (K := K)
  refine ⟨((keyed h.1).erase law trivial).toWellFormed, ?_⟩
  intro k
  refine ((keyed h.1).find?_erase law trivial trivial).trans ?_
  rw [h.2 k]
  rfl

theorem Simulates.insertAll {m : Map μ K V} {r : Reference K V} (h : m.Simulates r)
    (entries : List (K × V)) :
    (m.insertAll entries).Simulates (entries.foldl (fun r e => r.insert e.1 e.2) r) := by
  induction entries generalizing m r with
  | nil => exact h
  | cons e entries ih => exact ih (h.insert e.1 e.2)

theorem Simulates.eraseAll {m : Map μ K V} {r : Reference K V} (h : m.Simulates r)
    (keys : List K) : (m.eraseAll keys).Simulates (keys.foldl Reference.erase r) := by
  induction keys generalizing m r with
  | nil => exact h
  | cons key keys ih => exact ih (h.erase key)

/-- The order in which the entries of the second map come has no part in a merge. -/
theorem Simulates.merge {m n : Map μ K V} {r s : Reference K V} (hm : m.Simulates r)
    (hn : n.Simulates s) : (m.merge n).Simulates (r.merge s) := by
  have law := KeyLaw.of_lawful (K := K)
  refine ⟨((keyed hm.1).insertAll law fun _ _ => trivial).toWellFormed, ?_⟩
  intro k
  have apart := (keyed hn.1).distinct law
  refine ((keyed hm.1).find?_insertAll law (fun _ _ => trivial) apart trivial).trans ?_
  rw [← (keyed hn.1).find?_eq law trivial, hn.2 k, hm.2 k]
  rfl

theorem simulates_step {made : List (Map μ K V)} {refs : List (Reference K V)}
    (h : List.Forall₂ Simulates made refs) (s : Step K V) :
    (step made s).Simulates (Reference.step refs s) := by
  cases s with
  | insert m key value => exact (simulates_getD h m).insert key value
  | insertAll m entries => exact (simulates_getD h m).insertAll entries
  | erase m key => exact (simulates_getD h m).erase key
  | eraseAll m keys => exact (simulates_getD h m).eraseAll keys
  | merge m n => exact (simulates_getD h m).merge (simulates_getD h n)

theorem simulates_run (steps : List (Step K V)) :
    List.Forall₂ Simulates (run steps : List (Map μ K V)) (Reference.run steps) := by
  induction steps using List.reverseRecOn with
  | nil => exact .cons simulates_empty .nil
  | append_singleton steps s ih =>
    rw [run_concat, Reference.run_concat]
    exact List.rel_append ih (.cons (simulates_step ih s) .nil)

/-- The stored keys are pairwise unequal and there are `size` of them. -/
theorem Simulates.agrees {m : Map μ K V} {r : Reference K V} (h : m.Simulates r) :
    m.Agrees r := by
  have law := KeyLaw.of_lawful (K := K)
  refine ⟨h.2, ?_, ?_, m.keys, ?_, ?_, ?_⟩
  · intro k
    rw [← h.2 k]
    rfl
  · intro k
    rw [← h.2 k]
    rfl
  · rw [h.1.size_eq, Table.keys, List.length_map]
  · rw [Table.keys, List.pairwise_map]
    exact (keyed h.1).distinct law
  · intro k
    rw [← h.2 k, (keyed h.1).find?_eq law trivial, Bindings.lookup, List.find?_isSome, Table.keys]
    constructor
    · rintro ⟨e, he, same⟩
      exact ⟨e.1, List.mem_map_of_mem he, same⟩
    · rintro ⟨key, hkey, same⟩
      obtain ⟨e, he, rfl⟩ := List.mem_map.1 hkey
      exact ⟨e, he, same⟩

/-- Whatever the hash function, the maps of a program agree with the reference maps. -/
theorem run_refines_reference (steps : List (Step K V)) :
    List.Forall₂ Agrees (run steps : List (Map μ K V)) (Reference.run steps) :=
  (simulates_run steps).imp fun _ _ h => h.agrees

end Lawful

/-- Two unequal keys share their whole hash, and a third one its low five bits. -/
def colliding : List (Step HashedKey ℕ) :=
  [.insert 0 ⟨1, 7, "first"⟩ 10,
    .insertAll 1 [(⟨2, 7, ""⟩, 20), (⟨3, 39, ""⟩, 30), (⟨1, 7, "second"⟩, 11)],
    .eraseAll 2 [⟨2, 7, ""⟩, ⟨2, 7, ""⟩], .merge 3 2, .erase 4 ⟨3, 39, ""⟩]

theorem run_refines_reference_colliding :
    EquivBEq HashedKey ∧ LawfulHashable HashedKey ∧
      (run colliding : List (Map Unit HashedKey ℕ)).map (·.size) = [0, 1, 3, 2, 3, 2] ∧
      List.Forall₂ Agrees (run colliding : List (Map Unit HashedKey ℕ))
        (Reference.run colliding) :=
  ⟨inferInstance, inferInstance, by decide +kernel, run_refines_reference colliding⟩

end Map

end Persistent
