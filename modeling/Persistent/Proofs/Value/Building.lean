import Persistent.Proofs.Set.Program
import Persistent.Proofs.Value.Meaning
import Persistent.Proofs.Vector.Indices
import Persistent.Value.Stack

/-!
Values built from valid ones are valid: maps and sets stay well-formed tables with known keys, and
vectors keep holding their items.
-/

set_option autoImplicit false

namespace Persistent.Value

variable [Hasher]

theorem over_erase {V : Type} {t : Table Value V} (keyed : t.Over Known) {key : Value}
    (found : t.isEmpty = true ∨ key.Known) : (t.erase key).Over Known := by
  rcases found with empty | known
  · rw [Table.erase_empty keyed.toWellFormed empty]
    exact keyed
  · exact keyed.erase lawful_known.toKeyLaw known

theorem values_erase {V : Type} {t : Table Value V} (keyed : t.Over Known) {key : Value}
    (found : t.isEmpty = true ∨ key.Known) {E : V → Prop} (values : ∀ e ∈ t.toList, E e.2) :
    ∀ e ∈ (t.erase key).toList, E e.2 := by
  rcases found with empty | known
  · rw [Table.erase_empty keyed.toWellFormed empty]
    exact values
  · exact keyed.values_erase lawful_known.toKeyLaw known values

theorem valid_map {n : ℕ} {m : Map Metadata Value Value} (keyed : m.Over Known)
    (values : ∀ e ∈ m.toList, e.2.Valid n) : (Value.map m).Valid n :=
  .map keyed.toWellFormed keyed.keys values

theorem valid_empty (n : ℕ) : (Value.map {}).Valid n :=
  valid_map (Table.over_empty Known) (by intro e he; cases he)

theorem valid_set {n : ℕ} {s : Set Metadata Value} (keyed : s.Over Known) : (Value.set s).Valid n :=
  .set keyed.toWellFormed keyed.keys

theorem valid_vector {n : ℕ} {v : Vector Metadata Value} {xs : List Value} (held : v.Holds xs)
    (items : ∀ x ∈ xs, x.Valid n) : (Value.vector v).Valid n := by
  have same := held.toList_eq
  subst same
  exact .vector held items

theorem holds_of_valid {n : ℕ} {v : Vector Metadata Value} (valid : (Value.vector v).Valid n) :
    v.Holds v.toList ∧ ∀ x ∈ v.toList, x.Valid n := by
  cases valid with
  | flat h => cases h
  | vector held items => exact ⟨held, items⟩

theorem items_of_list {n : ℕ} {l : ConsList Metadata Value} (valid : (Value.list l).Valid n) :
    ∀ x ∈ l.items, x.Valid n := by
  cases valid with
  | flat h => cases h
  | list items => exact items

theorem valid_push {n : ℕ} {l : ConsList Metadata Value} {x : Value}
    (valid : (Value.list l).Valid n) (hx : x.Valid n) : (Value.list (l.push x)).Valid n :=
  .list (List.forall_mem_cons.2 ⟨hx, items_of_list valid⟩)

theorem valid_vectorPush {n : ℕ} {v : Vector Metadata Value} {x : Value}
    (valid : (Value.vector v).Valid n) (hx : x.Valid n) : (Value.vector (v.push x)).Valid n := by
  obtain ⟨held, items⟩ := holds_of_valid valid
  refine valid_vector (held.push x) fun y hy => ?_
  rcases List.mem_append.1 hy with old | new
  · exact items y old
  · exact List.mem_singleton.1 new ▸ hx

theorem valid_cons {n : ℕ} {s : Seq Value} {x : Value} (valid : (Value.seq s).Valid n)
    (hx : x.Valid n) : (Value.seq (.cons x s)).Valid n := by
  cases valid with
  | flat h => cases h
  | seq items cell => exact .seq (List.forall_mem_cons.2 ⟨hx, items⟩) cell

theorem valid_insert {n : ℕ} {m : Map Metadata Value Value} (valid : (Value.map m).Valid n)
    {key value : Value} (known : key.Known) (hvalue : value.Valid n) :
    (Value.map (m.insert key value)).Valid n := by
  obtain ⟨keyed, values⟩ := valid_entries valid
  exact valid_map (keyed.insert lawful_known.toKeyLaw value known)
    (keyed.values_insert lawful_known.toKeyLaw known hvalue values)

theorem valid_get? {n : ℕ} {m : Map Metadata Value Value} (valid : (Value.map m).Valid n)
    {key value : Value} (known : key.Known) (found : m.get? key = some value) : value.Valid n := by
  obtain ⟨keyed, values⟩ := valid_entries valid
  obtain ⟨e, bound, rfl⟩ := Option.map_eq_some_iff.1 found
  rw [keyed.find?_eq lawful_known.toKeyLaw known] at bound
  exact values e (Bindings.of_lookup bound).1

theorem valid_merge {n : ℕ} {m k : Map Metadata Value Value} (valid : (Value.map m).Valid n)
    (valid' : (Value.map k).Valid n) : (Value.map (m.merge k)).Valid n := by
  obtain ⟨keyed, values⟩ := valid_entries valid
  obtain ⟨keys, values'⟩ := valid_entries valid'
  exact valid_map (keyed.insertAll lawful_known.toKeyLaw keys.keys)
    (keyed.values_insertAll lawful_known.toKeyLaw keys.keys values' values)

theorem valid_pop {n : ℕ} {v w : Value} (valid : v.Valid n) (popped : v.pop = .ok w) :
    w.Valid n := by
  cases v with
  | nil =>
    cases popped
    exact valid
  | list l =>
    obtain ⟨items, metadata⟩ := l
    cases items with
    | nil => cases popped
    | cons x items =>
      cases popped
      exact .list fun y hy => items_of_list valid y (List.mem_cons_of_mem _ hy)
  | vector v =>
    obtain ⟨held, items⟩ := holds_of_valid valid
    by_cases empty : v.toList = []
    · rw [pop, held.pop_empty empty] at popped
      cases popped
    · obtain ⟨u, same, held'⟩ := held.pop_filled empty
      rw [pop, same] at popped
      cases popped
      exact valid_vector held' fun y hy => items y (List.dropLast_subset _ hy)
  | _ => cases popped

theorem valid_withMetadata {n : ℕ} {v w : Value} (valid : v.Valid n)
    {new : Map Metadata Value Value} (carried : v.withMetadata new = .ok w) : w.Valid n := by
  cases v with
  | symbol s =>
    cases carried
    exact .flat rfl
  | list l =>
    have items := items_of_list valid
    cases carried
    exact .list items
  | vector v =>
    cases carried
    obtain ⟨held, items⟩ := holds_of_valid valid
    exact .vector (held.withMetadata _) items
  | map m =>
    cases carried
    obtain ⟨keyed, values⟩ := valid_entries valid
    exact valid_map keyed values
  | set s =>
    have keyed := valid_elements valid
    cases carried
    exact valid_set keyed
  | _ => cases carried

end Persistent.Value
