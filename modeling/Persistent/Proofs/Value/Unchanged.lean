import Persistent.Proofs.Value.Twins
import Persistent.Proofs.Value.Delivering
import Persistent.Proofs.Vector.Shape

/-!
Realizing a known value answers the very same value. There is no cell to look at, and all parts
keep their form: a table its trie, a vector its nodes, a sequence its cells.
-/

set_option autoImplicit false

namespace Persistent

theorem Seq.refill_known {α : Type} {s : Seq α} (closed : s.pending? = none) :
    s.refill s.known = s := by
  induction s with
  | nil | list => rfl
  | cons x rest ih =>
    change Seq.cons x (rest.refill rest.known) = _
    rw [ih closed]
  | lazy cell => cases closed

namespace Value

variable [Hasher]

section Observe

variable {st : Store Value} {fuel depth : ℕ}

/-- The parts of a value, given that looking at each changes nothing. -/
theorem makes_same_parts {A : Type} {look : A → Demand Value A} {xs : List A}
    (each : ∀ x ∈ xs, Makes st (look x) fun _ y => x = y) :
    Makes st (observeShown {} look xs) fun _ ys => xs = ys :=
  (makes_observeShown each).imp fun _ _ same => List.forall₂_eq_eq_eq ▸ same

theorem makes_same_spine {v : Value} {spine : List Value × Option ℕ}
    (spined : v.spine? = some spine) (known : v.Known)
    (parts : ∀ st₁ (xs : List Value), (∀ x ∈ xs, x.Known) →
      Makes st₁ (observeShown {} (observe {} fuel (depth + 1)) xs) fun _ us => xs = us) :
    Makes st (observe {} (fuel + 1) depth v) fun _ u => v = u := by
  cases v with
  | list l =>
    rw [observe_list]
    refine (parts st l.items (items_of_list known)).bind ?_
    rintro _ _ _ rfl
    exact makes_pure fun _ _ => rfl
  | vector v =>
    obtain ⟨held, items⟩ := holds_of_valid known
    rw [observe_vector]
    refine (parts st v.toList items).bind ?_
    rintro _ _ _ rfl
    have again := (Vector.holds_ofList v.toList).withMetadata v.metadata
    exact makes_pure fun _ _ => congrArg Value.vector (held.unique again rfl)
  | seq s =>
    have closed := Known.pending?_eq known
    have spine : (Value.seq s).spine? = some (s.known, none) := by rw [spine?, closed]
    rw [observe_seq]
    refine (makes_toList (known.mono (Nat.zero_le _)) fuel).bind fun st₁ _ xs read => ?_
    cases read.2 s.known (reads_known closed)
    refine (parts st₁ s.known (known_items known spine)).bind ?_
    rintro _ _ _ rfl
    exact makes_pure fun _ _ => congrArg Value.seq (Seq.refill_known closed).symm
  | _ => cases spined

theorem makes_same {v : Value} (known : v.Known) :
    Makes st (observe {} fuel depth v) fun _ u => v = u := by
  induction fuel generalizing st depth v with
  | zero => exact makes_exhausted
  | succ fuel ih =>
    have parts (st₁ : Store Value) (xs : List Value) (knowns : ∀ x ∈ xs, x.Known) :
        Makes st₁ (observeShown {} (observe {} fuel (depth + 1)) xs) fun _ us => xs = us :=
      makes_same_parts fun x hx => ih (knowns x hx)
    rcases kinds v with flat | ⟨xs, i, spine⟩ | ⟨m, rfl⟩ | ⟨s, rfl⟩
    · rw [observe_flat flat]
      exact makes_pure fun _ _ => rfl
    · exact makes_same_spine spine known parts
    · obtain ⟨keyed, values⟩ := valid_entries known
      have entry (e : Value × Value) (he : e ∈ m.toList) :
          Makes st (observeEntry (observe {} fuel (depth + 1)) e) fun _ f => e = f := by
        refine (ih (keyed.keys e he)).bind ?_
        rintro st₁ _ _ rfl
        refine (ih (values e he)).bind ?_
        rintro _ _ _ rfl
        exact makes_pure fun _ _ => rfl
      rw [observe_map]
      refine (makes_same_parts entry).bind ?_
      rintro _ _ _ rfl
      exact makes_pure fun _ _ =>
        congrArg (fun t => Value.map { m with toTable := t }) (Table.refill_toList m.toTable).symm
    · rw [observe_set]
      refine (parts st s.elements (Set.elements_in (valid_elements known))).bind ?_
      rintro _ _ _ rfl
      have entries : s.elements.map (·, ()) = s.toList := by
        rw [Set.elements, Table.keys, List.map_map]
        exact List.map_id s.toList
      rw [entries]
      exact makes_pure fun _ _ =>
        congrArg (fun t => Value.set { s with toTable := t }) (Table.refill_toList s.toTable).symm

end Observe

/-- A known key is realized to itself. -/
theorem realize_known {st : Store Value} (sane : Sane st) {key : Value} (known : key.Known) :
    Delivers st (fun fuel => key.realize fuel) fun _ u => key = u :=
  ((realize_delivers sane (whole_of_known st known)).and fun _ => makes_same known).imp
    fun _ _ _ made => made.2

end Value

end Persistent
