import Persistent.Proofs.Value.Delivering
import Persistent.Proofs.Value.Twins
import Persistent.Proofs.Vector.Storing

/-!
Lookup by a finite key. A key is realized before a table is searched for it, unless the table is
empty, and so what is found depends on the meaning of the key alone.
-/

set_option autoImplicit false

namespace Persistent

theorem Table.find?_empty {K V : Type} [BEq K] [Hashable K] {t : Table K V} (wf : t.WellFormed)
    (empty : t.isEmpty = true) (key : K) : t.find? key = none := by
  unfold find?
  rw [wf.root_none_iff.2 (eq_of_beq empty)]
  rfl

namespace Value

theorem asInt?_of_sort {v : Value} (parted : v.sort ≠ 0) : v.asInt? = none := by
  cases v <;> first | rfl | exact absurd rfl parted

theorem asInt?_eq_some {v : Value} {index : Int64} : v.asInt? = some index ↔ v = .int index := by
  cases v <;> simp [asInt?]

theorem asInt?_means {st : Store Value} {key w : Value} (means : Means st key w) :
    key.asInt? = w.asInt? := by
  have sorts := means.sort_eq
  cases means with
  | flat | set | map => rfl
  | spine sequence _ spine =>
    have one := sort_of_sequence sequence
    rw [asInt?_of_sort (by omega), asInt?_of_sort (by omega)]

variable [Hasher]

/-- A key as a table is searched for it: realized, unless there is nothing to find. -/
def Searched {V : Type} (st : Store Value) (t : Table Value V) (key u : Value) : Prop :=
  t.isEmpty = true ∨ Shows st key u

theorem Shows.equalIn_meaning {st : Store Value} {key u w : Value} (h : Shows st key u)
    (means : KnownMeaning st key w) : EqualIn Known w u :=
  ⟨means.2, h.known, h.same w means.2 means.1⟩

/-- What a finite key is realized to stays what it shows. -/
theorem Shows.later {st st' : Store Value} (sane : Sane st) {key u : Value} (h : Shows st key u)
    (whole : Whole st key) (leads : Leads st st') : Shows st' key u := by
  obtain ⟨w, means, known⟩ := whole.exists_means sane
  have whole' := whole.later leads
  have refl := (lawfulEquality_of_sane leads.sane).refl whole'
  refine ⟨h.known, fun w' known' means' => ?_⟩
  have same := (equals_iff leads.sane whole' whole' means' (means.later leads.later) known' known).1
    refl
  exact lawful_known.trans known' known h.known same (h.same w known means)

theorem find?_searched {V : Type} {st : Store Value} {t : Table Value V} (keyed : t.Over Known)
    {key u w : Value} (searched : Searched st t key u) (means : KnownMeaning st key w) :
    t.find? u = t.find? w := by
  rcases searched with empty | shows
  · rw [Table.find?_empty keyed.toWellFormed empty, Table.find?_empty keyed.toWellFormed empty]
  · obtain ⟨hw, hu, same⟩ := shows.equalIn_meaning means
    exact (keyed.find?_congr lawful_known.toKeyLaw hw hu same).symm

theorem find?_vector (v : Vector Metadata Value) (key : Value) :
    (Value.vector v).find? key = key.asInt?.bind v.lookup? := by
  cases key <;> rfl

theorem find?_str (s : String) (key : Value) :
    (Value.str s).find? key = key.asInt?.bind (charAt? s) := by
  cases key <;> rfl

/-- Nothing but a table is searched by hash. -/
theorem find?_means {coll : Value} (plain : coll.sort < 2) {st : Store Value} {key w : Value}
    (means : Means st key w) : coll.find? key = coll.find? w := by
  have same := asInt?_means means
  cases coll with
  | vector v => rw [find?_vector, find?_vector, same]
  | str s => rw [find?_str, find?_str, same]
  | map | set => simp [sort] at plain
  | _ => rfl

/-- The kinds of values that tell whether they hold a key. -/
def isSearchable : Value → Bool
  | .nil | .map _ | .set _ | .vector _ => true
  | _ => false

theorem assoc_other {v : Vector Metadata Value} {k : Value} (other : k.asInt? = none) (fuel : ℕ)
    (x : Value) : (Value.vector v).assoc fuel k x = invalidKey fuel "vector" k := by
  cases k <;> first | rfl | cases other

theorem assoc_index (v : Vector Metadata Value) (fuel : ℕ) (index : Int64) (x : Value) :
    (Value.vector v).assoc fuel (.int index) x = liftM ((v.set index x).map Value.vector) := by
  unfold assoc
  dsimp only
  cases v.set index x <;> rfl

/-- A vector of a key and a value is an entry for a map. -/
theorem conj_pair (m : Map Metadata Value Value) {pair : Vector Metadata Value} {key x : Value}
    (two : pair.toList = [key, x]) (fuel : ℕ) :
    (Value.map m).conj fuel (.vector pair) =
      do return .map (m.insert (← key.realize fuel) x) := by
  unfold conj
  dsimp only
  rw [two]

theorem conj_pair_other (m : Map Metadata Value Value) {pair : Vector Metadata Value}
    (other : pair.toList.length ≠ 2) (fuel : ℕ) :
    (Value.map m).conj fuel (.vector pair) = invalidKey fuel "map" (.vector pair) := by
  unfold conj
  dsimp only
  split
  case h_1 two =>
    rw [two] at other
    exact absurd rfl other
  case h_2 => rfl

/-- The map that a value stands for; nil stands for an empty one. -/
def asMap? : Value → Option (Map Metadata Value Value)
  | .nil => some {}
  | .map m => some m
  | _ => none

section Realized

variable {st : Store Value} {key : Value} {P : Value → Prop}
  (realizes : Delivers st (fun fuel => key.realize fuel) fun _ u => P u)
include realizes

theorem conj_set_does (s : Set Metadata Value) :
    Does st (fun fuel => (Value.set s).conj fuel key) fun _ r =>
      ∃ u, P u ∧ r = .ok (.set (s.insert u)) :=
  realizes.answers fun _ _ u made _ _ => ⟨u, made, rfl⟩

theorem conj_entry_does (m : Map Metadata Value Value) {pair : Vector Metadata Value} {x : Value}
    (two : pair.toList = [key, x]) :
    Does st (fun fuel => (Value.map m).conj fuel (.vector pair)) fun _ r =>
      ∃ u, P u ∧ r = .ok (.map (m.insert u x)) := by
  simp only [conj_pair m two]
  exact realizes.answers fun _ _ u made _ _ => ⟨u, made, rfl⟩

end Realized

section Key

variable {st : Store Value} (sane : Sane st) {coll key w : Value} (whole : Whole st key)
include sane whole

theorem searchKey_delivers {V : Type} (t : Table Value V) :
    Delivers st (fun fuel => searchKey fuel t key) fun _ u => Searched st t key u := by
  unfold searchKey
  split
  case isTrue empty => exact delivers_pure fun _ _ => .inl empty
  case isFalse => exact (realize_delivers sane whole).imp fun _ _ _ shows => .inr shows

theorem assoc_does {m : Map Metadata Value Value} (stands : coll.asMap? = some m) (x : Value) :
    Does st (fun fuel => coll.assoc fuel key x) fun _ r =>
      ∃ u, Shows st key u ∧ r = .ok (.map (m.insert u x)) := by
  have stored : Does st (fun fuel => do return Value.map (m.insert (← key.realize fuel) x))
      fun _ r => ∃ u, Shows st key u ∧ r = .ok (.map (m.insert u x)) :=
    (realize_delivers sane whole).answers fun _ _ u shows _ _ => ⟨u, shows, rfl⟩
  cases coll with
  | nil | map =>
    cases stands
    exact stored
  | _ => cases stands

theorem dissoc_does (m : Map Metadata Value Value) :
    Does st (fun fuel => (Value.map m).dissoc fuel key) fun _ r =>
      ∃ u, Searched st m.toTable key u ∧ r = .ok (.map (m.erase u)) :=
  (searchKey_delivers sane whole m.toTable).answers fun _ _ u searched _ _ => ⟨u, searched, rfl⟩

theorem disj_does (s : Set Metadata Value) :
    Does st (fun fuel => (Value.set s).disj fuel key) fun _ r =>
      ∃ u, Searched st s.toTable key u ∧ r = .ok (.set (s.erase u)) :=
  (searchKey_delivers sane whole s.toTable).answers fun _ _ u searched _ _ => ⟨u, searched, rfl⟩

variable (means : KnownMeaning st key w)
include means

theorem lookupKey_delivers (valid : In st coll) :
    Delivers st (fun fuel => lookupKey fuel coll key) fun _ u => coll.find? u = coll.find? w := by
  cases coll with
  | map m =>
    refine (searchKey_delivers sane whole m.toTable).imp fun _ _ u searched => ?_
    exact congrArg (Option.map (·.2)) (find?_searched (valid_entries valid).1 searched means)
  | set s =>
    refine (searchKey_delivers sane whole s.toTable).imp fun _ _ u searched => ?_
    exact congrArg (Option.map (·.1)) (find?_searched (valid_elements valid) searched means)
  | _ => exact delivers_pure fun _ _ => find?_means (by simp [sort]) means.1

/-- A lookup answers what is stored for the meaning of the key, or the default. -/
theorem get_delivers (valid : In st coll) (default : Option Value) :
    Delivers st (fun fuel => coll.get fuel key default) fun _ r =>
      r = (coll.find? w).getD (default.getD .nil) := by
  refine (lookupKey_delivers sane whole means valid).returns fun _ _ u found _ _ => ?_
  rw [found]

theorem contains_does (valid : In st coll) :
    Gives st (fun fuel => coll.contains fuel key) (if coll.isSearchable
      then .ok (coll.find? w).isSome else .error (.unsupported "contains" coll.kind)) := by
  refine (lookupKey_delivers sane whole means valid).andThen fun _ _ u found => ?_
  rw [← found]
  cases coll with
  | map m => exact does_pure fun _ _ => congrArg Except.ok Option.isSome_map.symm
  | set s => exact does_pure fun _ _ => congrArg Except.ok Option.isSome_map.symm
  | vector v =>
    rw [find?_vector]
    cases u with
    | int index =>
      exact does_pure fun _ _ =>
        congrArg Except.ok (Vector.lookup?_isSome (holds_of_valid valid).1 index).symm
    | _ => exact does_pure fun _ _ => rfl
  | nil => exact does_pure fun _ _ => rfl
  | _ => exact does_throw fun _ _ => rfl

end Key

end Value

end Persistent
