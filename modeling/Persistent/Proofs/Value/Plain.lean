import Persistent.Proofs.Value.Laws

/-!
Plain values: what is built without names, in finite collections, with whatever metadata. What a
plain value means is plain, and so is every known value equal to a plain one.
-/

set_option autoImplicit false

namespace Persistent.Value

/-- Built from nil, booleans, integers, strings and finite collections of such values. -/
inductive Plain (st : Store Value) : Value → Prop
  | nil : Plain st .nil
  | bool (b : Bool) : Plain st (.bool b)
  | int (n : Int64) : Plain st (.int n)
  | str (s : String) : Plain st (.str s)
  | spine {v : Value} {s : Seq Value} {xs : List Value} (sequence : v.sequence? = some s)
      (reads : Seq.Reads st s xs) (items : ∀ x ∈ xs, Plain st x) : Plain st v
  | map {m : Map Metadata Value Value} (keys : ∀ k ∈ m.keys, Plain st k)
      (values : ∀ x ∈ m.values, Plain st x) : Plain st (.map m)
  | set {s : Set Metadata Value} (elements : ∀ x ∈ s.elements, Plain st x) : Plain st (.set s)

variable {st : Store Value}

theorem Plain.finite {v : Value} (plain : Plain st v) : Finite st v := by
  induction plain with
  | nil | bool | int | str => exact .flat rfl
  | spine sequence reads _ ih => exact .spine sequence reads ih
  | map _ _ _ ih => exact .map ih
  | set => exact .set

/-- A flat value is plain if it is no name, whatever the store. -/
theorem Plain.eq_of_bare {v w : Value} (plain : Plain st w) (flat : w.isFlat = true)
    (same : v.bare = w.bare) : v = w := by
  have bare : w.bare = w := by
    cases plain with
    | spine sequence => cases (sort_of_flat flat).symm.trans (sort_of_sequence sequence)
    | map | set => cases flat
    | _ => rfl
  rw [bare] at same
  cases v with
  | symbol s =>
    rw [← same] at plain
    cases plain with
    | spine sequence => cases sequence
  | _ => exact same

theorem Plain.entries {m : Map Metadata Value Value} (plain : Plain st (.map m)) :
    ∀ e ∈ m.toList, Plain st e.1 ∧ Plain st e.2 := by
  cases plain with
  | spine sequence => cases sequence
  | map keys values =>
    exact fun e he => ⟨keys _ (List.mem_map_of_mem he), values _ (List.mem_map_of_mem he)⟩

theorem Plain.elements {s : Set Metadata Value} (plain : Plain st (.set s)) :
    ∀ x ∈ s.elements, Plain st x := by
  cases plain with
  | spine sequence => cases sequence
  | set elements => exact elements

variable [Hasher]

theorem Plain.whole {v : Value} (plain : Plain st v) (valid : In st v) : Whole st v :=
  ⟨valid, plain.finite⟩

theorem reads_unique (sane : Sane st) {s : Seq Value} {xs ys : List Value}
    (reads : Seq.Reads st s xs) (reads' : Seq.Reads st s ys) : xs = ys :=
  (toList_settles reads).unique sane (toList_settles reads')

section Parts

variable (sane : Sane st)
include sane

theorem Plain.items {v : Value} (plain : Plain st v) {s : Seq Value} {xs : List Value}
    (sequence : v.sequence? = some s) (reads : Seq.Reads st s xs) : ∀ x ∈ xs, Plain st x := by
  cases plain with
  | spine sequence' reads' items =>
    cases sequence.symm.trans sequence'
    rw [reads_unique sane reads reads']
    exact items
  | _ => cases sequence

theorem Plain.known_items {v : Value} (plain : Plain st v) {xs : List Value}
    (spine : v.spine? = some (xs, none)) : ∀ x ∈ xs, Plain st x := by
  obtain ⟨s, sequence, reads⟩ := sequence_of_spine st spine
  exact plain.items sane sequence reads

theorem Plain.of_means {v w : Value} (plain : Plain st v) (means : Means st v w) :
    Plain st w := by
  induction size : sizeOf w using Nat.strongRecOn generalizing v w with
  | ind N ih =>
    subst size
    cases means with
    | flat | set => exact plain
    | spine sequence reads spine items =>
      have parts := plain.items sane sequence reads
      obtain ⟨s', sequence', reads'⟩ := sequence_of_spine st spine
      refine .spine sequence' reads' fun y hy => ?_
      obtain ⟨x, hx, means⟩ := Matches.exists_mem ⟨_, items.flip, .refl _⟩ hy
      exact ih _ (sizeOf_spine spine hy) (parts x hx) means rfl
    | @map m n keys values =>
      have parts := plain.entries
      refine .map (fun k hk => ?_) fun y hy => ?_
      · rw [← keys] at hk
        obtain ⟨e, he, rfl⟩ := List.mem_map.1 hk
        exact (parts e he).1
      · obtain ⟨x, hx, means⟩ := Matches.exists_mem ⟨_, values.flip, .refl _⟩ hy
        obtain ⟨e, he, rfl⟩ := List.mem_map.1 hx
        exact ih _ (sizeOf_values hy) (parts e he).2 means rfl

/-- Whoever equals a plain value is plain. -/
theorem Plain.of_beq {v w : Value} (plain : Plain st w) (hv : v.Known) (hw : w.Known)
    (same : (v == w) = true) : Plain st v := by
  induction size : sizeOf v using Nat.strongRecOn generalizing v w with
  | ind N ih =>
    subst size
    have law := lawful_known.toKeyLaw
    rcases kinds v with flat | ⟨xs, i, spine⟩ | ⟨m, rfl⟩ | ⟨s, rfl⟩
    · have bare := (beq_flat flat w).1 same
      rw [plain.eq_of_bare (isFlat_of_bare flat bare) bare]
      exact plain
    · obtain ⟨rfl, -⟩ := Small.items ⟨hv, Nat.lt_succ_self _⟩ spine
      obtain ⟨ys, spine', items⟩ := (beq_spine_iff spine w).1 same
      obtain ⟨s, sequence, reads⟩ := sequence_of_spine st spine
      refine .spine sequence reads fun x hx => ?_
      obtain ⟨y, hy, equal⟩ := Matches.exists_mem ⟨_, items, .refl _⟩ hx
      exact ih _ (sizeOf_spine spine hx) (plain.known_items sane spine' y hy)
        (Value.known_items hv spine x hx) (Value.known_items hw spine' y hy) equal rfl
    · obtain ⟨n, rfl, -, cover⟩ := (beq_map_iff m w).1 same
      obtain ⟨keyed, values⟩ := valid_entries hv
      obtain ⟨keyed', values'⟩ := valid_entries hw
      have each : ∀ e ∈ m.toList, Plain st e.1 ∧ Plain st e.2 := by
        intro e he
        have smaller := Map.sizeOf_mem he
        obtain ⟨f, found, equal⟩ := cover e he
        obtain ⟨hf, key⟩ := (keyed'.find?_iff law (keyed.keys e he) f).1 found
        have parts := plain.entries f hf
        rw [Value.map.sizeOf_spec] at ih
        exact ⟨ih _ (by omega) parts.1 (keyed.keys e he) (keyed'.keys f hf) key rfl,
          ih _ (by omega) parts.2 (values e he) (values' f hf) equal rfl⟩
      refine .map (fun k hk => ?_) fun x hx => ?_
      · obtain ⟨e, he, rfl⟩ := List.mem_map.1 hk
        exact (each e he).1
      · obtain ⟨e, he, rfl⟩ := List.mem_map.1 hx
        exact (each e he).2
    · obtain ⟨t, rfl, -, cover⟩ := (beq_set_iff s w).1 same
      have keyed := valid_elements hv
      have keyed' := valid_elements hw
      refine .set fun x hx => ?_
      have smaller := Set.sizeOf_mem hx
      obtain ⟨e, he, rfl⟩ := List.mem_map.1 hx
      obtain ⟨f, found⟩ := cover e he
      obtain ⟨hf, key⟩ := (keyed'.find?_iff law (keyed.keys e he) f).1 found
      rw [Value.set.sizeOf_spec] at ih
      exact ih _ (by omega) (plain.elements _ (List.mem_map_of_mem hf)) (keyed.keys e he)
        (keyed'.keys f hf) key rfl

end Parts

end Persistent.Value
