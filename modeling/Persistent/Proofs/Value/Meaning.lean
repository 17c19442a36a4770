import Persistent.Proofs.Value.Sane

/-!
What finite values mean. Every sequence in a finite value reads to an end, and the value means a
known one, with the items that are read in place of the cells. No look at a cell changes the
meaning of a value.
-/

set_option autoImplicit false

namespace Persistent.Value

/-- Every sequence in the value, however deep, has an end. -/
inductive Finite (st : Store Value) : Value → Prop
  | flat {v : Value} (h : v.isFlat = true) : Finite st v
  | set {s : Set Metadata Value} : Finite st (.set s)
  | spine {v : Value} {s : Seq Value} {xs : List Value} (sequence : v.sequence? = some s)
      (reads : Seq.Reads st s xs) (items : ∀ x ∈ xs, Finite st x) : Finite st v
  | map {m : Map Metadata Value Value} (values : ∀ x ∈ m.values, Finite st x) :
      Finite st (.map m)

/-- The known value `w` has the parts of `v`, with what is read in place of lazy cells. -/
inductive Means (st : Store Value) : Value → Value → Prop
  | flat {v : Value} (h : v.isFlat = true) : Means st v v
  | set {s : Set Metadata Value} : Means st (.set s) (.set s)
  | spine {v w : Value} {s : Seq Value} {xs ys : List Value} (sequence : v.sequence? = some s)
      (reads : Seq.Reads st s xs) (spine : w.spine? = some (ys, none))
      (items : List.Forall₂ (Means st) xs ys) : Means st v w
  | map {m n : Map Metadata Value Value} (keys : m.keys = n.keys)
      (values : List.Forall₂ (Means st) m.values n.values) : Means st (.map m) (.map n)

theorem sizeOf_values {m : Map Metadata Value Value} {x : Value} (h : x ∈ m.values) :
    sizeOf x < sizeOf (Value.map m) := by
  obtain ⟨e, he, rfl⟩ := List.mem_map.1 h
  have := Map.sizeOf_mem he
  rw [Value.map.sizeOf_spec]
  omega

theorem Means.later {st st' : Store Value} (later : Seq.Later st st') {v w : Value}
    (h : Means st v w) : Means st' v w := by
  induction size : sizeOf w using Nat.strongRecOn generalizing v w with
  | ind n ih =>
    subst size
    cases h with
    | flat h => exact .flat h
    | set => exact .set
    | spine sequence reads spine items =>
      refine .spine sequence (later.reads _ _ reads) spine (forall₂_imp_mem items ?_)
      intro x _ y hy h
      exact ih _ (sizeOf_spine spine hy) h rfl
    | map keys values =>
      refine .map keys (forall₂_imp_mem values ?_)
      intro x _ y hy h
      exact ih _ (sizeOf_values hy) h rfl

theorem reads_known {st : Store Value} {s : Seq Value} (closed : s.pending? = none) :
    Seq.Reads st s s.known := by
  induction s with
  | nil => exact .nil
  | cons x rest ih => exact .cons (ih closed)
  | list x rest => exact .list
  | lazy i => cases closed

theorem sequence_of_spine {v : Value} {xs : List Value} (st : Store Value)
    (h : v.spine? = some (xs, none)) : ∃ s, v.sequence? = some s ∧ Seq.Reads st s xs := by
  cases v with
  | list l =>
    cases h
    exact ⟨_, rfl, Seq.reads_ofList st _⟩
  | vector v =>
    cases h
    exact ⟨_, rfl, Seq.reads_ofList st _⟩
  | seq s =>
    have parts := Prod.mk.inj (Option.some.inj h)
    exact ⟨s, rfl, parts.1 ▸ reads_known parts.2⟩
  | _ => cases h

variable [Hasher]

theorem known_items {v : Value} {xs : List Value} {i : Option ℕ} (known : v.Known)
    (spine : v.spine? = some (xs, i)) : ∀ x ∈ xs, x.Known :=
  fun x hx => ((Small.items ⟨known, Nat.lt_succ_self _⟩ spine).2 x hx).1

theorem valid_entries {N : ℕ} {m : Map Metadata Value Value} (valid : (Value.map m).Valid N) :
    m.Over Known ∧ ∀ e ∈ m.toList, e.2.Valid N := by
  cases valid with
  | flat h => cases h
  | map wf keys values => exact ⟨⟨wf, keys⟩, values⟩

theorem valid_elements {N : ℕ} {s : Set Metadata Value} (valid : (Value.set s).Valid N) :
    s.Over Known := by
  cases valid with
  | flat h => cases h
  | set wf elements => exact ⟨wf, elements⟩

theorem means_self (st : Store Value) {v : Value} (known : v.Known) : Means st v v := by
  induction size : sizeOf v using Nat.strongRecOn generalizing v with
  | ind n ih =>
    subst size
    have spine {xs : List Value} (spine : v.spine? = some (xs, none))
        (items : ∀ x ∈ xs, x.Known) : Means st v v := by
      obtain ⟨s, sequence, reads⟩ := sequence_of_spine st spine
      refine .spine sequence reads spine (List.forall₂_same.2 ?_)
      intro x hx
      exact ih _ (sizeOf_spine spine hx) (items x hx) rfl
    cases known with
    | flat h => exact .flat h
    | list items => exact spine rfl items
    | vector held items => exact spine rfl items
    | @seq _ s items cell =>
      have closed := Known.pending?_eq (.seq items cell)
      exact spine (by rw [spine?, closed]) items
    | @map _ m wf keys values =>
      refine .map rfl (List.forall₂_same.2 ?_)
      intro x hx
      have smaller := sizeOf_values hx
      obtain ⟨e, he, rfl⟩ := List.mem_map.1 hx
      exact ih _ smaller (values e he) rfl
    | set => exact .set

/-- A map with other values under the same keys. -/
theorem exists_with_values {m : Map Metadata Value Value} {ys : List Value}
    (keyed : m.Over Known) (length : m.values.length = ys.length) :
    ∃ n : Map Metadata Value Value, n.Over Known ∧ n.keys = m.keys ∧ n.values = ys := by
  have count : m.keys.length = ys.length := by
    rw [← length, Table.keys, Table.values, List.length_map, List.length_map]
  have firsts : (m.keys.zip ys).map (·.1) = m.keys := List.map_fst_zip count.le
  have keys : List.Forall₂ (fun e f => EqualIn Known e.1 f.1) m.toList (m.keys.zip ys) := by
    have same : List.Forall₂ (· = ·) (m.toList.map (·.1)) ((m.keys.zip ys).map (·.1)) := by
      rw [List.forall₂_eq_eq_eq]
      exact firsts.symm
    rw [List.forall₂_map_left_iff, List.forall₂_map_right_iff] at same
    refine forall₂_imp_mem same fun e he f _ h => ?_
    exact h ▸ equalIn_refl lawful_known.toKeyLaw (keyed.keys e he)
  obtain ⟨keyed', entries⟩ := keyed.refill lawful_known.toKeyLaw keys
  refine ⟨{ m with toTable := m.toTable.refill (m.keys.zip ys) }, keyed', ?_, ?_⟩
  · rw [Table.keys, entries]
    exact firsts
  · rw [Table.values, entries]
    exact List.map_snd_zip count.ge

theorem known_of_related {st : Store Value} {xs ys : List Value}
    (related : List.Forall₂ (fun x y => Means st x y ∧ y.Known) xs ys) : ∀ y ∈ ys, y.Known := by
  intro y hy
  obtain ⟨x, -, h⟩ := Matches.exists_mem ⟨_, related.flip, .refl _⟩ hy
  exact h.2

theorem exists_means {st : Store Value} (sane : Sane st) {v : Value} (finite : Finite st v)
    (valid : v.Valid st.cells.size) : ∃ w, Means st v w ∧ w.Known := by
  induction finite with
  | flat h => exact ⟨_, .flat h, .flat h⟩
  | set =>
    cases valid with
    | flat h => cases h
    | set wf elements => exact ⟨_, .set, .set wf elements⟩
  | @spine v s xs sequence reads items ih =>
    have parts := valid_reads sane reads (valid_sequence valid sequence)
    obtain ⟨ys, related⟩ := exists_forall₂ fun x hx => ih x hx (parts x hx)
    exact ⟨.list (ConsList.ofList ys), .spine sequence reads rfl (related.imp fun _ _ h => h.1),
      .list (known_of_related related)⟩
  | @map m values ih =>
    cases valid with
    | flat h => cases h
    | map wf keys valid =>
      have each : ∀ x ∈ m.values, ∃ y, Means st x y ∧ y.Known := by
        intro x hx
        obtain ⟨e, he, rfl⟩ := List.mem_map.1 hx
        exact ih e.2 hx (valid e he)
      obtain ⟨ys, related⟩ := exists_forall₂ each
      have means := related.imp fun _ _ h => h.1
      obtain ⟨n, keyed, keys', values'⟩ := exists_with_values ⟨wf, keys⟩ means.length_eq
      refine ⟨.map n, .map keys'.symm (values' ▸ means), .map keyed.toWellFormed keyed.keys ?_⟩
      intro e he
      exact known_of_related related e.2 (values' ▸ List.mem_map_of_mem he)

end Persistent.Value
