import Persistent.Proofs.Value.Items
import Persistent.Proofs.Value.Keying

/-!
Peers are twins of one kind. Their parts are twins, under equal keys and at equal positions, and
what is stored in, added to or taken out of both alike leaves peers.
-/

set_option autoImplicit false

namespace Persistent

theorem forall₂_getElem? {A B : Type} {R : A → B → Prop} {xs : List A} {ys : List B}
    (h : List.Forall₂ R xs ys) (i : ℕ) : Option.Rel R xs[i]? ys[i]? := by
  induction h generalizing i with
  | nil => exact .none
  | cons first _ ih =>
    cases i with
    | zero => exact .some first
    | succ i => exact ih i

theorem forall₂_set {A B : Type} {R : A → B → Prop} {xs : List A} {ys : List B}
    (h : List.Forall₂ R xs ys) (i : ℕ) {x : A} {y : B} (related : R x y) :
    List.Forall₂ R (xs.set i x) (ys.set i y) := by
  induction h generalizing i with
  | nil => exact .nil
  | cons first rest ih =>
    cases i with
    | zero => exact .cons related rest
    | succ i => exact .cons first (ih i)

theorem forall₂_head? {A B : Type} {R : A → B → Prop} {xs : List A} {ys : List B}
    (h : List.Forall₂ R xs ys) : Option.Rel R xs.head? ys.head? := by
  rw [List.head?_eq_getElem?, List.head?_eq_getElem?]
  exact forall₂_getElem? h 0

theorem Vector.resolve_congr {μ ν A B : Type} {v : Vector μ A} {w : Vector ν B}
    (size : v.size = w.size) (index : Int64) : v.resolve index = w.resolve index := by
  unfold resolve
  rw [size]

theorem Vector.size_congr {μ ν A B : Type} {R : A → B → Prop} {v : Vector μ A} {w : Vector ν B}
    {xs : List A} {ys : List B} (left : v.Holds xs) (right : w.Holds ys)
    (items : List.Forall₂ R xs ys) : v.size = w.size := by
  rw [left.size_eq, right.size_eq, items.length_eq]

namespace Value

theorem eq_or_symbols {a b : Value} (same : a.bare = b.bare) :
    a = b ∨ ∃ s t, a = .symbol s ∧ b = .symbol t := by
  have bare (v : Value) : v.bare = v ∨ ∃ s, v = .symbol s := by
    cases v with
    | symbol s => exact .inr ⟨s, rfl⟩
    | _ => exact .inl rfl
  rcases bare a with plain | ⟨s, rfl⟩
  · rcases bare b with plain' | ⟨t, rfl⟩
    · exact .inl (plain.symm.trans (same.trans plain'))
    · cases plain.symm.trans same
      exact .inr ⟨_, t, rfl, rfl⟩
  · rcases bare b with plain' | ⟨t, rfl⟩
    · cases plain'.symm.trans same.symm
      exact .inr ⟨s, _, rfl, rfl⟩
    · exact .inr ⟨s, t, rfl, rfl⟩

theorem charAt?_flat {s : String} {index : Int64} {x : Value} (h : charAt? s index = some x) :
    x.isFlat = true := by
  unfold charAt? at h
  split at h
  case isTrue => cases h
  case isFalse =>
    obtain ⟨c, -, rfl⟩ := Option.map_eq_some_iff.1 h
    rfl

variable [Hasher]

/-- Equal values of one kind, part by part. -/
inductive Paired (st : Store Value) : Value → Value → Prop
  | same {a : Value} (flat : a.isFlat = true) : Paired st a a
  | symbol {s t : Symbol Metadata} : Paired st (.symbol s) (.symbol t)
  | list {l k : ConsList Metadata Value} (items : List.Forall₂ (Twins st) l.items k.items) :
      Paired st (.list l) (.list k)
  | vector {v w : Vector Metadata Value} (left : v.Holds v.toList) (right : w.Holds w.toList)
      (items : List.Forall₂ (Twins st) v.toList w.toList) : Paired st (.vector v) (.vector w)
  | seq {s t : Seq Value} {xs ys : List Value} (left : Offers st s xs) (right : Offers st t ys)
      (items : List.Forall₂ (Twins st) xs ys) : Paired st (.seq s) (.seq t)
  | map {m n : Map Metadata Value Value} (left : Whole st (.map m)) (right : Whole st (.map n))
      (entries : m.toTable.Aligned Known (Twins st) n.toTable) : Paired st (.map m) (.map n)
  | set {s t : Set Metadata Value} (left : s.Over Known) (right : t.Over Known)
      (elements : s.toTable.Aligned Known (fun _ _ => True) t.toTable) :
      Paired st (.set s) (.set t)

/-- Twins of the same kind. -/
structure Peers (st : Store Value) (a b : Value) : Prop where
  twins : Twins st a b
  kind : a.kind = b.kind

section Sane

variable {st : Store Value} (sane : Sane st)
include sane

theorem Peers.paired {a b : Value} (h : Peers st a b) : Paired st a b := by
  have sorts := h.twins.sort_eq sane
  have kinds := h.kind
  by_cases flat : a.isFlat = true
  · rcases eq_or_symbols (h.twins.bare_eq sane flat) with rfl | ⟨s, t, rfl, rfl⟩
    · exact .same flat
    · exact .symbol
  cases a with
  | list l =>
    obtain ⟨t, xs, ys, sequence, reads, reads', items⟩ := h.twins.items sane rfl
    cases b <;> simp [Value.kind] at kinds
    cases sequence
    cases Seq.reads_ofList_eq reads
    cases Seq.reads_ofList_eq reads'
    exact .list items
  | vector v =>
    obtain ⟨t, xs, ys, sequence, reads, reads', items⟩ := h.twins.items sane rfl
    cases b <;> simp [Value.kind] at kinds
    cases sequence
    cases Seq.reads_ofList_eq reads
    cases Seq.reads_ofList_eq reads'
    exact .vector (holds_of_valid h.twins.left.valid).1 (holds_of_valid h.twins.right.valid).1 items
  | seq s =>
    obtain ⟨t, xs, ys, sequence, reads, reads', items⟩ := h.twins.items sane rfl
    cases b <;> simp [Value.kind] at kinds
    cases sequence
    exact .seq ⟨h.twins.left.valid, reads⟩ ⟨h.twins.right.valid, reads'⟩ items
  | map m =>
    cases b <;> simp [Value.kind] at kinds
    exact .map h.twins.left h.twins.right
      ((twins_map_iff sane h.twins.left h.twins.right).1 h.twins)
  | set s =>
    cases b <;> simp [Value.kind] at kinds
    exact .set (valid_elements h.twins.left.valid) (valid_elements h.twins.right.valid)
      ((twins_set_iff sane h.twins.left.valid h.twins.right.valid).1 h.twins)
  | _ => exact absurd rfl flat

/-- Twins without a sequence in them are of one kind. -/
theorem Twins.kind_eq {a b : Value} (h : Twins st a b) (plain : a.sort ≠ 1) : a.kind = b.kind := by
  have sorts := h.sort_eq sane
  by_cases flat : a.isFlat = true
  · rcases eq_or_symbols (h.bare_eq sane flat) with rfl | ⟨s, t, rfl, rfl⟩ <;> rfl
  cases a with
  | map =>
    cases b <;> first | rfl | cases sorts
  | set =>
    cases b <;> first | rfl | cases sorts
  | list | vector | seq => exact absurd rfl plain
  | _ => exact absurd rfl flat

theorem Twins.asInt?_eq {a b : Value} (h : Twins st a b) : a.asInt? = b.asInt? := by
  by_cases flat : a.isFlat = true
  · rcases eq_or_symbols (h.bare_eq sane flat) with rfl | ⟨s, t, rfl, rfl⟩ <;> rfl
  · have parted : a.sort ≠ 0 := by
      intro zero
      cases a <;> first | exact flat rfl | cases zero
    rw [asInt?_of_sort parted, asInt?_of_sort (h.sort_eq sane ▸ parted)]

/-- Equal keys are the same index, or none of them is an index. -/
theorem Twins.index {k k' : Value} (h : Twins st k k') :
    (k.asInt? = none ∧ k'.asInt? = none) ∨ ∃ i, k = .int i ∧ k' = .int i := by
  have ints := h.asInt?_eq sane
  cases index : k.asInt? with
  | none => exact .inl ⟨rfl, ints.symm.trans index⟩
  | some i => exact .inr ⟨i, asInt?_eq_some.1 index, asInt?_eq_some.1 (ints.symm.trans index)⟩

/-- What equal keys are realized to is equal. -/
theorem Twins.shown {k k' u u' : Value} (h : Twins st k k') (shows : Shows st k u)
    (shows' : Shows st k' u') : EqualIn Known u u' := by
  have law := lawful_known
  obtain ⟨w, w', means, means', known, known', same⟩ := h.meanings sane
  have left := shows.equalIn_meaning ⟨means, known⟩
  have right := shows'.equalIn_meaning ⟨means', known'⟩
  have back := law.symm known left.2.1 left.2.2
  have across := law.trans left.2.1 known known' back same
  exact ⟨left.2.1, right.2.1, law.trans left.2.1 known' right.2.1 across right.2.2⟩

/-- Equal keys find twins in peers, or nothing in either. -/
theorem Paired.find? {a b w w' : Value} (h : Paired st a b) (keys : EqualIn Known w w') :
    Option.Rel (Twins st) (a.find? w) (b.find? w') := by
  have law := lawful_known.toKeyLaw
  have ints := (twins_of_equalIn sane keys).asInt?_eq sane
  cases h with
  | @same a flat =>
    cases a with
    | str s =>
      rw [find?_str, find?_str, ← ints]
      cases found : w.asInt?.bind (charAt? s) with
      | none => exact .none
      | some x =>
        obtain ⟨index, -, here⟩ := Option.bind_eq_some_iff.1 found
        exact .some (.refl sane (whole_flat st (charAt?_flat here)))
    | nil | bool | int | keyword | symbol => exact .none
    | _ => cases flat
  | symbol | list | seq => exact .none
  | @vector v v' left right items =>
    rw [find?_vector, find?_vector, ← ints]
    cases w.asInt? with
    | none => exact .none
    | some index =>
      change Option.Rel _ ((v.resolve index).bind v.get?) ((v'.resolve index).bind v'.get?)
      rw [← Vector.resolve_congr (Vector.size_congr left right items)]
      cases v.resolve index with
      | none => exact .none
      | some p =>
        rw [Option.bind_some, Option.bind_some, left.get?_eq, right.get?_eq]
        exact forall₂_getElem? items p
  | @map m n left right entries =>
    have found := entries.find?_rel law (valid_entries right.valid).1 keys
    change Option.Rel _ ((m.find? w).map (·.2)) ((n.find? w').map (·.2))
    generalize m.toTable.find? w = e at found
    generalize n.toTable.find? w' = f at found
    cases found with
    | none => exact .none
    | some related => exact .some related.2
  | @set s t left right elements =>
    have found := elements.find?_rel law right keys
    change Option.Rel _ ((s.find? w).map (·.1)) ((t.find? w').map (·.1))
    generalize s.toTable.find? w = e at found
    generalize t.toTable.find? w' = f at found
    cases found with
    | none => exact .none
    | some related => exact .some (twins_of_equalIn sane related.1)

/-! What is made of twins. -/

theorem twins_list {l k : ConsList Metadata Value}
    (items : List.Forall₂ (Twins st) l.items k.items) : Twins st (.list l) (.list k) :=
  twins_of_items sane (.list fun x hx => (left_of_items items x hx).valid)
    (.list fun y hy => (right_of_items items y hy).valid) rfl rfl (Seq.reads_ofList st _)
    (Seq.reads_ofList st _) items

theorem twins_vector {v w : Vector Metadata Value} {xs ys : List Value} (left : v.Holds xs)
    (right : w.Holds ys) (items : List.Forall₂ (Twins st) xs ys) :
    Twins st (.vector v) (.vector w) := by
  have valid : In st (.vector v) := valid_vector left fun x hx => (left_of_items items x hx).valid
  have valid' : In st (.vector w) :=
    valid_vector right fun y hy => (right_of_items items y hy).valid
  cases left.toList_eq
  cases right.toList_eq
  exact twins_of_items sane valid valid' rfl rfl (Seq.reads_ofList st _) (Seq.reads_ofList st _)
    items

theorem twins_seq {s t : Seq Value} {xs ys : List Value} (left : Offers st s xs)
    (right : Offers st t ys) (items : List.Forall₂ (Twins st) xs ys) : Twins st (.seq s) (.seq t) :=
  twins_of_items sane left.valid right.valid rfl rfl left.reads right.reads items

omit sane in
theorem whole_insert {m : Map Metadata Value Value} (whole : Whole st (.map m)) {u x : Value}
    (known : u.Known) (hx : Whole st x) : Whole st (.map (m.insert u x)) :=
  whole_map (valid_insert whole.valid known hx.valid)
    ((valid_entries whole.valid).1.values_insert lawful_known.toKeyLaw known hx whole.values)

omit sane in
theorem whole_merge {m n : Map Metadata Value Value} (left : Whole st (.map m))
    (right : Whole st (.map n)) : Whole st (.map (m.merge n)) :=
  whole_map (valid_merge left.valid right.valid)
    ((valid_entries left.valid).1.values_insertAll lawful_known.toKeyLaw
      (valid_entries right.valid).1.keys right.values left.values)

omit sane in
theorem whole_erase {m : Map Metadata Value Value} (whole : Whole st (.map m)) {key u : Value}
    (searched : Searched st m.toTable key u) : Whole st (.map (m.erase u)) := by
  obtain ⟨keyed, -⟩ := valid_entries whole.valid
  have found := searched.imp_right Shows.known
  exact whole_map (valid_map (over_erase keyed found) (values_erase keyed found
    (valid_entries whole.valid).2)) (values_erase keyed found whole.values)

theorem twins_insert {m n : Map Metadata Value Value} (left : Whole st (.map m))
    (right : Whole st (.map n)) (entries : m.toTable.Aligned Known (Twins st) n.toTable)
    {u u' x x' : Value} (keys : EqualIn Known u u') (values : Twins st x x') :
    Twins st (.map (m.insert u x)) (.map (n.insert u' x')) :=
  (twins_map_iff sane (whole_insert left keys.1 values.left)
    (whole_insert right keys.2.1 values.right)).2
    (entries.insert lawful_known.toKeyLaw (valid_entries left.valid).1
      (valid_entries right.valid).1 keys values)

theorem twins_merge {m n m' n' : Map Metadata Value Value} (left : Whole st (.map m))
    (right : Whole st (.map n)) (entries : m.toTable.Aligned Known (Twins st) n.toTable)
    (left' : Whole st (.map m')) (right' : Whole st (.map n'))
    (entries' : m'.toTable.Aligned Known (Twins st) n'.toTable) :
    Twins st (.map (m.merge m')) (.map (n.merge n')) :=
  (twins_map_iff sane (whole_merge left left') (whole_merge right right')).2
    (entries.merge lawful_known.toKeyLaw (valid_entries left.valid).1 (valid_entries right.valid).1
      (valid_entries left'.valid).1 (valid_entries right'.valid).1 entries')

/-- Aligned tables are both empty, or both are searched for what the keys are realized to. -/
theorem aligned_erase {V W : Type} {S : V → W → Prop} {t : Table Value V} {r : Table Value W}
    (left : t.Over Known) (right : r.Over Known) (entries : t.Aligned Known S r)
    {k k' u u' : Value} (keys : Twins st k k') (searched : Searched st t k u)
    (searched' : Searched st r k' u') : (t.erase u).Aligned Known S (r.erase u') := by
  have law := lawful_known.toKeyLaw
  have both : t.isEmpty = r.isEmpty := by
    unfold Table.isEmpty
    rw [entries.size_eq law left right]
  by_cases empty : t.isEmpty = true
  · rw [Table.erase_empty left.toWellFormed empty,
      Table.erase_empty right.toWellFormed (both ▸ empty)]
    exact entries
  · have shows := searched.resolve_left empty
    have shows' := searched'.resolve_left (both ▸ empty)
    exact entries.erase law left right (keys.shown sane shows shows')

theorem twins_erase {m n : Map Metadata Value Value} (left : Whole st (.map m))
    (right : Whole st (.map n)) (entries : m.toTable.Aligned Known (Twins st) n.toTable)
    {k k' u u' : Value} (keys : Twins st k k') (searched : Searched st m.toTable k u)
    (searched' : Searched st n.toTable k' u') :
    Twins st (.map (m.erase u)) (.map (n.erase u')) :=
  (twins_map_iff sane (whole_erase left searched) (whole_erase right searched')).2
    (aligned_erase sane (valid_entries left.valid).1 (valid_entries right.valid).1 entries keys
      searched searched')

theorem twins_setInsert {s t : Set Metadata Value} (left : s.Over Known) (right : t.Over Known)
    (elements : s.toTable.Aligned Known (fun _ _ => True) t.toTable) {u u' : Value}
    (keys : EqualIn Known u u') : Twins st (.set (s.insert u)) (.set (t.insert u')) := by
  have law := lawful_known.toKeyLaw
  refine (twins_set_iff sane (valid_set (Set.over_insert lawful_known.toKeyLaw left keys.1))
    (valid_set (Set.over_insert lawful_known.toKeyLaw right keys.2.1))).2 ?_
  have found := elements.find?_rel law right keys
  have both : s.contains u = t.contains u' := by
    unfold Table.contains
    generalize s.toTable.find? u = e at found
    generalize t.toTable.find? u' = f at found
    cases found <;> rfl
  unfold Set.insert
  rw [← both]
  cases s.contains u with
  | true => exact elements
  | false => exact elements.insert law left right keys trivial

theorem twins_setErase {s t : Set Metadata Value} (left : s.Over Known) (right : t.Over Known)
    (elements : s.toTable.Aligned Known (fun _ _ => True) t.toTable) {k k' u u' : Value}
    (keys : Twins st k k') (searched : Searched st s.toTable k u)
    (searched' : Searched st t.toTable k' u') :
    Twins st (.set (s.erase u)) (.set (t.erase u')) :=
  (twins_set_iff sane (valid_set (over_erase left (searched.imp_right Shows.known)))
    (valid_set (over_erase right (searched'.imp_right Shows.known)))).2
    (aligned_erase sane left right elements keys searched searched')

end Sane

end Value

end Persistent
