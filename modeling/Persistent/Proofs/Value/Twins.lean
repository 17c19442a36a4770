import Persistent.Proofs.Table.Aligned
import Persistent.Proofs.Value.Laws

/-!
Twins are finite values that the comparison finds equal. Two lists, vectors or sequences are twins
exactly when their items are, two maps when lookups of any key find twins, and two sets when they
hold equal elements. Metadata, and the kind of a part, never matter.
-/

set_option autoImplicit false

namespace Persistent.Value

theorem Finite.later {st st' : Store Value} (later : Seq.Later st st') {v : Value}
    (h : Finite st v) : Finite st' v := by
  induction h with
  | flat h => exact .flat h
  | set => exact .set
  | spine sequence reads _ ih => exact .spine sequence (later.reads _ _ reads) ih
  | map _ ih => exact .map ih

theorem finite_of_means {st : Store Value} {v w : Value} (h : Means st v w) : Finite st v := by
  induction size : sizeOf w using Nat.strongRecOn generalizing v w with
  | ind n ih =>
    subst size
    cases h with
    | flat h => exact .flat h
    | set => exact .set
    | spine sequence reads spine items =>
      refine .spine sequence reads fun x hx => ?_
      obtain ⟨y, hy, means⟩ := Matches.exists_mem ⟨_, items, .refl _⟩ hx
      exact ih _ (sizeOf_spine spine hy) means rfl
    | map keys values =>
      refine .map fun x hx => ?_
      obtain ⟨y, hy, means⟩ := Matches.exists_mem ⟨_, values, .refl _⟩ hx
      exact ih _ (sizeOf_values hy) means rfl

theorem Means.eq_of_flat {st : Store Value} {v w : Value} (h : Means st v w)
    (flat : w.isFlat = true) : v = w := by
  cases h with
  | flat => rfl
  | set | map => cases flat
  | spine _ _ spine => cases (sort_of_flat flat).symm.trans (sort_of_spine spine)

variable [Hasher]

/-- Finite values that are equal. -/
structure Twins (st : Store Value) (a b : Value) : Prop where
  left : Whole st a
  right : Whole st b
  equal : Equals st a b

theorem Whole.later {st st' : Store Value} {v : Value} (h : Whole st v) (leads : Leads st st') :
    Whole st' v :=
  ⟨h.valid.later leads, h.finite.later leads.later⟩

theorem Twins.later {st st' : Store Value} {a b : Value} (h : Twins st a b)
    (leads : Leads st st') : Twins st' a b := by
  obtain ⟨N, run⟩ := h.equal.settles
  refine ⟨h.left.later leads, h.right.later leads, ⟨N, fun fuel enough st₁ leads₁ => ?_⟩, ?_⟩
  · exact run fuel enough st₁ (leads.trans leads₁)
  · exact fun fuel st₁ leads₁ => h.equal.only fuel st₁ (leads.trans leads₁)

theorem whole_of_known (st : Store Value) {v : Value} (known : v.Known) : Whole st v :=
  ⟨known.mono (Nat.zero_le _), finite_of_means (means_self st known)⟩

theorem whole_flat (st : Store Value) {v : Value} (flat : v.isFlat = true) : Whole st v :=
  whole_of_known st (.flat flat)

/-- A known value that the value means. -/
abbrev KnownMeaning (st : Store Value) (v w : Value) : Prop :=
  Means st v w ∧ w.Known

section Sane

variable {st : Store Value} (sane : Sane st)
include sane

theorem Twins.meanings {a b : Value} (h : Twins st a b) :
    ∃ a' b', Means st a a' ∧ Means st b b' ∧ EqualIn Known a' b' := by
  obtain ⟨a', means, known⟩ := h.left.exists_means sane
  obtain ⟨b', means', known'⟩ := h.right.exists_means sane
  have same := (equals_iff sane h.left h.right means means' known known').1 h.equal
  exact ⟨a', b', means, means', known, known', same⟩

theorem twins_iff {a b a' b' : Value} (left : Whole st a) (right : Whole st b)
    (means : KnownMeaning st a a') (means' : KnownMeaning st b b') :
    Twins st a b ↔ (a' == b') = true := by
  rw [← equals_iff sane left right means.1 means'.1 means.2 means'.2]
  exact ⟨fun h => h.equal, fun h => ⟨left, right, h⟩⟩

theorem twins_of_equalIn {a b : Value} (h : EqualIn Known a b) : Twins st a b :=
  (twins_iff sane (whole_of_known st h.1) (whole_of_known st h.2.1) ⟨means_self st h.1, h.1⟩
    ⟨means_self st h.2.1, h.2.1⟩).2 h.2.2

theorem Twins.refl {a : Value} (h : Whole st a) : Twins st a a :=
  ⟨h, h, (lawfulEquality_of_sane sane).refl h⟩

theorem Twins.sort_eq {a b : Value} (h : Twins st a b) : a.sort = b.sort := by
  obtain ⟨a', b', means, means', -, -, same⟩ := h.meanings sane
  rw [means.sort_eq, means'.sort_eq, sort_of_beq same]

theorem Twins.bare_eq {a b : Value} (h : Twins st a b) (flat : a.isFlat = true) :
    a.bare = b.bare := by
  obtain ⟨b', means, known⟩ := h.right.exists_means sane
  have same := (twins_iff sane h.left h.right ⟨.flat flat, .flat flat⟩ ⟨means, known⟩).1 h
  have bare := (beq_flat flat b').1 same
  rw [means.eq_of_flat (isFlat_of_bare flat bare), bare]

/-! Items of lists, vectors and sequences. -/

theorem Whole.reads {v : Value} (whole : Whole st v) {s : Seq Value}
    (sequence : v.sequence? = some s) : ∃ xs, Seq.Reads st s xs ∧ ∀ x ∈ xs, Whole st x := by
  cases whole.finite with
  | flat flat => cases (sort_of_flat flat).symm.trans (sort_of_sequence sequence)
  | set | map => cases sequence
  | spine sequence' reads items =>
    cases sequence.symm.trans sequence'
    have valid := valid_reads sane reads (valid_sequence whole.valid sequence)
    exact ⟨_, reads, fun x hx => ⟨valid x hx, items x hx⟩⟩

/-- The items of a finite list or vector are finite. -/
theorem Whole.items {v : Value} (whole : Whole st v) {xs : List Value}
    (sequence : v.sequence? = some (Seq.ofList xs)) : ∀ x ∈ xs, Whole st x := by
  obtain ⟨ys, reads, wholes⟩ := whole.reads sane sequence
  cases Seq.reads_ofList_eq reads
  exact wholes

theorem twins_items_iff {xs xs' ys ys' : List Value} (hx : ∀ x ∈ xs, Whole st x)
    (hy : ∀ y ∈ ys, Whole st y) (means : List.Forall₂ (KnownMeaning st) xs xs')
    (means' : List.Forall₂ (KnownMeaning st) ys ys') :
    List.Forall₂ (Twins st) xs ys ↔ List.Forall₂ (fun x y => (x == y) = true) xs' ys' := by
  induction means generalizing ys ys' with
  | nil =>
    cases means' with
    | nil => exact ⟨fun _ => .nil, fun _ => .nil⟩
    | cons => exact ⟨nofun, nofun⟩
  | cons first _ ih =>
    cases means' with
    | nil => exact ⟨nofun, nofun⟩
    | cons first' rest' =>
      obtain ⟨whole, hx⟩ := List.forall_mem_cons.1 hx
      obtain ⟨whole', hy⟩ := List.forall_mem_cons.1 hy
      rw [List.forall₂_cons, List.forall₂_cons, twins_iff sane whole whole' first first',
        ih hx hy rest']

theorem twins_spine_iff {a b : Value} {s t : Seq Value} {xs ys : List Value} (left : Whole st a)
    (right : Whole st b) (ha : a.sequence? = some s) (hb : b.sequence? = some t)
    (reads : Seq.Reads st s xs) (reads' : Seq.Reads st t ys) (hx : ∀ x ∈ xs, Whole st x)
    (hy : ∀ y ∈ ys, Whole st y) : Twins st a b ↔ List.Forall₂ (Twins st) xs ys := by
  obtain ⟨xs', means⟩ := exists_forall₂ fun x h => (hx x h).exists_means sane
  obtain ⟨ys', means'⟩ := exists_forall₂ fun y h => (hy y h).exists_means sane
  have meaning {v : Value} {r : Seq Value} {vs vs' : List Value} (hv : v.sequence? = some r)
      (reads : Seq.Reads st r vs) (means : List.Forall₂ (KnownMeaning st) vs vs') :
      KnownMeaning st v (.list (ConsList.ofList vs')) :=
    ⟨.spine hv reads rfl (means.imp fun _ _ h => h.1), .list (known_of_related means)⟩
  have shown : (Value.list (ConsList.ofList xs')).spine? = some (xs', none) := rfl
  rw [twins_iff sane left right (meaning ha reads means) (meaning hb reads' means'),
    twins_items_iff sane hx hy means means', beq_spine_iff shown]
  constructor
  · rintro ⟨_, ⟨⟩, items⟩
    exact items
  · intro items
    exact ⟨ys', rfl, items⟩

/-- Twins of which one has items have items that are twins, whatever their kinds. -/
theorem Twins.items {a b : Value} (h : Twins st a b) {s : Seq Value}
    (ha : a.sequence? = some s) : ∃ t xs ys, b.sequence? = some t ∧ Seq.Reads st s xs ∧
      Seq.Reads st t ys ∧ List.Forall₂ (Twins st) xs ys := by
  have one : (b.sort == 1) = true := by rw [← h.sort_eq sane, sort_of_sequence ha]; rfl
  obtain ⟨t, hb⟩ := Option.isSome_iff_exists.1 ((sequence_isSome b).trans one)
  obtain ⟨xs, reads, hx⟩ := h.left.reads sane ha
  obtain ⟨ys, reads', hy⟩ := h.right.reads sane hb
  have items := (twins_spine_iff sane h.left h.right ha hb reads reads' hx hy).1 h
  exact ⟨t, xs, ys, hb, reads, reads', items⟩

omit sane in
theorem left_of_items {xs ys : List Value} (items : List.Forall₂ (Twins st) xs ys) :
    ∀ x ∈ xs, Whole st x := by
  intro x hx
  obtain ⟨y, -, h⟩ := Matches.exists_mem ⟨_, items, .refl _⟩ hx
  exact h.left

omit sane in
theorem right_of_items {xs ys : List Value} (items : List.Forall₂ (Twins st) xs ys) :
    ∀ y ∈ ys, Whole st y := by
  intro y hy
  obtain ⟨x, -, h⟩ := Matches.exists_mem ⟨_, items.flip, .refl _⟩ hy
  exact h.right

/-- Values that read twin by twin are twins. -/
theorem twins_of_items {a b : Value} (valid : In st a) (valid' : In st b) {s t : Seq Value}
    (ha : a.sequence? = some s) (hb : b.sequence? = some t) {xs ys : List Value}
    (reads : Seq.Reads st s xs) (reads' : Seq.Reads st t ys)
    (items : List.Forall₂ (Twins st) xs ys) : Twins st a b := by
  have hx := left_of_items items
  have hy := right_of_items items
  have left : Whole st a := ⟨valid, .spine ha reads fun x h => (hx x h).finite⟩
  have right : Whole st b := ⟨valid', .spine hb reads' fun y h => (hy y h).finite⟩
  exact (twins_spine_iff sane left right ha hb reads reads' hx hy).2 items

/-! Entries of maps and elements of sets. -/

omit sane in
theorem whole_map {m : Map Metadata Value Value} (valid : In st (.map m))
    (values : ∀ e ∈ m.toList, Whole st e.2) : Whole st (.map m) :=
  ⟨valid, .map (List.forall_mem_map.2 fun e he => (values e he).finite)⟩

omit sane in
theorem whole_empty : Whole st (.map {}) :=
  whole_map (valid_empty _) fun _ impossible => nomatch impossible

omit sane in
theorem Whole.values {m : Map Metadata Value Value} (whole : Whole st (.map m)) :
    ∀ e ∈ m.toList, Whole st e.2 := by
  intro e he
  refine ⟨(valid_entries whole.valid).2 e he, ?_⟩
  cases whole.finite with
  | flat flat => cases flat
  | spine sequence => cases sequence
  | map values => exact values e.2 (List.mem_map_of_mem he)

/-- A finite value under the same key, and what it means. -/
abbrev EntryMeaning (st : Store Value) : Value × Value → Value × Value → Prop :=
  SameKey fun x y => Whole st x ∧ KnownMeaning st x y

/-- What a finite map means is a map of the meanings of its values. -/
theorem Whole.exists_map {m : Map Metadata Value Value} (whole : Whole st (.map m)) :
    ∃ m', KnownMeaning st (.map m) (.map m') ∧ Matches (EntryMeaning st) m.toList m'.toList := by
  obtain ⟨w, means, known⟩ := whole.exists_means sane
  cases means with
  | flat flat => cases flat
  | spine sequence => cases sequence
  | @map _ m' keys values =>
    refine ⟨m', ⟨.map keys values, known⟩, m'.toList, ?_, .refl _⟩
    exact forall₂_imp_mem (forall₂_entries keys values) fun e he f hf h =>
      ⟨h.1, whole.values e he, h.2, (valid_entries known).2 f hf⟩

theorem twins_map_iff {m n : Map Metadata Value Value} (left : Whole st (.map m))
    (right : Whole st (.map n)) :
    Twins st (.map m) (.map n) ↔ m.toTable.Aligned Known (Twins st) n.toTable := by
  have law := lawful_known.toKeyLaw
  obtain ⟨m', means, entries⟩ := left.exists_map sane
  obtain ⟨n', means', entries'⟩ := right.exists_map sane
  have back := entries.symm (S := fun f e => EntryMeaning st e f) fun _ _ h => h
  have back' := entries'.symm (S := fun f e => EntryMeaning st e f) fun _ _ h => h
  rw [twins_iff sane left right means means',
    beq_map_iff_matches law (valid_entries means.2).1 (valid_entries means'.2).1,
    Table.aligned_iff_matches law (valid_entries left.valid).1 (valid_entries right.valid).1]
  constructor
  · intro same
    refine entries.trans ?_ (same.trans (T := fun f h => EqualIn Known f.1 h.1 ∧ ∃ w,
      Whole st h.2 ∧ KnownMeaning st h.2 w ∧ (f.2 == w) = true) ?_ back')
    · rintro e f h means ⟨key, w, whole, meaning, equal⟩
      exact ⟨means.1 ▸ key, (twins_iff sane means.2.1 whole means.2.2 meaning).2 equal⟩
    · rintro f g h ⟨key, equal⟩ means
      exact ⟨means.1 ▸ key, g.2, means.2.1, means.2.2, equal⟩
  · intro same
    refine back.trans ?_ (same.trans (T := fun e g => EqualIn Known e.1 g.1 ∧
      ∀ v, KnownMeaning st e.2 v → (v == g.2) = true) ?_ entries')
    · rintro f e g means ⟨key, equal⟩
      exact ⟨means.1 ▸ key, equal f.2 means.2.2⟩
    · rintro e h g ⟨key, twins⟩ means
      exact ⟨means.1 ▸ key, fun v meaning =>
        (twins_iff sane twins.left twins.right meaning means.2.2).1 twins⟩

theorem twins_set_iff {s t : Set Metadata Value} (left : In st (.set s)) (right : In st (.set t)) :
    Twins st (.set s) (.set t) ↔ s.toTable.Aligned Known (fun _ _ => True) t.toTable := by
  have law := lawful_known.toKeyLaw
  have keyed := valid_elements left
  have keyed' := valid_elements right
  have meaning {r : Set Metadata Value} (elements : r.Over Known) :
      KnownMeaning st (.set r) (.set r) := ⟨.set, valid_set elements⟩
  rw [twins_iff sane ⟨left, .set⟩ ⟨right, .set⟩ (meaning keyed) (meaning keyed'),
    Table.aligned_iff_matches law keyed keyed', beq_set_iff_matches law keyed keyed']

end Sane

end Persistent.Value
