import Persistent.Proofs.Value.Advancing
import Persistent.Proofs.Value.Written
import Persistent.Proofs.Vector.Shape

/-!
Proper values: each sequence in them, metadata included, shows items, and metadata is a well-formed
map. Founded values: proper ones that are not nested without end, so that whatever is in them has
been built before them. What is built of founded values is founded.
-/

set_option autoImplicit false

namespace Persistent

namespace Table

theorem toList_refill {K V : Type} (t : Table K V) {entries : List (K × V)}
    (length : entries.length = t.toList.length) : (t.refill entries).toList = entries := by
  rcases t with ⟨root | t, size⟩
  · exact (List.length_eq_zero_iff.1 length).symm
  · have filled := (Trie.refill_spec t entries [] length).2
    rw [List.append_nil] at filled
    exact filled

end Table

theorem Set.insert_metadata {μ α : Type} [BEq α] [Hashable α] (s : Set μ α) (x : α) :
    (s.insert x).metadata = s.metadata := by
  unfold Set.insert
  split <;> rfl

namespace Value

theorem elements_refill (s : Set Metadata Value) {ys : List Value}
    (length : ys.length = s.elements.length) : (s.toTable.refill (ys.map (·, ()))).keys = ys := by
  have count : (ys.map (·, ())).length = s.toTable.toList.length := by
    rw [List.length_map, length, Set.elements, Table.keys, List.length_map]
  rw [Table.keys, Table.toList_refill s.toTable count, List.map_map]
  exact List.map_id ys

theorem forall_ofEntries {P : Value → Prop} {m : Map Metadata Value Value} :
    (∀ piece ∈ ofEntries m, ∀ x ∈ piece, P x) ↔ ∀ e ∈ m.toList, P e.1 ∧ P e.2 := by
  unfold ofEntries
  simp only [List.forall_mem_map, List.forall_mem_cons, List.not_mem_nil, false_imp_iff,
    implies_true, and_true]

theorem HasPieces.mono {st st' : Store Value} (grows : st.Grows st') {v : Value}
    {all : Seq.Items (List Value)} (h : HasPieces st v all) : HasPieces st' v all := by
  cases h with
  | known closed => exact .known closed
  | seq shows => exact .seq (shows.mono grows)

/-- The value holds another one, however deep, in its pieces or in metadata. -/
inductive Holds (st : Store Value) : Value → Value → Prop
  | here {v : Value} : Holds st v v
  | piece {v x w : Value} {all : Seq.Items (List Value)} {i : ℕ} {piece : List Value}
      (has : HasPieces st v all) (item : all i = some piece) (part : x ∈ piece)
      (onward : Holds st x w) : Holds st v w
  | metadata {v x w : Value} {m : Map Metadata Value Value} {piece : List Value}
      (carries : v.metadata? = some m) (among : piece ∈ ofEntries m) (part : x ∈ piece)
      (onward : Holds st x w) : Holds st v w

variable [Hasher]

/-- Every sequence that the value holds shows items, and all metadata that it holds is a well-formed
map. Values nested without end may be proper. -/
structure Proper (st : Store Value) (v : Value) : Prop where
  pieces : ∀ w, Holds st v w → ∃ all, HasPieces st w all
  keyed : ∀ w, Holds st v w → ∀ m, w.metadata? = some m → m.Over Known

/-- Every sequence in the value shows items, and every sequence in these, however many. A value that
is nested without end, as a sequence among its own items, is not founded. -/
inductive Founded (st : Store Value) : Value → Prop
  | intro {v : Value} {all : Seq.Items (List Value)} (has : HasPieces st v all)
      (parts : ∀ i piece, all i = some piece → ∀ x ∈ piece, Founded st x)
      (keyed : ∀ m, v.metadata? = some m → m.Over Known)
      (metadata : ∀ m, v.metadata? = some m → ∀ piece ∈ ofEntries m, ∀ x ∈ piece, Founded st x) :
      Founded st v

/-- Metadata that a founded value may carry. -/
structure Carried (st : Store Value) (m : Map Metadata Value Value) : Prop where
  keyed : m.Over Known
  entries : ∀ e ∈ m.toList, Founded st e.1 ∧ Founded st e.2

/-- A key or an element: known and founded. -/
structure Solid (st : Store Value) (x : Value) : Prop where
  known : x.Known
  founded : Founded st x

theorem Founded.mono {st st' : Store Value} (grows : st.Grows st') {v : Value}
    (h : Founded st v) : Founded st' v := by
  induction h with
  | intro has _ keyed _ parts metadata => exact .intro (has.mono grows) parts keyed metadata

theorem Carried.mono {st st' : Store Value} (grows : st.Grows st') {m : Map Metadata Value Value}
    (h : Carried st m) : Carried st' m :=
  ⟨h.keyed, fun e he => ⟨(h.entries e he).1.mono grows, (h.entries e he).2.mono grows⟩⟩

theorem Solid.mono {st st' : Store Value} (grows : st.Grows st') {x : Value} (h : Solid st x) :
    Solid st' x :=
  ⟨h.known, h.founded.mono grows⟩

theorem over_solid_mono {st st' : Store Value} (grows : st.Grows st') {V : Type}
    {t : Table Value V} (keyed : t.Over (Solid st)) : t.Over (Solid st') :=
  ⟨keyed.toWellFormed, fun e he => (keyed.keys e he).mono grows⟩

theorem solid_law (st : Store Value) : KeyLaw (Solid st) where
  refl h := lawful_known.refl h.known
  symm h k := lawful_known.symm h.known k.known
  trans h k l := lawful_known.trans h.known k.known l.known
  hash_eq h k := lawful_known.hash_eq h.known k.known

section Store

variable {st : Store Value}

theorem Founded.of_holds {v w : Value} (h : Founded st v) (holds : Holds st v w) :
    Founded st w := by
  induction holds with
  | here => exact h
  | piece has item part _ ih =>
    cases h with
    | intro has' parts =>
      obtain rfl := has.unique has'
      exact ih (parts _ _ item _ part)
  | metadata carries among part _ ih =>
    cases h with
    | intro _ _ _ metadata => exact ih (metadata _ carries _ among _ part)

theorem Founded.proper {v : Value} (h : Founded st v) : Proper st v where
  pieces w holds := by
    cases h.of_holds holds with
    | intro has => exact ⟨_, has⟩
  keyed w holds := by
    cases h.of_holds holds with
    | intro _ _ keyed => exact keyed

theorem Founded.carried {v : Value} (h : Founded st v) (m : Map Metadata Value Value)
    (carries : v.metadata? = some m) : Carried st m := by
  cases h with
  | intro _ _ keyed metadata => exact ⟨keyed m carries, forall_ofEntries.1 (metadata m carries)⟩

theorem founded_closed {v : Value} (closed : ∀ s, v ≠ .seq s)
    (parts : ∀ piece ∈ v.pieces, ∀ x ∈ piece, Founded st x)
    (carried : ∀ m, v.metadata? = some m → Carried st m) : Founded st v :=
  .intro (.known closed) (fun _ piece item => parts piece (List.mem_of_getElem? item))
    (fun m carries => (carried m carries).keyed)
    fun m carries => forall_ofEntries.2 (carried m carries).entries

theorem Founded.pieces {v : Value} (h : Founded st v) (closed : ∀ s, v ≠ .seq s) :
    ∀ piece ∈ v.pieces, ∀ x ∈ piece, Founded st x := by
  cases h with
  | intro has parts =>
    obtain rfl := has.unique (.known closed)
    intro piece among
    obtain ⟨i, item⟩ := List.mem_iff_getElem?.1 among
    exact parts i piece item

/-- A value of which the pieces are single items. -/
theorem founded_items {v : Value} (closed : ∀ s, v ≠ .seq s) {xs : List Value}
    (pieces : v.pieces = xs.map ([·])) (items : ∀ x ∈ xs, Founded st x)
    (carried : ∀ m, v.metadata? = some m → Carried st m) : Founded st v := by
  refine founded_closed closed ?_ carried
  rw [pieces]
  simpa using items

theorem Founded.items {v : Value} (h : Founded st v) (closed : ∀ s, v ≠ .seq s)
    {xs : List Value} (pieces : v.pieces = xs.map ([·])) : ∀ x ∈ xs, Founded st x := by
  have parts := h.pieces closed
  rw [pieces] at parts
  simpa using parts

theorem founded_seq {s : Seq Value} {f : Seq.Items Value} (shows : Seq.Shows st s f)
    (items : ∀ i x, f i = some x → Founded st x) : Founded st (.seq s) := by
  refine .intro (.seq shows) (fun i piece item => ?_) nofun nofun
  obtain ⟨x, here, rfl⟩ := Option.map_eq_some_iff.1 item
  simpa using items i x here

theorem Founded.shows {s : Seq Value} (h : Founded st (.seq s)) :
    ∃ f, Seq.Shows st s f ∧ ∀ i x, f i = some x → Founded st x := by
  cases h with
  | intro has parts =>
    cases has with
    | known closed => exact absurd rfl (closed s)
    | @seq _ f shows =>
      exact ⟨f, shows, fun i x item =>
        parts i [x] (congrArg (Option.map ([·])) item) x (List.mem_singleton_self x)⟩

theorem founded_cons {s : Seq Value} {x : Value} (h : Founded st (.seq s)) (hx : Founded st x) :
    Founded st (.seq (.cons x s)) := by
  obtain ⟨f, shows, items⟩ := h.shows
  refine founded_seq shows.cons fun i y item => ?_
  cases i with
  | zero =>
    cases item
    exact hx
  | succ i => exact items i y item

theorem founded_flat {v : Value} (flat : v.isFlat = true) (bare : v.metadata? = none) :
    Founded st v := by
  refine founded_closed ?_ ?_ fun m carries => nomatch bare.symm.trans carries
  · rintro s rfl
    cases flat
  · cases v with
    | nil | bool | int | str | keyword | symbol =>
      exact fun _ among => absurd among List.not_mem_nil
    | _ => cases flat

theorem founded_list {l : ConsList Metadata Value} (items : ∀ x ∈ l.items, Founded st x)
    (carried : ∀ m, l.metadata.map (·.map) = some m → Carried st m) : Founded st (.list l) :=
  founded_items nofun rfl items carried

theorem Founded.list_items {l : ConsList Metadata Value} (h : Founded st (.list l)) :
    ∀ x ∈ l.items, Founded st x :=
  h.items nofun rfl

theorem founded_vector {v : Vector Metadata Value} {xs : List Value} (held : v.Holds xs)
    (items : ∀ x ∈ xs, Founded st x)
    (carried : ∀ m, v.metadata.map (·.map) = some m → Carried st m) : Founded st (.vector v) :=
  founded_items nofun (congrArg (List.map ([·])) held.toList_eq) items carried

theorem Founded.vector_items {v : Vector Metadata Value} (h : Founded st (.vector v)) :
    ∀ x ∈ v.toList, Founded st x :=
  h.items nofun rfl

theorem founded_set {s : Set Metadata Value} (elements : ∀ x ∈ s.elements, Founded st x)
    (carried : ∀ m, s.metadata.map (·.map) = some m → Carried st m) : Founded st (.set s) :=
  founded_items nofun rfl elements carried

theorem Founded.over_elements {s : Set Metadata Value} (h : Founded st (.set s))
    (keyed : s.Over Known) : s.Over (Solid st) :=
  ⟨keyed.toWellFormed, fun e he =>
    ⟨keyed.keys e he, h.items nofun rfl e.1 (List.mem_map.2 ⟨e, he, rfl⟩)⟩⟩

theorem founded_map {m : Map Metadata Value Value}
    (entries : ∀ e ∈ m.toList, Founded st e.1 ∧ Founded st e.2)
    (carried : ∀ n, m.metadata.map (·.map) = some n → Carried st n) : Founded st (.map m) :=
  founded_closed nofun (forall_ofEntries.2 entries) carried

theorem Founded.map_entries {m : Map Metadata Value Value} (h : Founded st (.map m)) :
    ∀ e ∈ m.toList, Founded st e.1 ∧ Founded st e.2 :=
  forall_ofEntries.1 (h.pieces nofun)

/-- The entries of a table: keys that are known and founded, and values that are founded. -/
structure Tabled (st : Store Value) (t : Table Value Value) : Prop where
  keyed : t.Over (Solid st)
  values : ∀ e ∈ t.toList, Founded st e.2

theorem tabled_empty : Tabled st {} :=
  ⟨Table.over_empty (Solid st), fun _ none => nomatch none⟩

theorem Tabled.mono {st' : Store Value} (grows : st.Grows st') {t : Table Value Value}
    (h : Tabled st t) : Tabled st' t :=
  ⟨over_solid_mono grows h.keyed, fun e he => (h.values e he).mono grows⟩

theorem Tabled.insert {t : Table Value Value} (h : Tabled st t) {key value : Value}
    (solid : Solid st key) (founded : Founded st value) : Tabled st (t.insert key value) :=
  ⟨h.keyed.insert (solid_law st) value solid,
    h.keyed.values_insert (solid_law st) solid founded h.values⟩

theorem Tabled.merge {t u : Table Value Value} (h : Tabled st t) (k : Tabled st u) :
    Tabled st (t.insertAll u.toList) :=
  ⟨h.keyed.insertAll (solid_law st) k.keyed.keys,
    h.keyed.values_insertAll (solid_law st) k.keyed.keys k.values h.values⟩

theorem Tabled.founded {m : Map Metadata Value Value} (h : Tabled st m.toTable)
    (carried : ∀ n, m.metadata.map (·.map) = some n → Carried st n) : Founded st (.map m) :=
  founded_map (fun e he => ⟨(h.keyed.keys e he).founded, h.values e he⟩) carried

theorem Tabled.carried {m : Map Metadata Value Value} (h : Tabled st m.toTable) : Carried st m :=
  ⟨⟨h.keyed.toWellFormed, fun e he => (h.keyed.keys e he).known⟩,
    fun e he => ⟨(h.keyed.keys e he).founded, h.values e he⟩⟩

theorem Carried.tabled {m : Map Metadata Value Value} (h : Carried st m) :
    Tabled st m.toTable :=
  ⟨⟨h.keyed.toWellFormed, fun e he => ⟨h.keyed.keys e he, (h.entries e he).1⟩⟩,
    fun e he => (h.entries e he).2⟩

theorem Founded.tabled {m : Map Metadata Value Value} (h : Founded st (.map m))
    (keyed : m.Over Known) : Tabled st m.toTable :=
  Carried.tabled ⟨keyed, h.map_entries⟩

theorem over_solid_erase {V : Type} {t : Table Value V} (keyed : t.Over (Solid st)) {key : Value}
    (found : t.isEmpty = true ∨ Solid st key) : (t.erase key).Over (Solid st) := by
  rcases found with empty | solid
  · rw [Table.erase_empty keyed.toWellFormed empty]
    exact keyed
  · exact keyed.erase (solid_law st) solid

theorem values_solid_erase {V : Type} {t : Table Value V} (keyed : t.Over (Solid st))
    {key : Value} (found : t.isEmpty = true ∨ Solid st key) {E : V → Prop}
    (values : ∀ e ∈ t.toList, E e.2) : ∀ e ∈ (t.erase key).toList, E e.2 :=
  values_erase ⟨keyed.toWellFormed, fun e he => (keyed.keys e he).known⟩ (found.imp id (·.known))
    values

theorem carried_over {new : Map Metadata Value Value} (h : Carried st new)
    {old : Option Metadata} (carried : ∀ m, old.map (·.map) = some m → Carried st m) :
    Carried st (Metadata.over new old).map := by
  cases old with
  | none => exact h
  | some old =>
    cases old with
    | of m => exact Tabled.carried ((carried m rfl).tabled.merge h.tabled)

theorem founded_over {s : Set Metadata Value} (keyed : s.Over (Solid st))
    (carried : ∀ m, s.metadata.map (·.map) = some m → Carried st m) : Founded st (.set s) := by
  refine founded_set (fun x hx => ?_) carried
  obtain ⟨e, he, rfl⟩ := List.mem_map.1 hx
  exact (keyed.keys e he).founded

theorem founded_listPush {l : ConsList Metadata Value} {x : Value} (h : Founded st (.list l))
    (hx : Founded st x) : Founded st (.list (l.push x)) :=
  founded_list (List.forall_mem_cons.2 ⟨hx, h.list_items⟩) h.carried

theorem founded_foldl {A : Type} {f : A → Value → A} {g : A → Value}
    (step : ∀ {a x}, Founded st (g a) → Founded st x → Founded st (g (f a x))) {xs : List Value}
    {a : A} (first : Founded st (g a)) (items : ∀ x ∈ xs, Founded st x) :
    Founded st (g (xs.foldl f a)) := by
  induction xs generalizing a with
  | nil => exact first
  | cons x xs ih =>
    obtain ⟨hx, hxs⟩ := List.forall_mem_cons.1 items
    exact ih (step first hx) hxs

theorem founded_withMetadata {v w : Value} (founded : Founded st v)
    {new : Map Metadata Value Value} (h : Carried st new) (made : v.withMetadata new = .ok w) :
    Founded st w := by
  have replaced {old : Option Metadata}
      (carried : ∀ m, old.map (·.map) = some m → Carried st m) (m : Map Metadata Value Value) :
      (some (Metadata.over new old)).map (·.map) = some m → Carried st m := by
    rintro ⟨⟩
    exact carried_over h carried
  cases v with
  | symbol s =>
    cases made
    exact founded_closed nofun (fun _ none => nomatch none) (replaced founded.carried)
  | list l =>
    cases made
    exact founded_list founded.list_items (replaced founded.carried)
  | vector v =>
    cases made
    exact founded_items nofun rfl founded.vector_items (replaced founded.carried)
  | map m =>
    cases made
    exact founded_map founded.map_entries (replaced founded.carried)
  | set s =>
    cases made
    exact founded_set (founded.items nofun rfl) (replaced founded.carried)
  | _ => cases made

/-- A founded value that is valid in the store. -/
structure Entire (st : Store Value) (v : Value) : Prop where
  valid : In st v
  founded : Founded st v

theorem Entire.mono {st' : Store Value} (advances : Advances st st') {v : Value}
    (h : Entire st v) : Entire st' v :=
  ⟨h.valid.later advances.leads, h.founded.mono advances.grows⟩

theorem Entire.tabled {m : Map Metadata Value Value} (h : Entire st (.map m)) :
    Tabled st m.toTable :=
  h.founded.tabled (valid_entries h.valid).1

theorem Entire.over {s : Set Metadata Value} (h : Entire st (.set s)) : s.Over (Solid st) :=
  h.founded.over_elements (valid_elements h.valid)

theorem Entire.vectorPushAll {v : Vector Metadata Value} (h : Entire st (.vector v))
    {items : List Value} (founded : ∀ x ∈ items, Founded st x) :
    Founded st (.vector (v.pushAll items)) := by
  obtain ⟨held, -⟩ := holds_of_valid h.valid
  refine founded_vector (held.pushAll items) (fun y hy => ?_) ?_
  · rcases List.mem_append.1 hy with old | new
    · exact h.founded.vector_items y old
    · exact founded y new
  · rw [Vector.pushAll_metadata]
    exact h.founded.carried

theorem founded_pop {n : ℕ} {v w : Value} (valid : v.Valid n) (founded : Founded st v)
    (popped : v.pop = .ok w) : Founded st w := by
  cases v with
  | nil =>
    cases popped
    exact founded
  | list l =>
    obtain ⟨items, metadata⟩ := l
    cases items with
    | nil => cases popped
    | cons x items =>
      cases popped
      exact founded_list (fun y hy => founded.list_items y (List.mem_cons_of_mem _ hy))
        founded.carried
  | vector v =>
    obtain ⟨held, -⟩ := holds_of_valid valid
    by_cases empty : v.toList = []
    · rw [pop, held.pop_empty empty] at popped
      cases popped
    · obtain ⟨u, same, held'⟩ := held.pop_filled empty
      rw [pop, same] at popped
      cases popped
      have items (y : Value) (hy : y ∈ v.toList.dropLast) : Founded st y :=
        founded.vector_items y (List.dropLast_subset _ hy)
      refine founded_vector held' items ?_
      rw [Vector.pop_metadata same]
      exact founded.carried
  | _ => cases popped

end Store

end Value

end Persistent
