import Persistent.Proofs.Value.Peers

/-!
Equal values may stand for one another. Whatever is done with peers, with equal keys and equal
items, comes to equal answers, or fails on both sides in the same way. What has no part in equality
has no part in any of it: metadata, the kind of a part, the history of a table.
-/

set_option autoImplicit false

namespace Persistent

/-- A fault but for the text that quotes a key. -/
def Fault.unquoted : Fault → Fault
  | .invalidKey kind _ => .invalidKey kind ""
  | fault => fault

namespace Value

variable {A B : Type}

/-- Related answers, or the same fault but for the text that quotes a key. -/
inductive SameOutcome (R : A → B → Prop) : Except Fault A → Except Fault B → Prop
  | ok {a : A} {b : B} (related : R a b) : SameOutcome R (.ok a) (.ok b)
  | error {f g : Fault} (same : f.unquoted = g.unquoted) : SameOutcome R (.error f) (.error g)

theorem option_rel_isSome {R : A → B → Prop} {x : Option A} {y : Option B} (h : Option.Rel R x y) :
    x.isSome = y.isSome := by
  cases h <;> rfl

theorem SameOutcome.map {A B C D : Type} {R : A → B → Prop} {S : C → D → Prop} {f : A → C}
    {g : B → D} {r : Except Fault A} {r' : Except Fault B} (h : SameOutcome R r r')
    (each : ∀ a b, R a b → S (f a) (g b)) : SameOutcome S (r.map f) (r'.map g) := by
  cases h with
  | ok related => exact .ok (each _ _ related)
  | error same => exact .error same

theorem itemAt?_rel {R : Value → Value → Prop} {xs ys : List Value} (items : List.Forall₂ R xs ys)
    (index : Int64) : Option.Rel R (itemAt? xs index) (itemAt? ys index) := by
  unfold itemAt?
  split
  · exact .none
  · exact forall₂_getElem? items _

section Hashing

variable [Hasher]

/-- The first computation comes to an answer, and so does the second in whatever store comes after
it. The outcomes are the same, with answers that are related in the last store. -/
def Agree (st : Store Value) (c : ℕ → Action A) (d : ℕ → Action B)
    (R : Store Value → A → B → Prop) : Prop :=
  Does st c fun st₁ r => Does st₁ d fun st₂ r' => SameOutcome (R st₂) r r'

section Agree

variable {st : Store Value} {c : ℕ → Action A} {d : ℕ → Action B} {R : Store Value → A → B → Prop}

/-- From what each computation comes to, where what is known of the first stays true. -/
theorem Delivers.agree {P : Store Value → Except Fault A → Prop}
    {Q : Store Value → Except Fault B → Prop} (h : Does st c P) (k : Does st d Q)
    (stays : ∀ st₁ r, P st₁ r → ∀ st₂, Leads st₁ st₂ → P st₂ r)
    (both : ∀ st₁, Leads st st₁ → ∀ r r', P st₁ r → Q st₁ r' → SameOutcome (R st₁) r r') :
    Agree st c d R :=
  h.imp fun st₁ leads r made => (k.later leads).imp fun st₂ leads₂ r' made' =>
    both st₂ (leads.trans leads₂) r r' (stays st₁ r made st₂ leads₂) made'

/-- Where what is known of the answers has no store in it. -/
theorem agree_of {P : Except Fault A → Prop} {Q : Except Fault B → Prop}
    (h : Does st c fun _ r => P r) (k : Does st d fun _ r => Q r)
    (both : ∀ st₁, Leads st st₁ → ∀ r r', P r → Q r' → SameOutcome (R st₁) r r') :
    Agree st c d R :=
  Delivers.agree h k (fun _ _ made _ _ => made) both

theorem agree_except {r : Except Fault A} {r' : Except Fault B}
    (h : ∀ st₁, Leads st st₁ → SameOutcome (R st₁) r r') :
    Agree st (fun _ => liftM r) (fun _ => liftM r') R :=
  agree_of (does_except fun _ _ => Eq.refl r) (does_except fun _ _ => Eq.refl r')
    fun st₁ leads => by
      rintro _ _ rfl rfl
      exact h st₁ leads

theorem agree_pure {a : A} {b : B} (h : ∀ st₁, Leads st st₁ → R st₁ a b) :
    Agree st (fun _ => pure a) (fun _ => pure b) R :=
  agree_except fun st₁ leads => .ok (h st₁ leads)

theorem agree_unsupported {a b : Value} (operation : String) (kind : a.kind = b.kind) :
    Agree st (fun _ => (unsupported operation a : Action A))
      (fun _ => (unsupported operation b : Action B)) R := by
  unfold unsupported
  rw [kind]
  exact agree_except fun _ _ => .error rfl

theorem agree_invalidKey (sane : Sane st) {k k' : Value} (left : Whole st k) (right : Whole st k')
    (kind : String) :
    Agree st (fun fuel => (invalidKey fuel kind k : Action A))
      (fun fuel => (invalidKey fuel kind k' : Action B)) R := by
  refine agree_of (invalidKey_does sane left kind) (invalidKey_does sane right kind) ?_
  rintro st₁ leads _ _ ⟨text, rfl⟩ ⟨text', rfl⟩
  exact .error rfl

end Agree

section Operations

variable {st : Store Value} (sane : Sane st) {c c' k k' x x' : Value}
include sane

theorem twins_nil : Twins st .nil .nil :=
  .refl sane (whole_flat st rfl)

theorem twins_getD {x y d d' : Option Value} (h : Option.Rel (Twins st) x y)
    (defaults : Option.Rel (Twins st) d d') :
    Twins st (x.getD (d.getD .nil)) (y.getD (d'.getD .nil)) := by
  cases h with
  | some twins => exact twins
  | none =>
    cases defaults with
    | some twins => exact twins
    | none => exact twins_nil sane

theorem agree_get (peers : Peers st c c') (keys : Twins st k k') {d d' : Option Value}
    (defaults : Option.Rel (Twins st) d d') :
    Agree st (fun fuel => liftM (c.get fuel k d)) (fun fuel => liftM (c'.get fuel k' d'))
      Twins := by
  obtain ⟨w, w', means, means', known, known', same⟩ := keys.meanings sane
  have found := (peers.paired sane).find? sane ⟨known, known', same⟩
  refine agree_of (does_lift (get_delivers sane keys.left ⟨means, known⟩ peers.twins.left.valid d))
    (does_lift (get_delivers sane keys.right ⟨means', known'⟩ peers.twins.right.valid d')) ?_
  rintro st₁ leads _ _ ⟨_, rfl, rfl⟩ ⟨_, rfl, rfl⟩
  exact .ok ((twins_getD sane found defaults).later leads)

theorem agree_contains (peers : Peers st c c') (keys : Twins st k k') :
    Agree st (fun fuel => c.contains fuel k) (fun fuel => c'.contains fuel k') fun _ => Eq := by
  obtain ⟨w, w', means, means', known, known', same⟩ := keys.meanings sane
  have found := (peers.paired sane).find? sane ⟨known, known', same⟩
  have both := option_rel_isSome found
  have searchable : c.isSearchable = c'.isSearchable := by
    cases peers.paired sane <;> rfl
  refine agree_of (contains_does sane keys.left ⟨means, known⟩ peers.twins.left.valid)
    (contains_does sane keys.right ⟨means', known'⟩ peers.twins.right.valid) ?_
  rintro st₁ leads _ _ rfl rfl
  rw [searchable, both, peers.kind]
  split
  · exact .ok rfl
  · exact .error rfl

theorem agree_count (peers : Peers st c c') :
    Agree st (fun fuel => c.count fuel) (fun fuel => c'.count fuel) fun _ => Eq := by
  have law := lawful_known.toKeyLaw
  cases peers.paired sane with
  | same flat =>
    cases c with
    | nil | str => exact agree_pure fun _ _ => rfl
    | bool | int | keyword | symbol => exact agree_unsupported "count" rfl
    | _ => cases flat
  | symbol => exact agree_unsupported "count" rfl
  | list items => exact agree_pure fun _ _ => items.length_eq
  | vector left right items => exact agree_pure fun _ _ => Vector.size_congr left right items
  | seq left right items =>
    refine agree_of (does_lift (count_delivers left)) (does_lift (count_delivers right)) ?_
    rintro st₁ leads _ _ ⟨_, rfl, rfl⟩ ⟨_, rfl, rfl⟩
    exact .ok items.length_eq
  | map left right entries =>
    exact agree_pure fun _ _ =>
      entries.size_eq law (valid_entries left.valid).1 (valid_entries right.valid).1
  | set left right elements => exact agree_pure fun _ _ => elements.size_eq law left right

/-- An entry stored in two maps. -/
theorem agree_entry {c d : ℕ → Action Value} {m n : Map Metadata Value Value}
    (left : Whole st (.map m)) (right : Whole st (.map n))
    (entries : m.toTable.Aligned Known (Twins st) n.toTable) (keys : Twins st k k')
    (values : Twins st x x')
    (h : Does st c fun _ r => ∃ u, Shows st k u ∧ r = .ok (.map (m.insert u x)))
    (h' : Does st d fun _ r => ∃ u, Shows st k' u ∧ r = .ok (.map (n.insert u x'))) :
    Agree st c d Twins := by
  refine agree_of h h' ?_
  rintro st₁ leads _ _ ⟨u, shows, rfl⟩ ⟨u', shows', rfl⟩
  exact .ok ((twins_insert sane left right entries (keys.shown sane shows shows') values).later
    leads)

theorem twins_set {v w : Vector Metadata Value} (left : v.Holds v.toList)
    (right : w.Holds w.toList) (items : List.Forall₂ (Twins st) v.toList w.toList)
    (index : Int64) (values : Twins st x x') :
    SameOutcome (fun v' w' => Twins st (.vector v') (.vector w')) (v.set index x)
      (w.set index x') := by
  have size := Vector.size_congr left right items
  have resolved := Vector.resolve_congr size index
  unfold Vector.set
  by_cases behind : index.toInt = v.size
  · rw [if_pos behind, if_pos (size ▸ behind)]
    exact .ok (twins_vector sane (left.push x) (right.push x')
      (List.rel_append items (.cons values .nil)))
  · rw [if_neg behind, if_neg (size ▸ behind)]
    cases found : v.resolve index with
    | none =>
      rw [← resolved, found, size]
      exact .error rfl
    | some p =>
      rw [← resolved, found]
      have inside := Vector.resolve_lt found
      exact .ok (twins_vector sane (left.store (left.size_eq ▸ inside) x)
        (right.store (right.size_eq ▸ size ▸ inside) x') (forall₂_set items p values))

theorem agree_assoc (peers : Peers st c c') (keys : Twins st k k') (values : Twins st x x') :
    Agree st (fun fuel => c.assoc fuel k x) (fun fuel => c'.assoc fuel k' x') Twins := by
  have left := keys.left
  have right := keys.right
  cases peers.paired sane with
  | same flat =>
    cases c with
    | nil =>
      exact agree_entry sane whole_empty whole_empty (fun _ _ => .none) keys values
        (assoc_does sane left rfl x) (assoc_does sane right rfl x')
    | bool | int | str | keyword | symbol => exact agree_unsupported "assoc" rfl
    | _ => cases flat
  | symbol | list | seq | set => exact agree_unsupported "assoc" rfl
  | map hm hn entries =>
    exact agree_entry sane hm hn entries keys values (assoc_does sane left rfl x)
      (assoc_does sane right rfl x')
  | vector hv hw items =>
    rcases keys.index sane with ⟨other, other'⟩ | ⟨i, rfl, rfl⟩
    · simp only [assoc_other other, assoc_other other']
      exact agree_invalidKey sane left right "vector"
    · simp only [assoc_index]
      refine agree_except fun st₁ leads => ?_
      exact (twins_set sane hv hw items i values).map fun _ _ twins => twins.later leads

theorem agree_dissoc (peers : Peers st c c') (keys : Twins st k k') :
    Agree st (fun fuel => c.dissoc fuel k) (fun fuel => c'.dissoc fuel k') Twins := by
  cases peers.paired sane with
  | same flat =>
    cases c with
    | nil => exact agree_pure fun st₁ leads => (twins_nil sane).later leads
    | bool | int | str | keyword | symbol => exact agree_unsupported "dissoc" rfl
    | _ => cases flat
  | symbol | list | vector | seq | set => exact agree_unsupported "dissoc" rfl
  | map left right entries =>
    refine agree_of (dissoc_does sane keys.left _) (dissoc_does sane keys.right _) ?_
    rintro st₁ leads _ _ ⟨u, searched, rfl⟩ ⟨u', searched', rfl⟩
    exact .ok ((twins_erase sane left right entries keys searched searched').later leads)

theorem agree_disj (peers : Peers st c c') (keys : Twins st k k') :
    Agree st (fun fuel => c.disj fuel k) (fun fuel => c'.disj fuel k') Twins := by
  cases peers.paired sane with
  | same flat =>
    cases c with
    | nil => exact agree_pure fun st₁ leads => (twins_nil sane).later leads
    | bool | int | str | keyword | symbol => exact agree_unsupported "disj" rfl
    | _ => cases flat
  | symbol | list | vector | seq | map => exact agree_unsupported "disj" rfl
  | set left right elements =>
    refine agree_of (disj_does sane keys.left _) (disj_does sane keys.right _) ?_
    rintro st₁ leads _ _ ⟨u, searched, rfl⟩ ⟨u', searched', rfl⟩
    exact .ok ((twins_setErase sane left right elements keys searched searched').later leads)

omit sane in
theorem Offers.cons {s : Seq Value} {xs : List Value} (h : Offers st s xs) (hx : In st x) :
    Offers st (.cons x s) (x :: xs) :=
  ⟨valid_cons h.valid hx, .cons h.reads⟩

/-- An item for a map is a vector of two or a map. -/
theorem agree_conj_map {m n : Map Metadata Value Value} (left : Whole st (.map m))
    (right : Whole st (.map n)) (entries : m.toTable.Aligned Known (Twins st) n.toTable)
    (items : Peers st x x') :
    Agree st (fun fuel => (Value.map m).conj fuel x) (fun fuel => (Value.map n).conj fuel x')
      Twins := by
  have invalid : Agree st (fun fuel => (invalidKey fuel "map" x : Action Value))
      (fun fuel => (invalidKey fuel "map" x' : Action Value)) Twins :=
    agree_invalidKey sane items.twins.left items.twins.right "map"
  cases items.paired sane with
  | same flat =>
    cases x with
    | nil | bool | int | str | keyword | symbol => exact invalid
    | _ => cases flat
  | symbol | list | seq | set => exact invalid
  | map left' right' entries' =>
    exact agree_pure fun st₁ leads =>
      (twins_merge sane left right entries left' right' entries').later leads
  | @vector p q _ _ parts =>
    by_cases two : p.toList.length = 2
    · obtain ⟨key, value, pair⟩ := List.length_eq_two.1 two
      obtain ⟨key', value', pair'⟩ := List.length_eq_two.1 (parts.length_eq ▸ two)
      rw [pair, pair'] at parts
      obtain ⟨keys, parts⟩ := List.forall₂_cons.1 parts
      obtain ⟨values, -⟩ := List.forall₂_cons.1 parts
      exact agree_entry sane left right entries keys values
        (conj_entry_does (realize_delivers sane keys.left) m pair)
        (conj_entry_does (realize_delivers sane keys.right) n pair')
    · simp only [conj_pair_other _ two, conj_pair_other _ (parts.length_eq ▸ two)]
      exact invalid

theorem agree_conj (peers : Peers st c c') (items : Twins st x x')
    (kinds : c.kind = "map" → x.kind = x'.kind) :
    Agree st (fun fuel => c.conj fuel x) (fun fuel => c'.conj fuel x') Twins := by
  cases peers.paired sane with
  | same flat =>
    cases c with
    | nil =>
      exact agree_pure fun st₁ leads => (twins_list sane (.cons items .nil)).later leads
    | bool | int | str | keyword | symbol => exact agree_unsupported "conj" rfl
    | _ => cases flat
  | symbol => exact agree_unsupported "conj" rfl
  | list parts =>
    exact agree_pure fun st₁ leads => (twins_list sane (.cons items parts)).later leads
  | vector left right parts =>
    exact agree_pure fun st₁ leads => (twins_vector sane (left.push x) (right.push x')
      (List.rel_append parts (.cons items .nil))).later leads
  | seq left right parts =>
    exact agree_pure fun st₁ leads => (twins_seq sane (left.cons items.left.valid)
      (right.cons items.right.valid) (.cons items parts)).later leads
  | set left right elements =>
    refine agree_of (conj_set_does (realize_delivers sane items.left) _)
      (conj_set_does (realize_delivers sane items.right) _) ?_
    rintro st₁ leads _ _ ⟨u, shows, rfl⟩ ⟨u', shows', rfl⟩
    exact .ok ((twins_setInsert sane left right elements (items.shown sane shows shows')).later
      leads)
  | map left right entries => exact agree_conj_map sane left right entries ⟨items, kinds rfl⟩

theorem same_peek (peers : Peers st c c') : SameOutcome (Twins st) c.peek c'.peek := by
  cases peers.paired sane with
  | same flat =>
    cases c with
    | nil => exact .ok (twins_nil sane)
    | bool | int | str | keyword | symbol => exact .error rfl
    | _ => cases flat
  | symbol | seq | map | set => exact .error rfl
  | list items => exact .ok (twins_getD sane (forall₂_head? items) (d := none) .none)
  | @vector v w left right items =>
    have size := Vector.size_congr left right items
    have last : Option.Rel (Twins st) v.peek? w.peek? := by
      unfold Vector.peek?
      by_cases empty : v.size = 0
      · rw [if_pos empty, if_pos (size ▸ empty)]
        exact .none
      · rw [if_neg empty, if_neg (size ▸ empty), left.get?_eq, right.get?_eq, size]
        exact forall₂_getElem? items _
    exact .ok (twins_getD sane last (d := none) .none)

theorem same_pop (peers : Peers st c c') : SameOutcome (Twins st) c.pop c'.pop := by
  cases peers.paired sane with
  | same flat =>
    cases c with
    | nil => exact .ok (twins_nil sane)
    | bool | int | str | keyword | symbol => exact .error rfl
    | _ => cases flat
  | symbol | seq | map | set => exact .error rfl
  | @list l k items =>
    obtain ⟨xs, metadata⟩ := l
    obtain ⟨ys, metadata'⟩ := k
    cases items with
    | nil => exact .error rfl
    | cons _ rest => exact .ok (twins_list sane rest)
  | @vector v w left right items =>
    by_cases empty : v.toList = []
    · have empty' : w.toList = [] := by
        rw [← List.length_eq_zero_iff, ← items.length_eq, empty]
        rfl
      rw [pop, pop, left.pop_empty empty, right.pop_empty empty']
      exact .error rfl
    · have filled : w.toList ≠ [] := by
        rw [← List.length_pos_iff, ← items.length_eq, List.length_pos_iff]
        exact empty
      obtain ⟨v', popped, held⟩ := left.pop_filled empty
      obtain ⟨w', popped', held'⟩ := right.pop_filled filled
      rw [pop, pop, popped, popped']
      rw [List.dropLast_eq_take] at held held'
      exact .ok (twins_vector sane held held' (items.length_eq ▸ List.forall₂_take _ items))

omit sane in
theorem call_other {v : Vector Metadata Value} (other : k.asInt? = none) (fuel : ℕ)
    (default : Option Value) :
    (Value.vector v).call fuel k default = invalidKey fuel "vector" k := by
  cases k <;> first | rfl | cases other

omit sane in
theorem call_index (v : Vector Metadata Value) (fuel : ℕ) (index : Int64) (default : Option Value) :
    (Value.vector v).call fuel (.int index) default =
      liftM ((v.lookup? index).elim (.error (Fault.indexOutOfRange index v.size)) Except.ok) := by
  unfold call
  dsimp only
  cases v.lookup? index <;> rfl

omit sane in
theorem find?_spine_other {coll w : Value} (one : coll.sort = 1) (other : w.asInt? = none) :
    coll.find? w = none := by
  cases coll with
  | vector v => rw [find?_vector, other]; rfl
  | list | seq => rfl
  | _ => cases one

/-- A keyword looks itself up, and finds nothing in a value with positions. -/
theorem agree_call_keyword (arguments : Twins st k k') (f : Keyword) {d d' : Option Value}
    (defaults : Option.Rel (Twins st) d d') :
    Agree st (fun fuel => (Value.keyword f).call fuel k d)
      (fun fuel => (Value.keyword f).call fuel k' d') Twins := by
  have name : Whole st (.keyword f) := whole_flat st rfl
  by_cases one : k.sort = 1
  · have means : KnownMeaning st (.keyword f) (.keyword f) := ⟨.flat rfl, .flat rfl⟩
    refine agree_of (does_lift (get_delivers sane name means arguments.left.valid d))
      (does_lift (get_delivers sane name means arguments.right.valid d')) ?_
    rintro st₁ leads _ _ ⟨_, rfl, rfl⟩ ⟨_, rfl, rfl⟩
    rw [find?_spine_other one rfl, find?_spine_other (arguments.sort_eq sane ▸ one) rfl]
    exact .ok ((twins_getD sane (x := none) .none defaults).later leads)
  · exact agree_get sane ⟨arguments, arguments.kind_eq sane one⟩ (.refl sane name) defaults

theorem agree_call (peers : Peers st c c') (keys : Twins st k k') {d d' : Option Value}
    (defaults : Option.Rel (Twins st) d d') :
    Agree st (fun fuel => c.call fuel k d) (fun fuel => c'.call fuel k' d') Twins := by
  have paired := peers.paired sane
  cases paired with
  | same flat =>
    cases c with
    | keyword f => exact agree_call_keyword sane keys f defaults
    | nil | bool | int | str | symbol => exact agree_unsupported "call" rfl
    | _ => cases flat
  | symbol | list | seq => exact agree_unsupported "call" rfl
  | map => exact agree_get sane peers keys defaults
  | set => exact agree_get sane peers keys .none
  | @vector v w left right items =>
    rcases keys.index sane with ⟨other, other'⟩ | ⟨i, rfl, rfl⟩
    · simp only [call_other other, call_other other']
      exact agree_invalidKey sane keys.left keys.right "vector"
    · have same : EqualIn Known (.int i) (.int i) :=
        equalIn_refl lawful_known.toKeyLaw (.flat rfl)
      have found : Option.Rel (Twins st) (v.lookup? i) (w.lookup? i) :=
        Paired.find? sane (.vector left right items) same
      simp only [call_index, Vector.size_congr left right items]
      refine agree_except fun st₁ leads => ?_
      generalize v.lookup? i = x at found
      generalize w.lookup? i = y at found
      cases found with
      | none => exact .error rfl
      | some twins => exact .ok (twins.later leads)

/-! Values with an order. -/

theorem Paired.items (h : Paired st c c') (ordered : c.isOrdered = true) :
    ∃ xs ys, Items st c xs ∧ Items st c' ys ∧ List.Forall₂ (Twins st) xs ys := by
  cases h with
  | same flat =>
    cases c with
    | nil => exact ⟨[], [], .nil, .nil, .nil⟩
    | str s =>
      refine ⟨_, _, .str, .str, List.forall₂_same.2 (List.forall_mem_map.2 fun c _ => ?_)⟩
      exact .refl sane (whole_flat st rfl)
    | bool | int | keyword | symbol => cases ordered
    | _ => cases flat
  | list items | vector _ _ items =>
    exact ⟨_, _, .spine rfl (Seq.reads_ofList st _), .spine rfl (Seq.reads_ofList st _), items⟩
  | seq left right items => exact ⟨_, _, left.items, right.items, items⟩
  | symbol | map | set => cases ordered

theorem agree_first (peers : Peers st c c') (ordered : c.isOrdered = true) :
    Agree st (fun _ => c.first) (fun _ => c'.first) Twins := by
  obtain ⟨xs, ys, left, right, items⟩ := (peers.paired sane).items sane ordered
  refine agree_of (first_does peers.twins.left.valid left)
    (first_does peers.twins.right.valid right) ?_
  rintro st₁ leads _ _ rfl rfl
  exact .ok ((twins_getD sane (forall₂_head? items) (d := none) .none).later leads)

omit sane in
theorem forall₂_later {st' : Store Value} (leads : Leads st st') {xs ys : List Value}
    (items : List.Forall₂ (Twins st) xs ys) : List.Forall₂ (Twins st') xs ys :=
  items.imp fun _ _ twins => twins.later leads

theorem agree_rest (peers : Peers st c c') (ordered : c.isOrdered = true) :
    Agree st (fun _ => c.rest) (fun _ => c'.rest) Twins := by
  obtain ⟨xs, ys, left, right, items⟩ := (peers.paired sane).items sane ordered
  refine Delivers.agree (rest_does peers.twins.left.valid left)
    (rest_does peers.twins.right.valid right) ?_ ?_
  · rintro st₁ _ ⟨s, rfl, offers⟩ st₂ leads
    exact ⟨s, rfl, offers.later leads⟩
  · rintro st₁ leads _ _ ⟨s, rfl, offers⟩ ⟨t, rfl, offers'⟩
    have behind := List.forall₂_drop 1 (forall₂_later leads items)
    rw [List.drop_one, List.drop_one] at behind
    exact .ok (twins_seq leads.sane offers offers' behind)

theorem agree_next (peers : Peers st c c') (ordered : c.isOrdered = true) :
    Agree st (fun _ => c.next) (fun _ => c'.next) Twins := by
  obtain ⟨xs, ys, left, right, items⟩ := (peers.paired sane).items sane ordered
  refine Delivers.agree (next_does peers.twins.left.valid left)
    (next_does peers.twins.right.valid right) ?_ ?_
  · rintro st₁ _ ⟨s, offers, rfl⟩ st₂ leads
    exact ⟨s, offers.later leads, rfl⟩
  · rintro st₁ leads _ _ ⟨s, offers, rfl⟩ ⟨t, offers', rfl⟩
    have behind := List.forall₂_drop 1 (forall₂_later leads items)
    rw [List.drop_one, List.drop_one] at behind
    have twins := twins_seq leads.sane offers offers' behind
    generalize xs.tail = xs at behind
    generalize ys.tail = ys at behind
    cases behind with
    | nil => exact .ok (twins_nil leads.sane)
    | cons => exact .ok twins

theorem agree_nth (peers : Peers st c c') (ordered : c.isOrdered = true) (index : Int64)
    {d d' : Option Value} (defaults : Option.Rel (Twins st) d d') :
    Agree st (fun fuel => c.nth fuel index d) (fun fuel => c'.nth fuel index d') Twins := by
  have paired := peers.paired sane
  have ordered' : c'.isOrdered = true := by cases paired <;> exact ordered
  obtain ⟨xs, ys, left, right, items⟩ := paired.items sane ordered
  refine agree_of (nth_does peers.twins.left.valid left ordered index d)
    (nth_does peers.twins.right.valid right ordered' index d') ?_
  rintro st₁ leads _ _ rfl rfl
  rw [items.length_eq]
  have found := itemAt?_rel items index
  generalize itemAt? xs index = x at found ⊢
  generalize itemAt? ys index = y at found ⊢
  cases found with
  | some twins => exact .ok (twins.later leads)
  | none =>
    cases defaults with
    | some twins => exact .ok (twins.later leads)
    | none => exact .error rfl

end Operations

/-- In this store and in every later one equal values are interchangeable. -/
structure Interchangeable (st : Store Value) : Prop where
  get {c c' k k' : Value} {d d' : Option Value} : Peers st c c' → Twins st k k' →
    Option.Rel (Twins st) d d' →
      Agree st (fun fuel => liftM (c.get fuel k d)) (fun fuel => liftM (c'.get fuel k' d')) Twins
  contains {c c' k k' : Value} : Peers st c c' → Twins st k k' →
    Agree st (fun fuel => c.contains fuel k) (fun fuel => c'.contains fuel k') fun _ => Eq
  count {c c' : Value} : Peers st c c' →
    Agree st (fun fuel => c.count fuel) (fun fuel => c'.count fuel) fun _ => Eq
  assoc {c c' k k' x x' : Value} : Peers st c c' → Twins st k k' → Twins st x x' →
    Agree st (fun fuel => c.assoc fuel k x) (fun fuel => c'.assoc fuel k' x') Twins
  dissoc {c c' k k' : Value} : Peers st c c' → Twins st k k' →
    Agree st (fun fuel => c.dissoc fuel k) (fun fuel => c'.dissoc fuel k') Twins
  conj {c c' x x' : Value} : Peers st c c' → Twins st x x' → (c.kind = "map" → x.kind = x'.kind) →
    Agree st (fun fuel => c.conj fuel x) (fun fuel => c'.conj fuel x') Twins
  disj {c c' k k' : Value} : Peers st c c' → Twins st k k' →
    Agree st (fun fuel => c.disj fuel k) (fun fuel => c'.disj fuel k') Twins
  peek {c c' : Value} : Peers st c c' → SameOutcome (Twins st) c.peek c'.peek
  pop {c c' : Value} : Peers st c c' → SameOutcome (Twins st) c.pop c'.pop
  call {c c' k k' : Value} {d d' : Option Value} : Peers st c c' → Twins st k k' →
    Option.Rel (Twins st) d d' →
      Agree st (fun fuel => c.call fuel k d) (fun fuel => c'.call fuel k' d') Twins
  first {c c' : Value} : Peers st c c' → c.isOrdered = true →
    Agree st (fun _ => c.first) (fun _ => c'.first) Twins
  rest {c c' : Value} : Peers st c c' → c.isOrdered = true →
    Agree st (fun _ => c.rest) (fun _ => c'.rest) Twins
  next {c c' : Value} : Peers st c c' → c.isOrdered = true →
    Agree st (fun _ => c.next) (fun _ => c'.next) Twins
  nth {c c' : Value} {d d' : Option Value} (index : Int64) : Peers st c c' →
    c.isOrdered = true → Option.Rel (Twins st) d d' →
      Agree st (fun fuel => c.nth fuel index d) (fun fuel => c'.nth fuel index d') Twins
  /-- Lists, vectors and sequences of equal items are twins, whatever their kinds and metadata. -/
  items {a b : Value} {s t : Seq Value} {xs ys : List Value} : In st a → In st b →
    a.sequence? = some s → b.sequence? = some t → Seq.Reads st s xs → Seq.Reads st t ys →
      List.Forall₂ (Twins st) xs ys → Twins st a b
  /-- Twins are the same key of any map and the same element of any set. -/
  key {c a b : Value} {d : Option Value} : Whole st c → Twins st a b →
    (∀ x ∈ d, Whole st x) →
      Agree st (fun fuel => liftM (c.get fuel a d)) (fun fuel => liftM (c.get fuel b d)) Twins ∧
        Agree st (fun fuel => c.contains fuel a) (fun fuel => c.contains fuel b) fun _ => Eq

theorem interchangeable_of_sane {st : Store Value} (sane : Sane st) : Interchangeable st where
  get peers keys defaults := agree_get sane peers keys defaults
  contains := agree_contains sane
  count := agree_count sane
  assoc := agree_assoc sane
  dissoc := agree_dissoc sane
  conj := agree_conj sane
  disj := agree_disj sane
  peek := same_peek sane
  pop := same_pop sane
  call peers keys defaults := agree_call sane peers keys defaults
  first := agree_first sane
  rest := agree_rest sane
  next := agree_next sane
  nth index peers ordered := agree_nth sane peers ordered index
  items valid valid' ha hb := twins_of_items sane valid valid' ha hb
  key {c a b d} whole twins defaults := by
    have peers : Peers st c c := ⟨.refl sane whole, rfl⟩
    refine ⟨agree_get sane peers twins ?_, agree_contains sane peers twins⟩
    cases d with
    | none => exact .none
    | some x => exact .some (.refl sane (defaults x rfl))

/-- Equal values of a sane store are interchangeable, and the store of every program is sane. -/
theorem run_interchangeable :
    (∀ st, Sane st → Interchangeable st) ∧
      ∀ steps : List (Step × ℕ), Sane (run steps).store ∧
        ∀ v ∈ (run steps).values, In (run steps).store v :=
  ⟨fun _ => interchangeable_of_sane, sane_run⟩

end Hashing

/-- A set of a list, and a set of a vector of the same items. -/
def respelled : List (Step × ℕ) :=
  [(.int 1, 9), (.str "two", 9), (.list [0, 1], 9), (.vector [0, 1], 9), (.hashSet [2], 9),
    (.hashSet [3], 9)]

attribute [local instance] Hasher.sum in
theorem run_interchangeable_respelled :
    Agree (run respelled).store
      (fun fuel => ((run respelled).value 4).contains fuel ((run respelled).value 3))
      (fun fuel => ((run respelled).value 5).contains fuel ((run respelled).value 2))
      fun _ => Eq := by
  have valid := valid_run respelled
  have same := run_interchangeable.1 _ valid.sane
  have flat (x : Value) (h : x.isFlat = true) : Twins (run respelled).store x x :=
    .refl valid.sane (whole_flat _ h)
  have reads : Seq.Reads (run respelled).store
      (Seq.ofList (Vector.ofList [.int 1, .str "two"] : Vector Metadata Value).toList)
      [.int 1, .str "two"] := by
    rw [(Vector.holds_ofList _).toList_eq]
    exact Seq.reads_ofList _ _
  have keys : Twins (run respelled).store ((run respelled).value 3) ((run respelled).value 2) :=
    same.items (valid.value 3) (valid.value 2) rfl rfl reads (Seq.reads_ofList _ _)
      (.cons (flat (.int 1) rfl) (.cons (flat (.str "two") rfl) .nil))
  have left := whole_of_set (valid.value 4) (by decide +kernel)
  have right := whole_of_set (valid.value 5) (by decide +kernel)
  obtain ⟨r, yields, -⟩ := (lawfulEquality_of_sane valid.sane).decides left right
  -- the comparison is run once, and no other answer is possible
  have ran : (equal 9 ((run respelled).value 4) ((run respelled).value 5)
      (run respelled).store).map (·.1) = some true := by decide +kernel
  obtain ⟨⟨_, st⟩, done, rfl⟩ := Option.map_eq_some_iff.1 ran
  cases yields.only 9 _ (.refl valid.sane) _ st done
  exact same.contains ⟨⟨left, right, yields⟩, by decide +kernel⟩ keys

end Value

end Persistent
