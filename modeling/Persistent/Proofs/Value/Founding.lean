import Persistent.Proofs.Value.Founded

/-!
Programs build founded values: each step, from founded values, goes on to a store in which what it
builds is founded. Symbols that a program names come with founded metadata.
-/

set_option autoImplicit false

namespace Persistent.Value

theorem shows_of_closed {st : Store Value} {s : Seq Value} (closed : s.pending? = none) :
    Seq.Shows st s (s.known[·]?) := by
  induction s with
  | nil => exact .nil
  | cons x rest ih =>
    have shows := (ih closed).cons (x := x)
    have same : Seq.Items.push x (rest.known[·]?) = ((Seq.cons x rest).known[·]?) := by
      funext i
      cases i <;> rfl
    exact same ▸ shows
  | list x xs => exact .list
  | lazy cell => cases closed

variable [Hasher]

/-- Whatever the computation answers from here is as stated, in the store that it goes on to. -/
def Builds {A : Type} (st : Store Value) (c : Demand Value A) (P : Store Value → A → Prop) : Prop :=
  ∀ a st', c st = some (a, st') → Advances st st' ∧ P st' a

/-- As `Builds`, of a computation that may fail. -/
def Founds {A : Type} (st : Store Value) (c : Action A) (P : Store Value → A → Prop) : Prop :=
  Builds st c.run fun st' r => ∀ a, r = .ok a → P st' a

section Builds

variable {A B : Type} {st : Store Value} (ordered : Ordered st)

include ordered in
theorem builds_pure {a : A} {P : Store Value → A → Prop} (h : P st a) : Builds st (pure a) P := by
  intro b st' done
  cases done
  exact ⟨.refl ordered, h⟩

theorem Builds.bind {c : Demand Value A} {P : Store Value → A → Prop} (h : Builds st c P)
    {f : A → Demand Value B} {Q : Store Value → B → Prop}
    (next : ∀ st', Advances st st' → ∀ a, P st' a → Builds st' (f a) Q) :
    Builds st (c >>= f) Q := by
  intro b st'' done
  obtain ⟨a, st', first, second⟩ := of_bind done
  obtain ⟨advances, made⟩ := h a st' first
  obtain ⟨advances', made'⟩ := next st' advances a made b st'' second
  exact ⟨advances.trans advances', made'⟩

theorem Builds.returns {c : Demand Value A} {P : Store Value → A → Prop} (h : Builds st c P)
    {f : A → B} {Q : Store Value → B → Prop}
    (made : ∀ st', Advances st st' → ∀ a, P st' a → Q st' (f a)) :
    Builds st (do return f (← c)) Q :=
  h.bind fun st' advances a known => builds_pure advances.ordered (made st' advances a known)

include ordered in
theorem founds_pure {a : A} {P : Store Value → A → Prop} (h : P st a) : Founds st (pure a) P :=
  builds_pure ordered fun _ same => Except.ok.inj same ▸ h

include ordered in
theorem founds_throw (fault : Fault) (P : Store Value → A → Prop) :
    Founds st (throw fault : Action A) P :=
  builds_pure ordered fun _ same => nomatch same

theorem founds_lift {d : Demand Value A} {P : Store Value → A → Prop} (h : Builds st d P) :
    Founds st (liftM d : Action A) P := by
  intro r st' done
  obtain ⟨⟨a, st''⟩, first, second⟩ := Option.bind_eq_some_iff.1 done
  cases second
  obtain ⟨advances, made⟩ := h a st' first
  exact ⟨advances, fun _ same => Except.ok.inj same ▸ made⟩

include ordered in
theorem founds_except {r : Except Fault A} {P : Store Value → A → Prop}
    (h : ∀ a, r = .ok a → P st a) : Founds st (liftM r : Action A) P := by
  cases r with
  | error fault => exact founds_throw ordered fault P
  | ok a => exact founds_pure ordered (h a rfl)

theorem Founds.bind {c : Action A} {P : Store Value → A → Prop} (h : Founds st c P)
    {f : A → Action B} {Q : Store Value → B → Prop}
    (next : ∀ st', Advances st st' → ∀ a, P st' a → Founds st' (f a) Q) :
    Founds st (c >>= f) Q := by
  refine Builds.bind h fun st' advances r made => ?_
  cases r with
  | error fault => exact builds_pure advances.ordered fun _ same => nomatch same
  | ok a => exact next st' advances a (made a rfl)

theorem founds_returns {d : Demand Value A} {P : Store Value → A → Prop} (h : Builds st d P)
    {f : A → B} {Q : Store Value → B → Prop}
    (made : ∀ st', Advances st st' → ∀ a, P st' a → Q st' (f a)) :
    Founds st (do return f (← d)) Q :=
  (founds_lift h).bind fun st' advances a known =>
    founds_pure advances.ordered (made st' advances a known)

end Builds

section Observe

variable {st : Store Value}

theorem builds_look (ordered : Ordered st) {s : Seq Value} (h : Founded st (.seq s)) :
    Builds st s.look fun st' r =>
      ∀ x rest, r = some (x, rest) → Founded st' x ∧ Founded st' (.seq rest) := by
  intro r st' done
  have same : s.uncons st = (r, st') := Option.some.inj done
  obtain ⟨f, shows, items⟩ := h.shows
  have onward := advances_uncons ordered s
  have step := shows.uncons ordered.chained
  rw [same] at onward step
  refine ⟨onward, ?_⟩
  rintro x rest rfl
  exact ⟨(items 0 x step.item.symm).mono onward.grows, founded_seq (step.rest x rest rfl)
    fun i y item => (items (i + 1) y item).mono onward.grows⟩

theorem builds_rest (ordered : Ordered st) {s : Seq Value} (h : Founded st (.seq s)) :
    Builds st s.rest fun st' rest => Founded st' (.seq rest) := by
  refine (builds_look ordered h).bind fun st' advances r looked => ?_
  rcases r with _ | ⟨x, rest⟩
  · exact builds_pure advances.ordered (founded_seq .nil nofun)
  · exact builds_pure advances.ordered (looked x rest rfl).2

theorem builds_lazily (ordered : Ordered st) {answer : ℕ → Option Value}
    (entire : ∀ k x, answer k = some x → Entire st x) :
    Builds st (Seq.lazily answer) fun st' s => Founded st' (.seq s) := by
  intro s st' done
  have leads := (makes_lazily (fun k x answered => (entire k x answered).valid) st
    (.refl ordered.sane) s st' done).1
  have extended := Seq.orderly_lazily answer st ordered.chained s st' done
  cases done
  have stands := (ordered.chained.wrap answer).first
  refine ⟨⟨leads, extended⟩, founded_seq (.lazy stands) fun i x item => ?_⟩
  exact (entire _ x item).founded.mono extended.grows

theorem builds_toList (ordered : Ordered st) {s : Seq Value} (h : Founded st (.seq s))
    (fuel : ℕ) : Builds st (s.toList fuel) fun st' xs => ∀ x ∈ xs, Founded st' x := by
  induction fuel generalizing st s with
  | zero => exact fun _ _ done => nomatch done
  | succ fuel ih =>
    refine (builds_look ordered h).bind fun st₁ advances r looked => ?_
    rcases r with _ | ⟨x, rest⟩
    · exact builds_pure advances.ordered nofun
    · obtain ⟨first, behind⟩ := looked x rest rfl
      refine (ih advances.ordered behind).returns fun st₂ advances₂ xs items => ?_
      exact List.forall_mem_cons.2 ⟨first.mono advances₂.grows, items⟩

theorem builds_mapM {A B : Type} {look : A → Demand Value B} {Q : Store Value → B → Prop}
    (mono : ∀ st st' y, Advances st st' → Q st y → Q st' y) {xs : List A} (ordered : Ordered st)
    (each : ∀ x ∈ xs, ∀ st', Advances st st' → Builds st' (look x) Q) :
    Builds st (xs.mapM look) fun st' ys => ys.length = xs.length ∧ ∀ y ∈ ys, Q st' y := by
  induction xs generalizing st with
  | nil => exact builds_pure ordered ⟨rfl, nofun⟩
  | cons x xs ih =>
    rw [List.mapM_cons]
    refine (each x List.mem_cons_self st (.refl ordered)).bind fun st₁ first y hy => ?_
    have others := ih first.ordered fun x' among st' advances =>
      each x' (List.mem_cons_of_mem _ among) st' (first.trans advances)
    refine others.returns fun st₂ behind ys made => ?_
    exact ⟨congrArg (· + 1) made.1, List.forall_mem_cons.2 ⟨mono _ _ y behind hy, made.2⟩⟩

theorem builds_observeShown {A : Type} {look : A → Demand Value A} {Q : Store Value → A → Prop}
    (mono : ∀ st st' y, Advances st st' → Q st y → Q st' y) {xs : List A} (ordered : Ordered st)
    (each : ∀ x ∈ xs, ∀ st', Advances st st' → Builds st' (look x) Q) :
    Builds st (observeShown {} look xs) fun st' ys =>
      ys.length = xs.length ∧ ∀ y ∈ ys, Q st' y := by
  refine (builds_mapM mono ordered each).returns fun st' advances ys made => ?_
  have all : ys ++ xs.drop ys.length = ys := by
    rw [made.1, List.drop_length, List.append_nil]
  exact all.symm ▸ made

theorem founded_refill {s : Seq Value} {xs : List Value} (items : ∀ x ∈ xs, Founded st x) :
    Founded st (.seq (s.refill xs)) := by
  obtain ⟨known, closed⟩ := Prod.mk.inj (Option.some.inj (spine_refill s xs))
  refine founded_seq (shows_of_closed closed) fun i x item => ?_
  rw [known] at item
  exact items x (List.mem_of_getElem? item)

theorem builds_observe (ordered : Ordered st) {v : Value} (h : Founded st v) (fuel depth : ℕ) :
    Builds st (observe {} fuel depth v) Founded := by
  induction fuel generalizing st depth v with
  | zero => exact fun _ _ done => nomatch done
  | succ fuel ih =>
    have parts {st : Store Value} (ordered : Ordered st) {xs : List Value}
        (items : ∀ x ∈ xs, Founded st x) :
        Builds st (observeShown {} (observe {} fuel (depth + 1)) xs) fun st' ys =>
          ys.length = xs.length ∧ ∀ y ∈ ys, Founded st' y :=
      builds_observeShown (fun _ _ _ advances founded => founded.mono advances.grows) ordered
        fun x among st' advances => ih advances.ordered ((items x among).mono advances.grows) _
    have carried {st' : Store Value} (advances : Advances st st') (m : Map Metadata Value Value)
        (carries : v.metadata? = some m) : Carried st' m :=
      (h.carried m carries).mono advances.grows
    rcases kinds v with flat | ⟨xs, i, spine⟩ | ⟨m, rfl⟩ | ⟨s, rfl⟩
    · rw [observe_flat flat]
      exact builds_pure ordered h
    · cases v with
      | list l =>
        rw [observe_list]
        exact (parts ordered h.list_items).returns fun st' advances ys made =>
          founded_list made.2 (carried advances)
      | vector v =>
        rw [observe_vector]
        exact (parts ordered h.vector_items).returns fun st' advances ys made =>
          founded_vector ((Vector.holds_ofList ys).withMetadata _) made.2 (carried advances)
      | seq s =>
        rw [observe_seq]
        refine (builds_toList ordered h fuel).bind fun st₁ advances xs items => ?_
        exact (parts advances.ordered items).returns fun st₂ _ ys made => founded_refill made.2
      | _ => cases spine
    · have entry (e : Value × Value) (he : e ∈ m.toList) (st₁ : Store Value)
          (advances : Advances st st₁) : Builds st₁ (observeEntry (observe {} fuel (depth + 1)) e)
            fun st' f => Founded st' f.1 ∧ Founded st' f.2 := by
        obtain ⟨key, value⟩ := h.map_entries e he
        refine (ih advances.ordered (key.mono advances.grows) _).bind fun st₂ first k hk => ?_
        have founded := value.mono (advances.trans first).grows
        exact (ih first.ordered founded _).returns fun st₃ second u hu =>
          ⟨hk.mono second.grows, hu⟩
      have shown := builds_observeShown (fun _ _ _ advances founded =>
        ⟨founded.1.mono advances.grows, founded.2.mono advances.grows⟩) ordered entry
      rw [observe_map]
      refine shown.returns fun st' advances es made => founded_map ?_ (carried advances)
      rw [Table.toList_refill m.toTable made.1]
      exact made.2
    · rw [observe_set]
      refine (parts ordered (h.items nofun rfl)).returns fun st' advances ys made => ?_
      refine founded_items nofun ?_ made.2 (carried advances)
      exact congrArg (List.map ([·])) (elements_refill s made.1)

theorem builds_realize (ordered : Ordered st) {v : Value} (h : Entire st v) (fuel : ℕ) :
    Builds st (v.realize fuel) Solid := by
  intro u st' done
  have known := (makes_realize h.valid fuel st (.refl ordered.sane) u st' done).2
  obtain ⟨advances, founded⟩ := builds_observe ordered h.founded fuel 0 u st' done
  exact ⟨advances, known, founded⟩

theorem builds_searchKey (ordered : Ordered st) {key : Value} (h : Entire st key) (fuel : ℕ)
    {V : Type} (t : Table Value V) :
    Builds st (searchKey fuel t key) fun st' u => t.isEmpty = true ∨ Solid st' u := by
  unfold searchKey
  split
  case isTrue empty => exact builds_pure ordered (.inl empty)
  case isFalse =>
    intro u st' done
    obtain ⟨advances, solid⟩ := builds_realize ordered h fuel u st' done
    exact ⟨advances, .inr solid⟩

theorem builds_insertPairs (ordered : Ordered st) (fuel : ℕ) {m : Map Metadata Value Value}
    (h : Tabled st m.toTable) {entries : List (Value × Value)}
    (entire : ∀ e ∈ entries, Entire st e.1 ∧ Entire st e.2) :
    Builds st (insertPairs fuel m entries) fun st' n =>
      Tabled st' n.toTable ∧ n.metadata = m.metadata := by
  induction entries generalizing st m with
  | nil => exact builds_pure ordered ⟨h, rfl⟩
  | cons e entries ih =>
    obtain ⟨key, value⟩ := entire e List.mem_cons_self
    refine (builds_realize ordered key fuel).bind fun st' advances u solid => ?_
    have inserted := (h.mono advances.grows).insert solid (value.founded.mono advances.grows)
    refine ih (m := m.insert u e.2) advances.ordered inserted fun f hf => ?_
    obtain ⟨key', value'⟩ := entire f (List.mem_cons_of_mem _ hf)
    exact ⟨key'.mono advances, value'.mono advances⟩

theorem builds_insertItems (ordered : Ordered st) (fuel : ℕ) {s : Set Metadata Value}
    (h : s.Over (Solid st)) {items : List Value} (entire : ∀ x ∈ items, Entire st x) :
    Builds st (insertItems fuel s items) fun st' t =>
      t.Over (Solid st') ∧ t.metadata = s.metadata := by
  induction items generalizing st s with
  | nil => exact builds_pure ordered ⟨h, rfl⟩
  | cons x items ih =>
    refine (builds_realize ordered (entire x List.mem_cons_self) fuel).bind
      fun st' advances u solid => ?_
    have single : ∀ y ∈ [u], Solid st' y := fun y hy => List.mem_singleton.1 hy ▸ solid
    have inserted := Set.over_insertAll (solid_law st') (over_solid_mono advances.grows h) single
    exact ih advances.ordered inserted fun y hy =>
      (entire y (List.mem_cons_of_mem _ hy)).mono advances

theorem builds_eraseKeys (ordered : Ordered st) (fuel : ℕ) {V : Type} {t : Table Value V}
    (h : t.Over (Solid st)) {E : V → Prop} (values : ∀ e ∈ t.toList, E e.2) {keys : List Value}
    (entire : ∀ x ∈ keys, Entire st x) :
    Builds st (eraseKeys fuel t keys) fun st' u =>
      u.Over (Solid st') ∧ ∀ e ∈ u.toList, E e.2 := by
  induction keys generalizing st t with
  | nil => exact builds_pure ordered ⟨h, values⟩
  | cons key keys ih =>
    refine (builds_searchKey ordered (entire key List.mem_cons_self) fuel t).bind
      fun st' advances u found => ?_
    have h' := over_solid_mono advances.grows h
    refine ih advances.ordered (over_solid_erase h' found) (values_solid_erase h' found values) ?_
    exact fun x hx => (entire x (List.mem_cons_of_mem _ hx)).mono advances

end Observe

section Act

variable {st : Store Value} (ordered : Ordered st) (fuel : ℕ)
include ordered

theorem founds_invalidKey {A : Type} (kind : String) {key : Value} (h : Entire st key)
    (P : Store Value → A → Prop) : Founds st (invalidKey fuel kind key) P := by
  have text : Builds st (key.print {} fuel) fun _ _ => True :=
    (builds_observe ordered h.founded fuel 0).returns fun _ _ _ _ => trivial
  exact (founds_lift text).bind fun st' advances text _ => founds_throw advances.ordered _ P

theorem founds_assoc {coll key value : Value} (hc : Entire st coll) (hk : Entire st key)
    (hv : Entire st value) : Founds st (coll.assoc fuel key value) Founded := by
  have solid := builds_realize ordered hk fuel
  cases coll with
  | nil =>
    refine founds_returns solid fun st' advances u solid => ?_
    exact Tabled.founded (tabled_empty.insert solid (hv.founded.mono advances.grows)) nofun
  | map m =>
    refine founds_returns solid fun st' advances u solid => ?_
    have later := hc.mono advances
    have inserted := later.tabled.insert solid (hv.founded.mono advances.grows)
    exact Tabled.founded inserted later.founded.carried
  | vector v =>
    cases key with
    | int index =>
      have made : Founds st (liftM (v.set index value)) fun st' w => Founded st' (.vector w) := by
        refine founds_except ordered fun w stored => ?_
        obtain ⟨ys, held, among⟩ := (holds_of_valid hc.valid).1.of_set stored
        refine founded_vector held (fun y hy => ?_) ?_
        · rcases among y hy with old | rfl
          · exact hc.founded.vector_items y old
          · exact hv.founded
        · rw [Vector.set_metadata stored]
          exact hc.founded.carried
      exact made.bind fun st' advances w founded => founds_pure advances.ordered founded
    | _ => exact founds_invalidKey ordered fuel _ hk _
  | _ => exact founds_throw ordered _ _

theorem founds_dissoc {coll key : Value} (hc : Entire st coll) (hk : Entire st key) :
    Founds st (coll.dissoc fuel key) Founded := by
  cases coll with
  | nil => exact founds_pure ordered hc.founded
  | map m =>
    have found := builds_searchKey ordered hk fuel m.toTable
    refine founds_returns found fun st' advances u found => ?_
    have later := hc.mono advances
    have tabled := later.tabled
    have erased : Tabled st' (m.toTable.erase u) :=
      ⟨over_solid_erase tabled.keyed found, values_solid_erase tabled.keyed found tabled.values⟩
    exact Tabled.founded erased later.founded.carried
  | _ => exact founds_throw ordered _ _

theorem founds_conj {coll item : Value} (hc : Entire st coll) (hi : Entire st item) :
    Founds st (coll.conj fuel item) Founded := by
  cases coll with
  | nil =>
    refine founds_pure ordered (founded_list (fun x hx => ?_) nofun)
    exact List.mem_singleton.1 hx ▸ hi.founded
  | list l => exact founds_pure ordered (founded_listPush hc.founded hi.founded)
  | vector v =>
    have single : ∀ x ∈ [item], Founded st x := fun x hx => List.mem_singleton.1 hx ▸ hi.founded
    exact founds_pure ordered (hc.vectorPushAll single)
  | set s =>
    refine founds_returns (builds_realize ordered hi fuel) fun st' advances u solid => ?_
    have later := hc.mono advances
    refine founded_over (Set.over_insert (solid_law st') later.over solid) ?_
    rw [Set.insert_metadata]
    exact later.founded.carried
  | seq s => exact founds_pure ordered (founded_cons hc.founded hi.founded)
  | map m =>
    cases item with
    | vector pair =>
      obtain ⟨-, items⟩ := holds_of_valid hi.valid
      have parts := hi.founded.vector_items
      unfold conj
      dsimp only
      split
      case h_1 key value two =>
        rw [two] at items parts
        have key' : Entire st key := ⟨items key List.mem_cons_self, parts key List.mem_cons_self⟩
        refine founds_returns (builds_realize ordered key' fuel) fun st' advances u solid => ?_
        have later := hc.mono advances
        have founded := (parts value (by simp)).mono advances.grows
        exact Tabled.founded (later.tabled.insert solid founded) later.founded.carried
      case h_2 => exact founds_invalidKey ordered fuel _ hi _
    | map n =>
      have merged := hc.tabled.merge hi.tabled
      exact founds_pure ordered (Tabled.founded merged hc.founded.carried)
    | _ => exact founds_invalidKey ordered fuel _ hi _
  | _ => exact founds_throw ordered _ _

theorem founds_disj {coll item : Value} (hc : Entire st coll) (hi : Entire st item) :
    Founds st (coll.disj fuel item) Founded := by
  cases coll with
  | nil => exact founds_pure ordered hc.founded
  | set s =>
    have found := builds_searchKey ordered hi fuel s.toTable
    refine founds_returns found fun st' advances u found => ?_
    have later := hc.mono advances
    exact founded_over (over_solid_erase later.over found) later.founded.carried
  | _ => exact founds_throw ordered _ _

theorem founds_conjAll {coll : Value} {items : List Value} (hc : Entire st coll)
    (hi : ∀ x ∈ items, Entire st x) : Founds st (coll.conjAll fuel items) Founded := by
  have founded (x : Value) (hx : x ∈ items) : Founded st x := (hi x hx).founded
  cases coll with
  | list l => exact founds_pure ordered (founded_foldl founded_listPush hc.founded founded)
  | vector v => exact founds_pure ordered (hc.vectorPushAll founded)
  | set s =>
    refine founds_returns (builds_insertItems ordered fuel hc.over hi) fun st' advances t made => ?_
    refine founded_over made.1 ?_
    rw [made.2]
    exact (hc.mono advances).founded.carried
  | seq s => exact founds_pure ordered (founded_foldl founded_cons hc.founded founded)
  | _ => exact founds_throw ordered _ _

omit fuel in
theorem founds_combine {v w : Value} (hv : Entire st v) (hw : Entire st w) {operation : String}
    {f : Set Metadata Value → Set Metadata Value → Set Metadata Value}
    (closed : ∀ {s t : Set Metadata Value}, s.Over (Solid st) → t.Over (Solid st) →
      (f s t).Over (Solid st))
    (carries : ∀ s t, (f s t).metadata = s.metadata) :
    Founds st (combine operation f v w) Founded := by
  unfold combine
  split
  case h_1 s t =>
    refine founds_pure ordered (founded_over (closed hv.over hw.over) ?_)
    rw [carries]
    exact hv.founded.carried
  case h_2 => exact founds_throw ordered _ _

/-- A symbol that the step names is founded from the start. -/
def Step.Sound : Step → Prop
  | .symbol s => Founded {} (.symbol s)
  | _ => True

/-- Every step of a program builds a founded value from entire ones. -/
theorem founds_act {value : ℕ → Value} (entire : ∀ i, Entire st (value i)) {s : Step}
    (sound : s.Sound) : Founds st (s.act fuel value) Founded := by
  have all (items : List ℕ) : ∀ x ∈ items.map value, Entire st x :=
    List.forall_mem_map.2 fun i _ => entire i
  have pairs (entries : List (ℕ × ℕ)) :
      ∀ e ∈ entries.map fun e => (value e.1, value e.2), Entire st e.1 ∧ Entire st e.2 :=
    List.forall_mem_map.2 fun e _ => ⟨entire e.1, entire e.2⟩
  cases s with
  | nil | bool | int | str | keyword => exact founds_pure ordered (founded_flat rfl rfl)
  | symbol s =>
    have grows : Store.Grows {} st := fun _ _ _ _ stands => nomatch stands.place
    exact founds_pure ordered (Founded.mono grows sound)
  | list items =>
    exact founds_pure ordered (founded_list (fun x hx => (all items x hx).founded) nofun)
  | vector items =>
    have founded (x : Value) (hx : x ∈ items.map value) := (all items x hx).founded
    refine founds_pure ordered (founded_vector (Vector.holds_ofList _) founded ?_)
    rw [Vector.ofList, Vector.pushAll_metadata]
    exact nofun
  | hashMap entries =>
    have made := builds_insertPairs ordered fuel tabled_empty (m := {}) (pairs entries)
    refine founds_lift (made.returns fun st' _ m made => Tabled.founded made.1 ?_)
    rw [made.2]
    exact nofun
  | hashSet items =>
    have made := builds_insertItems ordered fuel (s := {}) (Table.over_empty (Solid st)) (all items)
    refine founds_lift (made.returns fun st' _ s made => founded_over made.1 ?_)
    rw [made.2]
    exact nofun
  | lazy answer =>
    have made : Builds st (Seq.lazily fun k => (answer k).map value) fun st' s =>
        Founded st' (.seq s) := builds_lazily ordered fun k x answered => by
      obtain ⟨i, -, rfl⟩ := Option.map_eq_some_iff.1 answered
      exact entire i
    exact (founds_lift made).bind fun st' advances s founded => founds_pure advances.ordered founded
  | assoc coll key x => exact founds_assoc ordered fuel (entire coll) (entire key) (entire x)
  | assocAll coll entries =>
    have hc := entire coll
    unfold Step.act
    dsimp only
    split
    case h_1 m same =>
      rw [same] at hc
      have made := builds_insertPairs ordered fuel hc.tabled (pairs entries)
      refine founds_returns made fun st' advances n made => Tabled.founded made.1 ?_
      rw [made.2]
      exact (hc.mono advances).founded.carried
    case h_2 => exact founds_throw ordered _ _
  | dissoc coll key => exact founds_dissoc ordered fuel (entire coll) (entire key)
  | dissocAll coll keys =>
    have hc := entire coll
    unfold Step.act
    dsimp only
    split
    case h_1 m same =>
      rw [same] at hc
      have made := builds_eraseKeys ordered fuel hc.tabled.keyed hc.tabled.values (all keys)
      refine founds_returns made fun st' advances t made => ?_
      have tabled : Tabled st' t := ⟨made.1, fun e he => (made.2 e he).mono advances.grows⟩
      exact Tabled.founded tabled (hc.mono advances).founded.carried
    case h_2 => exact founds_throw ordered _ _
  | conj coll item => exact founds_conj ordered fuel (entire coll) (entire item)
  | conjAll coll items => exact founds_conjAll ordered fuel (entire coll) (all items)
  | disj coll item => exact founds_disj ordered fuel (entire coll) (entire item)
  | disjAll coll items =>
    have hc := entire coll
    unfold Step.act
    dsimp only
    split
    case h_1 s same =>
      rw [same] at hc
      have made := builds_eraseKeys ordered fuel hc.over (E := fun _ => True)
        (fun _ _ => trivial) (all items)
      exact founds_returns made fun st' advances t made =>
        founded_over made.1 (hc.mono advances).founded.carried
    case h_2 => exact founds_throw ordered _ _
  | union s t =>
    exact founds_combine ordered (entire s) (entire t)
      (Set.over_union (solid_law st)) fun _ _ => rfl
  | inter s t =>
    exact founds_combine ordered (entire s) (entire t)
      (fun hs _ => Set.over_inter (solid_law st) hs) fun _ _ => rfl
  | diff s t =>
    exact founds_combine ordered (entire s) (entire t)
      (Set.over_diff (solid_law st)) fun _ _ => rfl
  | pop coll =>
    exact founds_except ordered fun w popped =>
      founded_pop (entire coll).valid (entire coll).founded popped
  | withMetadata v metadata =>
    have hm := entire metadata
    unfold Step.act
    dsimp only
    split
    case h_1 m same =>
      rw [same] at hm
      exact founds_except ordered fun w made =>
        founded_withMetadata (entire v).founded hm.tabled.carried made
    case h_2 => exact founds_throw ordered _ _
  | tail v =>
    have hv := entire v
    unfold Step.act
    dsimp only
    split
    case h_1 s same =>
      rw [same] at hv
      exact founds_returns (builds_rest ordered hv.founded) fun _ _ _ founded => founded
    case h_2 => exact founds_throw ordered _ _
  | realize v =>
    refine founds_lift fun u st' done => ?_
    obtain ⟨advances, solid⟩ := builds_realize ordered (entire v) fuel u st' done
    exact ⟨advances, solid.founded⟩
  | equal v w =>
    refine founds_returns (P := fun _ _ => True) (fun b st' done => ?_) fun _ _ _ _ =>
      founded_flat rfl rfl
    exact ⟨advances_equal ordered (entire v).valid (entire w).valid done, trivial⟩

end Act

/-- The store is ordered and the values are entire in it. -/
structure World.Entire (w : World) : Prop where
  ordered : Ordered w.store
  values : ∀ v ∈ w.values, Value.Entire w.store v

theorem World.Entire.value {w : World} (h : w.Entire) (i : ℕ) :
    Value.Entire w.store (w.value i) := by
  unfold World.value
  rw [List.getD_eq_getElem?_getD]
  cases found : w.values[i]? with
  | none => exact ⟨.flat rfl, founded_flat rfl rfl⟩
  | some v => exact h.values v (List.mem_of_getElem? found)

theorem entire_step {w : World} (h : w.Entire) {s : Step} (sound : s.Sound) (fuel : ℕ) :
    (step w s fuel).Entire := by
  unfold step
  have founds := founds_act h.ordered fuel h.value sound
  have performs := performs_act fuel (fun i => (h.value i).valid) s w.store (.refl h.ordered.sane)
  split
  case h_1 => exact h
  case h_2 fault store done =>
    obtain ⟨advances, -⟩ := founds _ _ done
    exact ⟨advances.ordered, fun v hv => (h.values v hv).mono advances⟩
  case h_3 v store done =>
    obtain ⟨advances, founded⟩ := founds _ _ done
    refine ⟨advances.ordered, fun u hu => ?_⟩
    rcases List.mem_append.1 hu with old | new
    · exact (h.values u old).mono advances
    · obtain rfl := List.mem_singleton.1 new
      exact ⟨(performs _ _ done).2 u rfl, founded u rfl⟩

theorem entire_run {steps : List (Step × ℕ)} (sound : ∀ s ∈ steps, s.1.Sound) :
    (run steps).Entire := by
  have fold (w : World) (h : w.Entire) : (steps.foldl (fun w s => step w s.1 s.2) w).Entire := by
    induction steps generalizing w with
    | nil => exact h
    | cons s steps ih =>
      exact ih (fun s' among => sound s' (List.mem_cons_of_mem _ among)) _
        (entire_step h (sound s List.mem_cons_self) s.2)
  exact fold {} ⟨ordered_run [], nofun⟩

end Persistent.Value
