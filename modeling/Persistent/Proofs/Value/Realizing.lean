import Persistent.Proofs.Value.Building
import Persistent.Proofs.Value.Making
import Persistent.Proofs.Value.Observing
import Persistent.Value.Keyed

/-!
Realizing a value answers a known value, which equals whatever the value means. What is fed to a
hash is therefore settled by the meaning.
-/

set_option autoImplicit false

namespace Persistent.Value

theorem spine_realized (xs : List Value) :
    (Value.seq (Seq.realized xs)).spine? = some (xs, none) := by
  induction xs with
  | nil => rfl
  | cons x xs ih =>
    obtain ⟨known, closed⟩ := Prod.mk.inj (Option.some.inj ih)
    change some (x :: (Seq.realized xs).known, (Seq.realized xs).pending?) = _
    rw [known, closed]

theorem spine_refill (s : Seq Value) (xs : List Value) :
    (Value.seq (s.refill xs)).spine? = some (xs, none) := by
  induction s generalizing xs with
  | cons y rest ih =>
    cases xs with
    | nil => rfl
    | cons x xs =>
      obtain ⟨known, closed⟩ := Prod.mk.inj (Option.some.inj (ih xs))
      change some (x :: (rest.refill xs).known, (rest.refill xs).pending?) = _
      rw [known, closed]
  | list => cases xs <;> rfl
  | nil | lazy => exact spine_realized xs

variable [Hasher]

/-- The known value `u` equals whatever `v` means. -/
structure Shows (st : Store Value) (v u : Value) : Prop where
  known : u.Known
  same : ∀ w : Value, w.Known → Means st v w → (w == u) = true

theorem Shows.earlier {st st' : Store Value} (later : Seq.Later st st') {v u : Value}
    (h : Shows st' v u) : Shows st v u :=
  ⟨h.known, fun w known means => h.same w known (means.later later)⟩

theorem Shows.equalIn {st : Store Value} {v u : Value} (h : Shows st v u) (known : v.Known) :
    EqualIn Known v u :=
  ⟨known, h.known, h.same v known (means_self st known)⟩

theorem shows_flat (st : Store Value) {v : Value} (h : v.isFlat = true) : Shows st v v := by
  refine ⟨.flat h, fun w known means => ?_⟩
  cases means with
  | flat => exact (beq_flat h v).2 rfl
  | set | map => cases h
  | spine sequence => cases (sort_of_flat h).symm.trans (sort_of_sequence sequence)

theorem shows_spine {st : Store Value} {v u : Value} {s : Seq Value} {xs us : List Value}
    (sequence : v.sequence? = some s) (only : ∀ ys, Seq.Reads st s ys → ys = xs)
    (spine : u.spine? = some (us, none)) (known : u.Known)
    (items : List.Forall₂ (Shows st) xs us) : Shows st v u := by
  refine ⟨known, fun w knownW means => ?_⟩
  have one := sort_of_sequence sequence
  cases means with
  | flat h => cases (sort_of_flat h).symm.trans one
  | set | map => cases one
  | @spine _ _ t ys ws sequence' reads spine' means =>
    cases sequence.symm.trans sequence'
    cases only ys reads
    refine (beq_spine_iff spine' u).2 ⟨us, spine, ?_⟩
    have known' := forall₂_imp_mem means.flip fun y hy x _ h =>
      And.intro (known_items knownW spine' y hy) h
    exact forall₂_trans (fun y x z h k => k.same y h.1 h.2) known' items

/-- An entry with an equal key, and what the value shows. -/
def EntryShows (st : Store Value) (e f : Value × Value) : Prop :=
  EqualIn Known e.1 f.1 ∧ Shows st e.2 f.2

theorem shows_map {st : Store Value} {m : Map Metadata Value Value} (keyed : m.Over Known)
    {entries : List (Value × Value)} (shown : List.Forall₂ (EntryShows st) m.toList entries) :
    Shows st (.map m) (.map { m with toTable := m.toTable.refill entries }) := by
  have law := lawful_known.toKeyLaw
  obtain ⟨keyed', filled⟩ := keyed.refill law (shown.imp fun e f h => h.1)
  refine ⟨.map keyed'.toWellFormed keyed'.keys ?_, fun w known means => ?_⟩
  · intro f hf
    obtain ⟨e, -, h⟩ := Matches.exists_mem ⟨_, shown.flip, .refl _⟩ (filled ▸ hf)
    exact h.2.known
  cases means with
  | flat h => cases h
  | spine sequence => cases sequence
  | @map _ n keys values =>
    obtain ⟨keyedN, valuesN⟩ := valid_entries known
    have known' := forall₂_imp_mem (forall₂_entries keys values).flip
      fun k hk e _ h => And.intro (valuesN k hk) h
    have equal : List.Forall₂ (Table.EntryMatches Known fun a b => (a == b) = true) n.toList
        entries := by
      refine forall₂_trans (fun k e f h g => ?_) known' shown
      exact ⟨h.2.1 ▸ g.1, g.2.same k.2 h.1 h.2.2⟩
    exact (beq_map_iff_matches law keyedN keyed').2 ⟨entries, equal, .of_eq filled.symm⟩

theorem shows_set {st : Store Value} {s : Set Metadata Value} (keyed : s.Over Known)
    {items : List Value} (shown : List.Forall₂ (EqualIn Known) s.elements items) :
    Shows st (.set s) (.set { s with toTable := s.toTable.refill (items.map (·, ())) }) := by
  have law := lawful_known.toKeyLaw
  have keys : List.Forall₂ (fun e f => EqualIn Known e.1 f.1) s.toList (items.map (·, ())) := by
    rw [List.forall₂_map_right_iff]
    exact List.forall₂_map_left_iff.1 shown
  obtain ⟨keyed', filled⟩ := keyed.refill law keys
  refine ⟨.set keyed'.toWellFormed keyed'.keys, fun w known means => ?_⟩
  cases means with
  | flat h => cases h
  | spine sequence => cases sequence
  | set =>
    exact (beq_set_iff_matches law keyed keyed').2
      ⟨_, keys.imp fun e f h => ⟨h, trivial⟩, .of_eq filled.symm⟩

theorem known_of_shows {st : Store Value} {xs us : List Value}
    (shown : List.Forall₂ (Shows st) xs us) : ∀ u ∈ us, u.Known := by
  intro u hu
  obtain ⟨x, -, h⟩ := Matches.exists_mem ⟨_, shown.flip, .refl _⟩ hu
  exact h.known

theorem known_refill (s : Seq Value) {xs : List Value} (known : ∀ x ∈ xs, x.Known) :
    (Value.seq (s.refill xs)).Known := by
  obtain ⟨items, closed⟩ := Prod.mk.inj (Option.some.inj (spine_refill s xs))
  refine .seq (items.symm ▸ known) fun cell pending => ?_
  cases closed.symm.trans pending

section Observe

variable {st : Store Value} {fuel depth : ℕ}

theorem makes_observeShown {A : Type} {P : A → A → Prop} {look : A → Demand Value A} {xs : List A}
    (each : ∀ x ∈ xs, Makes st (look x) fun _ y => P x y) :
    Makes st (observeShown {} look xs) fun _ ys => List.Forall₂ P xs ys := by
  refine (makes_mapM each).bind fun st₁ leads ys shown => ?_
  have all : ys ++ xs.drop ys.length = ys := by
    rw [← shown.length_eq, List.drop_length, List.append_nil]
  exact makes_pure fun _ _ => all.symm ▸ shown

/-- The items of a list, a vector or a sequence, given what looking at each makes. -/
theorem makes_observe_spine {v : Value} {spine : List Value × Option ℕ}
    (spined : v.spine? = some spine) (valid : In st v)
    (parts : ∀ st₁, Seq.Later st st₁ → ∀ xs : List Value, (∀ x ∈ xs, In st₁ x) →
      Makes st₁ (observeShown {} (observe {} fuel (depth + 1)) xs) fun _ us =>
        List.Forall₂ (Shows st) xs us) :
    Makes st (observe {} (fuel + 1) depth v) fun _ u => Shows st v u := by
  cases v with
  | list l =>
    rw [observe_list]
    refine (parts st (.refl st) l.items (items_of_list valid)).bind fun _ _ us shown => ?_
    exact makes_pure fun _ _ => shows_spine rfl (fun ys reads => Seq.reads_ofList_eq reads) rfl
      (.list (known_of_shows shown)) shown
  | vector v =>
    obtain ⟨-, items⟩ := holds_of_valid valid
    rw [observe_vector]
    refine (parts st (.refl st) v.toList items).bind fun _ _ us shown => makes_pure fun _ _ => ?_
    have held := (Vector.holds_ofList us).withMetadata v.metadata
    have spine := congrArg (fun xs => some (xs, (none : Option ℕ))) held.toList_eq
    exact shows_spine rfl (fun ys reads => Seq.reads_ofList_eq reads) spine
      (valid_vector held (known_of_shows shown)) shown
  | seq s =>
    rw [observe_seq]
    refine (makes_toList valid fuel).bind fun st₁ leads xs items => ?_
    refine (parts st₁ leads.later xs items.1).bind fun _ _ us shown => makes_pure fun _ _ => ?_
    exact shows_spine rfl items.2 (spine_refill s us) (known_refill s (known_of_shows shown)) shown
  | _ => cases spined

theorem makes_observe {v : Value} (valid : In st v) :
    Makes st (observe {} fuel depth v) fun _ u => Shows st v u := by
  induction fuel generalizing st depth v with
  | zero => exact makes_exhausted
  | succ fuel ih =>
    have parts (st₁ : Store Value) (later : Seq.Later st st₁) (xs : List Value)
        (valids : ∀ x ∈ xs, In st₁ x) :
        Makes st₁ (observeShown {} (observe {} fuel (depth + 1)) xs) fun _ us =>
          List.Forall₂ (Shows st) xs us :=
      makes_observeShown fun x hx => (ih (valids x hx)).imp fun _ _ h => h.earlier later
    rcases kinds v with flat | ⟨xs, i, spine⟩ | ⟨m, rfl⟩ | ⟨s, rfl⟩
    · rw [observe_flat flat]
      exact makes_pure fun _ _ => shows_flat st flat
    · exact makes_observe_spine spine valid parts
    · obtain ⟨keyed, valids⟩ := valid_entries valid
      have entry (e : Value × Value) (he : e ∈ m.toList) :
          Makes st (observeEntry (observe {} fuel (depth + 1)) e) fun _ f => EntryShows st e f := by
        have key : e.1.Known := keyed.keys e he
        refine (ih (key.mono (Nat.zero_le _))).bind fun st₁ leads k shows => ?_
        refine (ih (Valid.later (valids e he) leads.later)).bind fun _ _ u shows' => ?_
        exact makes_pure fun _ _ => ⟨shows.equalIn key, shows'.earlier leads.later⟩
      rw [observe_map]
      exact (makes_observeShown entry).bind fun _ _ entries shown =>
        makes_pure fun _ _ => shows_map keyed shown
    · have keyed := valid_elements valid
      have known := Set.elements_in keyed
      rw [observe_set]
      refine (parts st (.refl st) s.elements fun x hx => (known x hx).mono (Nat.zero_le _)).bind
        fun _ _ us shown => makes_pure fun _ _ => shows_set keyed ?_
      exact forall₂_imp_mem shown fun x hx u _ h => h.equalIn (known x hx)

end Observe

/-- Realizing a finite value comes to an end, and shows what the value means. -/
theorem realize_settles {st : Store Value} (sane : Sane st) {v w : Value} (means : Means st v w)
    (valid : v.Valid st.cells.size) :
    ∃ u, Shows st v u ∧ Settles st (fun fuel => v.realize fuel) u := by
  obtain ⟨u, settles⟩ := observe_settles sane means valid
  obtain ⟨N, run⟩ := settles 0
  obtain ⟨st', done, -⟩ := run N (Nat.le_refl N) st (.refl sane)
  exact ⟨u, (makes_observe valid st (.refl sane) u st' done).2, settles 0⟩

/-- What a value feeds to a hash, all of it looked at. -/
def demandWords (fuel : ℕ) (v : Value) : Demand Value (List UInt64) := do
  return (← v.realize fuel).words

theorem makes_realize {st : Store Value} {v : Value} (valid : In st v) (fuel : ℕ) :
    Makes st (v.realize fuel) fun _ u => u.Known :=
  (makes_observe valid).imp fun _ _ shows => shows.known

/-- A key that is searched for is known, unless there is nothing to find. -/
theorem makes_searchKey {V : Type} {st : Store Value} {key : Value} (valid : In st key) (fuel : ℕ)
    (t : Table Value V) :
    Makes st (searchKey fuel t key) fun _ u => t.isEmpty = true ∨ u.Known := by
  unfold searchKey
  split
  case isTrue empty => exact makes_pure fun _ _ => .inl empty
  case isFalse => exact (makes_realize valid fuel).imp fun _ _ known => .inr known

end Persistent.Value
