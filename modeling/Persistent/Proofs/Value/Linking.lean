import Persistent.Proofs.Seq.Chain
import Persistent.Proofs.Value.Reachable

/-!
Computations on values and the chains of cells. Whatever a computation looks at, and with whatever
fuel, the cells of each source stay one chain and keep their places in it.
-/

set_option autoImplicit false

namespace Persistent

namespace Store

variable {α : Type}

/-- The store `st'` is made of chains too, in which those of `st` go on. What has been looked at
stays so. -/
structure Extended (st st' : Store α) : Prop where
  chained : st'.Chained
  grows : st.Grows st'
  settled : ∀ i, st.settled i → st'.settled i

theorem Extended.refl {st : Store α} (chained : st.Chained) : st.Extended st :=
  ⟨chained, .refl st, fun _ h => h⟩

theorem Extended.trans {st st' st'' : Store α} (h : st.Extended st') (k : st'.Extended st'') :
    st.Extended st'' :=
  ⟨k.chained, h.grows.trans k.grows, fun i settled => k.settled i (h.settled i settled)⟩

/-- Every cell of a chained store has a place. -/
theorem Chained.exists_at {st : Store α} (chained : st.Chained) {cell : ℕ} {c : Cell α}
    (here : st.cells[cell]? = some c) : ∃ j answer k, st.At j answer k cell := by
  have inside := chained.source_lt cell c here
  obtain ⟨k, place⟩ := List.mem_iff_getElem?.1 (mem_cellsOf.2 ⟨c, here, rfl⟩)
  exact ⟨c.source, _, k, by rw [Array.getElem?_eq_getElem inside, Option.map_some], place⟩

theorem Chained.force {st : Store α} (chained : st.Chained) (cell : ℕ) :
    st.Extended (st.force cell).2 := by
  cases here : st.cells[cell]? with
  | none =>
    unfold Store.force
    rw [here]
    exact .refl chained
  | some c =>
    obtain ⟨j, answer, k, stands⟩ := chained.exists_at here
    have looked := chained.looked stands
    exact ⟨looked.chained, looked.grows, fun i settled => (looked.settled_iff i).2 (.inl settled)⟩

/-- Of a row of cells those are settled that the calls on their source have come to. -/
theorem Linked.settled_iff {st : Store α} {j : ℕ} {s : Source α} {k : ℕ} {chain : List ℕ}
    (h : Linked st j s k chain) {d cell : ℕ} (here : chain[d]? = some cell) :
    st.settled cell ↔ k + d < s.calls := by
  have calls := h.calls_eq
  induction h generalizing d with
  | @pending k first unforced count =>
    cases d with
    | zero =>
      cases here
      simp [settled, unforced, count]
    | succ d => cases here
  | @ended k first ended done count =>
    cases d with
    | zero =>
      cases here
      simp [settled, ended, count]
    | succ d => cases here
  | @forced k first next x rest forced item behind ih =>
    cases d with
    | zero =>
      cases here
      have more := behind.calls_eq
      have settled : st.settled cell := by simp [settled, forced]
      simp only [settled, true_iff]
      omega
    | succ d =>
      refine (ih here behind.calls_eq).trans ?_
      rw [Nat.add_assoc, Nat.add_comm 1]

/-- A cell is settled if the calls on its source have come to its place. -/
theorem Chained.settled_iff {st : Store α} (chained : st.Chained) {j k cell : ℕ}
    {answer : ℕ → Option α} (stands : st.At j answer k cell) {s : Source α}
    (source : st.sources[j]? = some s) : st.settled cell ↔ k < s.calls := by
  have linked := (chained.linked j s source).settled_iff stands.place
  rwa [Nat.zero_add] at linked

/-- There is a cell for every call. -/
theorem Chained.exists_cell {st : Store α} (chained : st.Chained) {j k : ℕ} {s : Source α}
    (source : st.sources[j]? = some s) (called : k < s.calls) : ∃ i, st.At j s.answer k i := by
  have calls := (chained.linked j s source).calls_eq
  have cells := List.length_filter_le st.settled (st.cellsOf j)
  have inside : k < (st.cellsOf j).length := by omega
  exact ⟨_, by rw [source, Option.map_some], List.getElem?_eq_getElem inside⟩

/-- The calls made on a source, none where there is no source. -/
def callsOf (st : Store α) (j : ℕ) : ℕ :=
  st.sources[j]?.elim 0 Source.calls

/-- A source has been called once for each of its cells that has been looked at. -/
theorem Chained.callsOf_eq {st : Store α} (chained : st.Chained) (j : ℕ) :
    st.callsOf j = ((st.cellsOf j).filter st.settled).length := by
  unfold callsOf
  cases source : st.sources[j]? with
  | none =>
    rw [cellsOf_new chained (Array.getElem?_eq_none_iff.1 source)]
    rfl
  | some s =>
    have calls := (chained.linked j s source).calls_eq
    rwa [Nat.zero_add] at calls

/-- The cells that have been looked at before are the same ones afterwards. -/
theorem Extended.filter_settled {st st' : Store α} (h : st.Extended st') (chained : st.Chained)
    (j : ℕ) : ((st'.cellsOf j).filter fun i => st.settled i && st'.settled i).Perm
      ((st.cellsOf j).filter st.settled) := by
  refine (List.perm_ext_iff_of_nodup ((nodup_cellsOf st' j).filter _)
    ((nodup_cellsOf st j).filter _)).2 fun i => ?_
  simp only [List.mem_filter, Bool.and_eq_true]
  constructor
  · rintro ⟨member, before, -⟩
    obtain ⟨c, here, -⟩ := (Option.any_eq_true _ _).1 before
    obtain ⟨j', answer, k, stands⟩ := chained.exists_at here
    obtain ⟨c', here', rfl⟩ := mem_cellsOf.1 member
    obtain ⟨d, there, rfl⟩ := mem_cellsOf.1 (List.mem_of_getElem? (h.grows _ _ _ _ stands).place)
    cases here'.symm.trans there
    exact ⟨List.mem_of_getElem? stands.place, before⟩
  · rintro ⟨member, before⟩
    obtain ⟨c, here, rfl⟩ := mem_cellsOf.1 member
    obtain ⟨j', answer, k, stands⟩ := chained.exists_at here
    obtain ⟨d, there, rfl⟩ := mem_cellsOf.1 (List.mem_of_getElem? stands.place)
    cases here.symm.trans there
    exact ⟨List.mem_of_getElem? (h.grows _ _ _ _ stands).place, before, h.settled i before⟩

/-- A source is called once for each of its cells that is looked at for the first time. -/
theorem Extended.callsOf_eq {st st' : Store α} (h : st.Extended st') (chained : st.Chained)
    (j : ℕ) : st'.callsOf j = st.callsOf j +
      ((st'.cellsOf j).filter fun i => !st.settled i && st'.settled i).length := by
  rw [h.chained.callsOf_eq, chained.callsOf_eq, ← (h.filter_settled chained j).length_eq,
    List.length_eq_length_filter_add st.settled, List.filter_filter, List.filter_filter]

/-- The calls of a source are never fewer afterwards. -/
theorem Extended.calls_le {st st' : Store α} (h : st.Extended st') (chained : st.Chained) {j : ℕ}
    {s s' : Source α} (source : st.sources[j]? = some s) (source' : st'.sources[j]? = some s') :
    s.calls ≤ s'.calls := by
  have calls := h.callsOf_eq chained j
  rw [callsOf, callsOf, source, source'] at calls
  exact Nat.le.intro calls.symm

end Store

namespace Demand

variable {α A B : Type}

/-- From a chained store the computation leads to one that extends it, if it leads anywhere. -/
def Orderly (c : Demand α A) : Prop :=
  ∀ st : Store α, st.Chained → ∀ a st', c st = some (a, st') → st.Extended st'

theorem orderly_pure (a : A) : Orderly (pure a : Demand α A) := by
  rintro st chained _ _ ⟨⟩
  exact .refl chained

theorem orderly_exhausted : Orderly (exhausted : Demand α A) :=
  fun _ _ _ _ done => nomatch done

theorem Orderly.bind {c : Demand α A} {f : A → Demand α B} (hc : Orderly c)
    (hf : ∀ a, Orderly (f a)) : Orderly (c >>= f) := by
  intro st chained b st' done
  obtain ⟨⟨a, st₁⟩, first, second⟩ := Option.bind_eq_some_iff.1 done
  have extended := hc st chained a st₁ first
  exact extended.trans (hf a st₁ extended.chained b st' second)

theorem Orderly.ite {p : Prop} [Decidable p] {c d : Demand α A} (hc : Orderly c)
    (hd : Orderly d) : Orderly (if p then c else d) := by
  split
  · exact hc
  · exact hd

/-- What is made of an answer without a further look. -/
theorem Orderly.returns {c : Demand α A} (hc : Orderly c) (f : A → B) :
    Orderly (do return f (← c)) :=
  hc.bind fun a => orderly_pure (f a)

theorem orderly_mapM {look : A → Demand α B} (each : ∀ x, Orderly (look x)) (xs : List A) :
    Orderly (xs.mapM look) := by
  induction xs with
  | nil => exact orderly_pure []
  | cons x xs ih =>
    rw [List.mapM_cons]
    exact (each x).bind fun y => ih.bind fun ys => orderly_pure (y :: ys)

end Demand

namespace Seq

open Demand

variable {α : Type}

theorem orderly_look (s : Seq α) : Orderly s.look := by
  intro st chained r st' done
  have same : s.uncons st = (r, st') := Option.some.inj done
  obtain rfl : (s.uncons st).2 = st' := congrArg Prod.snd same
  cases s with
  | lazy cell => exact chained.force cell
  | nil | cons | list => exact .refl chained

theorem orderly_lazily (answer : ℕ → Option α) : Orderly (lazily answer) := by
  rintro st chained _ _ ⟨⟩
  have wrapped := chained.wrap answer
  exact ⟨wrapped.chained, wrapped.grows, fun i => (wrapped.settled_iff i).2⟩

theorem orderly_rest (s : Seq α) : Orderly s.rest := by
  refine (orderly_look s).bind fun r => ?_
  cases r <;> exact orderly_pure _

theorem orderly_take (n : ℕ) (s : Seq α) : Orderly (s.take n) := by
  induction n generalizing s with
  | zero => exact orderly_pure []
  | succ n ih =>
    refine (orderly_look s).bind fun r => ?_
    cases r with
    | none => exact orderly_pure []
    | some step => exact (ih step.2).returns _

theorem orderly_toList (fuel : ℕ) (s : Seq α) : Orderly (s.toList fuel) := by
  induction fuel generalizing s with
  | zero => exact orderly_exhausted
  | succ fuel ih =>
    refine (orderly_look s).bind fun r => ?_
    cases r with
    | none => exact orderly_pure []
    | some step => exact (ih step.2).returns _

theorem orderly_equal {same : α → α → Demand α Bool} (each : ∀ x y, Orderly (same x y))
    (fuel : ℕ) (s t : Seq α) : Orderly (equal same fuel s t) := by
  induction fuel generalizing s t with
  | zero => exact orderly_exhausted
  | succ fuel ih =>
    refine (orderly_look s).bind fun r => ?_
    cases r with
    | none => exact (orderly_look t).returns _
    | some step =>
      refine (orderly_look t).bind fun r' => ?_
      cases r' with
      | none => exact orderly_pure false
      | some step' => exact (each _ _).bind fun b => .ite (ih _ _) (orderly_pure false)

end Seq

namespace Value

open Demand

section Observe

variable (opts : PrintOptions) {look : Value → Demand Value Value}
  (each : ∀ x, Orderly (look x))

theorem orderly_observeShown {A : Type} {look : A → Demand Value A}
    (each : ∀ x, Orderly (look x)) (xs : List A) : Orderly (observeShown opts look xs) :=
  (orderly_mapM each _).returns _

theorem orderly_observeItems (fuel : ℕ) (s : Seq Value) :
    Orderly (observeItems opts fuel s) := by
  unfold observeItems
  split
  · exact Seq.orderly_toList fuel s
  · exact Seq.orderly_take _ s

include each

theorem orderly_observeEntries (m : Map Metadata Value Value) :
    Orderly (observeEntries opts look m) := by
  refine Orderly.returns (orderly_observeShown opts (fun e => ?_) m.toList) _
  exact (each e.1).bind fun k => (each e.2).returns _

theorem orderly_observeMetadata (depth : ℕ) (metadata : Option Metadata) :
    Orderly (observeMetadata opts depth look metadata) := by
  unfold observeMetadata
  split
  · exact orderly_pure none
  · exact .ite (orderly_pure _) ((orderly_observeEntries opts each _).returns _)

end Observe

theorem orderly_observe (opts : PrintOptions) (fuel depth : ℕ) (v : Value) :
    Orderly (observe opts fuel depth v) := by
  induction fuel generalizing depth v with
  | zero => exact orderly_exhausted
  | succ fuel ih =>
    have look := ih (depth + 1)
    have metadata := orderly_observeMetadata opts look depth
    have shown := orderly_observeShown opts look
    unfold observe
    dsimp only
    split
    case h_1 s => exact (metadata s.metadata).returns _
    case h_2 l =>
      refine (metadata l.metadata).bind fun m => ?_
      split
      · exact orderly_pure _
      · exact (shown l.items).returns _
    case h_3 v =>
      refine (metadata v.metadata).bind fun m => ?_
      split
      · exact orderly_pure _
      · exact (shown v.toList).returns _
    case h_4 s =>
      refine (metadata s.metadata).bind fun m => ?_
      split
      · exact orderly_pure _
      · exact (shown s.elements).returns _
    case h_5 m =>
      refine (metadata m.metadata).bind fun new => ?_
      split
      · exact orderly_pure _
      · exact (orderly_observeEntries opts look m).returns _
    case h_6 s =>
      split
      · exact orderly_pure _
      · exact (orderly_observeItems opts fuel s).bind fun xs => (shown xs).returns _
    case h_7 => exact orderly_pure _

theorem orderly_realize (fuel : ℕ) (v : Value) : Orderly (v.realize fuel) :=
  orderly_observe {} fuel 0 v

theorem orderly_searchKey {V : Type} (fuel : ℕ) (t : Table Value V) (key : Value) :
    Orderly (searchKey fuel t key) :=
  .ite (orderly_pure key) (orderly_realize fuel key)

section Action

variable {A B : Type}

/-- As `Orderly`, of a computation that may fail. -/
abbrev OrderlyAction (c : Action A) : Prop :=
  Orderly c.run

theorem orderly_return (a : A) : OrderlyAction (pure a : Action A) :=
  orderly_pure (Except.ok a)

theorem orderly_throw (fault : Fault) : OrderlyAction (throw fault : Action A) :=
  orderly_pure (Except.error fault)

theorem orderly_except (r : Except Fault A) : OrderlyAction (liftM r : Action A) := by
  cases r
  · exact orderly_throw _
  · exact orderly_return _

theorem orderly_lift {d : Demand Value A} (h : Orderly d) : OrderlyAction (liftM d : Action A) :=
  h.bind fun a => orderly_pure (Except.ok a)

theorem orderly_then {c : Action A} {f : A → Action B} (hc : OrderlyAction c)
    (hf : ∀ a, OrderlyAction (f a)) : OrderlyAction (c >>= f) := by
  refine Orderly.bind hc fun r => ?_
  cases r
  · exact orderly_pure _
  · exact hf _

/-- What is made of an answer without a further look. -/
theorem orderly_returns {d : Demand Value A} (h : Orderly d) (f : A → B) :
    OrderlyAction (do return f (← d)) :=
  orderly_then (orderly_lift h) fun a => orderly_return (f a)

end Action

theorem orderly_invalidKey {A : Type} (fuel : ℕ) (kind : String) (key : Value) :
    OrderlyAction (invalidKey fuel kind key : Action A) :=
  orderly_then (orderly_lift ((orderly_observe {} fuel 0 key).returns _)) fun _ => orderly_throw _

theorem orderly_combine (operation : String)
    (f : Set Metadata Value → Set Metadata Value → Set Metadata Value) (v w : Value) :
    OrderlyAction (combine operation f v w) := by
  unfold combine
  split
  · exact orderly_return _
  · exact orderly_throw _

variable [Hasher]

theorem orderly_equalEntries {same : Value → Value → Demand Value Bool}
    (each : ∀ x y, Orderly (same x y)) (n : Map Metadata Value Value)
    (entries : List (Value × Value)) : Orderly (equalEntries same n entries) := by
  induction entries with
  | nil => exact orderly_pure true
  | cons e entries ih =>
    rw [equalEntries]
    split
    · exact orderly_pure false
    · exact (each _ _).bind fun b => .ite ih (orderly_pure false)

theorem orderly_equal (fuel : ℕ) (a b : Value) : Orderly (equal fuel a b) := by
  induction fuel generalizing a b with
  | zero => exact orderly_exhausted
  | succ fuel ih =>
    have walk := Seq.orderly_equal ih fuel
    unfold equal
    split
    · exact .ite (orderly_pure false) (orderly_equalEntries ih _ _)
    · exact .ite (orderly_pure false) (walk _ _)
    · exact .ite (orderly_pure false) (walk _ _)
    · split
      · exact walk _ _
      · exact orderly_pure _
      · exact orderly_pure false

theorem orderly_insertPairs (fuel : ℕ) (m : Map Metadata Value Value)
    (entries : List (Value × Value)) : Orderly (insertPairs fuel m entries) := by
  induction entries generalizing m with
  | nil => exact orderly_pure m
  | cons e entries ih => exact (orderly_realize fuel e.1).bind fun u => ih _

theorem orderly_insertItems (fuel : ℕ) (s : Set Metadata Value) (items : List Value) :
    Orderly (insertItems fuel s items) := by
  induction items generalizing s with
  | nil => exact orderly_pure s
  | cons x items ih => exact (orderly_realize fuel x).bind fun u => ih _

theorem orderly_eraseKeys {V : Type} (fuel : ℕ) (t : Table Value V) (keys : List Value) :
    Orderly (eraseKeys fuel t keys) := by
  induction keys generalizing t with
  | nil => exact orderly_pure t
  | cons key keys ih => exact (orderly_searchKey fuel t key).bind fun u => ih _

theorem orderly_assoc (fuel : ℕ) (coll key value : Value) :
    OrderlyAction (coll.assoc fuel key value) := by
  unfold assoc
  split
  · exact orderly_returns (orderly_realize fuel key) _
  · exact orderly_returns (orderly_realize fuel key) _
  · split
    · exact orderly_then (orderly_except _) fun _ => orderly_return _
    · exact orderly_invalidKey fuel _ _
  · exact orderly_throw _

theorem orderly_dissoc (fuel : ℕ) (coll key : Value) : OrderlyAction (coll.dissoc fuel key) := by
  unfold dissoc
  split
  · exact orderly_return _
  · exact orderly_returns (orderly_searchKey fuel _ key) _
  · exact orderly_throw _

theorem orderly_conj (fuel : ℕ) (coll item : Value) : OrderlyAction (coll.conj fuel item) := by
  unfold conj
  split
  case h_4 => exact orderly_returns (orderly_realize fuel item) _
  case h_6 =>
    split
    · split
      · exact orderly_returns (orderly_realize fuel _) _
      · exact orderly_invalidKey fuel _ _
    · exact orderly_return _
    · exact orderly_invalidKey fuel _ _
  case h_7 => exact orderly_throw _
  all_goals exact orderly_return _

theorem orderly_conjAll (fuel : ℕ) (coll : Value) (items : List Value) :
    OrderlyAction (coll.conjAll fuel items) := by
  unfold conjAll
  split
  case h_3 => exact orderly_returns (orderly_insertItems fuel _ items) _
  case h_5 => exact orderly_throw _
  all_goals exact orderly_return _

theorem orderly_disj (fuel : ℕ) (coll item : Value) : OrderlyAction (coll.disj fuel item) := by
  unfold disj
  split
  · exact orderly_return _
  · exact orderly_returns (orderly_searchKey fuel _ item) _
  · exact orderly_throw _

theorem orderly_act (fuel : ℕ) (value : ℕ → Value) (s : Step) :
    OrderlyAction (s.act fuel value) := by
  cases s with
  | nil | bool | int | str | keyword | symbol | list | vector => exact orderly_return _
  | hashMap entries => exact orderly_lift ((orderly_insertPairs fuel _ _).returns _)
  | hashSet items => exact orderly_lift ((orderly_insertItems fuel _ _).returns _)
  | lazy answer => exact orderly_returns (Seq.orderly_lazily _) _
  | assoc coll key x => exact orderly_assoc fuel _ _ _
  | assocAll coll entries =>
    unfold Step.act
    dsimp only
    split
    · exact orderly_returns (orderly_insertPairs fuel _ _) _
    · exact orderly_throw _
  | dissoc coll key => exact orderly_dissoc fuel _ _
  | dissocAll coll keys =>
    unfold Step.act
    dsimp only
    split
    · exact orderly_returns (orderly_eraseKeys fuel _ _) _
    · exact orderly_throw _
  | conj coll item => exact orderly_conj fuel _ _
  | conjAll coll items => exact orderly_conjAll fuel _ _
  | disj coll item => exact orderly_disj fuel _ _
  | disjAll coll items =>
    unfold Step.act
    dsimp only
    split
    · exact orderly_returns (orderly_eraseKeys fuel _ _) _
    · exact orderly_throw _
  | union | inter | diff => exact orderly_combine _ _ _ _
  | pop coll => exact orderly_except _
  | withMetadata v metadata =>
    unfold Step.act
    dsimp only
    split
    · exact orderly_except _
    · exact orderly_throw _
  | tail v =>
    unfold Step.act
    dsimp only
    split
    · exact orderly_returns (Seq.orderly_rest _) _
    · exact orderly_throw _
  | realize v => exact orderly_lift (orderly_realize fuel _)
  | equal v w => exact orderly_returns (orderly_equal fuel _ _) _

theorem chained_step {w : World} (chained : w.store.Chained) (s : Step) (fuel : ℕ) :
    (step w s fuel).store.Chained := by
  unfold step
  split
  case h_1 => exact chained
  case h_2 done | h_3 done => exact (orderly_act fuel w.value s w.store chained _ _ done).chained

theorem chained_run (steps : List (Step × ℕ)) : (run steps).store.Chained := by
  have fold (w : World) (chained : w.store.Chained) :
      (steps.foldl (fun w s => step w s.1 s.2) w).store.Chained := by
    induction steps generalizing w with
    | nil => exact chained
    | cons s steps ih => exact ih _ (chained_step chained s.1 s.2)
  exact fold {} Store.chained_empty

end Value

end Persistent
