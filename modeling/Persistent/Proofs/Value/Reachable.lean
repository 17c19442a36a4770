import Persistent.Proofs.Value.Comparing
import Persistent.Proofs.Value.Program
import Persistent.Proofs.Value.Realizing

/-!
Programs build valid values in a sane store, whatever their steps look at, fail at, or have too
little fuel for.
-/

set_option autoImplicit false

namespace Persistent.Value

variable [Hasher]

section Act

variable {st : Store Value} (fuel : ℕ)

theorem performs_invalidKey {A : Type} (kind : String) {key : Value} (valid : In st key)
    (P : Store Value → A → Prop) : Performs st (invalidKey fuel kind key) P := by
  have text : Makes st (key.print {} fuel) fun _ _ => True :=
    (makes_realize valid fuel).bind fun _ _ _ _ => makes_pure fun _ _ => trivial
  exact (performs_lift text).bind fun _ _ _ _ => performs_throw _

theorem performs_assoc {coll key value : Value} (hc : In st coll) (hk : In st key)
    (hv : In st value) : Performs st (coll.assoc fuel key value) In := by
  have known := makes_realize hk fuel
  cases coll with
  | nil =>
    refine performs_returns known fun st₁ leads u known => ?_
    exact valid_insert (valid_empty _) known (hv.later leads)
  | map m =>
    refine performs_returns known fun st₁ leads u known => ?_
    exact valid_insert (hc.later leads) known (hv.later leads)
  | vector v =>
    cases key with
    | int index =>
      obtain ⟨held, items⟩ := holds_of_valid hc
      have made : Performs st (liftM (v.set index value)) fun st₁ w => In st₁ (.vector w) := by
        refine performs_except fun w stored st₁ leads => ?_
        obtain ⟨ys, held', among⟩ := held.of_set stored
        refine valid_vector held' fun y hy => ?_
        rcases among y hy with old | rfl
        · exact In.later (items y old) leads
        · exact hv.later leads
      exact made.bind fun st₁ leads w valid => performs_pure fun st₂ leads₂ => valid.later leads₂
    | _ => exact performs_invalidKey fuel _ hk _
  | _ => exact performs_throw _

theorem performs_dissoc {coll key : Value} (hc : In st coll) (hk : In st key) :
    Performs st (coll.dissoc fuel key) In := by
  cases coll with
  | nil => exact performs_pure fun _ _ => .flat rfl
  | map m =>
    obtain ⟨keyed, values⟩ := valid_entries hc
    refine performs_returns (makes_searchKey hk fuel m.toTable) fun st₁ leads u found => ?_
    exact valid_map (over_erase keyed found)
      (values_erase keyed found (valid_entries (hc.later leads)).2)
  | _ => exact performs_throw _

theorem performs_conj {coll item : Value} (hc : In st coll) (hi : In st item) :
    Performs st (coll.conj fuel item) In := by
  cases coll with
  | nil =>
    refine performs_pure fun st₁ leads => .list fun x hx => ?_
    cases List.mem_singleton.1 hx
    exact hi.later leads
  | list l =>
    exact performs_pure fun st₁ leads => valid_push (hc.later leads) (hi.later leads)
  | vector v =>
    exact performs_pure fun st₁ leads => valid_vectorPush (hc.later leads) (hi.later leads)
  | set s =>
    refine performs_returns (makes_realize hi fuel) fun st₁ leads u known => ?_
    exact valid_set (Set.over_insert lawful_known.toKeyLaw (valid_elements hc) known)
  | seq s =>
    exact performs_pure fun st₁ leads => valid_cons (hc.later leads) (hi.later leads)
  | map m =>
    cases item with
    | vector pair =>
      obtain ⟨-, items⟩ := holds_of_valid hi
      unfold conj
      dsimp only
      split
      case h_1 key value two =>
        rw [two] at items
        have key' : In st key := items key List.mem_cons_self
        have value' : In st value := items value (List.mem_cons_of_mem _ List.mem_cons_self)
        refine performs_returns (makes_realize key' fuel) fun st₁ leads u known => ?_
        exact valid_insert (hc.later leads) known (value'.later leads)
      case h_2 => exact performs_invalidKey fuel _ hi _
    | map n => exact performs_pure fun st₁ leads => valid_merge (hc.later leads) (hi.later leads)
    | _ => exact performs_invalidKey fuel _ hi _
  | _ => exact performs_throw _

theorem performs_disj {coll item : Value} (hc : In st coll) (hi : In st item) :
    Performs st (coll.disj fuel item) In := by
  cases coll with
  | nil => exact performs_pure fun _ _ => .flat rfl
  | set s =>
    refine performs_returns (makes_searchKey hi fuel s.toTable) fun st₁ leads u found => ?_
    exact valid_set (over_erase (valid_elements hc) found)
  | _ => exact performs_throw _

theorem makes_insertPairs {m : Map Metadata Value Value} {entries : List (Value × Value)}
    (hm : In st (.map m)) (valid : ∀ e ∈ entries, In st e.1 ∧ In st e.2) :
    Makes st (insertPairs fuel m entries) fun st₁ n => In st₁ (.map n) := by
  induction entries generalizing st m with
  | nil => exact makes_pure fun _ leads => hm.later leads
  | cons e entries ih =>
    obtain ⟨key, value⟩ := valid e List.mem_cons_self
    refine (makes_realize key fuel).bind fun st₁ leads u known => ih ?_ fun f hf => ?_
    · exact valid_insert (hm.later leads) known (value.later leads)
    · obtain ⟨key', value'⟩ := valid f (List.mem_cons_of_mem _ hf)
      exact ⟨key'.later leads, value'.later leads⟩

theorem makes_insertItems {s : Set Metadata Value} {items : List Value} (keyed : s.Over Known)
    (valid : ∀ x ∈ items, In st x) :
    Makes st (insertItems fuel s items) fun _ t => t.Over Known := by
  induction items generalizing st s with
  | nil => exact makes_pure fun _ _ => keyed
  | cons x items ih =>
    refine (makes_realize (valid x List.mem_cons_self) fuel).bind fun st₁ leads u known =>
      ih ?_ fun y hy => (valid y (List.mem_cons_of_mem _ hy)).later leads
    exact Set.over_insertAll lawful_known.toKeyLaw keyed fun y hy => List.mem_singleton.1 hy ▸ known

theorem makes_eraseKeys {V : Type} {t : Table Value V} {keys : List Value} (keyed : t.Over Known)
    {E : V → Prop} (values : ∀ e ∈ t.toList, E e.2) (valid : ∀ x ∈ keys, In st x) :
    Makes st (eraseKeys fuel t keys) fun _ u => u.Over Known ∧ ∀ e ∈ u.toList, E e.2 := by
  induction keys generalizing st t with
  | nil => exact makes_pure fun _ _ => ⟨keyed, values⟩
  | cons key keys ih =>
    refine (makes_searchKey (valid key List.mem_cons_self) fuel t).bind
      fun st₁ leads u found => ih (over_erase keyed found) (values_erase keyed found values) ?_
    exact fun x hx => (valid x (List.mem_cons_of_mem _ hx)).later leads

theorem valid_foldl {n : ℕ} {A : Type} {f : A → Value → A} {g : A → Value}
    (step : ∀ a x, (g a).Valid n → x.Valid n → (g (f a x)).Valid n) {xs : List Value} {a : A}
    (first : (g a).Valid n) (items : ∀ x ∈ xs, x.Valid n) : (g (xs.foldl f a)).Valid n := by
  induction xs generalizing a with
  | nil => exact first
  | cons x xs ih =>
    obtain ⟨hx, hxs⟩ := List.forall_mem_cons.1 items
    exact ih (step a x first hx) hxs

theorem performs_conjAll {coll : Value} {items : List Value} (hc : In st coll)
    (hi : ∀ x ∈ items, In st x) : Performs st (coll.conjAll fuel items) In := by
  have later (st₁ : Store Value) (leads : Leads st st₁) : ∀ x ∈ items, In st₁ x :=
    fun x hx => (hi x hx).later leads
  cases coll with
  | list l =>
    exact performs_pure fun st₁ leads => valid_foldl (fun _ _ => valid_push) (hc.later leads)
      (later st₁ leads)
  | vector v =>
    exact performs_pure fun st₁ leads => valid_foldl (fun _ _ => valid_vectorPush)
      (hc.later leads) (later st₁ leads)
  | set s =>
    exact performs_returns (makes_insertItems fuel (valid_elements hc) hi) fun st₁ _ t keyed =>
      valid_set keyed
  | seq s =>
    exact performs_pure fun st₁ leads => valid_foldl (fun _ _ => valid_cons) (hc.later leads)
      (later st₁ leads)
  | _ => exact performs_throw _

omit fuel in
theorem performs_combine {v w : Value} (hv : In st v) (hw : In st w) {operation : String}
    {f : Set Metadata Value → Set Metadata Value → Set Metadata Value}
    (closed : ∀ {s t : Set Metadata Value}, s.Over Known → t.Over Known → (f s t).Over Known) :
    Performs st (combine operation f v w) In := by
  unfold combine
  split
  case h_1 =>
    exact performs_pure fun _ _ => valid_set (closed (valid_elements hv) (valid_elements hw))
  case h_2 => exact performs_throw _

/-- Every step of a program builds a valid value from valid ones. -/
theorem performs_act {value : ℕ → Value} (valid : ∀ i, In st (value i)) (s : Step) :
    Performs st (s.act fuel value) In := by
  have all (items : List ℕ) : ∀ x ∈ items.map value, In st x :=
    List.forall_mem_map.2 fun i _ => valid i
  have pairs (entries : List (ℕ × ℕ)) :
      ∀ e ∈ entries.map fun e => (value e.1, value e.2), In st e.1 ∧ In st e.2 :=
    List.forall_mem_map.2 fun e _ => ⟨valid e.1, valid e.2⟩
  cases s with
  | nil | bool | int | str | keyword | symbol => exact performs_pure fun _ _ => .flat rfl
  | list items =>
    exact performs_pure fun st₁ leads => .list fun x hx => (all items x hx).later leads
  | vector items =>
    exact performs_pure fun st₁ leads => valid_vector (Vector.holds_ofList _) fun x hx =>
      (all items x hx).later leads
  | hashMap entries =>
    have made := makes_insertPairs fuel (valid_empty st.cells.size) (pairs entries)
    exact performs_lift (made.bind fun _ _ m hm => makes_pure fun _ leads => hm.later leads)
  | hashSet items =>
    have made := makes_insertItems fuel (s := {}) (Table.over_empty Known) (all items)
    exact performs_lift (made.bind fun _ _ s keyed => makes_pure fun _ _ => valid_set keyed)
  | lazy answer =>
    have made : Makes st (Seq.lazily fun k => (answer k).map value) fun st₁ s => In st₁ (.seq s) :=
      makes_lazily fun k x answered => by
        obtain ⟨i, -, rfl⟩ := Option.map_eq_some_iff.1 answered
        exact valid i
    exact (performs_lift made).bind fun _ _ s hs => performs_pure fun _ leads => hs.later leads
  | assoc coll key x => exact performs_assoc fuel (valid coll) (valid key) (valid x)
  | assocAll coll entries =>
    have hc := valid coll
    unfold Step.act
    dsimp only
    split
    case h_1 m same =>
      rw [same] at hc
      exact (performs_lift (makes_insertPairs fuel hc (pairs entries))).bind fun _ _ m hm =>
        performs_pure fun _ leads => hm.later leads
    case h_2 => exact performs_throw _
  | dissoc coll key => exact performs_dissoc fuel (valid coll) (valid key)
  | dissocAll coll keys =>
    have hc := valid coll
    unfold Step.act
    dsimp only
    split
    case h_1 m same =>
      rw [same] at hc
      obtain ⟨keyed, values⟩ := valid_entries hc
      have made := makes_eraseKeys fuel keyed values (all keys)
      exact performs_returns made fun st₁ leads t ht =>
        valid_map ht.1 fun e he => In.later (ht.2 e he) leads
    case h_2 => exact performs_throw _
  | conj coll item => exact performs_conj fuel (valid coll) (valid item)
  | conjAll coll items => exact performs_conjAll fuel (valid coll) (all items)
  | disj coll item => exact performs_disj fuel (valid coll) (valid item)
  | disjAll coll items =>
    have hc := valid coll
    unfold Step.act
    dsimp only
    split
    case h_1 s same =>
      rw [same] at hc
      have made := makes_eraseKeys fuel (valid_elements hc) (E := fun _ => True)
        (fun _ _ => trivial) (all items)
      exact performs_returns made fun _ _ t ht => valid_set ht.1
    case h_2 => exact performs_throw _
  | union s t =>
    exact performs_combine (valid s) (valid t) (Set.over_union lawful_known.toKeyLaw)
  | inter s t =>
    exact performs_combine (valid s) (valid t) fun hs _ => Set.over_inter lawful_known.toKeyLaw hs
  | diff s t =>
    exact performs_combine (valid s) (valid t) (Set.over_diff lawful_known.toKeyLaw)
  | pop coll =>
    exact performs_except fun w popped _ leads => In.later (valid_pop (valid coll) popped) leads
  | withMetadata v metadata =>
    unfold Step.act
    dsimp only
    split
    case h_1 =>
      exact performs_except fun w carried _ leads =>
        In.later (valid_withMetadata (valid v) carried) leads
    case h_2 => exact performs_throw _
  | tail v =>
    have hv := valid v
    unfold Step.act
    dsimp only
    split
    case h_1 s same =>
      rw [same] at hv
      exact (performs_lift (makes_rest hv)).bind fun _ _ rest hr =>
        performs_pure fun _ leads => hr.later leads
    case h_2 => exact performs_throw _
  | realize v =>
    exact performs_lift ((makes_realize (valid v) fuel).imp fun _ _ known =>
      known.mono (Nat.zero_le _))
  | equal v w =>
    exact (performs_lift (makes_equal fuel (valid v) (valid w))).bind fun _ _ _ _ =>
      performs_pure fun _ _ => .flat rfl

end Act

/-- The store is sane and the values are valid in it. -/
structure World.Valid (w : World) : Prop where
  sane : Sane w.store
  values : ∀ v ∈ w.values, In w.store v

theorem World.Valid.value {w : World} (valid : w.Valid) (i : ℕ) : In w.store (w.value i) := by
  unfold World.value
  rw [List.getD_eq_getElem?_getD]
  cases found : w.values[i]? with
  | none => exact .flat rfl
  | some v => exact valid.values v (List.mem_of_getElem? found)

theorem valid_start : World.Valid {} :=
  ⟨sane_empty, fun _ impossible => nomatch impossible⟩

theorem valid_step {w : World} (valid : w.Valid) (s : Step) (fuel : ℕ) : (step w s fuel).Valid := by
  unfold step
  have performs := performs_act fuel valid.value s w.store (.refl valid.sane)
  split
  case h_1 => exact valid
  case h_2 fault store done =>
    obtain ⟨leads, -⟩ := performs _ _ done
    exact ⟨leads.sane, fun v hv => (valid.values v hv).later leads⟩
  case h_3 v store done =>
    obtain ⟨leads, made⟩ := performs _ _ done
    refine ⟨leads.sane, fun u hu => ?_⟩
    rcases List.mem_append.1 hu with old | new
    · exact (valid.values u old).later leads
    · exact List.mem_singleton.1 new ▸ made v rfl

theorem valid_run (steps : List (Step × ℕ)) : (run steps).Valid := by
  have fold (w : World) (valid : w.Valid) :
      (steps.foldl (fun w s => step w s.1 s.2) w).Valid := by
    induction steps generalizing w with
    | nil => exact valid
    | cons s steps ih => exact ih _ (valid_step valid s.1 s.2)
  exact fold {} valid_start

/-- Whatever a program has built and looked at, its store is sane and its values are valid in it. -/
theorem sane_run (steps : List (Step × ℕ)) :
    Sane (run steps).store ∧ ∀ v ∈ (run steps).values, In (run steps).store v :=
  ⟨(valid_run steps).sane, (valid_run steps).values⟩

end Persistent.Value
