import Persistent.Proofs.Value.Keying

/-!
The laws of a map, for all that binds keys: nil, maps and vectors. What has been bound is found and
counted, what has been unbound is missed, and all else stays as it was.
-/

set_option autoImplicit false

namespace Persistent

namespace Table.Over

variable {K V : Type} [BEq K] [Hashable K] {D : K → Prop} (law : KeyLaw D) {t : Table K V}
  (keyed : t.Over D)
include law keyed

theorem size_insert {key : K} (value : V) (hkey : D key) :
    (t.insert key value).size = t.size + if (t.find? key).isSome then 0 else 1 := by
  obtain ⟨wf, entries⟩ := keyed.insert_entries law value hkey
  rw [wf.size_eq, entries.length_eq,
    Bindings.length_put law value hkey keyed.keys (keyed.distinct law), keyed.size_eq,
    keyed.find?_eq law hkey]
  cases Bindings.lookup key t.toList <;> rfl

theorem size_erase {key : K} (hkey : D key) :
    t.size = (t.erase key).size + if (t.find? key).isSome then 1 else 0 := by
  obtain ⟨wf, entries⟩ := keyed.erase_entries law hkey
  rw [wf.size_eq, entries, keyed.find?_eq law hkey, keyed.size_eq,
    Bindings.length_remove law hkey keyed.keys (keyed.distinct law)]

end Table.Over

namespace Value

/-- The kinds of values that bind keys. -/
def isAssociative : Value → Bool
  | .nil | .map _ | .vector _ => true
  | _ => false

theorem isSearchable_asMap {coll : Value} {m : Map Metadata Value Value}
    (stands : coll.asMap? = some m) : coll.isSearchable = true := by
  cases coll <;> first | rfl | cases stands

section Hashing

variable [Hasher]

/-- The key `k₂` names another place than `k`: in a vector one that is no index, or an index from
the front of another position; else a key that is not equal. -/
def Apart (st : Store Value) (coll k k₂ : Value) : Prop :=
  match coll with
  | .vector v => ∀ i₂, k₂ = .int i₂ →
      0 ≤ i₂.toInt ∧ ∀ i, k = .int i → v.slot? i ≠ some i₂.toInt.toNat
  | _ => ¬Equals st k₂ k

/-- What is looked up under a key, with the same default, is the same in both collections. -/
def SameLookup (st : Store Value) (a b k : Value) : Prop :=
  ∀ d, ∃ r, Gives st (fun fuel => liftM (a.get fuel k d)) (.ok r) ∧
    Gives st (fun fuel => liftM (b.get fuel k d)) (.ok r)

/-- The collection `bound` is `coll` with `x` under `k`. -/
structure Binds (st : Store Value) (coll k x bound : Value) : Prop where
  get : ∀ d, Gives st (fun fuel => liftM (bound.get fuel k d)) (.ok x)
  contains : Gives st (fun fuel => bound.contains fuel k) (.ok true)
  count : ∃ n b, Gives st (fun fuel => coll.count fuel) (.ok n) ∧
    Gives st (fun fuel => coll.contains fuel k) (.ok b) ∧
      Gives st (fun fuel => bound.count fuel) (.ok (n + if b then 0 else 1))
  others : ∀ k₂, Whole st k₂ → Apart st coll k k₂ → SameLookup st coll bound k₂

/-- The collection `unbound` is `coll` with nothing under `k`. -/
structure Unbinds (st : Store Value) (coll k unbound : Value) : Prop where
  get : ∀ d, Gives st (fun fuel => liftM (unbound.get fuel k (some d))) (.ok d)
  contains : Gives st (fun fuel => unbound.contains fuel k) (.ok false)
  count : ∃ n b, Gives st (fun fuel => unbound.count fuel) (.ok n) ∧
    Gives st (fun fuel => coll.contains fuel k) (.ok b) ∧
      Gives st (fun fuel => coll.count fuel) (.ok (n + if b then 1 else 0))
  others : ∀ k₂, Whole st k₂ → ¬Equals st k₂ k → SameLookup st coll unbound k₂

structure MapLaws (st : Store Value) (coll : Value) : Prop where
  contains : ∀ k, Whole st k → ∃ b, Gives st (fun fuel => coll.contains fuel k) (.ok b)
  absent_iff : ∀ k, Whole st k → (Gives st (fun fuel => coll.contains fuel k) (.ok false) ↔
    ∀ d, Gives st (fun fuel => liftM (coll.get fuel k (some d))) (.ok d))
  assoc : ∀ k x, Whole st k → In st x → Does st (fun fuel => coll.assoc fuel k x) fun st₁ r =>
    ∀ bound, r = .ok bound → Binds st₁ coll k x bound
  replaces : ∀ k x, Whole st k → Gives st (fun fuel => coll.contains fuel k) (.ok true) →
    Does st (fun fuel => coll.assoc fuel k x) fun _ r => ∃ bound, r = .ok bound
  dissoc : (coll.kind = "nil" ∨ coll.kind = "map") → ∀ k, Whole st k →
    Does st (fun fuel => coll.dissoc fuel k) fun st₁ r =>
      ∃ unbound, r = .ok unbound ∧ Unbinds st₁ coll k unbound

section Laws

variable {st : Store Value} (sane : Sane st) {coll k w : Value}
include sane

theorem get_gives (whole : Whole st k) (means : KnownMeaning st k w) (valid : In st coll)
    (d : Option Value) : Gives st (fun fuel => liftM (coll.get fuel k d))
      (.ok ((coll.find? w).getD (d.getD .nil))) := by
  refine (does_lift (get_delivers sane whole means valid d)).imp ?_
  rintro _ _ _ ⟨_, rfl, rfl⟩
  rfl

theorem contains_gives (whole : Whole st k) (means : KnownMeaning st k w) (valid : In st coll)
    (searchable : coll.isSearchable = true) :
    Gives st (fun fuel => coll.contains fuel k) (.ok (coll.find? w).isSome) := by
  have answer := contains_does sane whole means valid
  rw [if_pos searchable] at answer
  exact answer

theorem sameLookup_of_find? {a b k₂ : Value} (whole : Whole st k₂) (hw : KnownMeaning st k₂ w)
    (ha : In st a) (hb : In st b) (same : b.find? w = a.find? w) : SameLookup st a b k₂ := by
  intro d
  have left := get_gives sane whole hw ha d
  have right := get_gives sane whole hw hb d
  rw [same] at right
  exact ⟨_, left, right⟩

/-- A key is absent exactly when every default is answered for it. -/
theorem absent_iff (whole : Whole st k) (valid : In st coll)
    (searchable : coll.isSearchable = true) :
    Gives st (fun fuel => coll.contains fuel k) (.ok false) ↔
      ∀ d, Gives st (fun fuel => liftM (coll.get fuel k (some d))) (.ok d) := by
  obtain ⟨w, means, known⟩ := whole.exists_means sane
  have held := contains_gives sane whole ⟨means, known⟩ valid searchable
  have found (d : Value) := get_gives sane whole ⟨means, known⟩ valid (some d)
  constructor
  · intro absent d
    have none : coll.find? w = none := by
      rw [← Option.not_isSome_iff_eq_none, Bool.not_eq_true]
      exact Except.ok.inj (held.unique sane absent)
    have answer := found d
    rw [none] at answer
    exact answer
  · intro all
    cases stored : coll.find? w with
    | none =>
      rw [stored] at held
      exact held
    | some x =>
      rw [stored] at found
      -- one value cannot be two defaults
      cases (found .nil).unique sane (all .nil)
      cases (found (.bool true)).unique sane (all (.bool true))

/-- What is found decides all that the laws speak of. -/
theorem binds_of_find? {x bound : Value} (whole : Whole st k) (means : KnownMeaning st k w)
    (valid : In st coll) (valid' : In st bound) (searchable : coll.isSearchable = true)
    (searchable' : bound.isSearchable = true) (here : bound.find? w = some x) {n : ℕ}
    (count : Gives st (fun fuel => coll.count fuel) (.ok n))
    (count' : Gives st (fun fuel => bound.count fuel)
      (.ok (n + if (coll.find? w).isSome then 0 else 1)))
    (others : ∀ k₂ w₂, Whole st k₂ → KnownMeaning st k₂ w₂ → Apart st coll k k₂ →
      bound.find? w₂ = coll.find? w₂) : Binds st coll k x bound where
  get d := by
    have answer := get_gives sane whole means valid' d
    rw [here] at answer
    exact answer
  contains := by
    have answer := contains_gives sane whole means valid' searchable'
    rw [here] at answer
    exact answer
  count := ⟨n, _, count, contains_gives sane whole means valid searchable, count'⟩
  others k₂ whole₂ apart := by
    obtain ⟨w₂, means₂, known₂⟩ := whole₂.exists_means sane
    exact sameLookup_of_find? sane whole₂ ⟨means₂, known₂⟩ valid valid'
      (others k₂ w₂ whole₂ ⟨means₂, known₂⟩ apart)

/-! Maps, and nil as an empty one. -/

omit sane in
theorem find?_asMap {m : Map Metadata Value Value} (stands : coll.asMap? = some m) (key : Value) :
    coll.find? key = m.get? key := by
  cases coll with
  | nil | map =>
    cases stands
    rfl
  | _ => cases stands

omit sane in
theorem valid_asMap {m : Map Metadata Value Value} (stands : coll.asMap? = some m)
    (valid : In st coll) : In st (.map m) := by
  cases coll with
  | nil =>
    cases stands
    exact valid_empty _
  | map =>
    cases stands
    exact valid
  | _ => cases stands

omit sane in
theorem count_asMap {m : Map Metadata Value Value} (stands : coll.asMap? = some m) :
    Gives st (fun fuel => coll.count fuel) (.ok m.size) := by
  cases coll with
  | nil | map =>
    cases stands
    exact does_pure fun _ _ => rfl
  | _ => cases stands

omit sane in
theorem apart_asMap {m : Map Metadata Value Value} (stands : coll.asMap? = some m) {k₂ : Value}
    (apart : Apart st coll k k₂) : ¬Equals st k₂ k := by
  cases coll with
  | nil | map => exact apart
  | _ => cases stands

/-- A key that is not equal means nothing equal to what the key is realized to. -/
theorem beq_of_apart {k₂ w₂ u : Value} (whole : Whole st k) (means : KnownMeaning st k w)
    (whole₂ : Whole st k₂) (means₂ : KnownMeaning st k₂ w₂) (apart : ¬Equals st k₂ k)
    (same : EqualIn Known w u) : (w₂ == u) = false := by
  rw [← lawful_known.toKeyLaw.congr_right same.1 same.2.1 means₂.2 same.2.2, ← Bool.not_eq_true,
    ← equals_iff sane whole₂ whole means₂.1 means.1 means₂.2 means.2]
  exact apart

theorem binds_insert {m : Map Metadata Value Value} (stands : coll.asMap? = some m)
    (valid : In st coll) (whole : Whole st k) {u x : Value} (shows : Shows st k u)
    (hx : In st x) : Binds st coll k x (.map (m.insert u x)) := by
  have law := lawful_known.toKeyLaw
  obtain ⟨w, means, known⟩ := whole.exists_means sane
  have same := shows.equalIn_meaning ⟨means, known⟩
  have valid' := valid_asMap stands valid
  obtain ⟨keyed, -⟩ := valid_entries valid'
  have found (key : Value) (hk : key.Known) : (Value.map (m.insert u x)).find? key =
      if (key == u) = true then some x else coll.find? key := by
    change ((m.toTable.insert u x).find? key).map (·.2) = _
    rw [keyed.find?_insert law x hk same.2.1, find?_asMap stands]
    split <;> rfl
  refine binds_of_find? sane whole ⟨means, known⟩ valid (valid_insert valid' same.2.1 hx)
    (isSearchable_asMap stands) rfl ?_ (count_asMap stands) ?_ ?_
  · rw [found w known, if_pos same.2.2]
  · refine does_pure fun _ _ => congrArg Except.ok ?_
    have counted := keyed.size_insert law x same.2.1
    rw [← keyed.find?_congr law known same.2.1 same.2.2] at counted
    rw [find?_asMap stands, Table.get?, Option.isSome_map]
    exact counted
  · intro k₂ w₂ whole₂ means₂ apart
    rw [found w₂ means₂.2, beq_of_apart sane whole ⟨means, known⟩ whole₂ means₂
      (apart_asMap stands apart) same]
    rfl

omit sane in
theorem find?_erase_searched {V : Type} {t : Table Value V} (keyed : t.Over Known) {u : Value}
    (searched : Searched st t k u) (means : KnownMeaning st k w) {key : Value} (hk : key.Known) :
    (t.erase u).find? key = if (key == w) = true then none else t.find? key := by
  have law := lawful_known.toKeyLaw
  rcases searched with empty | shows
  · rw [Table.erase_empty keyed.toWellFormed empty, Table.find?_empty keyed.toWellFormed empty]
    split <;> rfl
  · obtain ⟨hw, hu, same⟩ := shows.equalIn_meaning means
    rw [keyed.find?_erase law hk hu, law.congr_right hw hu hk same]

omit sane in
theorem size_erase_searched {V : Type} {t : Table Value V} (keyed : t.Over Known) {u : Value}
    (searched : Searched st t k u) (means : KnownMeaning st k w) :
    t.size = (t.erase u).size + if (t.find? w).isSome then 1 else 0 := by
  rw [← find?_searched keyed searched means]
  rcases searched with empty | shows
  · rw [Table.erase_empty keyed.toWellFormed empty, Table.find?_empty keyed.toWellFormed empty]
    rfl
  · exact keyed.size_erase lawful_known.toKeyLaw shows.known

theorem unbinds_of_find? {unbound : Value} (whole : Whole st k) (means : KnownMeaning st k w)
    (valid : In st coll) (valid' : In st unbound) (searchable : coll.isSearchable = true)
    (searchable' : unbound.isSearchable = true) {n : ℕ}
    (count : Gives st (fun fuel => unbound.count fuel) (.ok n))
    (count' : Gives st (fun fuel => coll.count fuel)
      (.ok (n + if (coll.find? w).isSome then 1 else 0)))
    (found : ∀ key : Value, key.Known →
      unbound.find? key = if (key == w) = true then none else coll.find? key) :
    Unbinds st coll k unbound := by
  have here : unbound.find? w = none := by
    rw [found w means.2, if_pos (lawful_known.refl means.2)]
  have held := contains_gives sane whole means valid searchable
  refine ⟨fun d => ?_, ?_, ⟨n, _, count, held, count'⟩, ?_⟩
  · have answer := get_gives sane whole means valid' (some d)
    rw [here] at answer
    exact answer
  · have answer := contains_gives sane whole means valid' searchable'
    rw [here] at answer
    exact answer
  · intro k₂ whole₂ apart
    obtain ⟨w₂, means₂, known₂⟩ := whole₂.exists_means sane
    refine sameLookup_of_find? sane whole₂ ⟨means₂, known₂⟩ valid valid' ?_
    rw [equals_iff sane whole₂ whole means₂ means.1 known₂ means.2] at apart
    rw [found w₂ known₂, if_neg apart]

theorem unbinds_erase {m : Map Metadata Value Value} (valid : In st (.map m)) (whole : Whole st k)
    {u : Value} (searched : Searched st m.toTable k u) :
    Unbinds st (.map m) k (.map (m.erase u)) := by
  obtain ⟨w, means, known⟩ := whole.exists_means sane
  obtain ⟨keyed, values⟩ := valid_entries valid
  have hu := searched.imp_right Shows.known
  refine unbinds_of_find? sane whole ⟨means, known⟩ valid
    (valid_map (over_erase keyed hu) (values_erase keyed hu values)) rfl rfl
    (count_asMap rfl) ?_ fun key hk => ?_
  · refine does_pure fun _ _ => congrArg Except.ok ?_
    change m.size = _ + if ((m.toTable.find? w).map (·.2)).isSome then 1 else 0
    rw [Option.isSome_map]
    exact size_erase_searched keyed searched ⟨means, known⟩
  · change ((m.toTable.erase u).find? key).map (·.2) = _
    rw [find?_erase_searched keyed searched ⟨means, known⟩ hk]
    split <;> rfl

theorem mapLaws_asMap {m : Map Metadata Value Value} (stands : coll.asMap? = some m)
    (valid : In st coll) : MapLaws st coll where
  contains k whole := by
    obtain ⟨w, means, known⟩ := whole.exists_means sane
    exact ⟨_, contains_gives sane whole ⟨means, known⟩ valid (isSearchable_asMap stands)⟩
  absent_iff k whole := absent_iff sane whole valid (isSearchable_asMap stands)
  assoc k x whole hx := by
    refine (assoc_does sane whole stands x).imp ?_
    rintro st₁ leads _ ⟨u, shows, rfl⟩ _ ⟨⟩
    exact binds_insert leads.sane stands (valid.later leads) (whole.later leads)
      (shows.later sane whole leads) (hx.later leads)
  replaces k x whole _ := by
    refine (assoc_does sane whole stands x).imp ?_
    rintro _ _ _ ⟨u, -, rfl⟩
    exact ⟨_, rfl⟩
  dissoc _ k whole := by
    cases coll with
    | nil =>
      refine does_pure fun st₁ leads => ⟨.nil, rfl, ?_⟩
      have whole₁ := whole.later leads
      obtain ⟨w, means, known⟩ := whole₁.exists_means leads.sane
      refine unbinds_of_find? leads.sane whole₁ ⟨means, known⟩ (valid.later leads)
        (valid.later leads) rfl rfl (count_asMap rfl) (does_pure fun _ _ => rfl) fun key _ => ?_
      exact (ite_self none).symm
    | map m =>
      refine (dissoc_does sane whole m).imp ?_
      rintro st₁ leads _ ⟨u, searched, rfl⟩
      exact ⟨_, rfl, unbinds_erase leads.sane (valid.later leads) (whole.later leads)
        (searched.imp_right fun shows => shows.later sane whole leads)⟩
    | _ => cases stands

end Laws

/-! Vectors. -/

section Vectors

variable {st : Store Value} (sane : Sane st) {v w : Vector Metadata Value}
  (valid : In st (.vector v)) (countable : v.size + 1 ≠ 2 ^ 63)
include sane valid countable

theorem binds_set {i : Int64} {x : Value} (stored : v.set i x = .ok w) (hx : In st x) :
    Binds st (.vector v) (.int i) x (.vector w) := by
  obtain ⟨held, items⟩ := holds_of_valid valid
  have small : v.toList.length + 1 < 2 ^ 63 := by
    have := Vector.size_lt_of_set stored
    rw [← held.size_eq]
    omega
  have storage := Vector.stored_of_set held stored
  have valid' : In st (.vector w) := by
    obtain ⟨ys, held', among⟩ := held.of_set stored
    refine valid_vector held' fun y hy => ?_
    rcases among y hy with old | rfl
    · exact items y old
    · exact hx
  refine binds_of_find? sane (whole_flat st rfl) ⟨.flat rfl, .flat rfl⟩ valid valid' rfl rfl
    (storage.lookup? held small) (does_pure fun _ _ => rfl)
    (does_pure fun _ _ => congrArg Except.ok (storage.size_eq held small)) ?_
  intro k₂ w₂ _ means₂ apart
  rw [find?_vector, find?_vector, ← asInt?_means means₂.1]
  cases index : k₂.asInt? with
  | none => rfl
  | some j =>
    obtain ⟨front, other⟩ := apart j (asInt?_eq_some.1 index)
    exact storage.lookup?_other held small front (other i rfl)

theorem mapLaws_vector : MapLaws st (.vector v) where
  contains k whole := by
    obtain ⟨w, means, known⟩ := whole.exists_means sane
    exact ⟨_, contains_gives sane whole ⟨means, known⟩ valid rfl⟩
  absent_iff k whole := absent_iff sane whole valid rfl
  assoc k x whole hx := by
    cases index : k.asInt? with
    | none =>
      simp only [assoc_other index]
      refine (invalidKey_does sane whole "vector").imp ?_
      rintro _ _ _ ⟨text, rfl⟩
      nofun
    | some i =>
      cases asInt?_eq_some.1 index
      simp only [assoc_index]
      refine does_except fun st₁ leads => ?_
      cases stored : v.set i x with
      | error fault => nofun
      | ok w =>
        rintro _ ⟨⟩
        exact binds_set leads.sane (valid.later leads) countable stored (hx.later leads)
  replaces k x whole present := by
    obtain ⟨w, means, known⟩ := whole.exists_means sane
    have answer := contains_gives sane whole ⟨means, known⟩ valid rfl
    have found := Except.ok.inj (answer.unique sane present)
    rw [find?_vector, ← asInt?_means means] at found
    cases index : k.asInt? with
    | none =>
      rw [index] at found
      cases found
    | some i =>
      rw [index, Option.bind_some, Vector.lookup?_isSome (holds_of_valid valid).1] at found
      obtain ⟨p, resolved⟩ := Option.isSome_iff_exists.1 found
      cases asInt?_eq_some.1 index
      simp only [assoc_index]
      refine does_except fun _ _ => ?_
      unfold Vector.set
      split
      · exact ⟨_, rfl⟩
      · rw [resolved]
        exact ⟨_, rfl⟩
  dissoc kind := by
    rcases kind with kind | kind <;> simp [Value.kind] at kind

end Vectors

/-- No index is left over when an item is appended. In a vector of the one length that this leaves
out, the place behind the last item has the greatest index, and no index reads the vector with one
more item. -/
def Countable : Value → Prop
  | .vector v => v.size + 1 ≠ 2 ^ 63
  | _ => True

/-- The laws of a map hold for every nil, map and vector in a sane store, and the store of every
program is sane. -/
theorem run_mapLaws :
    (∀ st, Sane st → ∀ coll, In st coll → coll.isAssociative = true → Countable coll →
      MapLaws st coll) ∧
      ∀ steps : List (Step × ℕ), Sane (run steps).store ∧
        ∀ v ∈ (run steps).values, In (run steps).store v := by
  refine ⟨fun st sane coll valid associative countable => ?_, sane_run⟩
  cases coll with
  | nil => exact mapLaws_asMap sane rfl valid
  | map m => exact mapLaws_asMap sane rfl valid
  | vector v => exact mapLaws_vector sane valid countable
  | _ => cases associative

end Hashing

/-- Nil, a vector, and a map keyed by the vector. -/
def associative : List (Step × ℕ) :=
  [(.nil, 9), (.int 1, 9), (.vector [1, 0], 9), (.hashMap [(2, 1)], 9)]

attribute [local instance] Hasher.sum in
theorem run_mapLaws_associative :
    MapLaws (run associative).store ((run associative).value 0) ∧
      MapLaws (run associative).store ((run associative).value 2) ∧
        MapLaws (run associative).store ((run associative).value 3) := by
  have valid := valid_run associative
  have laws := run_mapLaws.1 _ valid.sane
  have pair : (run associative).value 2 = .vector (Vector.ofList [.int 1, .nil]) := rfl
  have countable : Countable ((run associative).value 2) := by
    rw [pair, Countable, (Vector.holds_ofList _).size_eq]
    decide
  exact ⟨laws _ (valid.value 0) rfl trivial, laws _ (valid.value 2) rfl countable,
    laws _ (valid.value 3) rfl trivial⟩

end Value

end Persistent
