import Persistent.ConsList
import Persistent.Map.Basic
import Persistent.Proofs.Table.Folding
import Persistent.Proofs.Vector.Refinement
import Persistent.Set
import Persistent.Value.Collection

/-!
Bulk operations are folds of the single ones. Where one collection is merged into another the order
in which the other is walked is not seen, and where indices may be out of range the fold ends at
the first that is.
-/

set_option autoImplicit false

namespace Persistent

namespace Vector

variable {μ α : Type}

/-- The index denotes no element of a vector of `n` elements and not the place behind them. -/
def Outside (n : ℕ) (index : Int64) : Prop :=
  ¬(-(n : ℤ) ≤ index.toInt ∧ index.toInt ≤ n)

instance (n : ℕ) (index : Int64) : Decidable (Outside n index) :=
  inferInstanceAs (Decidable ¬(-(n : ℤ) ≤ index.toInt ∧ index.toInt ≤ n))

/-- The first index that is outside ends a run of sets, and nothing else does while the lengths
stay within the reach of indices. -/
structure Folds (v : Vector μ α) : Prop where
  pushAll_eq : ∀ xs, v.pushAll xs = xs.foldl push v
  setAll_eq : ∀ pairs, v.setAll pairs = pairs.foldlM (fun v pair => v.set pair.1 pair.2) v
  stops : ∀ front i x back w, v.setAll front = .ok w → Outside w.size i →
    v.setAll (front ++ (i, x) :: back) = .error (.indexOutOfRange i w.size)
  succeeds : ∀ pairs, v.size + pairs.length ≤ 2 ^ 63 →
    (∀ front i x back w, pairs = front ++ (i, x) :: back → v.setAll front = .ok w →
      ¬Outside w.size i) → ∃ w, v.setAll pairs = .ok w

theorem setAll_eq_foldlM (v : Vector μ α) (pairs : List (Int64 × α)) :
    v.setAll pairs = pairs.foldlM (fun v pair => v.set pair.1 pair.2) v := by
  induction pairs generalizing v with
  | nil => rfl
  | cons pair pairs ih =>
    rw [setAll_cons, List.foldlM_cons]
    exact congrArg (Except.bind (v.set pair.1 pair.2)) (funext ih)

theorem setAll_append (v : Vector μ α) (front back : List (Int64 × α)) :
    v.setAll (front ++ back) = (v.setAll front).bind (·.setAll back) := by
  simp only [setAll_eq_foldlM, List.foldlM_append]
  rfl

theorem set_outside {v : Vector μ α} {i : Int64} (x : α) (outside : Outside v.size i) :
    v.set i x = .error (.indexOutOfRange i v.size) := by
  unfold Outside at outside
  have above := i.toInt_lt
  have below := i.le_toInt
  have small : v.size < 2 ^ 63 := by omega
  have missed : v.resolve i = none := by
    rw [resolve_eq small, ← Option.not_isSome_iff_eq_none, denoted_isSome]
    omega
  unfold set
  rw [if_neg (by omega), missed]

theorem size_push (v : Vector μ α) (x : α) : (v.push x).size = v.size + 1 := by
  have level : v.addLevel.size = v.size := by
    unfold addLevel
    split <;> rfl
  unfold push
  dsimp only
  split
  · rw [level]
  · rfl

theorem set_inside {v : Vector μ α} {i : Int64} (x : α) (small : v.size < 2 ^ 63)
    (inside : ¬Outside v.size i) : ∃ w, v.set i x = .ok w ∧ w.size ≤ v.size + 1 := by
  unfold Outside at inside
  unfold set
  by_cases behind : i.toInt = v.size
  · exact ⟨_, if_pos behind, Nat.le_of_eq (size_push v x)⟩
  · obtain ⟨p, found⟩ := Option.isSome_iff_exists.1 ((denoted_isSome v.size i).2 (by omega))
    rw [if_neg behind, resolve_eq small, found]
    exact ⟨_, rfl, Nat.le_succ _⟩

theorem setAll_stops {v w : Vector μ α} {front : List (Int64 × α)}
    (reached : v.setAll front = .ok w)
    {i : Int64} (outside : Outside w.size i) (x : α) (back : List (Int64 × α)) :
    v.setAll (front ++ (i, x) :: back) = .error (.indexOutOfRange i w.size) := by
  rw [setAll_append, reached]
  change w.setAll ((i, x) :: back) = _
  rw [setAll_cons, set_outside x outside]
  rfl

theorem setAll_succeeds {v : Vector μ α} {pairs : List (Int64 × α)}
    (small : v.size + pairs.length ≤ 2 ^ 63)
    (inside : ∀ front i x back w, pairs = front ++ (i, x) :: back → v.setAll front = .ok w →
      ¬Outside w.size i) : ∃ w, v.setAll pairs = .ok w := by
  induction pairs generalizing v with
  | nil => exact ⟨v, rfl⟩
  | cons pair pairs ih =>
    rw [List.length_cons] at small
    have here := inside [] pair.1 pair.2 pairs v rfl rfl
    obtain ⟨w, stored, size⟩ := set_inside pair.2 (by omega) here
    have step (front : List (Int64 × α)) : v.setAll (pair :: front) = w.setAll front := by
      rw [setAll_cons, stored]
      rfl
    rw [step]
    apply ih (by omega)
    rintro front i x back u rfl reached
    exact inside (pair :: front) i x back u rfl ((step front).trans reached)

theorem folds (v : Vector μ α) : v.Folds where
  pushAll_eq _ := rfl
  setAll_eq := v.setAll_eq_foldlM
  stops _ _ x back _ reached outside := setAll_stops reached outside x back
  succeeds _ small inside := setAll_succeeds small inside

end Vector

namespace Map

variable {μ K V : Type} [BEq K] [Hashable K]

/-- The same entries, with the same keys stored, and the same metadata. -/
structure Same (D : K → Prop) (m n : Map μ K V) : Prop extends
    Table.Same D m.toTable n.toTable where
  metadata_eq : m.metadata = n.metadata

/-- The order in which the merged map is walked is not seen. -/
structure Folds (D : K → Prop) (m : Map μ K V) : Prop where
  insertAll_eq : ∀ entries, m.insertAll entries = entries.foldl (fun m e => m.insert e.1 e.2) m
  eraseAll_eq : ∀ keys, m.eraseAll keys = keys.foldl erase m
  merge_eq : ∀ n : Map μ K V, m.merge n = n.toList.foldl (fun m e => m.insert e.1 e.2) m
  merge_any_order : m.Over D → ∀ n : Map μ K V, n.Over D →
    ∀ entries : List (K × V), entries.Perm n.toList →
    Same D (m.merge n) (entries.foldl (fun m e => m.insert e.1 e.2) m)

theorem insertAll_eq_foldl (m : Map μ K V) (entries : List (K × V)) :
    m.insertAll entries = entries.foldl (fun m e => m.insert e.1 e.2) m := by
  induction entries generalizing m with
  | nil => rfl
  | cons e entries ih => exact ih (m.insert e.1 e.2)

theorem eraseAll_eq_foldl (m : Map μ K V) (keys : List K) :
    m.eraseAll keys = keys.foldl erase m := by
  induction keys generalizing m with
  | nil => rfl
  | cons key keys ih => exact ih (m.erase key)

theorem folds {D : K → Prop} (law : KeyLaw D) (m : Map μ K V) : m.Folds D where
  insertAll_eq := m.insertAll_eq_foldl
  eraseAll_eq := m.eraseAll_eq_foldl
  merge_eq n := m.insertAll_eq_foldl n.toList
  merge_any_order keyed n keyed' entries perm := by
    rw [← insertAll_eq_foldl]
    exact ⟨keyed.insertAll_any_order law keyed' perm, rfl⟩

end Map

namespace Set

variable {μ α : Type} [BEq α] [Hashable α]

structure Same (D : α → Prop) (s t : Set μ α) : Prop extends
    Table.Same D s.toTable t.toTable where
  metadata_eq : s.metadata = t.metadata

structure Folds (D : α → Prop) (s : Set μ α) : Prop where
  insertAll_eq : ∀ xs, s.insertAll xs = xs.foldl insert s
  eraseAll_eq : ∀ xs, s.eraseAll xs = xs.foldl erase s
  union_eq : ∀ t : Set μ α, s.union t = t.elements.foldl insert s
  union_any_order : s.Over D → ∀ t : Set μ α, t.Over D → ∀ xs : List α, xs.Perm t.elements →
    Same D (s.union t) (xs.foldl insert s)
  diff_eq : ∀ t : Set μ α, s.diff t = t.elements.foldl erase s
  diff_any_order : s.Over D → ∀ t : Set μ α, t.Over D → ∀ xs : List α, xs.Perm t.elements →
    Same D (s.diff t) (xs.foldl erase s)

/-- The test that a single insertion begins with is not seen. -/
theorem insert_eq (s : Set μ α) (x : α) :
    s.insert x = { s with toTable := s.toTable.insert x () } := by
  unfold insert
  split
  case isTrue found => rw [Table.insert_found found]
  case isFalse => rfl

theorem insertAll_eq_foldl (s : Set μ α) (xs : List α) : s.insertAll xs = xs.foldl insert s := by
  induction xs generalizing s with
  | nil => rfl
  | cons x xs ih =>
    rw [List.foldl_cons, ← ih, insert_eq]
    rfl

theorem eraseAll_eq_foldl (s : Set μ α) (xs : List α) : s.eraseAll xs = xs.foldl erase s := by
  induction xs generalizing s with
  | nil => rfl
  | cons x xs ih => exact ih (s.erase x)

omit [BEq α] [Hashable α] in
theorem elements_unit (s : Set μ α) : s.elements.map (·, ()) = s.toList := by
  rw [elements, Table.keys, List.map_map]
  exact List.map_id' _

theorem folds {D : α → Prop} (law : KeyLaw D) (s : Set μ α) : s.Folds D where
  insertAll_eq := s.insertAll_eq_foldl
  eraseAll_eq := s.eraseAll_eq_foldl
  union_eq t := s.insertAll_eq_foldl t.elements
  union_any_order keyed t keyed' xs perm := by
    rw [← insertAll_eq_foldl]
    have entries := perm.map (·, ())
    rw [elements_unit] at entries
    have same := keyed.insertAll_any_order law keyed' entries
    rw [← elements_unit] at same
    exact ⟨same, rfl⟩
  diff_eq t := s.eraseAll_eq_foldl t.elements
  diff_any_order keyed t keyed' xs perm := by
    rw [← eraseAll_eq_foldl]
    have keys : ∀ key ∈ t.elements, D key := by
      intro key there
      obtain ⟨e, he, rfl⟩ := List.mem_map.1 there
      exact keyed'.keys e he
    exact ⟨keyed.eraseAll_any_order law keys perm, rfl⟩

end Set

namespace Value

/-- The kinds that grow by several items at once. -/
def grows : Value → Bool
  | .list _ | .vector _ | .set _ | .seq _ => true
  | _ => false

variable [Hasher]

/-- The same looks at lazy cells, the same faults and the same results. -/
structure Folds (fuel : ℕ) : Prop where
  conjAll_eq : ∀ coll items, grows coll = true →
    conjAll fuel coll items = items.foldlM (conj fuel) coll
  insertPairs_eq : ∀ m entries, (do return .map (← insertPairs fuel m entries) : Action Value) =
    entries.foldlM (fun coll e => assoc fuel coll e.1 e.2) (.map m)
  setAll_eq : ∀ (v : Vector Metadata Value) pairs,
    (do return .vector (← v.setAll pairs) : Action Value) =
      pairs.foldlM (fun coll pair => assoc fuel coll (.int pair.1) pair.2) (.vector v)
  eraseKeys_map : ∀ (m : Map Metadata Value Value) keys,
    (do return .map { m with toTable := ← eraseKeys fuel m.toTable keys } : Action Value) =
      keys.foldlM (dissoc fuel) (.map m)
  eraseKeys_set : ∀ (s : Set Metadata Value) items,
    (do return .set { s with toTable := ← eraseKeys fuel s.toTable items } : Action Value) =
      items.foldlM (disj fuel) (.set s)

theorem insertItems_folds (fuel : ℕ) (s : Set Metadata Value) (items : List Value) :
    (do return .set (← insertItems fuel s items) : Action Value) =
      items.foldlM (conj fuel) (.set s) := by
  induction items generalizing s with
  | nil => rfl
  | cons x items ih =>
    have step : conj fuel (.set s) x = do return .set (s.insert (← x.realize fuel)) := rfl
    simp only [List.foldlM_cons, step, bind_assoc, pure_bind, ← ih, insertItems, liftM_bind,
      Set.insertAll_eq_foldl, List.foldl_cons, List.foldl_nil]

theorem folds (fuel : ℕ) : Folds fuel where
  conjAll_eq coll items grows := by
    cases coll with
    | set s => exact insertItems_folds fuel s items
    | list l =>
      induction items generalizing l with
      | nil => rfl
      | cons x items ih => exact ih (l.push x) rfl
    | vector v =>
      induction items generalizing v with
      | nil => rfl
      | cons x items ih => exact ih (v.push x) rfl
    | seq s =>
      induction items generalizing s with
      | nil => rfl
      | cons x items ih => exact ih (.cons x s) rfl
    | _ => cases grows
  insertPairs_eq m entries := by
    induction entries generalizing m with
    | nil => rfl
    | cons e entries ih =>
      have step : assoc fuel (.map m) e.1 e.2 =
          do return .map (m.insert (← e.1.realize fuel) e.2) := rfl
      simp only [List.foldlM_cons, step, bind_assoc, pure_bind, ← ih, insertPairs, liftM_bind]
  setAll_eq v pairs := by
    induction pairs generalizing v with
    | nil => rfl
    | cons pair pairs ih =>
      have step : assoc fuel (.vector v) (.int pair.1) pair.2 =
          do return .vector (← v.set pair.1 pair.2) := rfl
      rw [List.foldlM_cons, step, Vector.setAll_cons]
      cases v.set pair.1 pair.2 with
      | error fault => rfl
      | ok w => exact ih w
  eraseKeys_map m keys := by
    induction keys generalizing m with
    | nil => rfl
    | cons key keys ih =>
      have step : dissoc fuel (.map m) key =
          do return .map (m.erase (← searchKey fuel m.toTable key)) := rfl
      simp only [List.foldlM_cons, step, bind_assoc, pure_bind, ← ih, eraseKeys, liftM_bind]
      rfl
  eraseKeys_set s items := by
    induction items generalizing s with
    | nil => rfl
    | cons x items ih =>
      have step : disj fuel (.set s) x =
          do return .set (s.erase (← searchKey fuel s.toTable x)) := rfl
      simp only [List.foldlM_cons, step, bind_assoc, pure_bind, ← ih, eraseKeys, liftM_bind]
      rfl

end Value

/-- Every bulk operation is a fold of single ones, the keys of tables being lawful in a domain. -/
structure BulkFolds [Hasher] (μ α V : Type) {K : Type} [BEq K] [Hashable K] (D : K → Prop) :
    Prop where
  list : ∀ (l : ConsList μ α) (xs : List α), l.pushAll xs = xs.foldl ConsList.push l
  vector : ∀ v : Vector μ α, v.Folds
  map : ∀ m : Map μ K V, m.Folds D
  set : ∀ s : Set μ K, s.Folds D
  value : ∀ fuel, Value.Folds fuel

theorem bulk_folds [Hasher] {μ α V K : Type} [BEq K] [Hashable K] {D : K → Prop}
    (law : KeyLaw D) : BulkFolds μ α V D where
  list _ _ := rfl
  vector := Vector.folds
  map := Map.folds law
  set := Set.folds law
  value := Value.folds

attribute [local instance] Hasher.sum in
/-- Keys of one bucket, merged in over each other, and an index past the end of a running vector. -/
theorem bulk_folds_colliding :
    let D : HashedKey → Prop := fun _ => True
    let m : Map Unit HashedKey ℕ := Map.ofList [(⟨1, 7, "first"⟩, 10), (⟨2, 7, "first"⟩, 20)]
    let n : Map Unit HashedKey ℕ :=
      Map.ofList [(⟨2, 7, "second"⟩, 21), (⟨1, 7, "second"⟩, 11), (⟨3, 39, "second"⟩, 31)]
    KeyLaw D ∧ BulkFolds Unit ℕ ℕ D ∧ m.Over D ∧ n.Over D ∧
      Map.Same D (m.merge n) (n.toList.reverse.foldl (fun m e => m.insert e.1 e.2) m) ∧
      ({} : Vector Unit ℕ).setAll [(0, 5), (1, 6), (-3, 7), (0, 8)] =
        .error (.indexOutOfRange (-3) 2) := by
  intro D m n
  have law : KeyLaw D := KeyLaw.of_lawful
  have all : BulkFolds Unit ℕ ℕ D := bulk_folds law
  have filled (entries : List (HashedKey × ℕ)) :
      (Map.ofList entries : Map Unit HashedKey ℕ).Over D :=
    (Table.over_empty D).insertAll law fun _ _ => trivial
  refine ⟨law, all, filled _, filled _, ?_, ?_⟩
  · exact (all.map m).merge_any_order (filled _) n (filled _) _ n.toList.reverse_perm
  · exact (all.vector {}).stops [(0, 5), (1, 6)] (-3) 7 [(0, 8)] _ rfl (by decide)

end Persistent
