import Persistent.Proofs.Map.Refinement

/-!
A map told by its history. After any sequence of writes a map holds for every key the value that
was written last, under the key that was written first since the key was last absent.
-/

set_option autoImplicit false

namespace Persistent.Map

variable {μ K V : Type}

/-- Binds a key to a value, or unbinds it where no value is given. -/
structure Write (K V : Type) where
  key : K
  value : Option V

section Told

variable [BEq K]

/-- The last of the writes to a key. -/
def Latest (writes : List (Write K V)) (k : K) (w : Write K V) : Prop :=
  ∃ front back, writes = front ++ w :: back ∧ (k == w.key) = true ∧
    ∀ later ∈ back, (k == later.key) = false

def Bound (writes : List (Write K V)) (k : K) (value : V) : Prop :=
  ∃ w, Latest writes k w ∧ w.value = some value

/-- The key was never written, or was unbound by the last write to it. -/
def Unbound (writes : List (Write K V)) (k : K) : Prop :=
  ∀ w, Latest writes k w → w.value = none

/-- The first key that was bound since `k` was last unbound. -/
def Keeps (writes : List (Write K V)) (k key : K) : Prop :=
  ∃ front w back, writes = front ++ w :: back ∧ w.key = key ∧ (k == key) = true ∧
    w.value.isSome = true ∧ Unbound front k ∧
    ∀ later ∈ back, (k == later.key) = true → later.value.isSome = true

variable [Hashable K]

def write (m : Map μ K V) (w : Write K V) : Map μ K V :=
  match w.value with
  | none => m.erase w.key
  | some value => m.insert w.key value

/-- A map that holds what its history tells, and nothing else. -/
structure Recalls (m : Map μ K V) (writes : List (Write K V)) : Prop where
  wellFormed : m.WellFormed
  distinct : Bindings.Distinct m.toList
  get?_iff : ∀ k value, m.get? k = some value ↔ Bound writes k value
  get?_none_iff : ∀ k, m.get? k = none ↔ Unbound writes k
  mem_iff : ∀ key value,
    (key, value) ∈ m.toList ↔ Keeps writes key key ∧ Bound writes key value

end Told

section Concat

/-- A cut of a list that has grown at its end. -/
theorem exists_cut_concat {α : Type} {P : List α → α → List α → Prop} {l : List α} {a : α} :
    (∃ front x back, l ++ [a] = front ++ x :: back ∧ P front x back) ↔
      P l a [] ∨ ∃ front x back, l = front ++ x :: back ∧ P front x (back ++ [a]) := by
  constructor
  · rintro ⟨front, x, back, cut, holds⟩
    rcases List.eq_nil_or_concat back with rfl | ⟨back, b, rfl⟩
    · obtain ⟨rfl, same⟩ := List.append_inj' cut rfl
      cases same
      exact .inl holds
    · rw [List.concat_eq_append] at cut holds
      rw [← List.cons_append, ← List.append_assoc] at cut
      obtain ⟨same, last⟩ := List.append_inj' cut rfl
      cases last
      exact .inr ⟨front, x, back, same, holds⟩
  · rintro (holds | ⟨front, x, back, rfl, holds⟩)
    · exact ⟨l, a, [], rfl, holds⟩
    · exact ⟨front, x, back ++ [a], by simp, holds⟩

variable [BEq K] {writes : List (Write K V)} {k : K} {last : Write K V}

theorem latest_concat_iff {w : Write K V} : Latest (writes ++ [last]) k w ↔
    if (k == last.key) = true then last = w else Latest writes k w := by
  have cut (l : List (Write K V)) : Latest l k w ↔ ∃ front x back, l = front ++ x :: back ∧
      (x = w ∧ (k == x.key) = true ∧ ∀ later ∈ back, (k == later.key) = false) := by
    constructor
    · rintro ⟨front, back, rfl, rest⟩
      exact ⟨front, w, back, rfl, rfl, rest⟩
    · rintro ⟨front, _, back, rfl, rfl, rest⟩
      exact ⟨front, back, rfl, rest⟩
  rw [cut, cut, exists_cut_concat]
  by_cases hit : (k == last.key) = true
  · simp [hit]
  · simp [hit, or_imp, forall_and]

theorem bound_concat_iff {value : V} : Bound (writes ++ [last]) k value ↔
    if (k == last.key) = true then last.value = some value else Bound writes k value := by
  unfold Bound
  by_cases hit : (k == last.key) = true
  · simp [latest_concat_iff, hit]
  · simp [latest_concat_iff, hit]

theorem unbound_concat_iff : Unbound (writes ++ [last]) k ↔
    if (k == last.key) = true then last.value = none else Unbound writes k := by
  unfold Unbound
  by_cases hit : (k == last.key) = true
  · simp [latest_concat_iff, hit]
  · simp [latest_concat_iff, hit]

theorem keeps_concat_iff {key : K} : Keeps (writes ++ [last]) k key ↔
    if (k == last.key) = true then
      last.value.isSome = true ∧ (Keeps writes k key ∨ Unbound writes k ∧ last.key = key)
    else Keeps writes k key := by
  unfold Keeps
  rw [exists_cut_concat]
  by_cases hit : (k == last.key) = true
  · rw [if_pos hit]
    constructor
    · rintro (⟨rfl, -, bound, absent, -⟩ | ⟨front, w, back, cut, is, same, bound, absent, kept⟩)
      · exact ⟨bound, .inr ⟨absent, rfl⟩⟩
      · have there := kept last (by simp) hit
        exact ⟨there, .inl ⟨front, w, back, cut, is, same, bound, absent,
          fun later h => kept later (by simp [h])⟩⟩
    · rintro ⟨there, ⟨front, w, back, cut, is, same, bound, absent, kept⟩ | ⟨absent, rfl⟩⟩
      · refine .inr ⟨front, w, back, cut, is, same, bound, absent, ?_⟩
        intro later h
        rcases List.mem_append.1 h with h | h
        · exact kept later h
        · rw [List.mem_singleton.1 h]
          exact fun _ => there
      · exact .inl ⟨rfl, hit, there, absent, nofun⟩
  · rw [if_neg hit]
    constructor
    · rintro (⟨rfl, same, -⟩ | ⟨front, w, back, cut, is, same, bound, absent, kept⟩)
      · exact absurd same hit
      · exact ⟨front, w, back, cut, is, same, bound, absent,
          fun later h => kept later (by simp [h])⟩
    · rintro ⟨front, w, back, cut, is, same, bound, absent, kept⟩
      refine .inr ⟨front, w, back, cut, is, same, bound, absent, ?_⟩
      intro later h
      rcases List.mem_append.1 h with h | h
      · exact kept later h
      · rw [List.mem_singleton.1 h]
        exact fun same => absurd same hit

end Concat

section Lawful

variable [BEq K] [Hashable K] [EquivBEq K] [LawfulHashable K]

theorem wellFormed_write {m : Map μ K V} (wf : m.WellFormed) (w : Write K V) :
    (m.write w).WellFormed := by
  unfold write
  cases w.value with
  | none => exact ((keyed wf).erase KeyLaw.of_lawful trivial).toWellFormed
  | some value => exact ((keyed wf).insert KeyLaw.of_lawful value trivial).toWellFormed

theorem find?_write {m : Map μ K V} (wf : m.WellFormed) (w : Write K V) (k : K) :
    (m.write w).find? k =
      if (k == w.key) = true then
        w.value.map fun value => (((m.find? k).map (·.1)).getD w.key, value)
      else m.find? k := by
  have law := KeyLaw.of_lawful (K := K)
  unfold write
  cases w.value with
  | none => exact (keyed wf).find?_erase law trivial trivial
  | some value =>
    refine ((keyed wf).find?_insert law value trivial trivial).trans ?_
    by_cases hit : (k == w.key) = true
    · rw [if_pos hit, if_pos hit, (keyed wf).find?_congr law trivial trivial hit]
      rfl
    · rw [if_neg hit, if_neg hit]

/-- What the lookups of a map tell of its history. -/
structure Finds (m : Map μ K V) (writes : List (Write K V)) (k : K) : Prop where
  none_iff : m.find? k = none ↔ Unbound writes k
  value_iff : ∀ value, (m.find? k).map (·.2) = some value ↔ Bound writes k value
  key_iff : ∀ key, (m.find? k).map (·.1) = some key ↔ Keeps writes k key

theorem Finds.write {m : Map μ K V} {writes : List (Write K V)} {k : K} (wf : m.WellFormed)
    (h : m.Finds writes k) (w : Write K V) : (m.write w).Finds (writes ++ [w]) k := by
  have found := find?_write wf w k
  by_cases hit : (k == w.key) = true
  · rw [if_pos hit] at found
    refine ⟨?_, ?_, ?_⟩
    · rw [found, unbound_concat_iff, if_pos hit, Option.map_eq_none_iff]
    · intro value
      rw [found, bound_concat_iff, if_pos hit, Option.map_map]
      exact iff_of_eq (congrArg (· = some value) Option.map_id')
    · intro key
      rw [found, keeps_concat_iff, if_pos hit, ← h.key_iff, ← h.none_iff]
      cases w.value <;> cases m.find? k <;> simp
  · rw [if_neg hit] at found
    refine ⟨?_, ?_, ?_⟩
    · rw [found, unbound_concat_iff, if_neg hit, h.none_iff]
    · intro value
      rw [found, bound_concat_iff, if_neg hit, h.value_iff]
    · intro key
      rw [found, keeps_concat_iff, if_neg hit, h.key_iff]

theorem wellFormed_writes (writes : List (Write K V)) :
    (writes.foldl write ({} : Map μ K V)).WellFormed := by
  induction writes using List.reverseRecOn with
  | nil => exact Table.wellFormed_empty
  | append_singleton writes w ih =>
    rw [List.foldl_concat]
    exact wellFormed_write ih w

theorem finds_writes (writes : List (Write K V)) (k : K) :
    (writes.foldl write ({} : Map μ K V)).Finds writes k := by
  induction writes using List.reverseRecOn with
  | nil =>
    have nothing (w : Write K V) : ¬ Latest [] k w := by
      rintro ⟨front, back, cut, -⟩
      simp at cut
    refine ⟨⟨fun _ w h => absurd h (nothing w), fun _ => rfl⟩, ?_, ?_⟩
    · intro value
      refine ⟨nofun, ?_⟩
      rintro ⟨w, latest, -⟩
      exact absurd latest (nothing w)
    · intro key
      refine ⟨nofun, ?_⟩
      rintro ⟨front, w, back, cut, -⟩
      simp at cut
  | append_singleton writes w ih =>
    rw [List.foldl_concat]
    exact ih.write (wellFormed_writes writes) w

theorem recalls_writes (writes : List (Write K V)) :
    (writes.foldl write ({} : Map μ K V)).Recalls writes := by
  have law := KeyLaw.of_lawful (K := K)
  have wf : (writes.foldl write ({} : Map μ K V)).WellFormed := wellFormed_writes writes
  have finds := finds_writes (μ := μ) writes
  refine ⟨wf, (keyed wf).distinct law, fun k => (finds k).value_iff, ?_, ?_⟩
  · intro k
    rw [← (finds k).none_iff]
    exact Option.map_eq_none_iff
  · intro k value
    have stored : (writes.foldl write ({} : Map μ K V)).find? k = some (k, value) ↔
        (k, value) ∈ (writes.foldl write ({} : Map μ K V)).toList ∧ (k == k) = true :=
      (keyed wf).find?_iff law trivial (k, value)
    rw [and_iff_left (BEq.refl k)] at stored
    rw [← stored, ← (finds k).key_iff, ← (finds k).value_iff]
    cases (writes.foldl write ({} : Map μ K V)).find? k <;> simp [Prod.ext_iff]

/-- The key that was bound first is kept until it is unbound. -/
example : ([⟨⟨1, 7, "old"⟩, some 10⟩, ⟨⟨1, 7, "older"⟩, none⟩, ⟨⟨1, 7, "first"⟩, some 11⟩,
      ⟨⟨1, 7, "second"⟩, some 12⟩].foldl write ({} : Map Unit HashedKey ℕ)).toList =
    [(⟨1, 7, "first"⟩, 12)] :=
  rfl

end Lawful

end Persistent.Map
