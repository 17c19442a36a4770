import Persistent.Proofs.Trie.Erase
import Persistent.Proofs.Trie.Refill
import Persistent.Table.Basic

/-!
Well-formed tables: a sound trie under a branch, absent when nothing is stored, with its entries
counted. Every operation on tables keeps them well-formed, and does to the entries what it does to
an association list.
-/

set_option autoImplicit false

namespace Persistent.Table

open Bindings

variable {K V : Type} [BEq K] [Hashable K]

structure WellFormed (t : Table K V) : Prop where
  root_none_iff : t.root = none ↔ t.size = 0
  root_branch : ∀ root, t.root = some root → ∃ bits slots, root = .branch bits slots
  root_sound : ∀ root, t.root = some root → root.Sound []
  size_eq : t.size = t.toList.length

/-- A well-formed table with its keys in a domain. -/
structure Over (D : K → Prop) (t : Table K V) : Prop extends t.WellFormed where
  keys : ∀ e ∈ t.toList, D e.1

theorem wellFormed_empty : WellFormed ({} : Table K V) where
  root_none_iff := ⟨fun _ => rfl, fun _ => rfl⟩
  root_branch _ impossible := by cases impossible
  root_sound _ impossible := by cases impossible
  size_eq := rfl

theorem erase_empty {t : Table K V} (wf : t.WellFormed) (empty : t.isEmpty = true) (key : K) :
    t.erase key = t := by
  have none := wf.root_none_iff.2 (eq_of_beq empty)
  unfold erase
  rw [none]
  rfl

omit [BEq K] [Hashable K] in
theorem toList_some {t : Table K V} {root : Trie K V} (h : t.root = some root) :
    t.toList = root.toList := by
  unfold toList
  rw [h]

omit [BEq K] [Hashable K] in
/-- A table refilled with what it holds is the same table. -/
theorem refill_toList (t : Table K V) : t.refill t.toList = t := by
  cases hroot : t.root with
  | none =>
    unfold refill
    rw [hroot, Option.map_none, ← hroot]
  | some root =>
    have same := Trie.refill_toList root []
    rw [List.append_nil] at same
    unfold refill
    rw [toList_some hroot, hroot, Option.map_some, same, ← hroot]

theorem sound_leaf : Trie.Sound [] (Trie.branch 0 [] : Trie K V) := by
  rw [Trie.sound_branch_iff, Trie.positions_zero]
  exact ⟨Nat.zero_le _, .nil⟩

/-- The trie that an insertion starts from. -/
theorem WellFormed.start {t : Table K V} (wf : t.WellFormed) :
    (t.root.getD (.branch 0 [])).Sound [] ∧ (t.root.getD (.branch 0 [])).toList = t.toList ∧
      ∃ bits slots, t.root.getD (.branch 0 []) = .branch bits slots := by
  cases h : t.root with
  | none =>
    refine ⟨sound_leaf, ?_, _, _, rfl⟩
    unfold toList
    rw [h]
    rfl
  | some root => exact ⟨wf.root_sound root h, (toList_some h).symm, wf.root_branch root h⟩

theorem over_empty (D : K → Prop) : ({} : Table K V).Over D where
  toWellFormed := wellFormed_empty
  keys _ impossible := by cases impossible

omit [BEq K] [Hashable K] in
theorem insert_branch [BEq K] (h : UInt64) (key : K) (value : V) (shift : ℕ) (bits : BitVec 32)
    (slots : List (Trie K V)) :
    ∃ bits' slots',
      ((Trie.branch bits slots).insert h key value shift).1 = .branch bits' slots' := by
  rw [Trie.insert]
  dsimp only
  split
  · exact ⟨_, _, rfl⟩
  · exact ⟨_, _, rfl⟩

/-- New entries in the places of the old ones, their keys unequal and of the old hashes. -/
theorem WellFormed.refill {t : Table K V} (wf : t.WellFormed) {entries : List (K × V)}
    (hashes : List.Forall₂ Trie.SameHash t.toList entries) (distinct : Distinct entries) :
    (t.refill entries).WellFormed ∧ (t.refill entries).toList = entries := by
  cases hroot : t.root with
  | none =>
    have empty : t.toList = [] := by
      unfold toList
      rw [hroot]
    rw [empty] at hashes
    cases hashes
    have same : t.refill [] = t := by
      unfold Table.refill
      rw [hroot, Option.map_none, ← hroot]
    rw [same]
    exact ⟨wf, empty⟩
  | some root =>
    have shown := toList_some hroot
    rw [shown] at hashes
    have sound := (wf.root_sound root hroot).refill entries [] hashes distinct
    have places := (Trie.refill_spec root entries [] hashes.length_eq.symm).2
    rw [List.append_nil] at sound places
    have root' : (t.refill entries).root = some (root.refill entries).1 := by
      rw [Table.refill, hroot, Option.map_some]
    have entries' : (t.refill entries).toList = entries := by
      rw [toList_some root', places]
    refine ⟨⟨?_, ?_, ?_, ?_⟩, entries'⟩
    · have filled := wf.root_none_iff
      rw [hroot] at filled
      rw [root']
      exact ⟨nofun, fun zero => nomatch filled.2 zero⟩
    · rintro _ h
      cases root'.symm.trans h
      obtain ⟨bits, slots, rfl⟩ := wf.root_branch root hroot
      exact ⟨_, _, rfl⟩
    · rintro _ h
      cases root'.symm.trans h
      exact sound
    · rw [entries', ← hashes.length_eq, ← shown]
      exact wf.size_eq

section Law

variable {D : K → Prop} (law : KeyLaw D) {t : Table K V} (keyed : t.Over D)
include law keyed

namespace Over

theorem distinct : Distinct t.toList := by
  obtain ⟨sound, same, -⟩ := keyed.start
  rw [← same]
  exact sound.distinct law (same ▸ keyed.keys)

theorem find?_eq {key : K} (hkey : D key) : t.find? key = lookup key t.toList := by
  unfold find?
  cases h : t.root with
  | none =>
    unfold toList
    rw [h]
    rfl
  | some root =>
    have keys := keyed.keys
    rw [toList_some h] at keys ⊢
    exact (keyed.root_sound root h).find?_eq law hkey keys (Trie.onPath_nil _)

theorem find?_iff {key : K} (hkey : D key) (e : K × V) :
    t.find? key = some e ↔ e ∈ t.toList ∧ (key == e.1) = true := by
  rw [keyed.find?_eq law hkey]
  exact lookup_eq_some_iff law hkey keyed.keys (keyed.distinct law) e

theorem find?_congr {k key : K} (hk : D k) (hkey : D key) (same : (k == key) = true) :
    t.find? k = t.find? key := by
  rw [keyed.find?_eq law hk, keyed.find?_eq law hkey, lookup_congr law hk hkey keyed.keys same]

theorem insert_entries {key : K} (value : V) (hkey : D key) :
    (t.insert key value).WellFormed ∧
      (t.insert key value).toList.Perm (put key value t.toList) := by
  obtain ⟨sound, same, bits, slots, branch⟩ := keyed.start
  have inserts := sound.insert law value hkey (same ▸ keyed.keys) (Trie.onPath_nil _)
  rw [List.length_nil, Nat.mul_zero, branch] at inserts
  rw [branch] at same
  have shape := insert_branch (hash key) key value 0 bits slots
  unfold Table.insert
  rw [branch]
  generalize (Trie.branch bits slots).insert (hash key) key value 0 = r at inserts shape
  obtain ⟨root, fresh⟩ := r
  obtain ⟨sound', entries, isFresh, -⟩ := inserts
  rw [same] at entries isFresh
  have counted := entries.length_eq
  rw [length_put law value hkey keyed.keys (keyed.distinct law), ← isFresh,
    ← keyed.size_eq] at counted
  have size : (if fresh = true then t.size + 1 else t.size) = root.toList.length := by
    rw [counted]
    cases fresh <;> rfl
  have filled : 0 < root.toList.length := by
    rw [entries.length_eq]
    exact Nat.succ_pos _
  refine ⟨⟨?_, ?_, ?_, size⟩, entries⟩
  · constructor
    · nofun
    · intro zero
      change (if fresh = true then t.size + 1 else t.size) = 0 at zero
      omega
  · rintro _ ⟨⟩
    exact shape
  · rintro _ ⟨⟩
    exact sound'

theorem insert {key : K} (value : V) (hkey : D key) : (t.insert key value).Over D := by
  obtain ⟨wf, entries⟩ := keyed.insert_entries law value hkey
  refine ⟨wf, ?_⟩
  intro e he
  rcases List.mem_cons.1 (entries.mem_iff.1 he) with rfl | he
  · exact (stored_spec law hkey keyed.keys).1
  · exact keyed.keys e (List.mem_filter.1 he).1

theorem find?_insert {k key : K} (value : V) (hk : D k) (hkey : D key) :
    (t.insert key value).find? k =
      if (k == key) = true then some (((t.find? key).map (·.1)).getD key, value)
      else t.find? k := by
  have keyed' := keyed.insert law value hkey
  have entries := (keyed.insert_entries law value hkey).2
  rw [keyed'.find?_eq law hk, lookup_perm law hk keyed'.keys (keyed'.distinct law) entries,
    lookup_put law hk hkey keyed.keys, keyed.find?_eq law hkey, keyed.find?_eq law hk]
  rfl

/-- A removal that finds its key leaves a branch, and there was an entry to count down. -/
theorem erase_found {key : K} (hkey : D key) {rest : Option (Trie K V)}
    (found : t.root.bind (·.erase (hash key) (key == ·) 0) = some rest) :
    ∃ bits slots, rest = some (.branch bits slots) ∧ Trie.Sound [] (.branch bits slots) ∧
      Trie.slotsToList slots = remove key t.toList ∧
      (remove key t.toList).length + 1 = t.size := by
  obtain ⟨root, hroot, erased⟩ := Option.bind_eq_some_iff.1 found
  obtain ⟨bits, slots, rfl⟩ := keyed.root_branch root hroot
  have keys := keyed.keys
  have distinct := keyed.distinct law
  rw [keyed.size_eq]
  rw [toList_some hroot] at keys distinct ⊢
  have leaves := (keyed.root_sound _ hroot).erase_branch law hkey keys
  rw [List.length_nil, Nat.mul_zero, erased] at leaves
  obtain ⟨bound, bits', slots', rfl, sound, entries⟩ := leaves
  have counted := length_remove law hkey keys distinct
  rw [if_pos bound] at counted
  exact ⟨bits', slots', rfl, sound, entries, counted⟩

theorem erase_missed {key : K} (hkey : D key)
    (missed : t.root.bind (·.erase (hash key) (key == ·) 0) = none) :
    remove key t.toList = t.toList := by
  cases hroot : t.root with
  | none =>
    unfold toList
    rw [hroot]
    rfl
  | some root =>
    obtain ⟨bits, slots, rfl⟩ := keyed.root_branch root hroot
    have keys := keyed.keys
    rw [toList_some hroot] at keys ⊢
    have leaves := (keyed.root_sound _ hroot).erase_branch law hkey keys
    rw [hroot] at missed
    change (Trie.branch bits slots).erase (hash key) (key == ·) 0 = none at missed
    rw [List.length_nil, Nat.mul_zero, missed] at leaves
    exact remove_of_absent (absent_of_lookup leaves)

theorem erase_entries {key : K} (hkey : D key) :
    (t.erase key).WellFormed ∧ (t.erase key).toList = remove key t.toList := by
  unfold Table.erase
  cases found : t.root.bind (·.erase (hash key) (key == ·) 0) with
  | none => exact ⟨keyed.toWellFormed, (keyed.erase_missed law hkey found).symm⟩
  | some rest =>
    obtain ⟨bits, slots, rfl, sound, entries, counted⟩ := keyed.erase_found law hkey found
    dsimp only
    split
    case isTrue last =>
      have empty : remove key t.toList = [] := List.length_eq_zero_iff.1 (by omega)
      exact ⟨wellFormed_empty, empty.symm⟩
    case isFalse more =>
      refine ⟨⟨?_, ?_, ?_, ?_⟩, entries⟩
      · exact ⟨nofun, fun zero => absurd zero more⟩
      · rintro _ ⟨⟩
        exact ⟨bits, slots, rfl⟩
      · rintro _ ⟨⟩
        exact sound
      · change t.size - 1 = (Trie.slotsToList slots).length
        rw [entries]
        omega

theorem erase {key : K} (hkey : D key) : (t.erase key).Over D := by
  obtain ⟨wf, entries⟩ := keyed.erase_entries law hkey
  refine ⟨wf, ?_⟩
  intro e he
  rw [entries] at he
  exact keyed.keys e (List.mem_filter.1 he).1

theorem find?_erase {k key : K} (hk : D k) (hkey : D key) :
    (t.erase key).find? k = if (k == key) = true then none else t.find? k := by
  rw [(keyed.erase law hkey).find?_eq law hk, (keyed.erase_entries law hkey).2,
    lookup_remove law hk hkey keyed.keys, keyed.find?_eq law hk]

theorem insertAll {entries : List (K × V)} (hkeys : ∀ e ∈ entries, D e.1) :
    (t.insertAll entries).Over D := by
  induction entries generalizing t with
  | nil => exact keyed
  | cons e entries ih =>
    exact ih (keyed.insert law e.2 (hkeys e List.mem_cons_self))
      fun x hx => hkeys x (List.mem_cons_of_mem _ hx)

theorem eraseAll {keys : List K} (hkeys : ∀ key ∈ keys, D key) : (t.eraseAll keys).Over D := by
  induction keys generalizing t with
  | nil => exact keyed
  | cons key keys ih =>
    exact ih (keyed.erase law (hkeys key List.mem_cons_self))
      fun k hk => hkeys k (List.mem_cons_of_mem _ hk)

theorem values_insert {key : K} {value : V} (hkey : D key) {E : V → Prop} (hvalue : E value)
    (values : ∀ e ∈ t.toList, E e.2) : ∀ e ∈ (t.insert key value).toList, E e.2 := by
  intro e he
  rcases List.mem_cons.1 ((keyed.insert_entries law value hkey).2.mem_iff.1 he) with rfl | he
  · exact hvalue
  · exact values e (List.mem_filter.1 he).1

theorem values_erase {key : K} (hkey : D key) {E : V → Prop} (values : ∀ e ∈ t.toList, E e.2) :
    ∀ e ∈ (t.erase key).toList, E e.2 := by
  intro e he
  rw [(keyed.erase_entries law hkey).2] at he
  exact values e (List.mem_filter.1 he).1

theorem values_insertAll {entries : List (K × V)} (hkeys : ∀ e ∈ entries, D e.1) {E : V → Prop}
    (hvalues : ∀ e ∈ entries, E e.2) (values : ∀ e ∈ t.toList, E e.2) :
    ∀ e ∈ (t.insertAll entries).toList, E e.2 := by
  induction entries generalizing t with
  | nil => exact values
  | cons e entries ih =>
    have hkey := hkeys e List.mem_cons_self
    exact ih (keyed.insert law e.2 hkey) (fun x hx => hkeys x (List.mem_cons_of_mem _ hx))
      (fun x hx => hvalues x (List.mem_cons_of_mem _ hx))
      (keyed.values_insert law hkey (hvalues e List.mem_cons_self) values)

/-- A lookup after the insertion of entries of pairwise unequal keys, in any order. -/
theorem find?_insertAll {entries : List (K × V)} (hkeys : ∀ e ∈ entries, D e.1)
    (apart : Distinct entries) {k : K} (hk : D k) :
    (t.insertAll entries).find? k =
      match lookup k entries with
      | none => t.find? k
      | some (key, value) => some (((t.find? k).map (·.1)).getD key, value) := by
  induction entries generalizing t with
  | nil => rfl
  | cons e entries ih =>
    have he := hkeys e List.mem_cons_self
    have step := ih (keyed.insert law e.2 he) (fun x hx => hkeys x (List.mem_cons_of_mem _ hx))
      apart.of_cons
    change ((t.insert e.1 e.2).insertAll entries).find? k = _
    rw [step, keyed.find?_insert law e.2 hk he]
    by_cases hit : (k == e.1) = true
    · rw [lookup_of_absent (absent_behind law hk hkeys apart hit), lookup_cons_hit entries hit,
        if_pos hit, keyed.find?_congr law hk he hit]
    · rw [Bool.not_eq_true] at hit
      rw [lookup_cons_miss entries hit, hit]
      rfl

end Over

end Law

end Persistent.Table
