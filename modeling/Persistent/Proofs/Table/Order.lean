import Mathlib.Data.List.Nodup
import Persistent.Proofs.Map.Walks
import Persistent.Proofs.Table.Matching
import Persistent.Proofs.Trie.Sorted

/-!
The order in which a table is walked. It is the order of the hashes, whatever the shape of the
trie. So two tables with the same keys show the same hashes one after another, and the same keys
where no two of them share a hash.
-/

set_option autoImplicit false

namespace Persistent.Table

open Trie (Precedes Sorted)

variable {K V W : Type} [BEq K]

/-- Position by position the same keys. -/
abbrev KeysAlike (entries : List (K × V)) (others : List (K × W)) : Prop :=
  List.Forall₂ (fun e f => (e.1 == f.1) = true) entries others

variable [Hashable K]

/-- Every key of one table is a key of the other. -/
def SameKeys (t : Table K V) (u : Table K W) : Prop :=
  (∀ key ∈ t.keys, u.contains key = true) ∧ ∀ key ∈ u.keys, t.contains key = true

omit [BEq K] in
/-- No two keys of the table share a hash. -/
def Separated (t : Table K V) : Prop :=
  t.keys.Pairwise fun j k => hash j ≠ hash k

instance (t : Table K V) (u : Table K W) : Decidable (t.SameKeys u) :=
  inferInstanceAs (Decidable ((∀ key ∈ t.keys, u.contains key = true) ∧
    ∀ key ∈ u.keys, t.contains key = true))

omit [BEq K] in
instance (t : Table K V) : Decidable t.Separated :=
  inferInstanceAs (Decidable (t.keys.Pairwise fun j k => hash j ≠ hash k))

/-- Both walks go by the hashes, fragment by fragment, and entries of one hash stand together. -/
structure Ordered (t : Table K V) : Prop where
  same : t.drain.toList = t.cursor.toList
  sorted : Sorted t.cursor.toList
  together : ∀ front a mid b back, t.cursor.toList = front ++ a :: (mid ++ b :: back) →
    hash a.1 = hash b.1 → ∀ e ∈ mid, hash e.1 = hash a.1

/-- Both walks come to the keys in the same order. -/
structure InStep (t : Table K V) (u : Table K W) : Prop where
  cursor : KeysAlike t.cursor.toList u.cursor.toList
  drain : KeysAlike t.drain.toList u.drain.toList

omit [BEq K] in
theorem together_of_sorted {front mid back : List (K × V)} {a b : K × V}
    (sorted : Sorted (front ++ a :: (mid ++ b :: back))) (same : hash a.1 = hash b.1) :
    ∀ e ∈ mid, hash e.1 = hash a.1 := by
  obtain ⟨-, sorted, -⟩ := List.pairwise_append.1 sorted
  obtain ⟨behind, sorted⟩ := List.pairwise_cons.1 sorted
  obtain ⟨-, -, ahead⟩ := List.pairwise_append.1 sorted
  intro e he
  apply Trie.eq_of_not_precedes
  · exact behind e (List.mem_append_left _ he)
  · rw [same]
    exact ahead e he b List.mem_cons_self

namespace WellFormed

variable {t : Table K V} (wf : t.WellFormed)
include wf

theorem sorted : Sorted t.toList := by
  cases hroot : t.root with
  | none =>
    rw [show t.toList = [] by rw [toList, hroot]]
    exact List.Pairwise.nil
  | some root =>
    rw [toList_some hroot]
    exact (wf.root_sound root hroot).sorted

theorem ordered : t.Ordered := by
  have cursor := wf.cursor_toList
  have drain := wf.drain_toList
  refine ⟨drain.trans cursor.symm, ?_, ?_⟩
  · rw [cursor]
    exact wf.sorted
  · intro front a mid b back cut
    rw [cursor] at cut
    exact together_of_sorted (cut ▸ wf.sorted)

end WellFormed

theorem exists_of_contains {t : Table K V} {u : Table K W}
    (keys : ∀ key ∈ t.keys, u.contains key = true) :
    ∀ e ∈ t.toList, ∃ f, u.find? e.1 = some f ∧ True := by
  intro e he
  obtain ⟨f, found⟩ := Option.isSome_iff_exists.1 (keys e.1 (List.mem_map_of_mem he))
  exact ⟨f, found, trivial⟩

section Law

variable {D : K → Prop} (law : KeyLaw D) {t : Table K V} {u : Table K W} (ht : t.Over D)
  (hu : u.Over D)
include law ht hu

theorem SameKeys.matches (same : t.SameKeys u) :
    Matches (EntryMatches D fun _ _ => True) t.toList u.toList := by
  have le := length_le_of_cover (ht.no_shared law fun (_ : V) (_ : W) => True)
    (ht.partners law hu (exists_of_contains same.1))
  have ge := length_le_of_cover (hu.no_shared law fun (_ : W) (_ : V) => True)
    (hu.partners law ht (exists_of_contains same.2))
  rw [← covers_iff_matches law ht hu, ht.size_eq, hu.size_eq]
  exact ⟨Nat.le_antisymm le ge, exists_of_contains same.1⟩

/-- Tables with the same keys show the same hashes, one after another. -/
theorem SameKeys.hashes_eq (same : t.SameKeys u) :
    t.toList.map (fun e => hash e.1) = u.toList.map fun f => hash f.1 := by
  have perm := (same.matches law ht hu).map_perm (f := fun e => hash e.1) (g := fun f => hash f.1)
    fun e f h => law.hash_eq h.1.1 h.1.2.1 h.1.2.2
  have antisymm : ∀ a b : UInt64, ¬ Precedes b a → ¬ Precedes a b → a = b :=
    fun a b le ge => Trie.eq_of_not_precedes ge le
  exact perm.eq_of_pairwise (fun a b _ _ => antisymm a b) (List.pairwise_map.2 ht.sorted)
    (List.pairwise_map.2 hu.sorted)

theorem SameKeys.keysAlike (same : t.SameKeys u) (apart : t.Separated) :
    KeysAlike t.toList u.toList := by
  have hashes := same.hashes_eq law ht hu
  have alike : List.Forall₂ (fun e f => hash e.1 = hash f.1) t.toList u.toList := by
    rw [← List.forall₂_eq_eq_eq, List.forall₂_map_left_iff, List.forall₂_map_right_iff] at hashes
    exact hashes
  have nodup : (u.toList.map fun f => hash f.1).Nodup := by
    rw [← hashes]
    rw [Separated, keys, List.pairwise_map] at apart
    exact List.pairwise_map.2 apart
  refine forall₂_imp_mem alike fun e he f hf here => ?_
  obtain ⟨g, hg, equal, -⟩ := (same.matches law ht hu).exists_mem he
  -- the key's partner has the hash of the entry in the same place, so it is that entry
  have there : hash g.1 = hash f.1 := (law.hash_eq equal.1 equal.2.1 equal.2.2).symm.trans here
  rw [← List.inj_on_of_nodup_map nodup hg hf there]
  exact equal.2.2

theorem SameKeys.inStep (same : t.SameKeys u) (apart : t.Separated) : t.InStep u := by
  have alike := same.keysAlike law ht hu apart
  refine ⟨?_, ?_⟩
  · rwa [ht.cursor_toList, hu.cursor_toList]
  · rwa [ht.drain_toList, hu.drain_toList]

end Law

end Persistent.Table
