import Persistent.Proofs.Matching
import Persistent.Proofs.Table.WellFormed

/-!
Two tables of one size, the keys of one found in the other with related values: their entries
match up to their order, and so the comparison is the same from either side.
-/

set_option autoImplicit false

namespace Persistent

variable {K V W : Type} [BEq K] [Hashable K]

/-- Equal keys of a domain. -/
def EqualIn (D : K → Prop) (a b : K) : Prop :=
  D a ∧ D b ∧ (a == b) = true

namespace Table

/-- Equal keys with related values. -/
def EntryMatches (D : K → Prop) (S : V → W → Prop) (e : K × V) (f : K × W) : Prop :=
  EqualIn D e.1 f.1 ∧ S e.2 f.2

section Partners

variable {D : K → Prop} (law : KeyLaw D) {t : Table K V} (ht : t.Over D)
include law ht

/-- A key equal to two stored keys would make them equal. -/
theorem Over.no_shared (S : V → W → Prop) :
    t.toList.Pairwise fun e e' => ∀ f, EntryMatches D S e f → ¬EntryMatches D S e' f := by
  apply (ht.distinct law).imp_of_mem
  intro e e' he he' apart f h h'
  have back := law.symm (ht.keys e' he') h.1.2.1 h'.1.2.2
  have same := law.trans (ht.keys e he) h.1.2.1 (ht.keys e' he') h.1.2.2 back
  rw [same] at apart
  cases apart

theorem Over.partners {S : V → W → Prop} {u : Table K W} (hu : u.Over D)
    (cover : ∀ e ∈ t.toList, ∃ f, u.find? e.1 = some f ∧ S e.2 f.2) :
    ∀ e ∈ t.toList, ∃ f ∈ u.toList, EntryMatches D S e f := by
  intro e he
  obtain ⟨f, found, related⟩ := cover e he
  obtain ⟨hf, same⟩ := (hu.find?_iff law (ht.keys e he) f).1 found
  exact ⟨f, hf, ⟨ht.keys e he, hu.keys f hf, same⟩, related⟩

end Partners

theorem covers_iff_matches {D : K → Prop} (law : KeyLaw D) {S : V → W → Prop} {t : Table K V}
    {u : Table K W} (ht : t.Over D) (hu : u.Over D) :
    (t.size = u.size ∧ ∀ e ∈ t.toList, ∃ f, u.find? e.1 = some f ∧ S e.2 f.2) ↔
      Matches (EntryMatches D S) t.toList u.toList := by
  constructor
  · rintro ⟨size, cover⟩
    refine matches_of_cover (ht.no_shared law S) (ht.partners law hu cover) ?_
    rw [← ht.size_eq, ← hu.size_eq, size]
  · intro h
    constructor
    · rw [ht.size_eq, hu.size_eq, h.length_eq]
    · intro e he
      obtain ⟨f, hf, same, related⟩ := h.exists_mem he
      exact ⟨f, (hu.find?_iff law same.1 f).2 ⟨hf, same.2.2⟩, related⟩

theorem distinct_of_equal {D : K → Prop} (law : KeyLaw D) {entries others : List (K × V)}
    (same : List.Forall₂ (fun e f => EqualIn D e.1 f.1) entries others)
    (distinct : Bindings.Distinct entries) : Bindings.Distinct others := by
  induction same with
  | nil => exact .nil
  | @cons e f entries others h rest ih =>
    obtain ⟨apart, distinct⟩ := List.pairwise_cons.1 distinct
    refine List.pairwise_cons.2 ⟨?_, ih distinct⟩
    intro f' hf'
    obtain ⟨e', he', h'⟩ := Matches.exists_mem ⟨_, rest.flip, .refl _⟩ hf'
    rw [← law.congr_left h.1 h.2.1 h'.2.1 h.2.2, ← law.congr_right h'.1 h'.2.1 h.1 h'.2.2]
    exact apart e' he'

/-- New entries in the places of the old ones, their keys equal to the old ones. -/
theorem Over.refill {D : K → Prop} (law : KeyLaw D) {t : Table K V} (keyed : t.Over D)
    {entries : List (K × V)} (keys : List.Forall₂ (fun e f => EqualIn D e.1 f.1) t.toList entries) :
    (t.refill entries).Over D ∧ (t.refill entries).toList = entries := by
  have hashes : List.Forall₂ Trie.SameHash t.toList entries :=
    keys.imp fun e f h => law.hash_eq h.1 h.2.1 h.2.2
  obtain ⟨wf, shown⟩ := keyed.toWellFormed.refill hashes
    (distinct_of_equal law keys (keyed.distinct law))
  refine ⟨⟨wf, ?_⟩, shown⟩
  intro f hf
  rw [shown] at hf
  obtain ⟨e, -, h⟩ := Matches.exists_mem ⟨_, keys.flip, .refl _⟩ hf
  exact h.2.1

end Table

end Persistent
