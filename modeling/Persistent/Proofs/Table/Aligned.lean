import Persistent.Proofs.Table.Matching

/-!
Aligned tables: any lookup finds related entries in both, or nothing in either. That is so exactly
when their entries match up to their order, and it stays so when both are changed alike, under keys
that are equal and with values that are related.
-/

set_option autoImplicit false

namespace Persistent.Table

open Bindings

variable {K V W : Type} [BEq K] [Hashable K]

/-- A lookup of a key of the domain finds related entries in both tables, or none in either. -/
def Aligned (D : K → Prop) (S : V → W → Prop) (t : Table K V) (u : Table K W) : Prop :=
  ∀ k, D k → Option.Rel (EntryMatches D S) (t.find? k) (u.find? k)

section Law

variable {D : K → Prop} (law : KeyLaw D) {S : V → W → Prop} {t : Table K V} {u : Table K W}

include law

theorem EntryMatches.flip {e : K × V} {f : K × W} (h : EntryMatches D S e f) :
    EntryMatches D (fun w v => S v w) f e :=
  ⟨⟨h.1.2.1, h.1.1, law.symm h.1.1 h.1.2.1 h.1.2.2⟩, h.2⟩

theorem Aligned.flip (h : t.Aligned D S u) : u.Aligned D (fun w v => S v w) t := by
  intro k hk
  have here := h k hk
  generalize t.find? k = e at here
  generalize u.find? k = f at here
  cases here with
  | none => exact .none
  | some related => exact .some (related.flip law)

variable (ht : t.Over D) (hu : u.Over D)
include ht hu

omit hu in
theorem Aligned.cover (h : t.Aligned D S u) :
    ∀ e ∈ t.toList, ∃ f, u.find? e.1 = some f ∧ S e.2 f.2 := by
  intro e he
  have key := ht.keys e he
  have here := h e.1 key
  rw [(ht.find?_iff law key e).2 ⟨he, law.refl key⟩] at here
  generalize u.find? e.1 = f at here ⊢
  cases here with
  | some related => exact ⟨_, rfl, related.2⟩

theorem Aligned.size_le (h : t.Aligned D S u) : t.size ≤ u.size := by
  rw [ht.size_eq, hu.size_eq]
  exact length_le_of_cover (ht.no_shared law S) (ht.partners law hu (h.cover law ht))

theorem Aligned.size_eq (h : t.Aligned D S u) : t.size = u.size :=
  Nat.le_antisymm (h.size_le law ht hu) ((h.flip law).size_le law hu ht)

theorem aligned_iff_matches :
    t.Aligned D S u ↔ Matches (EntryMatches D S) t.toList u.toList := by
  constructor
  · intro h
    exact (covers_iff_matches law ht hu).1 ⟨h.size_eq law ht hu, h.cover law ht⟩
  · intro h k hk
    cases found : t.find? k with
    | some e =>
      obtain ⟨he, here⟩ := (ht.find?_iff law hk e).1 found
      obtain ⟨f, hf, related⟩ := h.exists_mem he
      have there := law.trans hk related.1.1 related.1.2.1 here related.1.2.2
      rw [(hu.find?_iff law hk f).2 ⟨hf, there⟩]
      exact .some related
    | none =>
      cases found' : u.find? k with
      | none => exact .none
      | some f =>
        -- the partner of what the other table holds would have been found here
        obtain ⟨hf, there⟩ := (hu.find?_iff law hk f).1 found'
        have back : Matches (EntryMatches D fun w v => S v w) u.toList t.toList :=
          h.symm fun _ _ related => related.flip law
        obtain ⟨e, he, related⟩ := back.exists_mem hf
        have here := law.trans hk related.1.1 related.1.2.1 there related.1.2.2
        rw [(ht.find?_iff law hk e).2 ⟨he, here⟩] at found
        cases found

omit ht in
/-- The two keys need only be equal. -/
theorem Aligned.find?_rel (h : t.Aligned D S u) {k k' : K} (same : EqualIn D k k') :
    Option.Rel (EntryMatches D S) (t.find? k) (u.find? k') := by
  rw [← hu.find?_congr law same.1 same.2.1 same.2.2]
  exact h k same.1

theorem Aligned.insert (h : t.Aligned D S u) {key key' : K} (same : EqualIn D key key') {v : V}
    {w : W} (values : S v w) : (t.insert key v).Aligned D S (u.insert key' w) := by
  intro k hk
  rw [ht.find?_insert law v hk same.1, hu.find?_insert law w hk same.2.1,
    ← law.congr_right same.1 same.2.1 hk same.2.2]
  split
  case isTrue =>
    have stored := h.find?_rel law hu same
    generalize t.find? key = e at stored ⊢
    generalize u.find? key' = f at stored ⊢
    cases stored with
    | none => exact .some ⟨same, values⟩
    | some related => exact .some ⟨related.1, values⟩
  case isFalse => exact h k hk

theorem Aligned.erase (h : t.Aligned D S u) {key key' : K} (same : EqualIn D key key') :
    (t.erase key).Aligned D S (u.erase key') := by
  intro k hk
  rw [ht.find?_erase law hk same.1, hu.find?_erase law hk same.2.1,
    ← law.congr_right same.1 same.2.1 hk same.2.2]
  split
  case isTrue => exact .none
  case isFalse => exact h k hk

/-- Merging in the entries of two aligned tables, each in its own order. -/
theorem Aligned.merge (h : t.Aligned D S u) {t' : Table K V} {u' : Table K W} (ht' : t'.Over D)
    (hu' : u'.Over D) (h' : t'.Aligned D S u') :
    (t.insertAll t'.toList).Aligned D S (u.insertAll u'.toList) := by
  intro k hk
  rw [ht.find?_insertAll law ht'.keys (ht'.distinct law) hk,
    hu.find?_insertAll law hu'.keys (hu'.distinct law) hk, ← ht'.find?_eq law hk,
    ← hu'.find?_eq law hk]
  have old := h k hk
  have new := h' k hk
  generalize t.find? k = e at old ⊢
  generalize u.find? k = f at old ⊢
  generalize t'.find? k = e' at new ⊢
  generalize u'.find? k = f' at new ⊢
  cases new with
  | none => exact old
  | some related =>
    cases old with
    | none => exact .some related
    | some stored => exact .some ⟨stored.1, related.2⟩

end Law

end Persistent.Table
