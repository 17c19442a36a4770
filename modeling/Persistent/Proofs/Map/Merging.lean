import Persistent.Proofs.Bulk
import Persistent.Proofs.Map.Refinement

/-!
Merging. Where both maps bind a key, the value comes from the second map and the stored key from
the first, whose metadata stays. A merge of three maps is the same however it is grouped.
-/

set_option autoImplicit false

namespace Persistent

namespace Reference

variable {K V : Type}

/-- What a merge tells of a key depends on what both maps tell of it. -/
theorem merge_congr {r r' s s' : Reference K V} {k : K} (left : r k = r' k)
    (right : s k = s' k) : r.merge s k = r'.merge s' k := by
  unfold merge keep
  rw [left, right]

theorem isSome_merge (r s : Reference K V) (k : K) :
    (r.merge s k).isSome = ((r k).isSome || (s k).isSome) := by
  unfold merge
  cases s k <;> simp

theorem value_merge (r s : Reference K V) (k : K) :
    (r.merge s k).map (·.2) = ((s k).map (·.2)).or ((r k).map (·.2)) := by
  unfold merge
  cases s k <;> rfl

theorem key_merge (r s : Reference K V) (k : K) :
    (r.merge s k).map (·.1) = ((r k).map (·.1)).or ((s k).map (·.1)) := by
  unfold merge keep
  cases s k <;> cases r k <;> rfl

/-- Grouping has no part in a merge, though values and keys are kept from opposite sides. -/
theorem merge_assoc (r s t : Reference K V) (k : K) :
    (r.merge s).merge t k = r.merge (s.merge t) k := by
  have pair (x y : Option (K × V)) (key : x.map (·.1) = y.map (·.1))
      (value : x.map (·.2) = y.map (·.2)) : x = y := by
    cases x <;> cases y <;> simp_all [Prod.ext_iff]
  refine pair _ _ ?_ ?_
  · simp only [key_merge, Option.or_assoc]
  · simp only [value_merge, Option.or_assoc]

end Reference

namespace Map

variable {μ K V : Type} [BEq K] [Hashable K]

/-- What is bound in a merge of `m` and `n`, under which stored key, and with what metadata. -/
structure Merged (D : K → Prop) (m n merged : Map μ K V) : Prop where
  keyed : merged.Over D
  contains_eq : ∀ k, D k → merged.contains k = (m.contains k || n.contains k)
  get?_eq : ∀ k, D k → merged.get? k = (n.get? k).or (m.get? k)
  key_eq : ∀ k, D k →
    (merged.find? k).map (·.1) = ((m.find? k).map (·.1)).or ((n.find? k).map (·.1))
  metadata_eq : merged.metadata = m.metadata

section Law

variable {D : K → Prop} (law : KeyLaw D) {a b c : Map μ K V} (ha : a.Over D) (hb : b.Over D)
include law ha hb

theorem over_merge : (a.merge b).Over D :=
  ha.insertAll law hb.keys

theorem find?_merge {k : K} (hk : D k) :
    (a.merge b).find? k = Reference.merge a.find? b.find? k := by
  refine (ha.find?_insertAll law hb.keys (hb.distinct law) hk).trans ?_
  rw [← hb.find?_eq law hk]
  rfl

theorem merged : Merged D a b (a.merge b) where
  keyed := over_merge law ha hb
  contains_eq k hk := by
    rw [Table.contains, find?_merge law ha hb hk]
    exact Reference.isSome_merge a.find? b.find? k
  get?_eq k hk := by
    rw [Table.get?, find?_merge law ha hb hk]
    exact Reference.value_merge a.find? b.find? k
  key_eq k hk := by
    rw [find?_merge law ha hb hk]
    exact Reference.key_merge a.find? b.find? k
  metadata_eq := rfl

theorem merge_assoc (hc : c.Over D) : Same D ((a.merge b).merge c) (a.merge (b.merge c)) := by
  have left := over_merge law ha hb
  have right := over_merge law hb hc
  refine ⟨?_, rfl⟩
  refine Table.Over.same_of_find?_eq law (over_merge law left hc) (over_merge law ha right) ?_
  intro k hk
  calc ((a.merge b).merge c).find? k
      = Reference.merge (a.merge b).find? c.find? k := find?_merge law left hc hk
    _ = (Reference.merge a.find? b.find?).merge c.find? k :=
      Reference.merge_congr (find?_merge law ha hb hk) rfl
    _ = Reference.merge a.find? (Reference.merge b.find? c.find?) k :=
      Reference.merge_assoc a.find? b.find? c.find? k
    _ = Reference.merge a.find? (b.merge c).find? k :=
      Reference.merge_congr rfl (find?_merge law hb hc hk).symm
    _ = (a.merge (b.merge c)).find? k := (find?_merge law ha right hk).symm

end Law

end Map

end Persistent
