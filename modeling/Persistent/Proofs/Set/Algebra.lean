import Persistent.Proofs.Bulk
import Persistent.Proofs.Set.Program
import Persistent.Proofs.Value.Reachable

/-!
The algebra of sets. Union inserts in bulk, intersection builds a set afresh and difference erases
in bulk; what each of them stores is told by the lookups in the two sets it is made of. Counts follow
from a table whose entries are those of two tables without a common key, and the shortcut by size in
the test for inclusion from an inclusion never being of more elements in fewer.
-/

set_option autoImplicit false

namespace Persistent

namespace Table

open Bindings

variable {K V : Type} [BEq K] [Hashable K] {D : K → Prop} (law : KeyLaw D) {t u w : Table K V}
  (ht : t.Over D) (hu : u.Over D)
include law ht

theorem Over.contains_of_mem {e : K × V} (he : e ∈ t.toList) : t.contains e.1 = true := by
  have key := ht.keys e he
  unfold contains
  rw [(ht.find?_iff law key e).2 ⟨he, law.refl key⟩]
  rfl

theorem Over.contains_congr {k key : K} (hk : D k) (hkey : D key) (same : (k == key) = true) :
    t.contains k = t.contains key := by
  unfold contains
  rw [ht.find?_congr law hk hkey same]

theorem Over.any_keys {k : K} (hk : D k) : t.keys.any (k == ·) = t.contains k := by
  rw [contains, ht.find?_eq law hk, Bool.eq_iff_iff, lookup, List.find?_isSome, Table.keys,
    List.any_map, List.any_eq_true]
  rfl

include hu

/-- A lookup among the entries whose keys another table holds. -/
theorem Over.lookup_filter {k : K} (hk : D k) :
    lookup k (t.toList.filter fun e => u.contains e.1) =
      if u.contains k then t.find? k else none := by
  rw [ht.find?_eq law hk]
  unfold lookup
  rw [List.find?_filter]
  have kept (e : K × V) (he : e ∈ t.toList) :
      decide (u.contains e.1 = true ∧ (k == e.1) = true) = (u.contains k && k == e.1) := by
    rw [Bool.decide_and, Bool.decide_eq_true, Bool.decide_eq_true]
    cases hit : k == e.1 with
    | true => rw [hu.contains_congr law hk (ht.keys e he) hit]
    | false => rw [Bool.and_false, Bool.and_false]
  rw [List.find?_congr kept]
  cases u.contains k <;> simp

/-- What is found in the second table only if not in the first is found in either. -/
theorem Over.size_eq_add (hw : w.Over D)
    (found : ∀ key, D key → w.find? key = (t.find? key).or (u.find? key))
    (apart : ∀ key, D key → t.contains key = true → u.contains key = false) :
    w.size = t.size + u.size := by
  have keys : ∀ e ∈ t.toList ++ u.toList, D e.1 := by
    intro e he
    rcases List.mem_append.1 he with he | he
    · exact ht.keys e he
    · exact hu.keys e he
  have distinct : Distinct (t.toList ++ u.toList) := by
    refine List.pairwise_append.2 ⟨ht.distinct law, hu.distinct law, ?_⟩
    intro e he f hf
    rw [Bool.eq_false_iff]
    intro same
    have missed := apart e.1 (ht.keys e he) (ht.contains_of_mem law he)
    rw [hu.contains_congr law (ht.keys e he) (hu.keys f hf) same, hu.contains_of_mem law hf]
      at missed
    cases missed
  have perm : w.toList.Perm (t.toList ++ u.toList) := by
    apply perm_of_lookup_eq law hw.keys keys (hw.distinct law) distinct
    intro key hkey
    rw [lookup_append, ← hw.find?_eq law hkey, ← ht.find?_eq law hkey, ← hu.find?_eq law hkey]
    exact found key hkey
  rw [hw.size_eq, ht.size_eq, hu.size_eq, perm.length_eq, List.length_append]

theorem Over.size_le (within : ∀ key, D key → t.contains key = true → u.contains key = true) :
    t.size ≤ u.size := by
  have cover : ∀ e ∈ t.toList, ∃ f, u.find? e.1 = some f ∧ True := by
    intro e he
    have here := within e.1 (ht.keys e he) (ht.contains_of_mem law he)
    obtain ⟨f, found⟩ := Option.isSome_iff_exists.1 here
    exact ⟨f, found, trivial⟩
  rw [ht.size_eq, hu.size_eq]
  exact length_le_of_cover (ht.no_shared law fun _ _ => True) (ht.partners law hu cover)

end Table

namespace Set

variable {μ α : Type} [BEq α] [Hashable α]

/-- Two sets and the sets made of them, told by what they hold and store of the domain `D`. Where
both hold an element, the one that is stored on the left is kept. -/
structure Algebra (D : α → Prop) (a b : Set μ α) : Prop where
  get?_union : ∀ x, D x → (a.union b).get? x = (a.get? x).or (b.get? x)
  get?_inter : ∀ x, D x → (a.inter b).get? x = if b.contains x then a.get? x else none
  get?_diff : ∀ x, D x → (a.diff b).get? x = if b.contains x then none else a.get? x
  contains_union : ∀ x, D x →
    ((a.union b).contains x = true ↔ a.contains x = true ∨ b.contains x = true)
  contains_inter : ∀ x, D x →
    ((a.inter b).contains x = true ↔ a.contains x = true ∧ b.contains x = true)
  contains_diff : ∀ x, D x →
    ((a.diff b).contains x = true ↔ a.contains x = true ∧ ¬b.contains x = true)
  size_union : (a.union b).size + (a.inter b).size = a.size + b.size
  size_diff : (a.diff b).size + (a.inter b).size = a.size
  isSubset_iff : a.isSubset b = true ↔ ∀ x, D x → a.contains x = true → b.contains x = true
  isSubset_iff_diff : a.isSubset b = true ↔ (a.diff b).isEmpty = true
  isSubset_iff_inter : a.isSubset b = true ↔ (a.inter b == a) = true
  isSubset_iff_union : a.isSubset b = true ↔ (a.union b == b) = true

section Law

variable {D : α → Prop} (law : KeyLaw D) {a b : Set μ α} (ha : a.Over D) (hb : b.Over D)
include law ha hb

section Lookups

variable {x : α} (hx : D x)
include hx

theorem find?_union : (a.union b).find? x = (a.find? x).or (b.find? x) := by
  unfold union insertAll
  rw [elements_unit]
  dsimp only
  rw [ha.find?_insertAll law hb.keys (hb.distinct law) hx, ← hb.find?_eq law hx]
  cases a.find? x <;> cases b.find? x <;> rfl

theorem find?_inter : (a.inter b).find? x = if b.contains x then a.find? x else none := by
  have kept : (a.elements.filter b.contains).map (·, ()) =
      a.toList.filter fun e => b.contains e.1 := by
    rw [← elements_unit a, List.filter_map]
    rfl
  have keys : ∀ e ∈ a.toList.filter fun e => b.contains e.1, D e.1 := fun e he =>
    ha.keys e (List.mem_filter.1 he).1
  have empty : ({} : Set μ α).Over D := Table.over_empty D
  have filtered := empty.find?_insertAll law keys ((ha.distinct law).filter _) hx
  unfold inter ofList insertAll
  dsimp only
  rw [kept, filtered, ha.lookup_filter law hb hx]
  cases b.contains x <;> cases a.find? x <;> rfl

theorem find?_diff : (a.diff b).find? x = if b.contains x then none else a.find? x := by
  unfold diff eraseAll
  dsimp only
  rw [ha.find?_eraseAll law (elements_in hb) hx]
  unfold elements
  rw [hb.any_keys law hx]

end Lookups

/-- One set parted by another. -/
theorem size_diff : (a.diff b).size + (a.inter b).size = a.size := by
  refine ((over_diff law ha hb).size_eq_add law (over_inter law ha) ha ?_ ?_).symm
  · intro x hx
    rw [find?_diff law ha hb hx, find?_inter law ha hb hx]
    cases b.contains x <;> simp
  · intro x hx held
    unfold Table.contains at held ⊢
    rw [find?_diff law ha hb hx] at held
    rw [find?_inter law ha hb hx]
    cases there : b.contains x <;> simp [there] at held ⊢

theorem size_union : (a.union b).size = a.size + (b.diff a).size := by
  refine ha.size_eq_add law (over_diff law hb ha) (over_union law ha hb) ?_ ?_
  · intro x hx
    rw [find?_union law ha hb hx, find?_diff law hb ha hx]
    unfold Table.contains
    cases a.find? x <;> simp
  · intro x hx held
    unfold Table.contains
    rw [find?_diff law hb ha hx, if_pos held]
    rfl

theorem contains_union {x : α} (hx : D x) :
    (a.union b).contains x = true ↔ a.contains x = true ∨ b.contains x = true := by
  unfold Table.contains
  rw [find?_union law ha hb hx, Option.isSome_or, Bool.or_eq_true]

theorem contains_inter {x : α} (hx : D x) :
    (a.inter b).contains x = true ↔ a.contains x = true ∧ b.contains x = true := by
  rw [Table.contains, find?_inter law ha hb hx]
  split
  case isTrue there => exact (and_iff_left there).symm
  case isFalse missing => exact ⟨nofun, fun both => absurd both.2 missing⟩

theorem contains_diff {x : α} (hx : D x) :
    (a.diff b).contains x = true ↔ a.contains x = true ∧ ¬b.contains x = true := by
  rw [Table.contains, find?_diff law ha hb hx]
  split
  case isTrue there => exact ⟨nofun, fun both => absurd there both.2⟩
  case isFalse missing => exact (and_iff_left missing).symm

theorem size_inter_comm : (a.inter b).size = (b.inter a).size := by
  have swap {a b : Set μ α} (ha : a.Over D) (hb : b.Over D) :
      (a.inter b).size ≤ (b.inter a).size :=
    (over_inter law ha).size_le law (over_inter law hb) fun x hx held =>
      (contains_inter law hb ha hx).2 ((contains_inter law ha hb hx).1 held).symm
  exact Nat.le_antisymm (swap ha hb) (swap hb ha)

theorem all_elements_iff : a.elements.all b.contains = true ↔
    ∀ x, D x → a.contains x = true → b.contains x = true := by
  rw [List.all_eq_true]
  constructor
  · intro all x hx held
    obtain ⟨e, found⟩ := Option.isSome_iff_exists.1 held
    obtain ⟨he, same⟩ := (ha.find?_iff law hx e).1 found
    rw [hb.contains_congr law hx (ha.keys e he) same]
    exact all e.1 (List.mem_map_of_mem he)
  · intro within x hx
    obtain ⟨e, he, rfl⟩ := List.mem_map.1 hx
    exact within e.1 (ha.keys e he) (ha.contains_of_mem law he)

/-- The test of the sizes that inclusion begins with is not seen. -/
theorem isSubset_iff : a.isSubset b = true ↔
    ∀ x, D x → a.contains x = true → b.contains x = true := by
  rw [isSubset, Bool.and_eq_true, all_elements_iff law ha hb, decide_eq_true_iff]
  exact and_iff_right_of_imp fun within => ha.size_le law hb within

theorem beq_iff : (a == b) = true ↔
    a.size = b.size ∧ ∀ x, D x → a.contains x = true → b.contains x = true := by
  change a.toTable.equal b.toTable = true ↔ _
  rw [← all_elements_iff law ha hb, Table.equal, Bool.and_eq_true, beq_iff_eq, List.all_eq_true,
    List.all_eq_true]
  refine and_congr_right fun _ => ?_
  rw [elements, Table.keys, List.forall_mem_map]
  refine forall₂_congr fun e he => ?_
  unfold Table.get? Table.contains
  cases b.find? e.1 <;> rfl

/-- Inclusion as a count: all of the first set is in the intersection. -/
theorem isSubset_iff_size : a.isSubset b = true ↔ (a.inter b).size = a.size := by
  rw [isSubset_iff law ha hb]
  have inter := over_inter law (t := b) ha
  constructor
  · intro within
    refine Nat.le_antisymm (inter.size_le law ha fun x hx held => ?_)
      (ha.size_le law inter fun x hx held => ?_)
    · exact ((contains_inter law ha hb hx).1 held).1
    · exact (contains_inter law ha hb hx).2 ⟨held, within x hx held⟩
  · intro count x hx held
    have parted := size_diff law ha hb
    have none : (a.diff b).size = 0 := by omega
    by_contra missing
    -- an element left over by the second set would be counted in the difference
    have left := (contains_diff law ha hb hx).2 ⟨held, missing⟩
    rw [Table.contains, Table.find?,
      (over_diff law ha hb).root_none_iff.2 none] at left
    cases left

theorem isSubset_iff_diff : a.isSubset b = true ↔ (a.diff b).isEmpty = true := by
  have parted := size_diff law ha hb
  rw [isSubset_iff_size law ha hb, Table.isEmpty, beq_iff_eq]
  omega

theorem isSubset_iff_inter : a.isSubset b = true ↔ (a.inter b == a) = true := by
  rw [isSubset_iff_size law ha hb, beq_iff law (over_inter law ha) ha]
  refine (and_iff_left_of_imp fun _ x hx held => ?_).symm
  exact ((contains_inter law ha hb hx).1 held).1

theorem isSubset_iff_union : a.isSubset b = true ↔ (a.union b == b) = true := by
  rw [beq_iff law (over_union law ha hb) hb]
  constructor
  · intro subset
    have joined := size_union law ha hb
    have parted := size_diff law hb ha
    have swapped := size_inter_comm law ha hb
    have whole := (isSubset_iff_size law ha hb).1 subset
    refine ⟨by omega, fun x hx held => ?_⟩
    rcases (contains_union law ha hb hx).1 held with held | held
    · exact (isSubset_iff law ha hb).1 subset x hx held
    · exact held
  · rintro ⟨-, within⟩
    rw [isSubset_iff law ha hb]
    exact fun x hx held => within x hx ((contains_union law ha hb hx).2 (.inl held))

theorem algebra_of_over : a.Algebra D b where
  get?_union x hx := by
    unfold get?
    rw [find?_union law ha hb hx, Option.map_or]
  get?_inter x hx := by
    unfold get?
    rw [find?_inter law ha hb hx, apply_ite (Option.map _), Option.map_none]
  get?_diff x hx := by
    unfold get?
    rw [find?_diff law ha hb hx, apply_ite (Option.map _), Option.map_none]
  contains_union _ := contains_union law ha hb
  contains_inter _ := contains_inter law ha hb
  contains_diff _ := contains_diff law ha hb
  size_union := by
    have joined := size_union law ha hb
    have parted := size_diff law hb ha
    have swapped := size_inter_comm law ha hb
    omega
  size_diff := size_diff law ha hb
  isSubset_iff := isSubset_iff law ha hb
  isSubset_iff_diff := isSubset_iff_diff law ha hb
  isSubset_iff_inter := isSubset_iff_inter law ha hb
  isSubset_iff_union := isSubset_iff_union law ha hb

end Law

/-- Any two sets that programs make from elements of a lawful domain. -/
theorem run_algebra {D : α → Prop} (law : KeyLaw D) {steps steps' : List (Step μ α)}
    (inside : ∀ s ∈ steps, s.Inside D) (inside' : ∀ s ∈ steps', s.Inside D) :
    ∀ a ∈ run steps, ∀ b ∈ run steps', a.Algebra D b := by
  intro a ha b hb
  exact algebra_of_over law (over_run law inside a ha) (over_run law inside' b hb)

/-- Elements that collide, some stored under other tags than in `tagged`. -/
def crossed : List (Step Unit HashedKey) :=
  [.insertAll 0 [⟨1, 7, "left"⟩, ⟨2, 7, "left"⟩, ⟨3, 39, "left"⟩], .erase 1 ⟨3, 39, ""⟩,
    .inter 1 2]

def tagged : List (Step Unit HashedKey) :=
  [.insertAll 0 [⟨2, 7, "right"⟩, ⟨4, 7, "right"⟩], .withMetadata 1 (some ()), .diff 2 0]

theorem run_algebra_colliding :
    let D : HashedKey → Prop := fun _ => True
    KeyLaw D ∧ (∀ s ∈ crossed, s.Inside D) ∧ (∀ s ∈ tagged, s.Inside D) ∧
      (run crossed).map (·.size) = [0, 3, 2, 2] ∧ (run tagged).map (·.size) = [0, 2, 2, 2] ∧
      ∀ a ∈ run crossed, ∀ b ∈ run tagged, a.Algebra D b := by
  intro D
  have law : KeyLaw D := KeyLaw.of_lawful
  have inside (steps : List (Step Unit HashedKey)) : ∀ s ∈ steps, s.Inside D := by
    rintro (_ | _ | _ | _ | _ | _ | _ | _) - <;> simp [Step.Inside, D]
  refine ⟨law, inside _, inside _, ?_, ?_, run_algebra law (inside _) (inside _)⟩
  · decide +kernel
  · decide +kernel

/-- The stored object is the one of the left set, or of the only set that holds the element. -/
example :
    let a : Set Unit HashedKey := ofList [⟨1, 7, "left"⟩, ⟨2, 7, "left"⟩]
    let b : Set Unit HashedKey := ofList [⟨2, 7, "right"⟩, ⟨4, 7, "right"⟩]
    ((a.union b).get? ⟨2, 7, ""⟩).map (·.tag) = some "left" ∧
      ((a.union b).get? ⟨4, 7, ""⟩).map (·.tag) = some "right" := by
  decide +kernel

end Set

namespace Value

variable [Hasher]

/-- The sets of values that a program builds, whatever their elements are. -/
theorem setAlgebra_run (steps : List (Step × ℕ)) {a b : Set Metadata Value}
    (ha : .set a ∈ (run steps).values) (hb : .set b ∈ (run steps).values) :
    a.Algebra Known b := by
  obtain ⟨-, valid⟩ := valid_run steps
  exact Set.algebra_of_over lawful_known.toKeyLaw (valid_elements (valid _ ha))
    (valid_elements (valid _ hb))

end Value

end Persistent
