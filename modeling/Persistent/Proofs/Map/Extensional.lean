import Persistent.Proofs.Map.Refinement
import Persistent.Proofs.Table.Matching

/-!
Equal maps are those with the same bindings. The comparison walks one trie and looks its keys up in
the other, and the two tries may have different shapes: what it relies on is that neither binds a
key twice, so that with equal sizes an inclusion from one side is an inclusion from both.
-/

set_option autoImplicit false

namespace Persistent

namespace Table

variable {K V : Type} [BEq K] [Hashable K] [BEq V]

/-- Entries that the comparison of tables takes for equal. -/
abbrev SameEntry (e f : K × V) : Prop :=
  EntryMatches (fun _ => True) (fun v w => (w == v) = true) e f

/-- Each key is unbound in both tables, or bound to equal values. -/
def SameBindings (t u : Table K V) : Prop :=
  ∀ key, (t.get? key == u.get? key) = true

theorem SameBindings.symm [EquivBEq V] {t u : Table K V} (same : t.SameBindings u) :
    u.SameBindings t := by
  intro key
  have here := same key
  cases h : t.get? key <;> cases k : u.get? key <;> simp_all [BEq.comm]

omit [Hashable K] in
theorem SameEntry.symm [EquivBEq K] [EquivBEq V] {e f : K × V} (same : SameEntry e f) :
    SameEntry f e :=
  ⟨⟨trivial, trivial, BEq.symm same.1.2.2⟩, BEq.symm same.2⟩

section Keyed

variable [EquivBEq K] [LawfulHashable K] {t u : Table K V} (ht : t.Over fun _ => True)
  (hu : u.Over fun _ => True)
include ht

theorem SameBindings.covers [EquivBEq V] (same : t.SameBindings u) :
    ∀ e ∈ t.toList, ∃ f, u.find? e.1 = some f ∧ (f.2 == e.2) = true := by
  intro e he
  have here := same e.1
  rw [get?, (ht.find?_iff KeyLaw.of_lawful trivial e).2 ⟨he, BEq.refl _⟩, get?] at here
  cases found : u.find? e.1 with
  | none =>
    rw [found] at here
    cases here
  | some f =>
    rw [found] at here
    exact ⟨f, rfl, BEq.symm here⟩

include hu

theorem equal_iff_matches : t.equal u = true ↔ Matches SameEntry t.toList u.toList := by
  rw [← covers_iff_matches KeyLaw.of_lawful ht hu, equal, Bool.and_eq_true, beq_iff_eq,
    List.all_eq_true]
  refine and_congr_right fun _ => forall₂_congr fun e he => ?_
  rw [get?]
  cases u.find? e.1 <;> simp

theorem SameBindings.size_le [EquivBEq V] (same : t.SameBindings u) : t.size ≤ u.size := by
  have law := KeyLaw.of_lawful (K := K)
  rw [ht.size_eq, hu.size_eq]
  exact length_le_of_cover (ht.no_shared law fun v w => (w == v) = true)
    (ht.partners law hu (same.covers ht))

theorem sameBindings_of_matches [EquivBEq V] (h : Matches SameEntry t.toList u.toList) :
    t.SameBindings u := by
  have law := KeyLaw.of_lawful (K := K)
  intro key
  rw [get?, get?]
  cases found : t.find? key with
  | some e =>
    obtain ⟨he, here⟩ := (ht.find?_iff law trivial e).1 found
    obtain ⟨f, hf, same, value⟩ := h.exists_mem he
    rw [(hu.find?_iff law trivial f).2 ⟨hf, BEq.trans here same.2.2⟩]
    change (e.2 == f.2) = true
    exact BEq.symm value
  | none =>
    cases found' : u.find? key with
    | none => rfl
    | some f =>
      -- the entry of the other table has a partner here, which the lookup would have found
      obtain ⟨hf, there⟩ := (hu.find?_iff law trivial f).1 found'
      have back : Matches SameEntry u.toList t.toList := h.symm fun _ _ => SameEntry.symm
      obtain ⟨e, he, same, -⟩ := back.exists_mem hf
      rw [(ht.find?_iff law trivial e).2 ⟨he, BEq.trans there same.2.2⟩] at found
      cases found

theorem equal_iff_sameBindings [EquivBEq V] : t.equal u = true ↔ t.SameBindings u := by
  constructor
  · intro h
    exact sameBindings_of_matches ht hu ((equal_iff_matches ht hu).1 h)
  · intro same
    rw [equal_iff_matches ht hu, ← covers_iff_matches KeyLaw.of_lawful ht hu]
    exact ⟨Nat.le_antisymm (same.size_le ht hu) (same.symm.size_le hu ht), same.covers ht⟩

end Keyed

end Table

namespace Map

variable {μ K V : Type} [BEq K] [Hashable K] [BEq V]

/-- Equality of two maps is equality of their bindings, from either side, and equal maps feed a
hash the same, whatever equal keys and equal values feed it alike. -/
structure Extensional [Hasher] (m n : Map μ K V) : Prop where
  beq_iff : (m == n) = true ↔ m.SameBindings n.toTable
  beq_comm : (m == n) = (n == m)
  words_eq : m.SameBindings n.toTable →
    ∀ (feedKey : K → List UInt64) (feedValue : V → List UInt64),
      (∀ j k, (j == k) = true → feedKey j = feedKey k) →
      (∀ v w, (v == w) = true → feedValue v = feedValue w) →
      m.words feedKey feedValue = n.words feedKey feedValue

variable [EquivBEq K] [LawfulHashable K] [EquivBEq V]

theorem extensional_of_keyed [Hasher] {m n : Map μ K V} (hm : m.WellFormed)
    (hn : n.WellFormed) : m.Extensional n := by
  have beq_iff : (m == n) = true ↔ m.SameBindings n.toTable :=
    Table.equal_iff_sameBindings (keyed hm) (keyed hn)
  have beq_iff' : (n == m) = true ↔ n.SameBindings m.toTable :=
    Table.equal_iff_sameBindings (keyed hn) (keyed hm)
  refine ⟨beq_iff, ?_, ?_⟩
  · rw [Bool.eq_iff_iff, beq_iff, beq_iff']
    exact ⟨Table.SameBindings.symm, Table.SameBindings.symm⟩
  · intro same feedKey feedValue keys values
    have entries := (Table.equal_iff_matches (keyed hm) (keyed hn)).1
      ((Table.equal_iff_sameBindings (keyed hm) (keyed hn)).2 same)
    exact entries.unordered_eq fun e f h => by
      rw [keys _ _ h.1.2.2, values _ _ (BEq.symm h.2)]

/-- A key of another hash comes and goes, and leaves a chain of one slot over a collision node. -/
def detour : List (Step HashedKey ℕ) :=
  [.insert 0 ⟨1, 7, ""⟩ 10, .insert 1 ⟨3, 39, ""⟩ 30, .insert 2 ⟨2, 7, ""⟩ 20,
    .erase 3 ⟨3, 39, ""⟩]

def direct : List (Step HashedKey ℕ) :=
  [.insert 0 ⟨1, 7, ""⟩ 10, .insert 1 ⟨2, 7, ""⟩ 20]

def swapped : List (Step HashedKey ℕ) :=
  [.insert 0 ⟨2, 7, ""⟩ 20, .insert 1 ⟨1, 7, ""⟩ 10]

/-- The three histories end in the same bindings and in three tries. -/
structure ShapesVary (a b c : Map Unit HashedKey ℕ) : Prop where
  ends : a ∈ (run detour : List (Map Unit HashedKey ℕ)) ∧
    b ∈ (run direct : List (Map Unit HashedKey ℕ)) ∧
    c ∈ (run swapped : List (Map Unit HashedKey ℕ))
  same : a.SameBindings b.toTable ∧ b.SameBindings c.toTable
  chained : a.root = some (.branch (Trie.occupy 0 7) [.branch (Trie.occupy 0 0)
    [.collision 7 [(⟨1, 7, ""⟩, 10), (⟨2, 7, ""⟩, 20)]]])
  short : b.root = some (.branch (Trie.occupy 0 7)
    [.collision 7 [(⟨1, 7, ""⟩, 10), (⟨2, 7, ""⟩, 20)]])
  reordered : c.root = some (.branch (Trie.occupy 0 7)
    [.collision 7 [(⟨2, 7, ""⟩, 20), (⟨1, 7, ""⟩, 10)]])

theorem exists_shapes : ∃ a b c, ShapesVary a b c := by
  have wf (steps : List (Step HashedKey ℕ)) (i : ℕ) :
      ((run steps : List (Map Unit HashedKey ℕ)).getD i {}).WellFormed :=
    wellFormed_getD (wellFormed_run steps) i
  have mem (steps : List (Step HashedKey ℕ)) (i : ℕ)
      (inside : i < (run steps : List (Map Unit HashedKey ℕ)).length) :
      (run steps : List (Map Unit HashedKey ℕ)).getD i {} ∈
        (run steps : List (Map Unit HashedKey ℕ)) := by
    rw [List.getD_eq_getElem?_getD, List.getElem?_eq_getElem inside]
    exact List.getElem_mem inside
  refine ⟨(run detour).getD 4 {}, (run direct).getD 2 {}, (run swapped).getD 2 {},
    ⟨mem detour 4 ?_, mem direct 2 ?_, mem swapped 2 ?_⟩, ⟨?_, ?_⟩, ?_, ?_, ?_⟩
  · decide
  · decide
  · decide
  · exact (Table.equal_iff_sameBindings (keyed (wf detour 4)) (keyed (wf direct 2))).1
      (by decide +kernel)
  · exact (Table.equal_iff_sameBindings (keyed (wf direct 2)) (keyed (wf swapped 2))).1
      (by decide +kernel)
  · cbv
  · cbv
  · cbv

/-- Whatever the histories; and there are histories that end in the same bindings but not in the
same trie. -/
theorem run_extensional [Hasher] (steps steps' : List (Step K V)) :
    (∀ m ∈ (run steps : List (Map μ K V)), ∀ n ∈ (run steps' : List (Map μ K V)),
      m.Extensional n) ∧ ∃ a b c, ShapesVary a b c := by
  refine ⟨fun m hm n hn => ?_, exists_shapes⟩
  exact extensional_of_keyed (wellFormed_run steps m hm) (wellFormed_run steps' n hn)

attribute [local instance] Hasher.sum in
theorem run_extensional_detour :
    EquivBEq HashedKey ∧ LawfulHashable HashedKey ∧ EquivBEq ℕ ∧
      (run detour : List (Map Unit HashedKey ℕ)).map (·.size) = [0, 1, 2, 3, 2] ∧
      ∀ m ∈ (run detour : List (Map Unit HashedKey ℕ)),
        ∀ n ∈ (run swapped : List (Map Unit HashedKey ℕ)), m.Extensional n :=
  ⟨inferInstance, inferInstance, inferInstance, by decide +kernel,
    (run_extensional detour swapped).1⟩

end Map

end Persistent
