import Persistent.Proofs.Map.Refinement
import Persistent.Proofs.Trie.Checked

/-!
What well-formedness is good for: no operation on a map that a program makes can look for a slot
that is not there, lose an entry where two hashes collide, or count below zero.
-/

set_option autoImplicit false

namespace Persistent

namespace Table

variable {K V : Type} [BEq K] [Hashable K]

/-- Insertion with its assumptions checked. -/
def insert? (t : Table K V) (key : K) (value : V) : Option (Table K V) :=
  ((t.root.getD (.branch 0 [])).insert? (hash key) key value 0).map fun r =>
    { root := some r.1, size := if r.2 then t.size + 1 else t.size }

structure Guarded (t : Table K V) : Prop where
  slot_there : ∀ root bits slots, t.root = some root → Trie.Within (.branch bits slots) root →
    ∀ i < 32, bits.getLsbD i = true → Trie.rank bits i < slots.length
  insert?_eq : ∀ key value, t.insert? key value = some (t.insert key value)
  erase_counted : ∀ key rest,
    t.root.bind (·.erase (hash key) (key == ·) 0) = some rest → 0 < t.size

theorem WellFormed.insert?_eq {t : Table K V} (wf : t.WellFormed) (key : K) (value : V) :
    t.insert? key value = some (t.insert key value) := by
  have checked := wf.start.1.insert?_eq key value (Trie.onPath_nil _)
  rw [List.length_nil, Nat.mul_zero] at checked
  unfold insert?
  rw [checked]
  rfl

theorem WellFormed.guarded [EquivBEq K] [LawfulHashable K] {t : Table K V}
    (wf : t.WellFormed) : t.Guarded := by
  have keyed : t.Over fun _ => True := ⟨wf, fun _ _ => trivial⟩
  refine ⟨?_, wf.insert?_eq, ?_⟩
  · intro root bits slots hroot inside i hi set
    exact (wf.root_sound root hroot).rank_lt inside hi set
  · intro key rest found
    obtain ⟨-, -, -, -, -, counted⟩ := keyed.erase_found KeyLaw.of_lawful trivial found
    omega

end Table

namespace Map

variable {μ K V : Type} [BEq K] [Hashable K]

theorem run_wellFormed_guarded [EquivBEq K] [LawfulHashable K] (steps : List (Step K V)) :
    ∀ m ∈ (run steps : List (Map μ K V)), m.WellFormed ∧ m.Guarded := by
  intro m hm
  have wf := wellFormed_run steps m hm
  exact ⟨wf, wf.guarded⟩

theorem run_wellFormed_guarded_colliding :
    EquivBEq HashedKey ∧ LawfulHashable HashedKey ∧
      ∀ m ∈ (run colliding : List (Map Unit HashedKey ℕ)), m.WellFormed ∧ m.Guarded :=
  ⟨inferInstance, inferInstance, run_wellFormed_guarded colliding⟩

end Map

end Persistent
