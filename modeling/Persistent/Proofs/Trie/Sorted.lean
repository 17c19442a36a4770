import Persistent.Proofs.Trie.Sound

/-!
The entries of a sound trie stand in the order of their hashes, fragment by fragment from the least
significant one up. The slots of a branch are in the order of the fragments that lead to them, and
all hashes below a branch agree in the fragments in front of these.
-/

set_option autoImplicit false

namespace Persistent.Trie

variable {K V : Type} [Hashable K]

/-- Entries in the order of the hashes of their keys: no hash precedes one in front of it. -/
def Sorted (entries : List (K × V)) : Prop :=
  entries.Pairwise fun a b => ¬ Precedes (hash b.1) (hash a.1)

theorem positions_increasing (bits : BitVec 32) : (positions bits).Pairwise (· < ·) :=
  List.pairwise_lt_range.filter _

theorem sorted_of_hash_eq {h : UInt64} {entries : List (K × V)}
    (own : ∀ e ∈ entries, h = hash e.1) : Sorted entries := by
  apply List.pairwise_of_forall_mem_list
  intro a ha b hb
  rw [← own a ha, ← own b hb]
  exact fun same => same.asymm same

variable [BEq K]

theorem SlotsSound.sorted {path is : List ℕ} {slots : List (Trie K V)}
    (h : SlotsSound path is slots) (increasing : is.Pairwise (· < ·))
    (each : ∀ slot ∈ slots, Sorted slot.toList) : Sorted (slotsToList slots) := by
  induction h with
  | nil => exact List.Pairwise.nil
  | @cons i slot is slots hs h ih =>
    obtain ⟨first, increasing⟩ := List.pairwise_cons.1 increasing
    obtain ⟨here, each⟩ := List.forall_mem_cons.1 each
    refine List.pairwise_append.2 ⟨here, ih increasing each, ?_⟩
    -- an entry of the first slot and one of a later slot part at this branch
    intro e he f hf
    obtain ⟨on, own⟩ := (onPath_concat path i _).1 (hs.1.onPath e he)
    obtain ⟨on', among⟩ := SlotsSound.fragment_mem h f hf
    have less := first _ among
    rw [← own] at less
    exact (precedes_of_onPath on on' less).asymm

theorem Sound.sorted {path : List ℕ} {t : Trie K V} (sound : Sound path t) : Sorted t.toList := by
  induction sound with
  | entry => exact List.pairwise_singleton _ _
  | @branch path bits slots shallow full slot_sound slot_crowded ih =>
    have slotted := (sound_branch_iff.1 (.branch shallow full slot_sound slot_crowded)).2
    apply slotted.sorted (positions_increasing bits)
    intro slot member
    obtain ⟨i, there⟩ := exists_position full member
    exact ih i slot there
  | collision on several own distinct => exact sorted_of_hash_eq own

end Persistent.Trie
