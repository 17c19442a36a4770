import Persistent.Proofs.Trie.Sound

/-!
Refilling a trie puts new entries in the places of the old ones. With keys of the same hashes, and
pairwise unequal, the trie stays sound.
-/

set_option autoImplicit false

namespace Persistent.Trie

open Bindings

variable {K V : Type}

mutual

/-- As many entries as the trie has take their places; the others are left over. -/
theorem refill_spec (t : Trie K V) (front rest : List (K × V))
    (length : front.length = t.toList.length) :
    (t.refill (front ++ rest)).2 = rest ∧ (t.refill (front ++ rest)).1.toList = front := by
  cases t with
  | entry h k v =>
    obtain ⟨e, rfl⟩ := List.length_eq_one_iff.1 length
    exact ⟨rfl, rfl⟩
  | branch bits slots => exact refillSlots_spec slots front rest length
  | collision h entries =>
    change front.length = entries.length at length
    rw [refill]
    exact ⟨List.drop_left' length, List.take_left' length⟩

theorem refillSlots_spec (slots : List (Trie K V)) (front rest : List (K × V))
    (length : front.length = (slotsToList slots).length) :
    (refillSlots slots (front ++ rest)).2 = rest ∧
      slotsToList (refillSlots slots (front ++ rest)).1 = front := by
  match slots with
  | [] =>
    rw [List.length_eq_zero_iff.1 length]
    exact ⟨rfl, rfl⟩
  | slot :: slots =>
    rw [slotsToList, List.length_append] at length
    obtain ⟨here, behind, rfl, count⟩ : ∃ here behind, front = here ++ behind ∧
        here.length = slot.toList.length :=
      ⟨_, _, (List.take_append_drop slot.toList.length front).symm,
        List.length_take_of_le (by omega)⟩
    rw [List.length_append] at length
    have first := refill_spec slot here (behind ++ rest) count
    have others := refillSlots_spec slots behind rest (by omega)
    rw [List.append_assoc, refillSlots]
    dsimp only
    rw [first.1]
    exact ⟨others.1, by rw [slotsToList, first.2, others.2]⟩

end

mutual

/-- A trie refilled with what it holds is the same trie. -/
theorem refill_toList (t : Trie K V) (rest : List (K × V)) :
    t.refill (t.toList ++ rest) = (t, rest) := by
  cases t with
  | entry h k v => rfl
  | branch bits slots =>
    rw [refill, toList, refillSlots_toList slots rest]
  | collision h entries =>
    rw [refill, toList, List.take_left, List.drop_left]

theorem refillSlots_toList (slots : List (Trie K V)) (rest : List (K × V)) :
    refillSlots slots (slotsToList slots ++ rest) = (slots, rest) := by
  match slots with
  | [] => rfl
  | slot :: slots =>
    rw [slotsToList, List.append_assoc, refillSlots, refill_toList slot]
    dsimp only
    rw [refillSlots_toList slots rest]

end

variable [BEq K] [Hashable K]

/-- Keys of the same hash. -/
def SameHash (e f : K × V) : Prop :=
  hash e.1 = hash f.1

omit [BEq K] [Hashable K] in
theorem Crowded.refill {t : Trie K V} (crowded : t.Crowded) {front : List (K × V)}
    (rest : List (K × V)) (length : front.length = t.toList.length) :
    (t.refill (front ++ rest)).1.Crowded := by
  rcases crowded with ⟨h, key, value, rfl⟩ | several
  · obtain ⟨e, rfl⟩ := List.length_eq_one_iff.1 length
    exact .inl ⟨h, e.1, e.2, rfl⟩
  · right
    rw [(refill_spec t front rest length).2]
    omega

theorem SlotsSound.refill {path is : List ℕ} {slots : List (Trie K V)}
    (h : SlotsSound path is slots)
    (each : ∀ i slot, (i, slot) ∈ is.zip slots → ∀ front rest,
      List.Forall₂ SameHash slot.toList front → Distinct front → Sound (path ++ [i]) (slot.refill (front ++ rest)).1)
    {front : List (K × V)} (rest : List (K × V))
    (hashes : List.Forall₂ SameHash (slotsToList slots) front) (distinct : Distinct front) :
    SlotsSound path is (refillSlots slots (front ++ rest)).1 := by
  induction h generalizing front with
  | nil => exact .nil
  | @cons i slot is slots hs h ih =>
    rw [slotsToList] at hashes
    obtain ⟨here, behind, rfl, hh, hb⟩ := forall₂_split hashes
    have apart := List.pairwise_append.1 distinct
    have count := hh.length_eq.symm
    rw [List.append_assoc, refillSlots]
    dsimp only
    rw [(refill_spec slot here (behind ++ rest) count).1]
    refine .cons ⟨?_, hs.2.refill _ count⟩ (ih ?_ hb apart.2.1)
    · exact each i slot List.mem_cons_self here _ hh apart.1
    · intro j other member
      exact each j other (List.mem_cons_of_mem _ member)

theorem Sound.refill {path : List ℕ} {t : Trie K V} (sound : Sound path t)
    (front rest : List (K × V)) (hashes : List.Forall₂ SameHash t.toList front)
    (distinct : Distinct front) : Sound path (t.refill (front ++ rest)).1 := by
  induction sound generalizing front rest with
  | entry on own =>
    obtain ⟨e, rfl⟩ := List.length_eq_one_iff.1 hashes.length_eq.symm
    cases hashes with
    | cons same _ => exact .entry on (own.trans same)
  | @branch path bits slots shallow full slot_sound slot_crowded ih =>
    have slotted := (sound_branch_iff.1 (.branch shallow full slot_sound slot_crowded)).2
    exact sound_branch_iff.2 ⟨shallow, slotted.refill ih rest hashes distinct⟩
  | @collision path h entries on several own apart =>
    change List.Forall₂ SameHash entries front at hashes
    have count := hashes.length_eq
    rw [Trie.refill, List.take_left' count.symm]
    refine .collision on (count ▸ several) ?_ distinct
    intro f hf
    obtain ⟨i, hi, rfl⟩ := List.getElem_of_mem hf
    have hj : i < entries.length := by omega
    exact (own _ (List.getElem_mem hj)).trans (hashes.get hj hi)

end Persistent.Trie
