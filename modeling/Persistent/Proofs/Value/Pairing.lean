import Persistent.HashedKey
import Persistent.Proofs.Map.Program
import Persistent.Proofs.Trie.Pairing
import Persistent.Proofs.Value.Reachable

/-!
Pairing in the maps of programs. Wherever an insertion is stopped by an entry of another key or by a
collision node of another hash, this and the new entry have come the same way, so their hashes agree
in the fragments in front of the place, and the two can be paired there.
-/

set_option autoImplicit false

namespace Persistent

namespace Table

open Trie (Blocks Leads OnPath Paired Sound fragment pair)

variable {K V : Type} [BEq K] [Hashable K]

/-- An insertion that is stopped at `shift`, by a trie `s` that stands there for the hash `h`. -/
structure PairsAt (t : Table K V) (key : K) (value : V) (h : UInt64) (shift : ℕ) (s : Trie K V) :
    Prop where
  agree : ∃ d ≤ 13, shift = 5 * d ∧ ∀ i < d, fragment h (5 * i) = fragment (hash key) (5 * i)
  paired : Paired shift h s (hash key) (.entry (hash key) key value)
  stored : ∃ root, (t.insert key value).root = some root ∧ Leads (hash key) 0 root shift
    (pair shift h s (hash key) (.entry (hash key) key value))

/-- Wherever an insertion may be stopped. -/
def PairsApart (t : Table K V) : Prop :=
  ∀ (key : K) (value : V) (h : UInt64) (shift : ℕ) (s : Trie K V),
    Leads (hash key) 0 (t.root.getD (.branch 0 [])) shift s → Blocks (hash key) key h s →
      t.PairsAt key value h shift s

theorem WellFormed.pairsApart {t : Table K V} (wf : t.WellFormed) : t.PairsApart := by
  intro key value h shift s leads blocks
  have on : OnPath [] (hash key) := Trie.onPath_nil _
  obtain ⟨path, long, rfl, on, sound⟩ := wf.start.1.of_leads on (Nat.zero_le _) rfl leads
  have agree := (blocks.onPath sound).fragment_eq on
  have inserted := leads.insert key value
  rw [blocks.insert_eq] at inserted
  exact ⟨⟨path.length, long, rfl, agree⟩, Trie.paired_of_agree agree _ _, _, rfl, inserted⟩

end Table

/-- Two tries are told apart at any shift in front of which their hashes agree, and that is where an
insertion into a map of a program comes to pair them. -/
theorem run_pairs_apart [Hasher] {μ A B K V : Type} [BEq K] [Hashable K] [EquivBEq K]
    [LawfulHashable K] :
    (∀ (d : ℕ) (h₁ h₂ : UInt64),
      (∀ i < d, Trie.fragment h₁ (5 * i) = Trie.fragment h₂ (5 * i)) →
        ∀ t₁ t₂ : Trie A B, Trie.Paired (5 * d) h₁ t₁ h₂ t₂) ∧
      (∀ steps : List (Map.Step K V), ∀ m ∈ (Map.run steps : List (Map μ K V)), m.PairsApart) ∧
      ∀ (acts : List (Value.Step × ℕ)) (m : Map Metadata Value Value),
        Value.In (Value.run acts).store (.map m) → m.PairsApart := by
  refine ⟨fun d h₁ h₂ agree => Trie.paired_of_agree agree, fun steps m made => ?_,
    fun acts m valid => ?_⟩
  · exact (Map.wellFormed_run steps m made).pairsApart
  · exact (Value.valid_entries valid).1.pairsApart

/-- Two keys of one hash, so that the next key of their first fragment meets a collision node. -/
def Map.crossing : List (Step HashedKey ℕ) :=
  [.insert 0 ⟨1, 7, ""⟩ 10, .insert 1 ⟨2, 7, ""⟩ 20]

/-- A map whose one key is stopped by a number that is larger by 32, where words are added up. -/
def Value.crossing : List (Step × ℕ) :=
  [(.int 0, 9), (.hashMap [(0, 0)], 9)]

attribute [local instance] Hasher.sum in
theorem run_pairs_apart_crossing :
    EquivBEq HashedKey ∧ LawfulHashable HashedKey ∧
      (∃ t, (Trie.pairWithin? 7 (.entry 7 'a' 1) 1152921504606846983
          (.entry 1152921504606846983 'b' 2) 13 5 : Option (Trie Char ℕ)) = some t ∧
        ∃ bottom fork, Trie.Separates 5 7 (.entry 7 'a' 1) 1152921504606846983
          (.entry 1152921504606846983 'b' 2) t bottom fork) ∧
      Trie.pair 65 7 (.entry 7 'a' 1) 7 (.entry 7 'b' 2) = .collision 7 [('a', 1), ('b', 2)] ∧
      (∃ m ∈ (Map.run Map.crossing : List (Map Unit HashedKey ℕ)),
        m.PairsAt ⟨3, 39, ""⟩ 30 7 5 (.collision 7 [(⟨1, 7, ""⟩, 10), (⟨2, 7, ""⟩, 20)])) ∧
      ∃ m, (Value.run Value.crossing).value 1 = .map m ∧
        m.PairsAt (.int 32) .nil (hash (Value.int 0)) 5
          (.entry (hash (Value.int 0)) (.int 0) (.int 0)) := by
  obtain ⟨pairs, maps, values⟩ := run_pairs_apart (μ := Unit) (A := Char) (B := ℕ)
    (K := HashedKey) (V := ℕ)
  have apart := pairs 1 7 1152921504606846983 (by decide +kernel)
    (.entry 7 'a' 1) (.entry 1152921504606846983 'b' 2)
  have equal := pairs 13 7 7 (fun _ _ => rfl) (.entry 7 'a' 1) (.entry 7 'b' 2)
  have made := List.get_mem (Map.run Map.crossing : List (Map Unit HashedKey ℕ)) ⟨2, by decide⟩
  have valid := (Value.valid_run Value.crossing).value 1
  have root : ((Map.run Map.crossing : List (Map Unit HashedKey ℕ)).get ⟨2, by decide⟩).root =
      some (.branch (Trie.occupy 0 7) [.collision 7 [(⟨1, 7, ""⟩, 10), (⟨2, 7, ""⟩, 20)]]) := by
    cbv
  have leads : Trie.Leads 39 0 (.branch (Trie.occupy 0 7)
      [.collision 7 [((⟨1, 7, ""⟩ : HashedKey), 10), (⟨2, 7, ""⟩, 20)]]) 5
      (.collision 7 [(⟨1, 7, ""⟩, 10), (⟨2, 7, ""⟩, 20)]) := (Trie.Chain.link .done).leads
  have first : Trie.fragment (hash (Value.int 0)) 0 = 2 := by decide +kernel
  have second : Trie.fragment (hash (Value.int 32)) 0 = 2 := by decide +kernel
  have root' : (Map.insert {} (.int 0) (.int 0) : Map Metadata Value Value).root =
      some (.branch (Trie.occupy 0 2) [.entry (hash (Value.int 0)) (.int 0) (.int 0)]) := by
    simp [Map.insert, Table.insert, Trie.insert, first, show Trie.rank 0#32 2 = 0 by decide]
  have leads' : Trie.Leads (hash (Value.int 32)) 0
      (.branch (Trie.occupy 0 2) [.entry (hash (Value.int 0)) (Value.int 0) (Value.int 0)]) 5
      (.entry (hash (Value.int 0)) (.int 0) (.int 0)) :=
    second ▸ (Trie.Chain.link .done).leads
  refine ⟨inferInstance, inferInstance,
    ⟨_, apart.ends 13 (Nat.le_refl _), apart.separates (by decide)⟩,
    equal.collides rfl 7 'a' 1 7 'b' 2 rfl rfl, ⟨_, made, maps _ _ made _ _ _ _ _ ?_ ?_⟩,
    _, rfl, values _ _ valid _ _ _ _ _ ?_ (.entry (by decide +kernel))⟩
  · rw [root]
    exact leads
  · exact .collision (by decide)
  · exact root' ▸ leads'

end Persistent
