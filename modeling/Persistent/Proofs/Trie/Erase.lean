import Persistent.Proofs.Trie.Insert

/-!
Removal keeps a trie sound and takes the entry of the key away, leaving the others in their order.
Between the two stands a branch whose child has just lost an entry: folding the child restores
what may stand in a slot.
-/

set_option autoImplicit false

namespace Persistent.Trie

open Bindings

variable {K V : Type} [BEq K] [Hashable K]

def entriesOf : Option (Trie K V) → List (K × V)
  | none => []
  | some t => t.toList

/-- What a removal from a slot below the end of `path` leaves to the branch above. -/
def LeavesSlot (path : List ℕ) (key : K) (t : Trie K V) : Option (Option (Trie K V)) → Prop
  | none => lookup key t.toList = none
  | some rest => (lookup key t.toList).isSome ∧ entriesOf (rest.bind fold) = remove key t.toList ∧
      ∀ slot, rest.bind fold = some slot → Sound path slot ∧ slot.Crowded

/-- What a removal from a branch at the end of `path` leaves, whether the branch is the root or a
child still to be folded. -/
def LeavesBranch (path : List ℕ) (key : K) (t : Trie K V) : Option (Option (Trie K V)) → Prop
  | none => lookup key t.toList = none
  | some rest => (lookup key t.toList).isSome ∧ ∃ bits slots, rest = some (.branch bits slots) ∧
      Sound path (.branch bits slots) ∧ slotsToList slots = remove key t.toList

theorem Sound.entry_above {path : List ℕ} {i : ℕ} {h : UInt64} {key : K} {value : V}
    (sound : Sound (path ++ [i]) (.entry h key value)) : Sound path (.entry h key value) := by
  obtain ⟨on, own⟩ := sound
  exact .entry ((onPath_concat path i h).1 on).1 own

theorem fold_branch {path : List ℕ} {bits : BitVec 32} {slots : List (Trie K V)}
    (sound : Sound path (.branch bits slots)) (occupied : 1 ≤ (slotsToList slots).length) :
    ∃ slot, fold (.branch bits slots) = some slot ∧ Sound path slot ∧ slot.Crowded ∧
      slot.toList = slotsToList slots := by
  have slotted := (sound_branch_iff.1 sound).2
  -- a branch that is not folded holds a crowded child or two slots
  have keep (several : 2 ≤ (slotsToList slots).length)
      (stays : fold (.branch bits slots) = some (.branch bits slots)) :
      ∃ slot, fold (.branch bits slots) = some slot ∧ Sound path slot ∧ slot.Crowded ∧
        slot.toList = slotsToList slots :=
    ⟨_, stays, sound, .inr several, rfl⟩
  generalize hp : positions bits = is at slotted
  cases slotted with
  | nil => simp [slotsToList] at occupied
  | @cons i first is rest hs hr =>
    cases hr with
    | nil =>
      rcases hs.2 with ⟨h, key, value, rfl⟩ | several
      · refine ⟨.entry h key value, rfl, hs.1.entry_above, crowded_entry _ _ _, ?_⟩
        rw [slotsToList, slotsToList, List.append_nil]
      · cases first with
        | entry h key value =>
          refine ⟨.entry h key value, rfl, hs.1.entry_above, crowded_entry _ _ _, ?_⟩
          rw [slotsToList, slotsToList, List.append_nil]
        | branch inner children =>
          exact keep (by rwa [slotsToList, slotsToList, List.append_nil]) rfl
        | collision h entries =>
          exact keep (by rwa [slotsToList, slotsToList, List.append_nil]) rfl
    | @cons j second is rest hs' hr =>
      have := hs.2.occupied
      have := hs'.2.occupied
      refine keep ?_ ?_
      · rw [slotsToList, slotsToList, List.length_append, List.length_append]
        omega
      · cases first <;> rfl

section Law

variable {D : K → Prop} (law : KeyLaw D)
include law

theorem eraseP_eq_remove {key : K} {entries : List (K × V)} (hkey : D key)
    (keys : ∀ e ∈ entries, D e.1) (distinct : Distinct entries) :
    entries.eraseP (key == ·.1) = remove key entries := by
  induction entries with
  | nil => rfl
  | cons e entries ih =>
    by_cases hit : (key == e.1) = true
    · rw [List.eraseP_cons_of_pos (p := fun x : K × V => key == x.1) hit,
        remove_cons_hit entries hit, remove_of_absent (absent_behind law hkey keys distinct hit)]
    · rw [List.eraseP_cons_of_neg (p := fun x : K × V => key == x.1) hit,
        remove_cons_miss entries (Bool.eq_false_iff.2 hit),
        ih (fun x hx => keys x (List.mem_cons_of_mem _ hx)) distinct.of_cons]

theorem erase_entry {path : List ℕ} {h : UInt64} {k key : K} {v : V} (shift : ℕ)
    (sound : Sound path (.entry h k v)) (hk : D k) (hkey : D key) :
    LeavesSlot path key (.entry h k v)
      ((Trie.entry h k v).erase (hash key) (key == ·) shift) := by
  obtain ⟨on, own⟩ := sound
  rw [erase]
  by_cases same : (key == k) = true
  · have agree : h = hash key := own.trans (law.hash_eq hkey hk same).symm
    rw [if_pos (by simp [agree, same])]
    refine ⟨?_, ?_, fun slot impossible => by cases impossible⟩
    · rw [toList, lookup_cons_hit [] same]
      rfl
    · rw [toList, remove_cons_hit [] same]
      rfl
  · rw [if_neg (by simp [same])]
    exact lookup_cons_miss [] (Bool.eq_false_iff.2 same)

theorem erase_collision {path : List ℕ} {h : UInt64} {entries : List (K × V)} {key : K}
    (shift : ℕ) (sound : Sound path (.collision h entries)) (hkey : D key)
    (keys : ∀ e ∈ entries, D e.1) :
    LeavesSlot path key (.collision h entries)
      ((Trie.collision h entries).erase (hash key) (key == ·) shift) := by
  obtain _ | _ | ⟨on, several, own, distinct⟩ := sound
  have any : entries.any (key == ·.1) = (lookup key entries).isSome :=
    List.isSome_find?.symm
  rw [erase, any]
  cases found : lookup key entries with
  | none =>
    rw [if_neg (by simp)]
    exact found
  | some e =>
    obtain ⟨member, same⟩ := of_lookup found
    have agree : h = hash key := (own e member).trans (law.hash_eq hkey (keys e member) same).symm
    have counted := length_remove law hkey keys distinct
    rw [found] at counted
    change _ + 1 = _ at counted
    rw [if_pos (by simp [agree]), eraseP_eq_remove law hkey keys distinct]
    have own' : ∀ x ∈ remove key entries, h = hash x.1 :=
      fun x hx => own x (List.mem_filter.1 hx).1
    have apart : Distinct (remove key entries) := distinct_remove distinct
    change (lookup key entries).isSome ∧ entriesOf (fold (.collision h (remove key entries))) =
      remove key entries ∧ ∀ slot, fold (.collision h (remove key entries)) = some slot →
        Sound path slot ∧ slot.Crowded
    rw [found]
    refine ⟨rfl, ?_⟩
    generalize remove key entries = left at counted own' apart
    match left with
    | [] =>
      rw [List.length_nil] at counted
      omega
    | [(k, v)] =>
      refine ⟨rfl, fun slot hs => ?_⟩
      cases hs
      exact ⟨.entry on (own' _ List.mem_cons_self), crowded_entry _ _ _⟩
    | a :: b :: left =>
      have more : 2 ≤ (a :: b :: left).length := by
        rw [List.length_cons, List.length_cons]
        omega
      refine ⟨rfl, fun slot hs => ?_⟩
      cases hs
      exact ⟨.collision on more own' apart, .inr more⟩

omit [BEq K] [Hashable K] law in
theorem eraseAt_cut (hash : UInt64) (same : K → Bool) (shift : ℕ) (front back : List (Trie K V))
    (slot : Trie K V) :
    eraseAt hash same shift front.length (front ++ slot :: back) =
      (slot.erase hash same shift).map fun rest =>
        (front ++ (rest.bind fold).toList ++ back, (rest.bind fold).isSome) := by
  induction front with
  | nil =>
    change eraseAt hash same shift 0 (slot :: back) = _
    rw [eraseAt]
    cases slot.erase hash same shift with
    | none => rfl
    | some rest =>
      cases kept : rest.bind fold <;> simp [kept]
  | cons first front ih =>
    rw [List.length_cons, List.cons_append, eraseAt, ih]
    cases slot.erase hash same shift <;> rfl

theorem erase_below {path : List ℕ} {bits : BitVec 32} {slots : List (Trie K V)} {key : K}
    (sound : Sound path (.branch bits slots)) (hkey : D key)
    (keys : ∀ e ∈ slotsToList slots, D e.1)
    (set : bits.getLsbD (fragment (hash key) (5 * path.length)) = true)
    (below : ∀ slot, (fragment (hash key) (5 * path.length), slot) ∈ (positions bits).zip slots →
      slot.Crowded → LeavesSlot (path ++ [fragment (hash key) (5 * path.length)]) key slot
        (slot.erase (hash key) (key == ·) (5 * path.length + 5))) :
    LeavesBranch path key (.branch bits slots)
      ((Trie.branch bits slots).erase (hash key) (key == ·) (5 * path.length)) := by
  have shallow := (sound_branch_iff.1 sound).1
  have hi := fragment_lt (hash key) (5 * path.length)
  obtain ⟨front, slot, back, rfl, rank, member, hf, hs, hb⟩ := sound.cut hi set
  have inner := below slot member hs.2
  rw [slotsToList_append] at keys
  have absent_front := SlotsSound.absent law hf hkey
    (fun e he => keys e (by simp [he])) (fun h => absurd (mem_setBelow h) (by omega))
  have absent_back := SlotsSound.absent law hb hkey
    (fun e he => keys e (by simp [slotsToList, he])) (fun h => absurd (mem_setAbove h) (by omega))
  rw [erase, if_pos set, rank, eraseAt_cut]
  cases left : slot.erase (hash key) (key == ·) (5 * path.length + 5) with
  | none =>
    rw [left] at inner
    change lookup key _ = none
    rw [toList_branch_cut, lookup_cut absent_front absent_back]
    exact inner
  | some rest =>
    rw [left] at inner
    obtain ⟨bound, entries, kept⟩ := inner
    have bound' : (lookup key (Trie.branch bits (front ++ slot :: back)).toList).isSome := by
      rw [toList_branch_cut, lookup_cut absent_front absent_back]
      exact bound
    have removed : remove key (Trie.branch bits (front ++ slot :: back)).toList =
        slotsToList front ++ entriesOf (rest.bind fold) ++ slotsToList back := by
      rw [toList_branch_cut, remove_cut absent_front absent_back, entries]
    cases folded : rest.bind fold with
    | none =>
      rw [folded] at removed
      rw [Option.map_some, folded]
      refine ⟨bound', vacate bits (fragment (hash key) (5 * path.length)), front ++ back,
        ?_, ?_, ?_⟩
      · simp
      · rw [sound_branch_iff, positions_vacate bits _ hi]
        exact ⟨shallow, hf.append hb⟩
      · rw [removed, slotsToList_append, entriesOf, List.append_nil]
    | some slot' =>
      rw [folded] at removed
      rw [Option.map_some, folded]
      refine ⟨bound', bits, front ++ slot' :: back, ?_, ?_, ?_⟩
      · simp
      · rw [sound_branch_iff, positions_of_set hi set]
        exact ⟨shallow, hf.append (.cons (kept slot' folded) hb)⟩
      · rw [removed, slotsToList_append, slotsToList, entriesOf, List.append_assoc]

theorem erase_free {path : List ℕ} {bits : BitVec 32} {slots : List (Trie K V)} {key : K}
    (sound : Sound path (.branch bits slots)) (hkey : D key)
    (keys : ∀ e ∈ slotsToList slots, D e.1)
    (clear : ¬bits.getLsbD (fragment (hash key) (5 * path.length)) = true) :
    LeavesBranch path key (.branch bits slots)
      ((Trie.branch bits slots).erase (hash key) (key == ·) (5 * path.length)) := by
  have slotted := (sound_branch_iff.1 sound).2
  rw [erase, if_neg clear]
  exact lookup_of_absent (SlotsSound.absent law slotted hkey keys fun h =>
    clear (List.mem_filter.1 h).2)

theorem LeavesBranch.slot {path : List ℕ} {t : Trie K V} {key : K}
    {r : Option (Option (Trie K V))} (leaves : LeavesBranch path key t r) (hkey : D key)
    (keys : ∀ e ∈ t.toList, D e.1) (distinct : Distinct t.toList) (several : 2 ≤ t.toList.length) :
    LeavesSlot path key t r := by
  cases r with
  | none => exact leaves
  | some rest =>
    obtain ⟨bound, bits, slots, rfl, sound, entries⟩ := leaves
    have counted := length_remove law hkey keys distinct
    rw [if_pos bound, ← entries] at counted
    obtain ⟨slot, folds, sound', crowded, same⟩ := fold_branch sound (by omega)
    refine ⟨bound, ?_, ?_⟩
    · change entriesOf (fold (.branch bits slots)) = _
      rw [folds, ← entries, ← same]
      rfl
    · intro other found
      cases folds.symm.trans found
      exact ⟨sound', crowded⟩

theorem Sound.erase_slot {path : List ℕ} {t : Trie K V} (sound : Sound path t) {key : K}
    (hkey : D key) (keys : ∀ e ∈ t.toList, D e.1) (crowded : t.Crowded) :
    LeavesSlot path key t (t.erase (hash key) (key == ·) (5 * path.length)) := by
  induction sound with
  | @entry path h k v on own =>
    exact erase_entry law _ (.entry on own) (keys _ (List.mem_singleton_self _)) hkey
  | @branch path bits slots shallow full slot_sound slot_crowded ih =>
    have sound : Sound path (.branch bits slots) := .branch shallow full slot_sound slot_crowded
    have several : 2 ≤ (Trie.branch bits slots).toList.length := by
      rcases crowded with ⟨_, _, _, impossible⟩ | several
      · cases impossible
      · exact several
    refine LeavesBranch.slot law ?_ hkey keys (sound.distinct law keys) several
    by_cases set : bits.getLsbD (fragment (hash key) (5 * path.length)) = true
    · apply erase_below law sound hkey keys set
      intro slot member crowded
      have inside := (List.of_mem_zip member).2
      have below := ih _ slot member (fun e he => keys e (mem_slotsToList.2 ⟨slot, inside, he⟩))
        crowded
      rwa [List.length_append, List.length_singleton, Nat.mul_add] at below
    · exact erase_free law sound hkey keys set
  | collision on several own distinct =>
    exact erase_collision law _ (.collision on several own distinct) hkey keys

theorem Sound.erase_branch {path : List ℕ} {bits : BitVec 32} {slots : List (Trie K V)}
    (sound : Sound path (.branch bits slots)) {key : K} (hkey : D key)
    (keys : ∀ e ∈ slotsToList slots, D e.1) :
    LeavesBranch path key (.branch bits slots)
      ((Trie.branch bits slots).erase (hash key) (key == ·) (5 * path.length)) := by
  by_cases set : bits.getLsbD (fragment (hash key) (5 * path.length)) = true
  · apply erase_below law sound hkey keys set
    intro slot member crowded
    obtain _ | ⟨shallow, full, slot_sound, slot_crowded⟩ := sound
    have inside := (List.of_mem_zip member).2
    have below := (slot_sound _ slot member).erase_slot law hkey
      (fun e he => keys e (mem_slotsToList.2 ⟨slot, inside, he⟩)) crowded
    rwa [List.length_append, List.length_singleton, Nat.mul_add] at below
  · exact erase_free law sound hkey keys set

end Law

end Persistent.Trie
