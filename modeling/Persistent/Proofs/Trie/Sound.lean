import Mathlib.Data.List.Forall2
import Persistent.Proofs.Bindings
import Persistent.Proofs.Trie.Path
import Persistent.Proofs.Trie.Positions

/-!
Sound tries: every entry stands on the path of its key's hash, a branch has one slot for each set
bit, and no slot of a branch holds less than an entry or a trie of two entries. In a sound trie a
lookup by hash finds what a search of all entries finds.
-/

set_option autoImplicit false

namespace Persistent.Trie

open Bindings

variable {K V : Type} [BEq K] [Hashable K]

/-- What may stand in a slot: an entry, or a trie with more than one. -/
def Crowded (t : Trie K V) : Prop :=
  (∃ h key value, t = .entry h key value) ∨ 2 ≤ t.toList.length

/-- A trie that stands at the end of `path`, where the fragments at shift `5 * path.length` are
read next. -/
inductive Sound : List ℕ → Trie K V → Prop
  | entry {path : List ℕ} {h : UInt64} {key : K} {value : V} (on : OnPath path h)
      (own : h = hash key) : Sound path (.entry h key value)
  | branch {path : List ℕ} {bits : BitVec 32} {slots : List (Trie K V)}
      (shallow : path.length ≤ 12) (full : (positions bits).length = slots.length)
      (slot_sound : ∀ i slot, (i, slot) ∈ (positions bits).zip slots → Sound (path ++ [i]) slot)
      (slot_crowded : ∀ slot ∈ slots, slot.Crowded) : Sound path (.branch bits slots)
  | collision {path : List ℕ} {h : UInt64} {entries : List (K × V)} (on : OnPath path h)
      (several : 2 ≤ entries.length) (own : ∀ e ∈ entries, h = hash e.1)
      (distinct : Distinct entries) : Sound path (.collision h entries)

/-- What stands in slot `i` of a branch at the end of `path`. -/
def SlotSound (path : List ℕ) (i : ℕ) (slot : Trie K V) : Prop :=
  Sound (path ++ [i]) slot ∧ slot.Crowded

def SlotsSound (path is : List ℕ) (slots : List (Trie K V)) : Prop :=
  List.Forall₂ (SlotSound path) is slots

omit [BEq K] [Hashable K] in
theorem exists_position {is : List ℕ} {slots : List (Trie K V)} {slot : Trie K V}
    (full : is.length = slots.length) (member : slot ∈ slots) :
    ∃ i, (i, slot) ∈ is.zip slots := by
  have seconds : (is.zip slots).map Prod.snd = slots := List.map_snd_zip full.ge
  rw [← seconds] at member
  obtain ⟨⟨i, _⟩, there, rfl⟩ := List.mem_map.1 member
  exact ⟨i, there⟩

theorem sound_branch_iff {path : List ℕ} {bits : BitVec 32} {slots : List (Trie K V)} :
    Sound path (.branch bits slots) ↔
      path.length ≤ 12 ∧ SlotsSound path (positions bits) slots := by
  rw [SlotsSound, List.forall₂_iff_zip]
  constructor
  · rintro (_ | ⟨shallow, full, slot_sound, slot_crowded⟩)
    exact ⟨shallow, full, fun {i slot} h =>
      ⟨slot_sound i slot h, slot_crowded slot (List.of_mem_zip h).2⟩⟩
  · rintro ⟨shallow, full, each⟩
    refine .branch shallow full (fun i slot h => (each h).1) ?_
    intro slot h
    obtain ⟨i, member⟩ := exists_position full h
    exact (each member).2

theorem SlotsSound.append {path is js : List ℕ} {front back : List (Trie K V)}
    (hf : SlotsSound path is front) (hb : SlotsSound path js back) :
    SlotsSound path (is ++ js) (front ++ back) :=
  List.rel_append hf hb

omit [BEq K] [Hashable K] in
theorem forall₂_split {A B : Type} {R : A → B → Prop} {xs ys : List A} {zs : List B}
    (h : List.Forall₂ R (xs ++ ys) zs) :
    ∃ us vs, zs = us ++ vs ∧ List.Forall₂ R xs us ∧ List.Forall₂ R ys vs := by
  refine ⟨zs.take xs.length, zs.drop xs.length, (List.take_append_drop ..).symm, ?_, ?_⟩
  · have := List.forall₂_take xs.length h
    rwa [List.take_left] at this
  · have := List.forall₂_drop xs.length h
    rwa [List.drop_left] at this

theorem Sound.cut {path : List ℕ} {bits : BitVec 32} {slots : List (Trie K V)}
    (sound : Sound path (.branch bits slots)) {i : ℕ} (hi : i < 32)
    (set : bits.getLsbD i = true) :
    ∃ front slot back, slots = front ++ slot :: back ∧ rank bits i = front.length ∧
      (i, slot) ∈ (positions bits).zip slots ∧ SlotsSound path (setBelow bits i) front ∧
      SlotSound path i slot ∧ SlotsSound path (setAbove bits i) back := by
  have slotted := (sound_branch_iff.1 sound).2
  rw [positions_of_set hi set] at slotted
  obtain ⟨front, rest, rfl, hf, hr⟩ := forall₂_split slotted
  cases hr with
  | @cons _ slot _ back hs hb =>
    refine ⟨front, slot, back, rfl, ?_, ?_, hf, hs, hb⟩
    · rw [rank_eq]
      exact hf.length_eq
    · rw [positions_of_set hi set, List.zip_append hf.length_eq]
      exact List.mem_append_right _ List.mem_cons_self

theorem Sound.cut_free {path : List ℕ} {bits : BitVec 32} {slots : List (Trie K V)}
    (sound : Sound path (.branch bits slots)) {i : ℕ} (hi : i < 32)
    (clear : bits.getLsbD i = false) :
    ∃ front back, slots = front ++ back ∧ rank bits i = front.length ∧
      SlotsSound path (setBelow bits i) front ∧ SlotsSound path (setAbove bits i) back := by
  have slotted := (sound_branch_iff.1 sound).2
  rw [positions_of_clear hi clear] at slotted
  obtain ⟨front, back, rfl, hf, hb⟩ := forall₂_split slotted
  refine ⟨front, back, rfl, ?_, hf, hb⟩
  rw [rank_eq]
  exact hf.length_eq

omit [BEq K] [Hashable K] in
@[simp]
theorem slotsToList_append (front back : List (Trie K V)) :
    slotsToList (front ++ back) = slotsToList front ++ slotsToList back := by
  induction front with
  | nil => rfl
  | cons slot front ih => simp [slotsToList, ih]

omit [BEq K] [Hashable K] in
theorem mem_slotsToList {slots : List (Trie K V)} {e : K × V} :
    e ∈ slotsToList slots ↔ ∃ slot ∈ slots, e ∈ slot.toList := by
  induction slots with
  | nil => simp [slotsToList]
  | cons slot slots ih => simp [slotsToList, ih]

omit [BEq K] [Hashable K] in
theorem toList_branch_cut (bits : BitVec 32) (front back : List (Trie K V)) (slot : Trie K V) :
    (Trie.branch bits (front ++ slot :: back)).toList =
      slotsToList front ++ slot.toList ++ slotsToList back := by
  simp [toList, slotsToList]

theorem Sound.onPath {path : List ℕ} {t : Trie K V} (sound : Sound path t) :
    ∀ e ∈ t.toList, OnPath path (hash e.1) := by
  induction sound with
  | entry on own =>
    intro e he
    rw [toList, List.mem_singleton] at he
    subst he
    exact own ▸ on
  | @branch path bits slots shallow full slot_sound slot_crowded ih =>
    intro e he
    obtain ⟨slot, member, inside⟩ := mem_slotsToList.1 he
    obtain ⟨i, member⟩ := exists_position full member
    exact ((onPath_concat path i _).1 (ih i slot member e inside)).1
  | collision on several own distinct =>
    intro e he
    exact own e he ▸ on

theorem SlotsSound.fragment_mem {path is : List ℕ} {slots : List (Trie K V)}
    (h : SlotsSound path is slots) :
    ∀ e ∈ slotsToList slots, OnPath path (hash e.1) ∧
      fragment (hash e.1) (5 * path.length) ∈ is := by
  induction h with
  | nil =>
    intro e he
    simp [slotsToList] at he
  | @cons i slot is slots hs _ ih =>
    intro e he
    rw [slotsToList, List.mem_append] at he
    rcases he with he | he
    · obtain ⟨on, here⟩ := (onPath_concat path i _).1 (hs.1.onPath e he)
      exact ⟨on, here ▸ List.mem_cons_self⟩
    · obtain ⟨on, there⟩ := ih e he
      exact ⟨on, List.mem_cons_of_mem _ there⟩

section Law

variable {D : K → Prop} (law : KeyLaw D)
include law

/-- A key is absent from the slots of other fragments than its own. -/
theorem SlotsSound.absent {path is : List ℕ} {slots : List (Trie K V)}
    (h : SlotsSound path is slots) {key : K} (hkey : D key)
    (keys : ∀ e ∈ slotsToList slots, D e.1)
    (other : fragment (hash key) (5 * path.length) ∉ is) : Absent key (slotsToList slots) := by
  intro e he
  apply law.ne_of_hash_ne hkey (keys e he)
  intro same
  apply other
  rw [same]
  exact (h.fragment_mem e he).2

theorem SlotsSound.distinct {path is : List ℕ} {slots : List (Trie K V)}
    (h : SlotsSound path is slots) (nodup : is.Nodup)
    (keys : ∀ e ∈ slotsToList slots, D e.1)
    (each : ∀ slot ∈ slots, Distinct slot.toList) : Distinct (slotsToList slots) := by
  induction h with
  | nil => exact List.Pairwise.nil
  | @cons i slot is slots hs h ih =>
    rw [List.nodup_cons] at nodup
    have keys' : ∀ e ∈ slotsToList slots, D e.1 := by
      intro e he
      exact keys e (List.mem_append_right _ he)
    refine List.pairwise_append.2 ⟨each slot List.mem_cons_self, ?_, ?_⟩
    · exact ih nodup.2 keys' fun other ho => each other (List.mem_cons_of_mem _ ho)
    · intro e he
      have here := ((onPath_concat path i _).1 (hs.1.onPath e he)).2
      exact SlotsSound.absent law h (keys e (List.mem_append_left _ he)) keys' (here ▸ nodup.1)

theorem Sound.distinct {path : List ℕ} {t : Trie K V} (sound : Sound path t)
    (keys : ∀ e ∈ t.toList, D e.1) : Distinct t.toList := by
  induction sound with
  | entry on own => exact List.pairwise_singleton _ _
  | @branch path bits slots shallow full slot_sound slot_crowded ih =>
    have slotted := (sound_branch_iff.1 (.branch shallow full slot_sound slot_crowded)).2
    apply SlotsSound.distinct law slotted (positions_nodup bits) keys
    intro slot member
    obtain ⟨i, there⟩ := exists_position full member
    exact ih i slot there fun e he => keys e (mem_slotsToList.2 ⟨slot, member, he⟩)
  | collision on several own distinct => exact distinct

omit [BEq K] [Hashable K] law in
theorem findAt?_cut (hash : UInt64) (same : K → Bool) (shift : ℕ) (front back : List (Trie K V))
    (slot : Trie K V) :
    findAt? hash same shift front.length (front ++ slot :: back) = slot.find? hash same shift := by
  induction front with
  | nil => rfl
  | cons first front ih => exact ih

theorem Sound.find?_eq {path : List ℕ} {t : Trie K V} (sound : Sound path t) {key : K}
    (hkey : D key) (keys : ∀ e ∈ t.toList, D e.1) (on : OnPath path (hash key)) :
    t.find? (hash key) (key == ·) (5 * path.length) = lookup key t.toList := by
  induction sound with
  | @entry path h k value on' own =>
    have hk : D k := keys (k, value) (List.mem_singleton_self _)
    rw [find?, toList, lookup, List.find?_singleton]
    by_cases same : (key == k) = true
    · have agree : h = hash key := own.trans (law.hash_eq hkey hk same).symm
      simp [agree, same]
    · simp [same]
  | @branch path bits slots shallow full slot_sound slot_crowded ih =>
    have sound : Sound path (.branch bits slots) := .branch shallow full slot_sound slot_crowded
    have hi := fragment_lt (hash key) (5 * path.length)
    rw [find?]
    by_cases set : bits.getLsbD (fragment (hash key) (5 * path.length)) = true
    · obtain ⟨front, slot, back, rfl, rank, member, hf, hs, hb⟩ := sound.cut hi set
      rw [toList_branch_cut] at keys ⊢
      have absent_front := SlotsSound.absent law hf hkey
        (fun e he => keys e (by simp [he])) (fun h => absurd (mem_setBelow h) (by omega))
      have absent_back := SlotsSound.absent law hb hkey
        (fun e he => keys e (by simp [he])) (fun h => absurd (mem_setAbove h) (by omega))
      rw [lookup_cut absent_front absent_back, if_pos set, rank, findAt?_cut]
      have below := ih _ slot member (fun e he => keys e (by simp [he]))
        ((onPath_concat path _ _).2 ⟨on, rfl⟩)
      rw [← below, List.length_append, List.length_singleton, Nat.mul_add]
    · have slotted := (sound_branch_iff.1 sound).2
      have absent := SlotsSound.absent law slotted hkey keys fun h =>
        set (List.mem_filter.1 h).2
      rw [if_neg set, toList, lookup_of_absent absent]
  | @collision path h entries on' several own distinct =>
    rw [find?, toList]
    by_cases agree : h = hash key
    · simp [agree, lookup]
    · have absent : Absent key entries := by
        intro e he
        apply law.ne_of_hash_ne hkey (keys e he)
        rw [← own e he]
        exact Ne.symm agree
      simp [agree, lookup_of_absent absent]

end Law

end Persistent.Trie
