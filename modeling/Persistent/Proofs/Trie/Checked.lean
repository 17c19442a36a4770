import Persistent.Proofs.Trie.Sound

/-!
Insertion with its assumptions checked: that the slot it looks for is there, that a trie of more
than one entry is never brought to a collision node, and that two hashes are told apart before
their bits run out. On sound tries the checks never fail.
-/

set_option autoImplicit false

namespace Persistent.Trie

open Bindings

variable {K V : Type}

/-- The bindings of two entries; a larger trie would bring none. -/
def both? : Trie K V → Trie K V → Option (List (K × V))
  | .entry _ k₁ v₁, .entry _ k₂ v₂ => some [(k₁, v₁), (k₂, v₂)]
  | _, _ => none

/-- `none` where an entry of one of the tries would be lost. -/
def pair? (shift : ℕ) (h₁ : UInt64) (t₁ : Trie K V) (h₂ : UInt64) (t₂ : Trie K V) :
    Option (Trie K V) :=
  let f₁ := fragment h₁ shift
  let f₂ := fragment h₂ shift
  if h₁ = h₂ then (both? t₁ t₂).map (.collision h₁)
  else if f₁ < f₂ then some (.branch (occupy (occupy 0 f₁) f₂) [t₁, t₂])
  else if f₂ < f₁ then some (.branch (occupy (occupy 0 f₁) f₂) [t₂, t₁])
  else if shift < 64 then
    (pair? (shift + 5) h₁ t₁ h₂ t₂).map fun child => .branch (occupy 0 f₁) [child]
  else none
termination_by 64 - shift

mutual

/-- `none` where a slot is out of range or a pair fails. -/
def insert? [BEq K] (hash : UInt64) (key : K) (value : V) :
    ℕ → Trie K V → Option (Trie K V × Bool)
  | shift, .entry h k v =>
    if h == hash && key == k then some (.entry h k value, false)
    else (pair? shift h (.entry h k v) hash (.entry hash key value)).map (·, true)
  | shift, .branch bits slots =>
    let i := fragment hash shift
    if bits.getLsbD i then
      (insertAt? hash key value (shift + 5) (rank bits i) slots).map fun r =>
        (.branch bits r.1, r.2)
    else if rank bits i ≤ slots.length then
      some (.branch (occupy bits i) (slots.insertIdx (rank bits i) (.entry hash key value)), true)
    else none
  | shift, .collision h entries =>
    if h == hash then
      if entries.any (key == ·.1) then
        some (.collision h (replace (key == ·) value entries), false)
      else some (.collision h (entries ++ [(key, value)]), true)
    else (pair? shift h (.collision h entries) hash (.entry hash key value)).map (·, true)

def insertAt? [BEq K] (hash : UInt64) (key : K) (value : V) :
    ℕ → ℕ → List (Trie K V) → Option (List (Trie K V) × Bool)
  | _, _, [] => none
  | shift, 0, slot :: slots =>
    (slot.insert? hash key value shift).map fun r => (r.1 :: slots, r.2)
  | shift, n + 1, slot :: slots =>
    (insertAt? hash key value shift n slots).map fun r => (slot :: r.1, r.2)

end

/-- What a trie holds, itself included. -/
inductive Within (s : Trie K V) : Trie K V → Prop
  | here : Within s s
  | slot {bits : BitVec 32} {slots : List (Trie K V)} {t : Trie K V} (member : t ∈ slots)
      (inside : Within s t) : Within s (.branch bits slots)

theorem pair?_eq {path : List ℕ} {h₁ h₂ : UInt64} (ne : h₁ ≠ h₂) (on₁ : OnPath path h₁)
    (on₂ : OnPath path h₂) (t₁ t₂ : Trie K V) :
    pair? (5 * path.length) h₁ t₁ h₂ t₂ = some (pair (5 * path.length) h₁ t₁ h₂ t₂) := by
  have shallow := length_le_of_ne on₁ on₂ ne
  rw [pair?, pair]
  simp only [ne, ↓reduceIte]
  split
  case isTrue => rfl
  case isFalse =>
    split
    case isTrue => rfl
    case isFalse =>
      have same : fragment h₁ (5 * path.length) = fragment h₂ (5 * path.length) := by omega
      have on₁' := (onPath_concat path (fragment h₁ (5 * path.length)) h₁).2 ⟨on₁, rfl⟩
      have on₂' := (onPath_concat path _ h₂).2 ⟨on₂, same.symm⟩
      have below := pair?_eq ne on₁' on₂' t₁ t₂
      rw [List.length_append, List.length_singleton, Nat.mul_add] at below
      rw [if_pos (by omega), if_pos (by omega), below]
      rfl
termination_by 13 - path.length

theorem pair?_entries (shift : ℕ) (h : UInt64) (k₁ k₂ : K) (v₁ v₂ : V) :
    pair? shift h (.entry h k₁ v₁) h (.entry h k₂ v₂) =
      some (pair shift h (.entry h k₁ v₁) h (.entry h k₂ v₂)) := by
  rw [pair?, pair, if_pos rfl, if_pos rfl]
  rfl

variable [BEq K]

theorem insertAt?_cut (hash : UInt64) (key : K) (value : V) (shift : ℕ)
    (front back : List (Trie K V)) (slot : Trie K V)
    (below : slot.insert? hash key value shift = some (slot.insert hash key value shift)) :
    insertAt? hash key value shift front.length (front ++ slot :: back) =
      some (insertAt hash key value shift front.length (front ++ slot :: back)) := by
  induction front with
  | nil =>
    change (slot.insert? hash key value shift).map _ = _
    rw [below]
    rfl
  | cons first front ih =>
    rw [List.length_cons, List.cons_append, insertAt?, insertAt, ih]
    rfl

variable [Hashable K]

theorem Sound.insert?_eq {path : List ℕ} {t : Trie K V} (sound : Sound path t) (key : K)
    (value : V) (on : OnPath path (hash key)) :
    t.insert? (hash key) key value (5 * path.length) =
      some (t.insert (hash key) key value (5 * path.length)) := by
  induction sound with
  | @entry path h k v on' own =>
    rw [insert?, Trie.insert]
    split
    · rfl
    · by_cases agree : h = hash key
      · subst agree
        rw [pair?_entries]
        rfl
      · rw [pair?_eq agree on' on]
        rfl
  | @branch path bits slots shallow full slot_sound slot_crowded ih =>
    have sound : Sound path (.branch bits slots) := .branch shallow full slot_sound slot_crowded
    have hi := fragment_lt (hash key) (5 * path.length)
    rw [insert?, Trie.insert]
    dsimp only
    by_cases set : bits.getLsbD (fragment (hash key) (5 * path.length)) = true
    · obtain ⟨front, slot, back, rfl, rank, member, -, -, -⟩ := sound.cut hi set
      have below := ih _ slot member ((onPath_concat path _ _).2 ⟨on, rfl⟩)
      rw [List.length_append, List.length_singleton, Nat.mul_add] at below
      rw [if_pos set, if_pos set, rank, insertAt?_cut _ _ _ _ _ _ _ below]
      rfl
    · obtain ⟨front, back, rfl, rank, -, -⟩ := sound.cut_free hi (Bool.eq_false_iff.2 set)
      have fits : front.length ≤ (front ++ back).length := by
        rw [List.length_append]
        omega
      rw [if_neg set, if_neg set, rank, if_pos fits]
  | @collision path h entries on' several own distinct =>
    rw [insert?, Trie.insert]
    by_cases agree : h = hash key
    · have same : (h == hash key) = true := by simp [agree]
      rw [if_pos same, if_pos same]
      cases entries.any (key == ·.1) <;> rfl
    · have other : ¬(h == hash key) = true := by simp [agree]
      rw [if_neg other, if_neg other, pair?_eq agree on' on]
      rfl

theorem Sound.within {path : List ℕ} {s t : Trie K V} (sound : Sound path t)
    (inside : Within s t) : ∃ below, Sound (path ++ below) s := by
  induction inside generalizing path with
  | here => exact ⟨[], by rwa [List.append_nil]⟩
  | slot member _ ih =>
    obtain _ | ⟨-, full, slot_sound, -⟩ := sound
    obtain ⟨i, there⟩ := exists_position full member
    obtain ⟨below, found⟩ := ih (slot_sound i _ there)
    exact ⟨i :: below, by rwa [List.append_assoc] at found⟩

theorem Sound.rank_lt {path : List ℕ} {t : Trie K V} (sound : Sound path t) {bits : BitVec 32}
    {slots : List (Trie K V)} (inside : Within (.branch bits slots) t) {i : ℕ} (hi : i < 32)
    (set : bits.getLsbD i = true) : rank bits i < slots.length := by
  obtain ⟨below, sound⟩ := sound.within inside
  obtain ⟨front, slot, back, rfl, rank, -⟩ := sound.cut hi set
  rw [rank, List.length_append, List.length_cons]
  omega

end Persistent.Trie
