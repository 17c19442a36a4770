import Persistent.Proofs.Table.WellFormed

/-!
Entries that come into a table one after another. Of entries with pairwise unequal keys the order
is not seen in the table, and in a table of keys alone a key that is found is not inserted anew.
-/

set_option autoImplicit false

namespace Persistent

namespace Trie

variable {K : Type}

theorem replace_unit (same : K → Bool) (entries : List (K × Unit)) :
    replace same () entries = entries := by
  induction entries with
  | nil => rfl
  | cons e entries ih =>
    rw [replace, ih]
    split <;> rfl

variable [BEq K] (hash : UInt64) (key : K)

mutual

/-- There is nothing to change where a key without a value is found. -/
theorem insert_found : ∀ (t : Trie K Unit) (shift : ℕ),
    (t.find? hash (key == ·) shift).isSome = true → t.insert hash key () shift = (t, false)
  | .entry h k v, shift, found => by
    rw [find?] at found
    rw [insert]
    split at found
    case isTrue here => rw [if_pos here]
    case isFalse => cases found
  | .branch bits slots, shift, found => by
    rw [find?] at found
    rw [insert]
    dsimp only at found ⊢
    split at found
    case isTrue taken => rw [if_pos taken, insertAt_found slots _ _ found]
    case isFalse => cases found
  | .collision h entries, shift, found => by
    rw [find?] at found
    rw [insert]
    split at found
    case isTrue same =>
      rw [List.find?_isSome] at found
      rw [if_pos same, if_pos (List.any_eq_true.2 found), replace_unit]
    case isFalse => cases found

theorem insertAt_found : ∀ (slots : List (Trie K Unit)) (shift n : ℕ),
    (findAt? hash (key == ·) shift n slots).isSome = true →
      insertAt hash key () shift n slots = (slots, false)
  | [], _, _, found => by
    rw [findAt?] at found
    cases found
  | slot :: slots, shift, 0, found => by
    rw [findAt?] at found
    rw [insertAt, insert_found slot shift found]
  | slot :: slots, shift, n + 1, found => by
    rw [findAt?] at found
    rw [insertAt, insertAt_found slots shift n found]

end

end Trie

namespace Table

open Bindings

variable {K V : Type} [BEq K] [Hashable K]

theorem insert_found {t : Table K Unit} {key : K} (found : t.contains key = true) :
    t.insert key () = t := by
  unfold contains find? at found
  cases hroot : t.root with
  | none =>
    rw [hroot] at found
    cases found
  | some root =>
    rw [hroot, Option.bind_some] at found
    rw [insert, hroot, Option.getD_some, Trie.insert_found _ key root 0 found]
    change ({ root := some root, size := t.size } : Table K Unit) = t
    rw [← hroot]

/-- The same entries, with the same keys stored. -/
structure Same (D : K → Prop) (t u : Table K V) : Prop where
  size_eq : t.size = u.size
  entries : t.toList.Perm u.toList
  find?_eq : ∀ k, D k → t.find? k = u.find? k

section Law

variable {D : K → Prop} (law : KeyLaw D) {t u : Table K V} (ht : t.Over D)
include law ht

theorem Over.same_of_find?_eq (hu : u.Over D) (h : ∀ k, D k → t.find? k = u.find? k) :
    Same D t u := by
  have perm : t.toList.Perm u.toList := by
    apply perm_of_lookup_eq law ht.keys hu.keys (ht.distinct law) (hu.distinct law)
    intro key hkey
    rw [← ht.find?_eq law hkey, h key hkey, hu.find?_eq law hkey]
  refine ⟨?_, perm, h⟩
  rw [ht.size_eq, hu.size_eq, perm.length_eq]

theorem Over.insertAll_any_order (hu : u.Over D) {entries : List (K × V)}
    (perm : entries.Perm u.toList) : Same D (t.insertAll u.toList) (t.insertAll entries) := by
  have apart := hu.distinct law
  have keys : ∀ e ∈ entries, D e.1 := fun e he => hu.keys e (perm.mem_iff.1 he)
  refine (ht.insertAll law hu.keys).same_of_find?_eq law (ht.insertAll law keys) ?_
  intro k hk
  rw [ht.find?_insertAll law hu.keys apart hk,
    ht.find?_insertAll law keys (distinct_perm law hu.keys apart perm.symm) hk,
    lookup_perm law hk hu.keys apart perm.symm]

theorem Over.find?_eraseAll {keys : List K} (hkeys : ∀ key ∈ keys, D key) {k : K} (hk : D k) :
    (t.eraseAll keys).find? k = if keys.any (k == ·) then none else t.find? k := by
  induction keys generalizing t with
  | nil => rfl
  | cons key keys ih =>
    have first := hkeys key List.mem_cons_self
    change ((t.erase key).eraseAll keys).find? k = _
    rw [ih (ht.erase law first) (fun x hx => hkeys x (List.mem_cons_of_mem _ hx)),
      ht.find?_erase law hk first, List.any_cons]
    cases k == key <;> cases keys.any (k == ·) <;> rfl

theorem Over.eraseAll_any_order {keys others : List K} (hkeys : ∀ key ∈ keys, D key)
    (perm : others.Perm keys) : Same D (t.eraseAll keys) (t.eraseAll others) := by
  have hothers : ∀ key ∈ others, D key := fun key h => hkeys key (perm.mem_iff.1 h)
  refine (ht.eraseAll law hkeys).same_of_find?_eq law (ht.eraseAll law hothers) ?_
  intro k hk
  rw [ht.find?_eraseAll law hkeys hk, ht.find?_eraseAll law hothers hk, perm.any_eq]

end Law

end Table

end Persistent
