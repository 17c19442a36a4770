import Persistent.Proofs.Vector.Indices

/-!
Storing at an index: what is found there afterwards, what stays as it was, and how the size grows.
-/

set_option autoImplicit false

namespace Persistent.Vector

variable {μ α : Type}

/-- The position that a value is stored at, which may be the place behind the last one. -/
def slot? (v : Vector μ α) (index : Int64) : Option ℕ :=
  if index.toInt = v.size then some v.size else v.resolve index

/-- Nothing is stored in a vector that is longer than any index. -/
theorem size_lt_of_set {v w : Vector μ α} {index : Int64} {x : α}
    (stored : v.set index x = .ok w) : v.size < 2 ^ 63 := by
  by_contra large
  have missed : v.resolve index = none := by
    unfold resolve
    dsimp only
    rw [if_neg fun inside => large inside.1]
  have below := index.toInt_lt
  unfold set at stored
  rw [if_neg (by omega), missed] at stored
  cases stored

section Lookup

variable {v : Vector μ α} {xs : List α} (held : v.Holds xs)
include held

theorem lookup?_isSome (index : Int64) : (v.lookup? index).isSome = v.contains index := by
  unfold lookup? contains
  cases found : v.resolve index with
  | none => rfl
  | some p =>
    have inside := resolve_lt found
    rw [held.size_eq] at inside
    rw [Option.bind_some, held.get?_eq, List.getElem?_eq_getElem inside]
    rfl

variable (small : xs.length < 2 ^ 63)
include small

theorem lookup?_eq (index : Int64) :
    v.lookup? index = (denoted xs.length index).bind (xs[·]?) := by
  unfold lookup?
  rw [resolve_eq (held.size_eq ▸ small), held.size_eq]
  exact congrArg _ (funext held.get?_eq)

/-- An index from the front is a position. -/
theorem lookup?_front {index : Int64} (front : 0 ≤ index.toInt) :
    v.lookup? index = xs[index.toInt.toNat]? := by
  rw [lookup?_eq held small]
  unfold denoted
  by_cases inside : index.toInt < xs.length
  · rw [if_pos ⟨front, inside⟩]
    rfl
  · rw [if_neg (fun h => inside h.2), if_neg (fun h => absurd h.1 (by omega)),
      List.getElem?_eq_none (by omega)]
    rfl

end Lookup

/-- Storing at an index, where that succeeds: behind the last item or in the place of an item. -/
inductive Stored (v : Vector μ α) (xs : List α) (i : Int64) (x : α) (w : Vector μ α) : Prop
  | behind (here : i.toInt = xs.length) (held : w.Holds (xs ++ [x])) : Stored v xs i x w
  | inside {p : ℕ} (found : v.resolve i = some p) (held : w.Holds (xs.set p x)) : Stored v xs i x w

section Stored

variable {v w : Vector μ α} {xs : List α} {i : Int64} {x : α} (held : v.Holds xs)
include held

theorem stored_of_set (stored : v.set i x = .ok w) : Stored v xs i x w := by
  unfold set at stored
  split at stored
  case isTrue here =>
    cases stored
    exact .behind (held.size_eq ▸ here) (held.push x)
  case isFalse =>
    cases found : v.resolve i with
    | none =>
      rw [found] at stored
      cases stored
    | some p =>
      rw [found] at stored
      cases stored
      exact .inside found (held.store (held.size_eq ▸ resolve_lt found) x)

variable (small : xs.length + 1 < 2 ^ 63)
include small

theorem denoted_of_resolve {p : ℕ} (found : v.resolve i = some p) :
    denoted xs.length i = some p := by
  rw [resolve_eq (by rw [held.size_eq]; omega), held.size_eq] at found
  exact found

/-- What is stored is found under the same index. -/
theorem Stored.lookup? (stored : Stored v xs i x w) : w.lookup? i = some x := by
  cases stored with
  | behind here held' =>
    rw [lookup?_front held' (by rw [List.length_append]; exact small) (by omega), here,
      Int.toNat_natCast, List.getElem?_concat_length]
  | @inside p found held' =>
    have denoted := denoted_of_resolve held small found
    have inside := denoted_lt denoted
    rw [lookup?_eq held' (by rw [List.length_set]; omega), List.length_set, denoted,
      Option.bind_some, List.getElem?_set_self inside]

theorem Stored.size_eq (stored : Stored v xs i x w) :
    w.size = v.size + if (v.lookup? i).isSome then 0 else 1 := by
  cases stored with
  | behind here held' =>
    rw [lookup?_front held (by omega) (by omega), here, Int.toNat_natCast,
      List.getElem?_eq_none (Nat.le_refl _), held.size_eq, held'.size_eq, List.length_append]
    rfl
  | inside found held' =>
    have inside : (v.lookup? i).isSome = true := by
      rw [lookup?_isSome held, contains, found]
      rfl
    rw [inside, held'.size_eq, held.size_eq, List.length_set]
    rfl

/-- An index from the front of another position finds what it found before. -/
theorem Stored.lookup?_other (stored : Stored v xs i x w) {j : Int64} (front : 0 ≤ j.toInt)
    (other : v.slot? i ≠ some j.toInt.toNat) : w.lookup? j = v.lookup? j := by
  rw [lookup?_front held (by omega) front]
  unfold slot? at other
  rw [held.size_eq] at other
  cases stored with
  | behind here held' =>
    rw [if_pos here, ne_eq, Option.some.injEq] at other
    rw [lookup?_front held' (by rw [List.length_append]; exact small) front]
    by_cases inside : j.toInt.toNat < xs.length
    · exact List.getElem?_append_left inside
    · have past : (xs ++ [x]).length ≤ j.toInt.toNat := by
        rw [List.length_append, List.length_singleton]
        omega
      rw [List.getElem?_eq_none past, List.getElem?_eq_none (by omega)]
  | inside found held' =>
    have inside := (denoted_isSome xs.length i).1
      (Option.isSome_iff_exists.2 ⟨_, denoted_of_resolve held small found⟩)
    rw [if_neg (by omega), found, ne_eq, Option.some.injEq] at other
    rw [lookup?_front held' (by rw [List.length_set]; omega) front, List.getElem?_set_ne other]

end Stored

end Persistent.Vector
