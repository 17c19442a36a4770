import Mathlib.Data.Int.Notation
import Persistent.Proofs.Vector.Canonical

/-!
Indices that may be negative. The position such an index denotes is computed without overflow, and
storing at it succeeds where it denotes an element or the place behind the last one.
-/

set_option autoImplicit false

namespace Persistent.Vector

variable {μ α : Type}

/-- The position that an index denotes among `n` elements. -/
def denoted (n : ℕ) (index : Int64) : Option ℕ :=
  if 0 ≤ index.toInt ∧ index.toInt < n then some index.toInt.toNat
  else if index.toInt < 0 ∧ 0 ≤ n + index.toInt then some (n + index.toInt).toNat
  else none

theorem denoted_lt {n p : ℕ} {index : Int64} (h : denoted n index = some p) : p < n := by
  unfold denoted at h
  split at h
  case isTrue inside =>
    rw [← Option.some.inj h]
    omega
  case isFalse =>
    split at h
    case isTrue inside =>
      rw [← Option.some.inj h]
      omega
    case isFalse => cases h

theorem denoted_isSome (n : ℕ) (index : Int64) :
    (denoted n index).isSome = true ↔ -(n : ℤ) ≤ index.toInt ∧ index.toInt < n := by
  unfold denoted
  split
  case isTrue inside => exact ⟨fun _ => by omega, fun _ => rfl⟩
  case isFalse outside =>
    split
    case isTrue inside => exact ⟨fun _ => by omega, fun _ => rfl⟩
    case isFalse behind => exact ⟨nofun, fun inside => by omega⟩

theorem toInt_ofNat_add {n : ℕ} (small : n < 2 ^ 63) {index : Int64} (negative : index < 0) :
    (Int64.ofNat n + index).toInt = n + index.toInt := by
  have low := index.le_toInt
  have below : index.toInt < 0 := Int64.lt_iff_toInt_lt.1 negative
  rw [Int64.toInt_add, Int64.toInt_ofNat_of_lt small]
  apply Int.bmod_eq_of_le <;> omega

theorem resolve_eq {v : Vector μ α} (small : v.size < 2 ^ 63) (index : Int64) :
    v.resolve index = denoted v.size index := by
  have size := Int64.toInt_ofNat_of_lt small
  have zero : (0 : Int64).toInt = 0 := rfl
  unfold resolve denoted
  dsimp only
  by_cases negative : index < 0
  · have sum := toInt_ofNat_add small negative
    have below := Int64.lt_iff_toInt_lt.1 negative
    rw [zero] at below
    rw [if_pos negative]
    simp only [Int64.le_iff_toInt_le, Int64.lt_iff_toInt_lt, sum, size, zero]
    rw [if_neg (show ¬(0 ≤ index.toInt ∧ index.toInt < v.size) by omega)]
    by_cases inside : 0 ≤ v.size + index.toInt
    · rw [if_pos ⟨small, inside, by omega⟩, if_pos ⟨below, inside⟩]
      exact congrArg (fun n => some (Int.toNat n)) sum
    · rw [if_neg (fun h => inside h.2.1), if_neg (fun h => inside h.2)]
  · have above : 0 ≤ index.toInt := by
      rw [Int64.lt_iff_toInt_lt, zero] at negative
      omega
    rw [if_neg negative]
    simp only [Int64.le_iff_toInt_le, Int64.lt_iff_toInt_lt, size, zero]
    by_cases inside : index.toInt < v.size
    · rw [if_pos ⟨small, above, inside⟩, if_pos ⟨above, inside⟩]
      rfl
    · rw [if_neg (fun h => inside h.2.2), if_neg (fun h => inside h.2),
        if_neg (fun h => absurd h.1 (by omega))]

theorem resolve_lt {v : Vector μ α} {index : Int64} {p : ℕ} (h : v.resolve index = some p) :
    p < v.size := by
  have small : v.size < 2 ^ 63 := by
    by_contra large
    unfold resolve at h
    dsimp only at h
    rw [if_neg (fun inside => large inside.1)] at h
    cases h
  rw [resolve_eq small] at h
  exact denoted_lt h

theorem Holds.of_set {v w : Vector μ α} {xs : List α} (h : v.Holds xs) {index : Int64} {x : α}
    (stored : v.set index x = .ok w) : ∃ ys, w.Holds ys ∧ ∀ y ∈ ys, y ∈ xs ∨ y = x := by
  unfold Vector.set at stored
  split at stored
  case isTrue =>
    cases stored
    exact ⟨_, h.push x, fun y hy => by simpa using hy⟩
  case isFalse =>
    cases found : v.resolve index with
    | none =>
      rw [found] at stored
      cases stored
    | some p =>
      rw [found] at stored
      cases stored
      exact ⟨_, h.store (h.size_eq ▸ resolve_lt found) x, fun y hy => List.mem_or_eq_of_mem_set hy⟩

end Persistent.Vector
