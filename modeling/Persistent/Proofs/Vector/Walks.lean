import Persistent.Proofs.Enumeration
import Persistent.Proofs.Vector.Canonical
import Persistent.Vector.Cursor

/-!
The two walks over a vector. All indices of one leaf agree above their last five bits, so the leaf
that a cursor has kept is the leaf of every index it stands at until the next multiple of 32. Both
walks yield the elements in the order of their indices and count them exactly.
-/

set_option autoImplicit false

namespace Persistent

namespace Node

variable {α : Type} {i j : ℕ}

theorem bucket_congr (same : i / 32 = j / 32) (height : ℕ) :
    bucket i (height + 1) = bucket j (height + 1) := by
  have split (index : ℕ) : index >>> (5 * (height + 1)) = index / 32 / 2 ^ (5 * height) := by
    rw [Nat.shiftRight_eq_div_pow, Nat.mul_succ, Nat.add_comm, Nat.pow_add, Nat.div_div_eq_div_mul]
  unfold bucket
  rw [split, split, same]

theorem leafAt?_zero (n : ℕ) (children : List (Node α)) : leafAt? i 0 n children = none := by
  induction children generalizing n with
  | nil => rw [leafAt?]
  | cons child children ih =>
    cases n with
    | zero => rw [leafAt?]
    | succ n => rw [leafAt?, ih]

mutual

/-- Indices that differ in their last five bits only are in one leaf. -/
theorem leaf?_congr (same : i / 32 = j / 32) :
    ∀ (height : ℕ) (t : Node α), t.leaf? i height = t.leaf? j height
  | _, .leaf _ => by rw [leaf?, leaf?]
  | 0, .interior children => by rw [leaf?, leaf?, leafAt?_zero, leafAt?_zero]
  | height + 1, .interior children => by
    rw [leaf?, leaf?, bucket_congr same, leafAt?_congr same]

theorem leafAt?_congr (same : i / 32 = j / 32) :
    ∀ (height n : ℕ) (children : List (Node α)),
      leafAt? i height n children = leafAt? j height n children
  | _, _, [] => by rw [leafAt?, leafAt?]
  | 0, 0, _ :: _ => by rw [leafAt?, leafAt?]
  | height + 1, 0, child :: _ => by rw [leafAt?, leafAt?, leaf?_congr same]
  | height, n + 1, _ :: children => by rw [leafAt?, leafAt?, leafAt?_congr same]

end

end Node

namespace Vector

variable {μ α : Type}

/-- The next index is in the same leaf, unless it is a multiple of 32. -/
theorem leaf?_succ {v : Vector μ α} {index : ℕ} (inside : index + 1 < v.size)
    (within : (index + 1) % 32 ≠ 0) : v.leaf? (index + 1) = v.leaf? index := by
  unfold leaf?
  rw [if_pos inside, if_pos (by omega)]
  congr 1
  funext root
  exact Node.leaf?_congr (by omega) v.height root

namespace Cursor

/-- The cursor walks over a vector that holds the list, and the leaf it has kept, if any, is the
one it stands in. -/
structure Ready (c : Cursor μ α) (xs : List α) : Prop where
  holds : c.source.Holds xs
  stop_le : c.stop ≤ xs.length
  kept : c.index < c.stop → c.index % 32 ≠ 0 → c.chunk ≠ [] →
    c.source.leaf? c.index = some c.chunk

theorem ready_ofRange {v : Vector μ α} {xs : List α} (h : v.Holds xs) (start stop : ℕ) :
    (ofRange v start stop).Ready xs where
  holds := h
  stop_le := h.size_eq ▸ Nat.min_le_right stop v.size
  kept _ _ filled := absurd rfl filled

section Ready

variable {c : Cursor μ α} {xs : List α} (ready : c.Ready xs)
include ready

/-- What is read is always the leaf of the index, whether it is fetched or kept. -/
theorem Ready.fetched (inside : c.index < c.stop) :
    (if c.index % 32 = 0 ∨ c.chunk.isEmpty then c.source.leaf? c.index else some c.chunk) =
      c.source.leaf? c.index := by
  split
  case isTrue => rfl
  case isFalse keeps =>
    rw [not_or, List.isEmpty_iff] at keeps
    exact (ready.kept inside keeps.1 keeps.2).symm

theorem Ready.next (inside : c.index < c.stop) (element : c.index < xs.length) :
    ∃ d, c.next? = some (xs[c.index], d) ∧ d.Ready xs ∧ d.index = c.index + 1 ∧
      d.stop = c.stop := by
  have found := ready.holds.get?_eq c.index
  rw [List.getElem?_eq_getElem element] at found
  obtain ⟨chunk, leaf, item⟩ := Option.bind_eq_some_iff.1 found
  refine ⟨{ c with index := c.index + 1, chunk }, ?_, ⟨ready.holds, ready.stop_le, ?_⟩, rfl, rfl⟩
  · unfold next?
    rw [if_neg (Nat.not_le_of_lt inside), ready.fetched inside, leaf]
    dsimp only
    rw [item]
  · intro inside' within _
    have size := ready.holds.size_eq
    have stop := ready.stop_le
    exact (leaf?_succ (Nat.lt_of_lt_of_le inside' (size ▸ stop)) within).trans leaf

/-- A cursor yields the elements from its index up to its end. -/
theorem Ready.walk : Enumerates next? remaining c ((xs.take c.stop).drop c.index) := by
  have stop := ready.stop_le
  induction left : c.remaining generalizing c with
  | zero =>
    have past : c.stop ≤ c.index := Nat.sub_eq_zero_iff_le.1 left
    rw [List.drop_of_length_le (by rw [List.length_take]; omega)]
    exact .done (if_pos past) left
  | succ n ih =>
    have inside : c.index < c.stop := by
      unfold remaining at left
      omega
    have element : c.index < (xs.take c.stop).length := by
      rw [List.length_take]
      omega
    obtain ⟨d, yielded, ready', index, same⟩ := ready.next inside (by omega)
    have counted : c.remaining = d.remaining + 1 := by
      unfold remaining
      omega
    rw [List.drop_eq_getElem_cons element, List.getElem_take]
    refine .item yielded counted ?_
    rw [← index, ← same]
    exact ih ready' ready'.stop_le (by omega)

end Ready

theorem collect_end (c : Cursor μ α) (ended : c.next? = none) :
    c.toList = [] ∧ c.counts = [c.remaining] := by
  rw [toList, counts]
  split <;> simp_all

theorem collect_item (c : Cursor μ α) (x : α) (d : Cursor μ α)
    (yielded : c.next? = some (x, d)) :
    c.toList = x :: d.toList ∧ c.counts = c.remaining :: d.counts := by
  rw [toList, counts]
  split <;> simp_all

end Cursor

namespace Drain

/-- A drain yields the elements from its index on. -/
theorem walk {d : Drain μ α} {xs : List α} (h : d.source.Holds xs) :
    Enumerates next? remaining d (xs.drop d.index) := by
  have size := h.size_eq
  induction left : d.remaining generalizing d with
  | zero =>
    have past : xs.length ≤ d.index := by
      unfold remaining at left
      omega
    rw [List.drop_of_length_le past]
    refine .done ?_ left
    unfold next?
    rw [h.get?_eq, List.getElem?_eq_none past]
  | succ n ih =>
    have inside : d.index < xs.length := by
      unfold remaining at left
      omega
    have counted : d.remaining = { d with index := d.index + 1 }.remaining + 1 := by
      unfold remaining
      dsimp only
      omega
    rw [List.drop_eq_getElem_cons inside]
    refine .item ?_ counted (ih h size (by omega))
    unfold next?
    rw [h.get?_eq, List.getElem?_eq_getElem inside]

theorem collect_end (d : Drain μ α) (ended : d.next? = none) :
    d.toList = [] ∧ d.counts = [d.remaining] := by
  rw [toList, counts]
  split <;> simp_all

theorem collect_item (d : Drain μ α) (x : α) (e : Drain μ α)
    (yielded : d.next? = some (x, e)) :
    d.toList = x :: e.toList ∧ d.counts = d.remaining :: e.counts := by
  rw [toList, counts]
  split <;> simp_all

end Drain

end Vector

end Persistent
