import Persistent.Proofs.Vector.Shape
import Persistent.Proofs.Vector.Walks

/-!
Slices of vectors. A vector between two bounds holds the elements at the positions that the bounds
leave, whether the bounds are open or closed, in order or not, and inside the vector or not.
-/

set_option autoImplicit false

namespace Persistent.Vector

variable {μ α : Type}

/-- The vectors that programs make, whatever metadata they are given on the way. -/
inductive Reachable : Vector μ α → Prop
  | empty : Reachable {}
  | collect (xs : List α) : Reachable (ofList xs)
  | push {v : Vector μ α} (h : Reachable v) (x : α) : Reachable (v.push x)
  | pushAll {v : Vector μ α} (h : Reachable v) (xs : List α) : Reachable (v.pushAll xs)
  | set {v w : Vector μ α} (h : Reachable v) {index : Int64} {x : α}
      (stored : v.set index x = .ok w) : Reachable w
  | setAll {v w : Vector μ α} (h : Reachable v) {pairs : List (Int64 × α)}
      (stored : v.setAll pairs = .ok w) : Reachable w
  | pop {v w : Vector μ α} (h : Reachable v) (popped : v.pop = .ok w) : Reachable w
  | subvec {v : Vector μ α} (h : Reachable v) (low high : Bound) : Reachable (v.subvec low high)
  | withMetadata {v : Vector μ α} (h : Reachable v) (metadata : Option μ) :
      Reachable { v with metadata }

theorem Reachable.holds {v : Vector μ α} (h : v.Reachable) : ∃ xs, v.Holds xs := by
  induction h with
  | empty => exact ⟨[], holds_empty⟩
  | collect xs => exact ⟨xs, holds_ofList xs⟩
  | push _ x ih =>
    obtain ⟨ys, held⟩ := ih
    exact ⟨_, held.push x⟩
  | pushAll _ xs ih =>
    obtain ⟨ys, held⟩ := ih
    exact ⟨_, held.pushAll xs⟩
  | set _ stored ih =>
    obtain ⟨ys, held⟩ := ih
    obtain ⟨zs, held', -⟩ := held.of_set stored
    exact ⟨zs, held'⟩
  | setAll _ stored ih =>
    obtain ⟨ys, held⟩ := ih
    exact held.of_setAll stored
  | pop _ popped ih =>
    obtain ⟨ys, held⟩ := ih
    exact held.of_pop popped
  | subvec _ low high => exact ⟨_, (holds_ofList _).withMetadata _⟩
  | withMetadata _ metadata ih =>
    obtain ⟨ys, held⟩ := ih
    exact ⟨ys, held.withMetadata metadata⟩

namespace Bound

/-- The first position that a lower bound leaves. -/
def first : Bound → ℕ
  | .unbounded => 0
  | .included position => position.toNat
  | .excluded position => position.toNat + 1

/-- The position behind the last one that an upper bound leaves of `size` positions. -/
def limit (size : ℕ) : Bound → ℕ
  | .unbounded => size
  | .included position => min (position.toNat + 1) size
  | .excluded position => min position.toNat size

theorem toNat_successor (n : UInt64) :
    (successor n).toNat = min (n.toNat + 1) (2 ^ 64 - 1) := by
  have below := n.toNat_lt
  unfold successor
  split
  case isTrue greatest =>
    rw [greatest]
    rfl
  case isFalse less =>
    have apart : n.toNat ≠ 2 ^ 64 - 1 := fun same => less (UInt64.toNat_inj.1 same)
    rw [UInt64.toNat_add, UInt64.toNat_one, Nat.mod_eq_of_lt (by omega)]
    omega

/-- Where no position is as great as the greatest word, a bound that saturates there cuts off as
much as the exact one. -/
theorem min_start (size : ℕ) (addressable : size < 2 ^ 64) (low : Bound) :
    min low.start size = min low.first size := by
  cases low with
  | excluded position =>
    change min (successor position).toNat size = min (position.toNat + 1) size
    rw [toNat_successor]
    omega
  | _ => rfl

theorem min_stop (size : ℕ) (addressable : size < 2 ^ 64) (high : Bound) :
    min (high.stop size) size = high.limit size := by
  cases high with
  | unbounded => exact Nat.min_self size
  | included position =>
    change min (successor position).toNat size = min (position.toNat + 1) size
    rw [toNat_successor]
    omega
  | excluded position => rfl

end Bound

/-- `w` holds the elements of `v` at the positions between the bounds, in their order. -/
structure Slice (v w : Vector μ α) (low high : Bound) : Prop where
  size_eq : w.size = high.limit v.size - low.first
  toList_eq : w.toList = (v.toList.take (high.limit v.size)).drop low.first
  get?_eq : ∀ i, w.get? i =
    if low.first + i < high.limit v.size then v.get? (low.first + i) else none
  metadata_eq : w.metadata = v.metadata

section Holds

variable {v : Vector μ α} {xs : List α} (h : v.Holds xs)
include h

theorem Holds.cursor_walk (start stop : ℕ) :
    Enumerates Cursor.next? Cursor.remaining (Cursor.ofRange v start stop)
      ((xs.take (min stop v.size)).drop start) :=
  (Cursor.ready_ofRange h start stop).walk

theorem Holds.toList_ofRange (start stop : ℕ) :
    (Cursor.ofRange v start stop).toList = (xs.take (min stop v.size)).drop start :=
  ((h.cursor_walk start stop).collected Cursor.collect_end Cursor.collect_item).1

/-- A lower bound counts only up to the size. -/
theorem Holds.subvec (addressable : v.size < 2 ^ 64) (low high : Bound) :
    (v.subvec low high).Holds ((xs.take (high.limit v.size)).drop low.first) := by
  have items : (Cursor.ofRange v low.start (high.stop v.size)).toList =
      (xs.take (high.limit v.size)).drop low.first := by
    rw [h.toList_ofRange, Bound.min_stop v.size addressable]
    have size := h.size_eq
    have same := Bound.min_start v.size addressable low
    have cut (n : ℕ) : (xs.take (high.limit v.size)).drop n =
        (xs.take (high.limit v.size)).drop (min n v.size) := by
      rcases Nat.le_total n v.size with inside | past
      · rw [Nat.min_eq_left inside]
      · rw [Nat.min_eq_right past, List.drop_of_length_le (by rw [List.length_take]; omega),
          List.drop_of_length_le (by rw [List.length_take]; omega)]
    rw [cut, same, ← cut]
  unfold Vector.subvec
  dsimp only
  rw [items]
  exact (holds_ofList _).withMetadata v.metadata

theorem Holds.slice (addressable : v.size < 2 ^ 64) (low high : Bound) :
    Slice v (v.subvec low high) low high := by
  have held := h.subvec addressable low high
  have size := h.size_eq
  have within : high.limit v.size ≤ v.size := by
    rw [← Bound.min_stop v.size addressable]
    exact Nat.min_le_right _ _
  refine ⟨?_, ?_, fun i => ?_, rfl⟩
  · rw [held.size_eq, List.length_drop, List.length_take]
    omega
  · rw [held.toList_eq, h.toList_eq]
  · rw [held.get?_eq, h.get?_eq, List.getElem?_drop, List.getElem?_take]

end Holds

/-- The elements of a vector one by one, by their indices, along both walks, and cut to any
bounds. -/
structure Sliced (v : Vector μ α) : Prop where
  size_eq : v.size = v.toList.length
  get?_eq : ∀ i, v.get? i = v.toList[i]?
  cursor_walk : Enumerates Cursor.next? Cursor.remaining v.cursor v.toList
  drain_walk : Enumerates Drain.next? Drain.remaining v.drain v.toList
  cursor_toList : v.cursor.toList = v.toList
  drain_toList : v.drain.toList = v.toList
  cursor_counts : v.cursor.counts = countdown v.size
  drain_counts : v.drain.counts = countdown v.size
  /-- A size is a word. -/
  slice : v.size < 2 ^ 64 → ∀ low high, Slice v (v.subvec low high) low high

theorem reachable_sliced {v : Vector μ α} (h : v.Reachable) : v.Sliced := by
  obtain ⟨xs, held⟩ := h.holds
  have items := held.toList_eq
  have cursor := held.cursor_walk 0 v.size
  have drain : Enumerates Drain.next? Drain.remaining v.drain xs := Drain.walk held
  rw [Nat.min_self, List.drop_zero, held.size_eq, List.take_length, ← held.size_eq] at cursor
  obtain ⟨cursor_items, cursor_counts⟩ := cursor.collected Cursor.collect_end Cursor.collect_item
  obtain ⟨drain_items, drain_counts⟩ := drain.collected Drain.collect_end Drain.collect_item
  rw [← held.size_eq] at cursor_counts drain_counts
  rw [items.symm] at cursor drain cursor_items drain_items
  exact ⟨by rw [items, held.size_eq], fun i => by rw [items, held.get?_eq], cursor, drain,
    cursor_items, drain_items, cursor_counts, drain_counts, held.slice⟩

/-- A hundred elements, with metadata. -/
def hundred : Vector String ℕ :=
  { (ofList (List.range 100) : Vector String ℕ) with metadata := some "kept" }

/-- A slice of a slice that ends in the middle of one leaf and starts in the middle of another. -/
theorem reachable_sliced_acrossLeaves :
    ∃ w : Vector String ℕ, hundred.Reachable ∧ w.Reachable ∧ hundred.Sliced ∧ w.Sliced ∧
      Slice hundred w (.included 5) (.included 0xffffffffffffffff) ∧
      w.toList = List.range' 5 95 ∧ w.metadata = some "kept" ∧
      (w.subvec (.excluded 25) (.included 28)).toList = [31, 32, 33] ∧
      (w.subvec (.included 70) (.excluded 3)).toList = [] := by
  have tagged : hundred.Reachable := (Reachable.collect (List.range 100)).withMetadata _
  have held : hundred.Holds (List.range 100) := (holds_ofList _).withMetadata _
  have size : hundred.size = 100 := held.size_eq
  have whole := reachable_sliced tagged
  have further := tagged.subvec (.included 5) (.included 0xffffffffffffffff)
  have part := whole.slice (by rw [size]; decide) (.included 5) (.included 0xffffffffffffffff)
  generalize hundred.subvec (.included 5) (.included 0xffffffffffffffff) = w at further part
  have again := reachable_sliced further
  have items : w.toList = List.range' 5 95 := by
    rw [part.toList_eq, held.toList_eq, size]
    decide +kernel
  have count : w.size = 95 := by rw [again.size_eq, items, List.length_range']
  have slice := again.slice (by rw [count]; decide)
  have cut := (slice (.excluded 25) (.included 28)).toList_eq
  have none := (slice (.included 70) (.excluded 3)).toList_eq
  rw [items, count] at cut none
  refine ⟨w, tagged, further, whole, again, part, items, part.metadata_eq, cut.trans ?_,
    none.trans ?_⟩
  · decide +kernel
  · decide +kernel

end Persistent.Vector
