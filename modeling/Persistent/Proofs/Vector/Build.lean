import Persistent.Proofs.Vector.Chunks
import Persistent.Vector.Node

/-!
The node that holds a list at a height, and what the operations on nodes do to it: they hold the
list changed in the same way.
-/

set_option autoImplicit false

namespace Persistent.Node

open Chunks

variable {α : Type}

/-- How many elements fit under a node. -/
def width (height : ℕ) : ℕ := 32 ^ (height + 1)

theorem width_zero : width 0 = 32 := rfl

theorem width_succ (height : ℕ) : width (height + 1) = 32 * width height :=
  Nat.pow_succ'

theorem width_pos (height : ℕ) : 0 < width height :=
  Nat.pow_pos (by decide)

/-- All nodes are full but those on the way to the last element. -/
def build : ℕ → List α → Node α
  | 0, xs => .leaf xs
  | height + 1, xs => .interior ((chunks (width height) xs).map (build height))

/-- The place of an index under a node, and the child to follow. -/
theorem bucket_eq (index height : ℕ) :
    bucket index (height + 1) = index % width (height + 1) / width height ∧
      index % width (height + 1) % width height = index % width height := by
  have power : 2 ^ (5 * (height + 1)) = width height := by
    rw [width, Nat.pow_mul]
  constructor
  · rw [bucket, Nat.shiftRight_eq_div_pow, power, width_succ, Nat.mul_comm,
      Nat.mod_mul_right_div_self]
  · rw [width_succ, Nat.mod_mul_left_mod]

theorem spine_eq (x : α) (height : ℕ) : spine x height = build height [x] := by
  induction height with
  | zero => rfl
  | succ height ih =>
    rw [spine, build, chunks_single (List.cons_ne_nil x []) (width_pos height), ih]
    rfl

theorem isEmpty_build (height : ℕ) (xs : List α) : (build height xs).isEmpty = xs.isEmpty := by
  cases height with
  | zero => rfl
  | succ height =>
    change ((chunks (width height) xs).map (build height)).isEmpty = xs.isEmpty
    cases xs with
    | nil => rw [chunks_nil]; rfl
    | cons x xs => rw [chunks]; rfl

theorem childrenToList_chunks {c : ℕ} {node : List α → Node α}
    (holds : ∀ ys, (node ys).toList = ys) (xs : List α) :
    childrenToList ((chunks c xs).map node) = xs := by
  fun_induction chunks c xs with
  | case1 => rfl
  | case2 x xs ih =>
    rw [List.map_cons, childrenToList, holds, ih, List.cons_append, List.take_append_drop]

theorem toList_build (height : ℕ) (xs : List α) : (build height xs).toList = xs := by
  induction height generalizing xs with
  | zero => rfl
  | succ height ih =>
    rw [build, toList]
    exact childrenToList_chunks ih xs

theorem setAt_cut (x : α) (index height : ℕ) (front back : List (Node α)) (child : Node α) :
    setAt x index (height + 1) front.length (front ++ child :: back) =
      front ++ child.set x index height :: back := by
  induction front with
  | nil => rfl
  | cons first front ih =>
    rw [List.length_cons, List.cons_append, setAt, ih]
    rfl

theorem setAt_end (x : α) (index height : ℕ) (children : List (Node α)) :
    setAt x index (height + 1) children.length children = children ++ [spine x height] := by
  induction children with
  | nil => rfl
  | cons first children ih =>
    rw [List.length_cons, setAt, ih]
    rfl

/-- Storing under a node, also where the path to the place is missing. -/
theorem set_build (x : α) (index height : ℕ) {xs : List α}
    (inside : index % width height ≤ xs.length) :
    (build height xs).set x index height =
      build height (place (index % width height) x xs) := by
  induction height generalizing xs with
  | zero =>
    rw [width_zero] at inside ⊢
    rw [build, set]
    split
    case isTrue present => rw [place_eq_set x present, build]
    case isFalse behind =>
      have here : index % 32 = xs.length := by omega
      rw [here, place_length, build]
  | succ height ih =>
    obtain ⟨child, rest⟩ := bucket_eq index height
    generalize index % width (height + 1) = p at inside child rest ⊢
    have split := Nat.div_add_mod p (width height)
    rw [← child, rest] at split
    have small := Nat.mod_lt index (width_pos height)
    rw [build, set]
    by_cases present : width height * bucket index (height + 1) < xs.length
    · obtain ⟨front, mid, back, rfl, cut⟩ := exists_cut (width_pos height) present
      obtain ⟨parts, counted⟩ := cut.chunks_eq
      have before := cut.before
      have full := cut.full
      have below : index % width height ≤ mid.length := by
        rcases full with rfl | full
        · rw [List.length_append, List.append_nil] at inside
          omega
        · omega
      have still : Cut (width height) (bucket index (height + 1)) front
          (place (index % width height) x mid) back := by
        have length := length_place x below
        have fits := cut.fits
        refine ⟨before, List.ne_nil_of_length_pos (by omega), by omega, ?_⟩
        exact full.imp_right fun full => by omega
      have at_mid : p = front.length + index % width height := by omega
      have room : back = [] ∨ index % width height < mid.length :=
        full.imp_right fun full => by omega
      have stored := place_append x at_mid room
      rw [stored, build, still.chunks_eq.1, parts, List.map_append, List.map_append, List.map_cons,
        List.map_cons, ← ih below]
      rw [← setAt_cut, List.length_map, counted]
    · have here : p = xs.length := by omega
      have exact : xs.length = width height * bucket index (height + 1) := by omega
      obtain ⟨behind, counted⟩ := chunks_append (width_pos height) exact [x]
      rw [here, place_length, build, behind, List.map_append,
        chunks_single (List.cons_ne_nil x []) (width_pos height), List.map_singleton, ← spine_eq,
        ← setAt_end, List.length_map, counted]

theorem leafAt?_cut (index height : ℕ) (front back : List (Node α)) (child : Node α) :
    leafAt? index (height + 1) front.length (front ++ child :: back) =
      child.leaf? index height := by
  induction front with
  | nil => rfl
  | cons first front ih =>
    rw [List.length_cons, List.cons_append, leafAt?]
    exact ih

/-- Following an index under a node reads the list at its place. -/
theorem leaf?_build (index height : ℕ) {xs : List α}
    (inside : index % width height < xs.length) :
    ((build height xs).leaf? index height).bind (·[index % 32]?) =
      xs[index % width height]? := by
  induction height generalizing xs with
  | zero => rfl
  | succ height ih =>
    obtain ⟨child, rest⟩ := bucket_eq index height
    generalize index % width (height + 1) = p at inside child rest ⊢
    have split := Nat.div_add_mod p (width height)
    rw [← child, rest] at split
    have small := Nat.mod_lt index (width_pos height)
    rw [build, leaf?]
    obtain ⟨front, mid, back, rfl, cut⟩ := exists_cut (width_pos height)
      (show width height * bucket index (height + 1) < xs.length by omega)
    obtain ⟨parts, counted⟩ := cut.chunks_eq
    have before := cut.before
    have below : index % width height < mid.length := by
      rcases cut.full with rfl | full
      · rw [List.length_append, List.append_nil] at inside
        omega
      · omega
    have there : (front ++ (mid ++ back))[p]? = mid[index % width height]? := by
      rw [List.getElem?_append_right (by omega), List.getElem?_append_left (by omega)]
      congr 1
      omega
    rw [there, ← ih below, parts, List.map_append, List.map_cons, ← leafAt?_cut,
      List.length_map, counted]

theorem popLast_concat (front : List (Node α)) (child : Node α) :
    popLast (front ++ [child]) = front ++ (if child.pop.isEmpty then [] else [child.pop]) := by
  induction front with
  | nil => rfl
  | cons first front ih =>
    cases front with
    | nil =>
      rw [List.cons_append, List.nil_append, popLast, popLast]
      rfl
    | cons second front =>
      rw [List.cons_append, List.cons_append, popLast, ← List.cons_append, ih]
      rfl

/-- Removing the last element under a node. -/
theorem pop_build (height : ℕ) {xs : List α} (filled : xs ≠ []) :
    (build height xs).pop = build height xs.dropLast := by
  induction height generalizing xs with
  | zero => rfl
  | succ height ih =>
    obtain ⟨b, front, mid, rfl, cut⟩ := exists_last_cut (width_pos height) filled
    have parts := cut.chunks_eq.1
    rw [List.append_nil, chunks_nil] at parts
    rw [build, pop, parts, List.map_append, List.map_singleton, popLast_concat, ih cut.filled,
      isEmpty_build, List.dropLast_append_of_ne_nil cut.filled, build]
    by_cases empty : mid.dropLast = []
    · rw [empty, List.append_nil]
      simp
    · have fits : mid.dropLast.length ≤ width height := by
        have := cut.fits
        rw [List.length_dropLast]
        omega
      have rest := (chunks_append (width_pos height) cut.before mid.dropLast).1
      rw [chunks_single empty fits] at rest
      rw [rest, List.map_append, List.map_singleton]
      simp [empty]

end Persistent.Node
