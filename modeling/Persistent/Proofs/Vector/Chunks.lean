import Mathlib.Algebra.Group.Nat.Defs
import Mathlib.Data.List.Basic

/-!
Lists cut into chunks of one length, the last of which may be shorter but is not empty, and lists
with an element stored at a place, the place behind the last element included.
-/

set_option autoImplicit false

namespace Persistent.Chunks

variable {α : Type}

def chunks (c : ℕ) : List α → List (List α)
  | [] => []
  | x :: xs => (x :: xs.take (c - 1)) :: chunks c (xs.drop (c - 1))
termination_by xs => xs.length

@[simp]
theorem chunks_nil (c : ℕ) : chunks c ([] : List α) = [] := by
  rw [chunks]

theorem chunks_cons {c : ℕ} {mid : List α} (back : List α) (filled : mid ≠ [])
    (fits : mid.length ≤ c) (full : back = [] ∨ mid.length = c) :
    chunks c (mid ++ back) = mid :: chunks c back := by
  cases mid with
  | nil => exact absurd rfl filled
  | cons x mid =>
    rw [List.length_cons] at fits full
    rw [List.cons_append, chunks]
    rcases full with rfl | full
    · rw [List.append_nil, List.take_of_length_le (by omega), List.drop_of_length_le (by omega)]
    · rw [List.take_left' (by omega), List.drop_left' (by omega)]

theorem chunks_single {c : ℕ} {xs : List α} (filled : xs ≠ []) (fits : xs.length ≤ c) :
    chunks c xs = [xs] := by
  have whole := chunks_cons [] filled fits (.inl rfl)
  rwa [List.append_nil, chunks_nil] at whole

theorem chunks_append {c k : ℕ} (hc : 0 < c) {front : List α} (full : front.length = c * k)
    (rest : List α) :
    chunks c (front ++ rest) = chunks c front ++ chunks c rest ∧ (chunks c front).length = k := by
  induction k generalizing front with
  | zero =>
    rw [Nat.mul_zero, List.length_eq_zero_iff] at full
    subst full
    simp
  | succ k ih =>
    rw [Nat.mul_succ] at full
    have first : (front.take c).length = c := by
      rw [List.length_take]
      omega
    have filled : front.take c ≠ [] := List.ne_nil_of_length_pos (by omega)
    have others : (front.drop c).length = c * k := by
      rw [List.length_drop]
      omega
    obtain ⟨behind, counted⟩ := ih others
    have alone : chunks c front = front.take c :: chunks c (front.drop c) := by
      have cut := chunks_cons (front.drop c) filled (Nat.le_of_eq first) (.inr first)
      rwa [List.take_append_drop] at cut
    have together :=
      chunks_cons (front.drop c ++ rest) filled (Nat.le_of_eq first) (.inr first)
    rw [← List.append_assoc, List.take_append_drop] at together
    constructor
    · rw [together, behind, alone, List.cons_append]
    · rw [alone, List.length_cons, counted]

theorem chunks_flatten {c : ℕ} (hc : 0 < c) {parts : List (List α)}
    (full : ∀ part ∈ parts, part.length = c) : chunks c parts.flatten = parts := by
  induction parts with
  | nil => exact chunks_nil c
  | cons part parts ih =>
    have exact := full part List.mem_cons_self
    have filled : part ≠ [] := List.ne_nil_of_length_pos (by omega)
    rw [List.flatten_cons, chunks_cons _ filled (Nat.le_of_eq exact) (.inr exact),
      ih fun other ho => full other (List.mem_cons_of_mem _ ho)]

theorem length_of_mem_chunks {c k : ℕ} (hc : 0 < c) {xs : List α} (full : xs.length = c * k) :
    ∀ part ∈ chunks c xs, part.length = c := by
  induction k generalizing xs with
  | zero =>
    intro part member
    rw [List.length_eq_zero_iff.1 full, chunks_nil] at member
    cases member
  | succ k ih =>
    rw [Nat.mul_succ] at full
    have first : (xs.take c).length = c := by
      rw [List.length_take]
      omega
    have filled : xs.take c ≠ [] := List.ne_nil_of_length_pos (by omega)
    have cut := chunks_cons (xs.drop c) filled (Nat.le_of_eq first) (.inr first)
    rw [List.take_append_drop] at cut
    intro part member
    rw [cut] at member
    rcases List.mem_cons.1 member with rfl | member
    · exact first
    · exact ih (by rw [List.length_drop]; omega) part member

/-- A list as cut at its chunk of number `b`. -/
structure Cut (c b : ℕ) (front mid back : List α) : Prop where
  before : front.length = c * b
  filled : mid ≠ []
  fits : mid.length ≤ c
  full : back = [] ∨ mid.length = c

theorem exists_cut {c b : ℕ} (hc : 0 < c) {xs : List α} (inside : c * b < xs.length) :
    ∃ front mid back, xs = front ++ (mid ++ back) ∧ Cut c b front mid back := by
  refine ⟨xs.take (c * b), (xs.drop (c * b)).take c, (xs.drop (c * b)).drop c, ?_, ?_⟩
  · rw [List.take_append_drop, List.take_append_drop]
  · have rest : (xs.drop (c * b)).length = xs.length - c * b := List.length_drop
    refine ⟨?_, ?_, List.length_take_le .., ?_⟩
    · rw [List.length_take]
      omega
    · apply List.ne_nil_of_length_pos
      rw [List.length_take]
      omega
    · by_cases short : (xs.drop (c * b)).length ≤ c
      · exact .inl (List.drop_of_length_le short)
      · right
        rw [List.length_take]
        omega

theorem Cut.chunks_eq {c b : ℕ} {front mid back : List α} (cut : Cut c b front mid back) :
    chunks c (front ++ (mid ++ back)) = chunks c front ++ mid :: chunks c back ∧
      (chunks c front).length = b := by
  have hc : 0 < c := Nat.lt_of_lt_of_le (List.length_pos_iff.2 cut.filled) cut.fits
  obtain ⟨behind, counted⟩ := chunks_append hc cut.before (mid ++ back)
  rw [behind, chunks_cons back cut.filled cut.fits cut.full]
  exact ⟨rfl, counted⟩

theorem exists_last_cut {c : ℕ} (hc : 0 < c) {xs : List α} (filled : xs ≠ []) :
    ∃ b front mid, xs = front ++ mid ∧ Cut c b front mid [] := by
  have positive := List.length_pos_iff.2 filled
  have below := Nat.mul_div_le (xs.length - 1) c
  have above := Nat.lt_mul_div_succ (xs.length - 1) hc
  obtain ⟨front, mid, back, rfl, cut⟩ := exists_cut hc
    (show c * ((xs.length - 1) / c) < xs.length by omega)
  have empty : back = [] := by
    rcases cut.full with empty | full
    · exact empty
    · have before := cut.before
      rw [Nat.mul_succ] at above
      rw [List.length_append, List.length_append] at above
      rw [List.length_append, List.length_append] at before
      apply List.length_eq_zero_iff.1
      omega
  subst empty
  exact ⟨_, front, mid, by rw [List.append_nil], cut⟩

/-- The list with `x` stored at place `p`. -/
def place (p : ℕ) (x : α) (xs : List α) : List α :=
  xs.take p ++ x :: xs.drop (p + 1)

theorem place_eq_set {p : ℕ} (x : α) {xs : List α} (h : p < xs.length) :
    place p x xs = xs.set p x := by
  rw [place, List.set_eq_take_append_cons_drop, if_pos h]

@[simp]
theorem place_length (x : α) (xs : List α) : place xs.length x xs = xs ++ [x] := by
  rw [place, List.take_length, List.drop_of_length_le (by omega)]

theorem length_place {p : ℕ} (x : α) {xs : List α} (h : p ≤ xs.length) :
    (place p x xs).length = max xs.length (p + 1) := by
  rw [place, List.length_append, List.length_cons, List.length_take, List.length_drop]
  omega

/-- Storing in a chunk stores in the list, if nothing is behind the chunk or the place is in it. -/
theorem place_append {p q : ℕ} (x : α) {front mid back : List α} (at_mid : p = front.length + q)
    (inside : back = [] ∨ q < mid.length) :
    place p x (front ++ (mid ++ back)) = front ++ (place q x mid ++ back) := by
  subst at_mid
  unfold place
  rw [Nat.add_assoc, List.take_length_add_append, List.drop_length_add_append]
  rcases inside with rfl | inside
  · simp
  · rw [List.take_append_of_le_length (by omega), List.drop_append_of_le_length (by omega)]
    simp

end Persistent.Chunks
