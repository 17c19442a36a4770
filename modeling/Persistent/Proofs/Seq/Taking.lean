import Mathlib.Data.Nat.Find
import Persistent.Proofs.Seq.Shown

/-!
The items taken from the front of what a sequence shows, and where it ends.
-/

set_option autoImplicit false

namespace Persistent.Seq.Items

variable {A B : Type}

theorem tail_ended {f : Items A} (none : f 0 = none) : tail f = fun _ => Option.none := by
  simp [tail, none]

theorem tail_onward {f : Items A} {x : A} (first : f 0 = some x) : tail f = behind f := by
  simp [tail, first]

theorem EndsAt.of_succ {n : ℕ} {f : Items A} (h : EndsAt f (n + 1)) : EndsAt (Items.behind f) n :=
  ⟨h.done, fun i inside => h.before (i + 1) (Nat.succ_lt_succ inside)⟩

theorem take_ofList (xs : List A) : take xs.length (xs[·]?) = xs := by
  induction xs with
  | nil => rfl
  | cons x xs ih => exact congrArg (x :: ·) ih

theorem endsAt_ofList (xs : List A) : EndsAt (xs[·]?) xs.length where
  done := List.getElem?_eq_none (Nat.le_refl _)
  before i inside := by
    rw [List.getElem?_eq_getElem inside]
    rfl

theorem take_map (g : A → B) (n : ℕ) (f : Items A) :
    take n (fun i => (f i).map g) = (take n f).map g := by
  induction n generalizing f with
  | zero => rfl
  | succ n ih =>
    rw [take, take]
    cases f 0 with
    | none => rfl
    | some x => exact congrArg (g x :: ·) (ih (behind f))

theorem take_take {n m : ℕ} (le : n ≤ m) (f : Items A) : (take m f).take n = take n f := by
  induction n generalizing m f with
  | zero => rfl
  | succ n ih =>
    obtain ⟨m, rfl⟩ := Nat.exists_eq_add_of_le' (Nat.le_trans (Nat.succ_le_succ n.zero_le) le)
    rw [take, take]
    cases f 0 with
    | none => rfl
    | some x => exact congrArg (x :: ·) (ih (Nat.le_of_succ_le_succ le) (behind f))

theorem length_take {n : ℕ} {f : Items A} (some : ∀ i < n, (f i).isSome) :
    (take n f).length = n := by
  induction n generalizing f with
  | zero => rfl
  | succ n ih =>
    obtain ⟨x, first⟩ := Option.isSome_iff_exists.1 (some 0 (Nat.succ_pos n))
    rw [take, first]
    exact congrArg (· + 1) (ih fun i inside => some (i + 1) (Nat.succ_lt_succ inside))

theorem take_of_ends {n m : ℕ} {f : Items A} (ends : EndsAt f n) (le : n ≤ m) :
    take m f = take n f := by
  induction n generalizing m f with
  | zero =>
    cases m with
    | zero => rfl
    | succ m => simp only [take, ends.done]
  | succ n ih =>
    obtain ⟨m, rfl⟩ := Nat.exists_eq_add_of_le' (Nat.le_trans (Nat.succ_le_succ n.zero_le) le)
    rw [take, take]
    cases f 0 with
    | none => rfl
    | some x => exact congrArg (x :: ·) (ih ends.of_succ (Nat.le_of_succ_le_succ le))

theorem exists_endsAt {n : ℕ} {f : Items A} (ended : ¬∀ i ≤ n, (f i).isSome) :
    ∃ m ≤ n, EndsAt f m := by
  have first : ∃ i, i ≤ n ∧ (f i).isNone := by simpa using ended
  have none : ∃ i, (f i).isNone := first.imp fun _ => And.right
  obtain ⟨i, le, last⟩ := first
  refine ⟨Nat.find none, Nat.le_trans (Nat.find_min' none last) le, ?_, fun j less => ?_⟩
  · exact Option.isNone_iff_eq_none.1 (Nat.find_spec none)
  · simpa [Option.isSome_iff_ne_none] using Nat.find_min none less

theorem mem_take {n : ℕ} {f : Items A} {x : A} (among : x ∈ take n f) : ∃ i, f i = some x := by
  induction n generalizing f with
  | zero => cases among
  | succ n ih =>
    rw [take] at among
    cases first : f 0 with
    | none =>
      rw [first] at among
      cases among
    | some y =>
      rw [first] at among
      cases among with
      | head => exact ⟨0, first⟩
      | tail _ behind =>
        obtain ⟨i, item⟩ := ih behind
        exact ⟨i + 1, item⟩

end Persistent.Seq.Items
