import Persistent.Proofs.Vector.Build
import Persistent.Vector.Basic

/-!
Vectors that hold a list: their trie is the node built from the list at the least height at which
the list fits, so it depends on nothing but the list. Every operation keeps this form and changes
the list as it should.
-/

set_option autoImplicit false

namespace Persistent.Vector

open Node Chunks

variable {μ α : Type}

/-- The vector is the one trie, of least height, that holds the list. -/
structure Holds (v : Vector μ α) (xs : List α) : Prop where
  size_eq : v.size = xs.length
  root_eq : v.root = if xs.isEmpty then none else some (build v.height xs)
  fits : xs.length ≤ width v.height
  least : v.height ≠ 0 → width (v.height - 1) < xs.length

theorem holds_empty : ({} : Vector μ α).Holds [] where
  size_eq := rfl
  root_eq := rfl
  fits := Nat.zero_le _
  least impossible := absurd rfl impossible

namespace Holds

variable {v : Vector μ α} {xs : List α} (h : v.Holds xs)
include h

theorem root_some (filled : xs ≠ []) : v.root = some (build v.height xs) := by
  rw [h.root_eq, if_neg (by simpa using filled)]

theorem root_none (empty : xs = []) : v.root = none := by
  rw [h.root_eq, empty]
  rfl

theorem height_zero (empty : xs = []) : v.height = 0 := by
  by_contra high
  have := h.least high
  rw [empty] at this
  exact Nat.not_lt_zero _ this

theorem toList_eq : v.toList = xs := by
  unfold toList
  by_cases empty : xs = []
  · rw [h.root_none empty, empty]
  · rw [h.root_some empty]
    exact toList_build v.height xs

theorem get?_eq (index : ℕ) : v.get? index = xs[index]? := by
  unfold get? leaf?
  rw [h.size_eq]
  split
  case isTrue inside =>
    have fits := h.fits
    have filled : xs ≠ [] := List.ne_nil_of_length_pos (by omega)
    have here : index % width v.height = index := Nat.mod_eq_of_lt (by omega)
    rw [h.root_some filled]
    have read := leaf?_build index v.height
      (show index % width v.height < xs.length by omega)
    rwa [here] at read
  case isFalse outside =>
    rw [List.getElem?_eq_none (by omega)]
    rfl

theorem store {p : ℕ} (inside : p < xs.length) (x : α) :
    ({ v with root := v.root.map (·.set x p v.height) } : Vector μ α).Holds (xs.set p x) := by
  have fits := h.fits
  have filled : xs ≠ [] := List.ne_nil_of_length_pos (by omega)
  have still : xs.set p x ≠ [] := List.ne_nil_of_length_pos (by rw [List.length_set]; omega)
  have here : p % width v.height = p := Nat.mod_eq_of_lt (by omega)
  refine ⟨?_, ?_, ?_, ?_⟩
  · rw [List.length_set]
    exact h.size_eq
  · rw [if_neg (by simpa using still)]
    change v.root.map _ = some (build v.height (xs.set p x))
    rw [h.root_some filled, Option.map_some, set_build x p v.height (by omega), here,
      place_eq_set x inside]
  · rw [List.length_set]
    exact fits
  · intro high
    rw [List.length_set]
    exact h.least high

/-- Before an element is appended there is room for it below the root. -/
theorem room : ∃ height, (if v.isFull then v.addLevel else v) =
      { v with root := some (build height xs), height := height } ∧
    xs.length < width height ∧ (height ≠ 0 → width (height - 1) ≤ xs.length) := by
  by_cases empty : xs = []
  · have none := h.root_none empty
    have zero := h.height_zero empty
    have full : v.isFull = true := by
      unfold isFull
      rw [none]
      rfl
    refine ⟨0, ?_, ?_, fun high => absurd rfl high⟩
    · rw [if_pos full, addLevel, none, empty, zero]
      rfl
    · rw [empty]
      exact width_pos 0
  · have fits := h.fits
    have some := h.root_some empty
    have power : 1 <<< (5 * (v.height + 1)) = width v.height := by
      rw [Nat.one_shiftLeft, Nat.pow_mul, width]
    have full : v.isFull = (xs.length == width v.height) := by
      unfold isFull
      rw [some, h.size_eq, power]
      rfl
    rw [full]
    by_cases same : xs.length = width v.height
    · refine ⟨v.height + 1, ?_, ?_, ?_⟩
      · rw [if_pos (by simpa using same), addLevel, some, build, chunks_single empty fits]
        rfl
      · have := width_pos v.height
        rw [width_succ]
        omega
      · intro _
        rw [Nat.add_sub_cancel]
        omega
    · refine ⟨v.height, ?_, by omega, fun high => Nat.le_of_lt (h.least high)⟩
      rw [if_neg (by simpa using same), ← some]

theorem push (x : α) : (v.push x).Holds (xs ++ [x]) := by
  obtain ⟨height, ready, free, least⟩ := h.room
  unfold Vector.push
  rw [ready]
  have here : xs.length % width height = xs.length := Nat.mod_eq_of_lt free
  refine ⟨?_, ?_, ?_, ?_⟩
  · change v.size + 1 = _
    rw [h.size_eq, List.length_append]
    rfl
  · rw [if_neg (by simp)]
    change some ((build height xs).set x v.size height) = _
    rw [h.size_eq, set_build x xs.length height (by omega), here, place_length]
  · rw [List.length_append, List.length_singleton]
    exact free
  · intro high
    rw [List.length_append, List.length_singleton]
    exact Nat.lt_succ_of_le (least high)

theorem pushAll (ys : List α) : (v.pushAll ys).Holds (xs ++ ys) := by
  induction ys generalizing v xs with
  | nil => rwa [List.append_nil]
  | cons y ys ih =>
    have rest := ih (h.push y)
    rwa [List.append_assoc] at rest

theorem withMetadata (metadata : Option μ) : Holds { v with metadata } xs :=
  ⟨h.size_eq, h.root_eq, h.fits, h.least⟩

end Holds

theorem holds_ofList (xs : List α) : (ofList xs : Vector μ α).Holds xs :=
  holds_empty.pushAll xs

theorem shrink_single (child : Node α) {size : ℕ} (filled : size ≠ 0) (height : ℕ)
    (metadata : Option μ) :
    shrink ⟨some (.interior [child]), size, height, metadata⟩ =
      ⟨some child, size, height - 1, metadata⟩ :=
  if_neg filled

theorem shrink_keep {v : Vector μ α} (several : ∀ child, v.root ≠ some (.interior [child]))
    (filled : v.size ≠ 0) : v.shrink = v := by
  obtain ⟨root, size, height, metadata⟩ := v
  match root, several with
  | none, _ => exact if_neg filled
  | some (.leaf items), _ => exact if_neg filled
  | some (.interior []), _ => exact if_neg filled
  | some (.interior [child]), several => exact absurd rfl (several child)
  | some (.interior (first :: second :: others)), _ => exact if_neg filled

/-- One level is always enough to drop after one element is gone. -/
theorem holds_shrink (height : ℕ) {xs : List α} (metadata : Option μ)
    (fits : xs.length ≤ width height) (least : height ≠ 0 → width (height - 1) ≤ xs.length) :
    (shrink ⟨some (build height xs), xs.length, height, metadata⟩).Holds xs := by
  by_cases empty : xs = []
  · have zero : height = 0 := by
      by_contra high
      have reached := least high
      rw [empty] at reached
      exact Nat.not_lt_zero _ (Nat.lt_of_lt_of_le (width_pos (height - 1)) reached)
    subst empty zero
    exact ⟨rfl, rfl, Nat.zero_le _, fun high => absurd rfl high⟩
  · have filled : xs.length ≠ 0 := fun none => empty (List.length_eq_zero_iff.1 none)
    have shown : some (build height xs) =
        if xs.isEmpty then none else some (build height xs) := by
      rw [if_neg (by simpa using empty)]
    cases height with
    | zero =>
      rw [shrink_keep (fun child single => by cases single) filled]
      exact ⟨rfl, shown, fits, fun high => absurd rfl high⟩
    | succ height =>
      have reached := least (Nat.succ_ne_zero height)
      rw [Nat.add_sub_cancel] at reached
      have positive := width_pos height
      by_cases same : xs.length = width height
      · rw [build, chunks_single empty (Nat.le_of_eq same), List.map_singleton,
          shrink_single _ filled]
        refine ⟨rfl, ?_, Nat.le_of_eq same, ?_⟩
        · rw [if_neg (by simpa using empty)]
          rfl
        · intro high
          obtain ⟨height, rfl⟩ := Nat.exists_eq_succ_of_ne_zero high
          change width height < _
          have := width_pos height
          rw [Nat.succ_eq_add_one, width_succ] at same
          omega
      · have several : ∀ child, build (height + 1) xs ≠ .interior [child] := by
          intro child single
          rw [build, Node.interior.injEq] at single
          have count := congrArg List.length single
          rw [List.length_map, List.length_singleton] at count
          obtain ⟨b, front, mid, rfl, cut⟩ := exists_last_cut positive empty
          obtain ⟨parts, counted⟩ := cut.chunks_eq
          rw [List.append_nil, chunks_nil] at parts
          rw [parts, List.length_append, counted, List.length_singleton] at count
          have before := cut.before
          have fits := cut.fits
          have zero : b = 0 := by omega
          rw [zero] at before
          rw [List.length_append] at same reached
          omega
        rw [shrink_keep (fun child single => several child (Option.some.inj single)) filled]
        refine ⟨rfl, shown, fits, fun _ => ?_⟩
        rw [Nat.add_sub_cancel]
        omega

namespace Holds

variable {v : Vector μ α} {xs : List α} (h : v.Holds xs)
include h

theorem pop_empty (empty : xs = []) : v.pop = .error (.underflow "vector") := by
  unfold pop
  rw [if_pos (by rw [h.size_eq, empty]; rfl)]

theorem pop_filled (filled : xs ≠ []) : ∃ w, v.pop = .ok w ∧ w.Holds xs.dropLast := by
  have positive := List.length_pos_iff.2 filled
  unfold Vector.pop
  rw [h.size_eq, if_neg (by omega), h.root_some filled]
  refine ⟨_, rfl, ?_⟩
  rw [Option.map_some, pop_build v.height filled]
  have fits := h.fits
  have shorter : xs.length - 1 = xs.dropLast.length := List.length_dropLast.symm
  rw [shorter]
  apply holds_shrink
  · omega
  · intro high
    have := h.least high
    omega

end Holds

end Persistent.Vector
