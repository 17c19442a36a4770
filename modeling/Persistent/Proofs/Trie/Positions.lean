import Mathlib.Data.Nat.Notation
import Persistent.Trie.Basic

/-!
The set bits of a branch as a list of positions, cut at one position. What a branch does to its bit
set (occupying a position, vacating it, finding its rank) is read off the two parts around the cut.
-/

set_option autoImplicit false

namespace Persistent.Trie

/-- The set bits in increasing order. -/
def positions (bits : BitVec 32) : List ℕ :=
  (List.range 32).filter bits.getLsbD

/-- The set bits in front of position `i`. -/
def setBelow (bits : BitVec 32) (i : ℕ) : List ℕ :=
  (List.range i).filter bits.getLsbD

/-- The set bits behind position `i`. -/
def setAbove (bits : BitVec 32) (i : ℕ) : List ℕ :=
  (List.range' (i + 1) (31 - i)).filter bits.getLsbD

theorem range_cut (i : ℕ) (hi : i < 32) :
    List.range 32 = List.range i ++ i :: List.range' (i + 1) (31 - i) := by
  have tail : i :: List.range' (i + 1) (31 - i) = List.range' i (32 - i) := by
    rw [show 32 - i = (31 - i) + 1 by omega, List.range'_succ]
  rw [tail, List.range_eq_range', List.range_eq_range']
  have glue := List.range'_append_1 (s := 0) (m := i) (n := 32 - i)
  rw [Nat.zero_add, Nat.add_sub_cancel' (by omega)] at glue
  exact glue.symm

theorem positions_cut (bits : BitVec 32) (i : ℕ) (hi : i < 32) :
    positions bits =
      setBelow bits i ++ (if bits.getLsbD i then [i] else []) ++ setAbove bits i := by
  unfold positions setBelow setAbove
  rw [range_cut i hi, List.filter_append, List.filter_cons]
  by_cases set : bits.getLsbD i <;> simp [set]

theorem mem_setBelow {bits : BitVec 32} {i j : ℕ} (h : j ∈ setBelow bits i) : j < i := by
  simp only [setBelow, List.mem_filter, List.mem_range] at h
  exact h.1

theorem mem_setAbove {bits : BitVec 32} {i j : ℕ} (h : j ∈ setAbove bits i) : i < j := by
  simp only [setAbove, List.mem_filter, List.mem_range'_1] at h
  omega

theorem rank_eq (bits : BitVec 32) (i : ℕ) : rank bits i = (setBelow bits i).length :=
  List.countP_eq_length_filter

theorem getLsbD_occupy (bits : BitVec 32) (i j : ℕ) (hi : i < 32) :
    (occupy bits i).getLsbD j = (bits.getLsbD j || decide (i = j)) := by
  by_cases same : i = j
  · subst same
    simp [occupy, hi]
  · simp [occupy, same]

theorem getLsbD_vacate (bits : BitVec 32) (i j : ℕ) (hj : j < 32) :
    (vacate bits i).getLsbD j = (bits.getLsbD j && decide (i ≠ j)) := by
  by_cases same : i = j
  · subst same
    simp [vacate, hj]
  · simp [vacate, same, hj, Ne.symm same]

theorem setBelow_congr {bits other : BitVec 32} {i : ℕ}
    (same : ∀ j, j < i → bits.getLsbD j = other.getLsbD j) :
    setBelow bits i = setBelow other i := by
  apply List.filter_congr
  intro j hj
  exact same j (List.mem_range.1 hj)

theorem setAbove_congr {bits other : BitVec 32} {i : ℕ}
    (same : ∀ j, i < j → j < 32 → bits.getLsbD j = other.getLsbD j) :
    setAbove bits i = setAbove other i := by
  apply List.filter_congr
  intro j hj
  rw [List.mem_range'_1] at hj
  exact same j (by omega) (by omega)

theorem positions_of_set {bits : BitVec 32} {i : ℕ} (hi : i < 32) (set : bits.getLsbD i = true) :
    positions bits = setBelow bits i ++ i :: setAbove bits i := by
  rw [positions_cut bits i hi]
  simp [set]

theorem positions_of_clear {bits : BitVec 32} {i : ℕ} (hi : i < 32)
    (clear : bits.getLsbD i = false) : positions bits = setBelow bits i ++ setAbove bits i := by
  rw [positions_cut bits i hi]
  simp [clear]

theorem positions_occupy (bits : BitVec 32) (i : ℕ) (hi : i < 32) :
    positions (occupy bits i) = setBelow bits i ++ i :: setAbove bits i := by
  rw [positions_of_set hi (by simp [getLsbD_occupy bits i i hi])]
  congr 1
  · apply setBelow_congr
    intro j hj
    rw [getLsbD_occupy bits i j hi]
    simp [show i ≠ j by omega]
  · congr 1
    apply setAbove_congr
    intro j hj _
    rw [getLsbD_occupy bits i j hi]
    simp [show i ≠ j by omega]

theorem positions_vacate (bits : BitVec 32) (i : ℕ) (hi : i < 32) :
    positions (vacate bits i) = setBelow bits i ++ setAbove bits i := by
  rw [positions_of_clear hi (by simp [getLsbD_vacate bits i i hi])]
  congr 1
  · apply setBelow_congr
    intro j hj
    rw [getLsbD_vacate bits i j (by omega)]
    simp [show i ≠ j by omega]
  · apply setAbove_congr
    intro j hj hw
    rw [getLsbD_vacate bits i j hw]
    simp [show i ≠ j by omega]

theorem filter_zero (xs : List ℕ) : xs.filter (0 : BitVec 32).getLsbD = [] := by
  simp [List.filter_eq_nil_iff]

theorem positions_zero : positions 0 = [] :=
  filter_zero _

theorem positions_nodup (bits : BitVec 32) : (positions bits).Nodup :=
  List.nodup_range.filter _

theorem positions_single (i : ℕ) (hi : i < 32) : positions (occupy 0 i) = [i] := by
  rw [positions_occupy 0 i hi, setBelow, setAbove, filter_zero, filter_zero]
  rfl

theorem occupy_comm (bits : BitVec 32) (i j : ℕ) :
    occupy (occupy bits i) j = occupy (occupy bits j) i := by
  unfold occupy
  rw [BitVec.or_assoc, BitVec.or_assoc, BitVec.or_comm (BitVec.twoPow 32 i)]

theorem positions_double {i j : ℕ} (hij : i < j) (hj : j < 32) :
    positions (occupy (occupy 0 i) j) = [i, j] := by
  have hi : i < 32 := by omega
  have clear : (occupy 0 i).getLsbD j = false := by
    rw [getLsbD_occupy 0 i j hi]
    simp [show i ≠ j by omega]
  have cut := positions_of_clear hj clear
  rw [positions_single i hi] at cut
  rw [positions_occupy _ j hj]
  -- bit `i` stands in front of the cut, so nothing stands behind it
  rcases List.append_eq_singleton_iff.1 cut.symm with ⟨_, behind⟩ | ⟨front, behind⟩
  · have above : i ∈ setAbove (occupy 0 i) j := by
      rw [behind]
      exact List.mem_singleton_self i
    have := mem_setAbove above
    omega
  · rw [front, behind]
    rfl

end Persistent.Trie
