import Mathlib.Algebra.Group.Nat.Defs
import Persistent.Trie.Basic

/-!
Paths: the fragments read on the way from the root to a node. Two hashes on one path of thirteen
fragments agree in all their 64 bits, so no branch needs to stand deeper than shift 60. The first
fragment that tells two hashes apart puts them in the order of the slots they lead to.
-/

set_option autoImplicit false

namespace Persistent.Trie

/-- The first fragments of `h` spell the path. -/
def OnPath (path : List ℕ) (h : UInt64) : Prop :=
  ∀ d i, path[d]? = some i → fragment h (5 * d) = i

theorem onPath_nil (h : UInt64) : OnPath [] h := by
  intro d i step
  simp at step

theorem onPath_concat (path : List ℕ) (i : ℕ) (h : UInt64) :
    OnPath (path ++ [i]) h ↔ OnPath path h ∧ fragment h (5 * path.length) = i := by
  constructor
  · intro on
    constructor
    · intro d j step
      apply on d j
      have inside := (List.getElem?_eq_some_iff.1 step).1
      rw [List.getElem?_append_left inside]
      exact step
    · exact on path.length i List.getElem?_concat_length
  · rintro ⟨on, last⟩ d j step
    by_cases inside : d < path.length
    · rw [List.getElem?_append_left inside] at step
      exact on d j step
    · have bound := (List.getElem?_eq_some_iff.1 step).1
      rw [List.length_append, List.length_singleton] at bound
      have here : d = path.length := by omega
      subst here
      rw [List.getElem?_concat_length] at step
      rw [last]
      exact Option.some.inj step

theorem fragment_lt (h : UInt64) (shift : ℕ) : fragment h shift < 32 :=
  Nat.mod_lt _ (by decide)

theorem fragment_past (h : UInt64) {shift : ℕ} (past : 64 ≤ shift) : fragment h shift = 0 := by
  have small : h.toNat < 2 ^ shift :=
    Nat.lt_of_lt_of_le h.toNat_lt (Nat.pow_le_pow_right (by decide) past)
  rw [fragment, Nat.shiftRight_eq_zero _ _ small]

theorem OnPath.fragment_eq {path : List ℕ} {h₁ h₂ : UInt64} (on₁ : OnPath path h₁)
    (on₂ : OnPath path h₂) : ∀ d < path.length, fragment h₁ (5 * d) = fragment h₂ (5 * d) := by
  intro d inside
  have here : path[d]? = some path[d] := List.getElem?_eq_getElem inside
  exact (on₁ d _ here).trans (on₂ d _ here).symm

theorem low_bits_eq {path : List ℕ} {h₁ h₂ : UInt64} (on₁ : OnPath path h₁)
    (on₂ : OnPath path h₂) (d : ℕ) (hd : d ≤ path.length) :
    h₁.toNat % 2 ^ (5 * d) = h₂.toNat % 2 ^ (5 * d) := by
  induction d with
  | zero => simp [Nat.mod_one]
  | succ d ih =>
    have same := on₁.fragment_eq on₂ d (by omega)
    unfold fragment at same
    rw [Nat.shiftRight_eq_div_pow, Nat.shiftRight_eq_div_pow] at same
    rw [show 5 * (d + 1) = 5 * d + 5 by omega, Nat.pow_add, Nat.mod_mul, Nat.mod_mul,
      ih (by omega)]
    exact congrArg (fun n => h₂.toNat % 2 ^ (5 * d) + 2 ^ (5 * d) * n) same

/-- Thirteen fragments hold 65 bits. -/
theorem eq_of_long_path {path : List ℕ} {h₁ h₂ : UInt64} (on₁ : OnPath path h₁)
    (on₂ : OnPath path h₂) (long : 13 ≤ path.length) : h₁ = h₂ := by
  have bits := low_bits_eq on₁ on₂ 13 long
  have small (h : UInt64) : h.toNat < 2 ^ (5 * 13) := by
    have := h.toNat_lt
    omega
  rw [Nat.mod_eq_of_lt (small h₁), Nat.mod_eq_of_lt (small h₂)] at bits
  exact UInt64.toNat_inj.1 bits

theorem length_le_of_ne {path : List ℕ} {h₁ h₂ : UInt64} (on₁ : OnPath path h₁)
    (on₂ : OnPath path h₂) (ne : h₁ ≠ h₂) : path.length ≤ 12 := by
  apply Nat.le_of_not_lt; intro long
  exact ne (eq_of_long_path on₁ on₂ (by omega))

/-- The first `n` fragments of a hash, the least significant first. -/
def spelling (h : UInt64) (n : ℕ) : List ℕ :=
  (List.range n).map fun d => fragment h (5 * d)

theorem length_spelling (h : UInt64) (n : ℕ) : (spelling h n).length = n := by
  rw [spelling, List.length_map, List.length_range]

theorem getElem_spelling (h : UInt64) (n d : ℕ) (inside : d < (spelling h n).length) :
    (spelling h n)[d] = fragment h (5 * d) := by
  simp only [spelling, List.getElem_map, List.getElem_range]

theorem onPath_spelling_iff (h₁ h₂ : UInt64) (n : ℕ) :
    OnPath (spelling h₁ n) h₂ ↔ ∀ d < n, fragment h₁ (5 * d) = fragment h₂ (5 * d) := by
  constructor
  · intro on d inside
    rw [← length_spelling h₁ n] at inside
    rw [on d _ (List.getElem?_eq_getElem inside), getElem_spelling]
  · intro same d i step
    obtain ⟨inside, rfl⟩ := List.getElem?_eq_some_iff.1 step
    rw [getElem_spelling]
    rw [length_spelling] at inside
    exact (same d inside).symm

theorem eq_of_fragments {h₁ h₂ : UInt64}
    (same : ∀ d < 13, fragment h₁ (5 * d) = fragment h₂ (5 * d)) : h₁ = h₂ := by
  have on₁ : OnPath (spelling h₁ 13) h₁ := (onPath_spelling_iff h₁ h₁ 13).2 fun _ _ => rfl
  have on₂ : OnPath (spelling h₁ 13) h₂ := (onPath_spelling_iff h₁ h₂ 13).2 same
  exact eq_of_long_path on₁ on₂ (Nat.le_of_eq (length_spelling h₁ 13).symm)

theorem exists_apart {h₁ h₂ : UInt64} (ne : h₁ ≠ h₂) :
    ∃ d ≤ 12, fragment h₁ (5 * d) ≠ fragment h₂ (5 * d) := by
  apply Classical.byContradiction
  intro none
  apply ne
  apply eq_of_fragments
  intro d inside
  apply Decidable.byContradiction
  intro apart
  exact none ⟨d, Nat.le_of_lt_succ inside, apart⟩

/-- The first fragment that tells the hashes apart, from the least significant one up, is the
smaller one in `h₁`. -/
def Precedes (h₁ h₂ : UInt64) : Prop :=
  ∃ d, (∀ i < d, fragment h₁ (5 * i) = fragment h₂ (5 * i)) ∧
    fragment h₁ (5 * d) < fragment h₂ (5 * d)

/-- Behind a common path the next fragment decides. -/
theorem precedes_of_onPath {path : List ℕ} {h₁ h₂ : UInt64} (on₁ : OnPath path h₁)
    (on₂ : OnPath path h₂)
    (less : fragment h₁ (5 * path.length) < fragment h₂ (5 * path.length)) : Precedes h₁ h₂ :=
  ⟨path.length, on₁.fragment_eq on₂, less⟩

theorem Precedes.asymm {h₁ h₂ : UInt64} (first : Precedes h₁ h₂) : ¬ Precedes h₂ h₁ := by
  rintro ⟨e, same', less'⟩
  obtain ⟨d, same, less⟩ := first
  rcases Nat.lt_trichotomy d e with before | rfl | behind
  · have := same' d before
    omega
  · omega
  · have := same e behind
    omega

/-- Of two distinct hashes one precedes the other. -/
theorem eq_of_not_precedes {h₁ h₂ : UInt64} (not_first : ¬ Precedes h₁ h₂)
    (not_second : ¬ Precedes h₂ h₁) : h₁ = h₂ := by
  have same : ∀ d, fragment h₁ (5 * d) = fragment h₂ (5 * d) := by
    intro d
    induction d using Nat.strongRecOn with
    | ind d ih =>
      rcases Nat.lt_trichotomy (fragment h₁ (5 * d)) (fragment h₂ (5 * d)) with less | same | less
      · exact absurd ⟨d, ih, less⟩ not_first
      · exact same
      · exact absurd ⟨d, fun i inside => (ih i inside).symm, less⟩ not_second
  exact eq_of_fragments fun d _ => same d

end Persistent.Trie
