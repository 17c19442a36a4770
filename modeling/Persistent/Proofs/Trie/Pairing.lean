import Persistent.Proofs.Trie.Descent

/-!
Telling two tries apart. The recursion goes on while the hashes share their fragments, and it has no
bound of its own: past the last bit all fragments are the same. Two hashes that agree in the
fragments in front of it still differ in one of those behind, so it ends, and what it makes leads
either hash to its own trie.
-/

set_option autoImplicit false

namespace Persistent.Trie

variable {K V : Type}

/-- The recursion of `pair` with no bound on the shift. A number of calls is allowed instead, and it
ends where some number is enough. -/
def pairWithin? (h₁ : UInt64) (t₁ : Trie K V) (h₂ : UInt64) (t₂ : Trie K V) :
    ℕ → ℕ → Option (Trie K V)
  | 0, _ => none
  | calls + 1, shift =>
    let f₁ := fragment h₁ shift
    let f₂ := fragment h₂ shift
    if h₁ = h₂ then some (.collision h₁ (t₁.single ++ t₂.single))
    else if f₁ = f₂ then
      (pairWithin? h₁ t₁ h₂ t₂ calls (shift + 5)).map fun child => .branch (occupy 0 f₁) [child]
    else some (.branch (occupy (occupy 0 f₁) f₂) (if f₁ < f₂ then [t₁, t₂] else [t₂, t₁]))

/-- From `shift` on the hashes share their fragments, up to the one at `bottom`. -/
inductive Parts (h₁ h₂ : UInt64) : ℕ → ℕ → Prop
  | here {shift : ℕ} (apart : fragment h₁ shift ≠ fragment h₂ shift) : Parts h₁ h₂ shift shift
  | along {shift bottom : ℕ} (same : fragment h₁ shift = fragment h₂ shift)
      (further : Parts h₁ h₂ (shift + 5) bottom) : Parts h₁ h₂ shift bottom

/-- Branches of one slot each, on the way of `h` from a trie at one shift to one at another. -/
inductive Chain (h : UInt64) : ℕ → Trie K V → ℕ → Trie K V → Prop
  | done {shift : ℕ} {t : Trie K V} : Chain h shift t shift t
  | link {shift bottom : ℕ} {child t : Trie K V} (below : Chain h (shift + 5) child bottom t) :
      Chain h shift (.branch (occupy 0 (fragment h shift)) [child]) bottom t

/-- A branch of two slots, which stand in the order of the fragments that occupy them. -/
inductive Forks (shift : ℕ) (h₁ : UInt64) (t₁ : Trie K V) (h₂ : UInt64) (t₂ : Trie K V) :
    Trie K V → Prop
  | ahead {bits : BitVec 32} (less : fragment h₁ shift < fragment h₂ shift)
      (occupied : positions bits = [fragment h₁ shift, fragment h₂ shift]) :
      Forks shift h₁ t₁ h₂ t₂ (.branch bits [t₁, t₂])
  | behind {bits : BitVec 32} (less : fragment h₂ shift < fragment h₁ shift)
      (occupied : positions bits = [fragment h₂ shift, fragment h₁ shift]) :
      Forks shift h₁ t₁ h₂ t₂ (.branch bits [t₂, t₁])

/-- A trie at `shift` that tells two others apart, at the branch `fork` at `bottom`. -/
structure Separates (shift : ℕ) (h₁ : UInt64) (t₁ : Trie K V) (h₂ : UInt64) (t₂ t : Trie K V)
    (bottom : ℕ) (fork : Trie K V) : Prop where
  shallow : bottom ≤ 60
  chain_left : Chain h₁ shift t bottom fork
  chain_right : Chain h₂ shift t bottom fork
  forks : Forks bottom h₁ t₁ h₂ t₂ fork
  leads_left : Leads h₁ shift t (bottom + 5) t₁
  leads_right : Leads h₂ shift t (bottom + 5) t₂
  find_left : ∀ same, t.find? h₁ same shift = t₁.find? h₁ same (bottom + 5)
  find_right : ∀ same, t.find? h₂ same shift = t₂.find? h₂ same (bottom + 5)

/-- What comes of two tries that are paired at `shift`. Thirteen calls are always enough. -/
structure Paired (shift : ℕ) (h₁ : UInt64) (t₁ : Trie K V) (h₂ : UInt64) (t₂ : Trie K V) :
    Prop where
  ends : ∀ calls ≥ 13, pairWithin? h₁ t₁ h₂ t₂ calls shift = some (pair shift h₁ t₁ h₂ t₂)
  separates : h₁ ≠ h₂ →
    ∃ bottom fork, Separates shift h₁ t₁ h₂ t₂ (pair shift h₁ t₁ h₂ t₂) bottom fork
  collides : h₁ = h₂ → ∀ a k v b l w, t₁ = .entry a k v → t₂ = .entry b l w →
    pair shift h₁ t₁ h₂ t₂ = .collision h₁ [(k, v), (l, w)]

namespace Parts

variable {h₁ h₂ : UInt64}

theorem shift_le {shift bottom : ℕ} (parts : Parts h₁ h₂ shift bottom) : shift ≤ bottom := by
  induction parts with
  | here => exact Nat.le_refl _
  | along _ _ ih => omega

theorem apart {shift bottom : ℕ} (parts : Parts h₁ h₂ shift bottom) :
    fragment h₁ bottom ≠ fragment h₂ bottom := by
  induction parts with
  | here apart => exact apart
  | along _ _ ih => exact ih

theorem bottom_lt {shift bottom : ℕ} (parts : Parts h₁ h₂ shift bottom) : bottom < 64 := by
  apply Nat.lt_of_not_le
  intro past
  apply parts.apart
  rw [fragment_past h₁ past, fragment_past h₂ past]

theorem exists_of_apart {shift d : ℕ}
    (apart : fragment h₁ (shift + 5 * d) ≠ fragment h₂ (shift + 5 * d)) :
    ∃ bottom ≤ shift + 5 * d, Parts h₁ h₂ shift bottom := by
  induction d generalizing shift with
  | zero => exact ⟨shift, Nat.le_refl _, .here apart⟩
  | succ d ih =>
    by_cases same : fragment h₁ shift = fragment h₂ shift
    · rw [show shift + 5 * (d + 1) = shift + 5 + 5 * d by omega] at apart
      obtain ⟨bottom, le, parts⟩ := ih apart
      exact ⟨bottom, by omega, .along same parts⟩
    · exact ⟨shift, by omega, .here same⟩

/-- Distinct hashes that agree in front of the shift part behind it, at shift 60 at the latest. -/
theorem exists_of_agree {d : ℕ} (ne : h₁ ≠ h₂)
    (agree : ∀ i < d, fragment h₁ (5 * i) = fragment h₂ (5 * i)) :
    ∃ bottom ≤ 60, Parts h₁ h₂ (5 * d) bottom := by
  -- some fragment differs, and none of those in front of the shift does
  obtain ⟨i, le, apart⟩ := exists_apart ne
  have behind : d ≤ i := Nat.le_of_not_lt fun inside => apart (agree i inside)
  rw [show 5 * i = 5 * d + 5 * (i - d) by omega] at apart
  obtain ⟨bottom, le', parts⟩ := exists_of_apart apart
  exact ⟨bottom, by omega, parts⟩

end Parts

theorem forks_pair {shift : ℕ} {h₁ h₂ : UInt64} (t₁ t₂ : Trie K V) (ne : h₁ ≠ h₂)
    (apart : fragment h₁ shift ≠ fragment h₂ shift) :
    Forks shift h₁ t₁ h₂ t₂ (pair shift h₁ t₁ h₂ t₂) := by
  rw [pair_here t₁ t₂ ne apart]
  by_cases less : fragment h₁ shift < fragment h₂ shift
  · rw [if_pos less]
    exact .ahead less (positions_double less (fragment_lt h₂ shift))
  · have less' : fragment h₂ shift < fragment h₁ shift := by omega
    rw [if_neg less, occupy_comm]
    exact .behind less' (positions_double less' (fragment_lt h₁ shift))

theorem Chain.leads {h : UInt64} {shift bottom : ℕ} {t s : Trie K V}
    (chain : Chain h shift t bottom s) : Leads h shift t bottom s := by
  induction chain with
  | done => exact .here
  | @link shift _ child _ _ ih =>
    obtain ⟨set, there⟩ := found_under [] [] [] child (positions_single _ (fragment_lt h shift))
      rfl
    exact .down set there ih

namespace Forks

variable {shift : ℕ} {h₁ h₂ : UInt64} {t₁ t₂ t : Trie K V}

theorem symm (forks : Forks shift h₁ t₁ h₂ t₂ t) : Forks shift h₂ t₂ h₁ t₁ t := by
  cases forks with
  | ahead less occupied => exact .behind less occupied
  | behind less occupied => exact .ahead less occupied

theorem leads (forks : Forks shift h₁ t₁ h₂ t₂ t) : Leads h₁ shift t (shift + 5) t₁ := by
  cases forks with
  | ahead less occupied =>
    obtain ⟨set, there⟩ := found_under [] [] [t₂] t₁ occupied rfl
    exact .down set there .here
  | behind less occupied =>
    obtain ⟨set, there⟩ := found_under [fragment h₂ shift] [t₂] [] t₁ occupied rfl
    exact .down set there .here

end Forks

section Pair

variable {shift bottom : ℕ} {h₁ h₂ : UInt64} (t₁ t₂ : Trie K V)

theorem chain_pair (parts : Parts h₁ h₂ shift bottom) (ne : h₁ ≠ h₂) :
    Chain h₁ shift (pair shift h₁ t₁ h₂ t₂) bottom (pair bottom h₁ t₁ h₂ t₂) ∧
      Chain h₂ shift (pair shift h₁ t₁ h₂ t₂) bottom (pair bottom h₁ t₁ h₂ t₂) := by
  induction parts with
  | here => exact ⟨.done, .done⟩
  | along same further ih =>
    have le := further.shift_le
    have lt := further.bottom_lt
    obtain ⟨chain, chain'⟩ := ih
    rw [pair_below t₁ t₂ ne same (by omega)]
    refine ⟨.link chain, ?_⟩
    rw [same]
    exact .link chain'

theorem separates_pair (parts : Parts h₁ h₂ shift bottom) (ne : h₁ ≠ h₂) (shallow : bottom ≤ 60) :
    Separates shift h₁ t₁ h₂ t₂ (pair shift h₁ t₁ h₂ t₂) bottom (pair bottom h₁ t₁ h₂ t₂) := by
  -- down the chain both go together, at the fork each goes its own way
  obtain ⟨chain, chain'⟩ := chain_pair t₁ t₂ parts ne
  have forks := forks_pair t₁ t₂ ne parts.apart
  have leads := chain.leads.trans forks.leads
  have leads' := chain'.leads.trans forks.symm.leads
  exact ⟨shallow, chain, chain', forks, leads, leads', leads.find?_eq, leads'.find?_eq⟩

theorem pairWithin?_same (same : h₁ = h₂) (calls : ℕ) :
    pairWithin? h₁ t₁ h₂ t₂ (calls + 1) shift = some (pair shift h₁ t₁ h₂ t₂) := by
  rw [pairWithin?, pair_same t₁ t₂ same, if_pos same]

theorem pairWithin?_parts (parts : Parts h₁ h₂ shift bottom) (ne : h₁ ≠ h₂) {calls : ℕ}
    (enough : bottom < shift + 5 * calls) :
    pairWithin? h₁ t₁ h₂ t₂ calls shift = some (pair shift h₁ t₁ h₂ t₂) := by
  induction parts generalizing calls with
  | here apart =>
    obtain ⟨calls, rfl⟩ : ∃ n, calls = n + 1 := Nat.exists_eq_succ_of_ne_zero (by omega)
    rw [pairWithin?, pair_here t₁ t₂ ne apart, if_neg ne, if_neg apart]
  | @along shift bottom same further ih =>
    have le := further.shift_le
    have lt := further.bottom_lt
    obtain ⟨calls, rfl⟩ : ∃ n, calls = n + 1 := Nat.exists_eq_succ_of_ne_zero (by omega)
    have below : pairWithin? h₁ t₁ h₂ t₂ calls (shift + 5) = some _ := ih (by omega)
    rw [pairWithin?, pair_below t₁ t₂ ne same (by omega), if_neg ne, if_pos same, below]
    rfl

/-- The recursion has no end for distinct hashes that agree in every fragment it comes to. -/
theorem pairWithin?_eq_none_iff : (∀ calls, pairWithin? h₁ t₁ h₂ t₂ calls shift = none) ↔
    h₁ ≠ h₂ ∧ ∀ d, fragment h₁ (shift + 5 * d) = fragment h₂ (shift + 5 * d) := by
  constructor
  · intro endless
    have ne : h₁ ≠ h₂ := by
      intro same
      have ends : pairWithin? h₁ t₁ h₂ t₂ 1 shift = some _ := pairWithin?_same t₁ t₂ same 0
      rw [endless] at ends
      cases ends
    refine ⟨ne, fun d => ?_⟩
    by_contra apart
    obtain ⟨bottom, -, parts⟩ := Parts.exists_of_apart apart
    have enough : bottom < shift + 5 * (bottom + 1) := by omega
    have ends := pairWithin?_parts t₁ t₂ parts ne enough
    rw [endless] at ends
    cases ends
  · rintro ⟨ne, agree⟩ calls
    induction calls generalizing shift with
    | zero => rfl
    | succ calls ih =>
      have below : pairWithin? h₁ t₁ h₂ t₂ calls (shift + 5) = none := by
        apply ih
        intro d
        rw [show shift + 5 + 5 * d = shift + 5 * (d + 1) by omega]
        exact agree (d + 1)
      have here : fragment h₁ shift = fragment h₂ shift := agree 0
      rw [pairWithin?, if_neg ne, if_pos here, below]
      rfl

theorem pairWithin?_past (past : 64 ≤ shift) (ne : h₁ ≠ h₂) (calls : ℕ) :
    pairWithin? h₁ t₁ h₂ t₂ calls shift = none := by
  refine (pairWithin?_eq_none_iff t₁ t₂).2 ⟨ne, fun d => ?_⟩ calls
  rw [fragment_past h₁ (by omega), fragment_past h₂ (by omega)]

end Pair

/-- Two hashes that agree in front of the shift, as they do wherever an insertion comes to it. -/
theorem paired_of_agree {d : ℕ} {h₁ h₂ : UInt64}
    (agree : ∀ i < d, fragment h₁ (5 * i) = fragment h₂ (5 * i)) (t₁ t₂ : Trie K V) :
    Paired (5 * d) h₁ t₁ h₂ t₂ where
  ends calls enough := by
    by_cases same : h₁ = h₂
    · obtain ⟨calls, rfl⟩ : ∃ n, calls = n + 1 := Nat.exists_eq_succ_of_ne_zero (by omega)
      exact pairWithin?_same t₁ t₂ same calls
    · obtain ⟨bottom, shallow, parts⟩ := Parts.exists_of_agree same agree
      exact pairWithin?_parts t₁ t₂ parts same (by omega)
  separates ne := by
    obtain ⟨bottom, shallow, parts⟩ := Parts.exists_of_agree ne agree
    exact ⟨bottom, _, separates_pair t₁ t₂ parts ne shallow⟩
  collides same := by
    rintro a k v b l w rfl rfl
    exact pair_same _ _ same

end Persistent.Trie
