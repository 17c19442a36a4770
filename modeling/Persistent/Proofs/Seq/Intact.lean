import Mathlib.Data.Nat.Notation
import Persistent.Seq.Store

/-!
Stores of lazy cells in which each source has at most one pending cell. Looking at a cell settles
it, and puts a new cell over the same source behind it.
-/

set_option autoImplicit false

namespace Persistent

variable {α : Type}

namespace Store

/-- Cells name sources that exist and cells below `n`, and each source has one pending cell at
most. -/
structure IntactBelow (n : ℕ) (st : Store α) : Prop where
  source_lt : ∀ (i : ℕ) (c : Cell α), st.cells[i]? = some c → c.source < st.sources.size
  next_lt : ∀ (i : ℕ) (c : Cell α) (x : α) (next : ℕ), st.cells[i]? = some c →
    c.step = some (some (x, next)) → next < n
  alone : ∀ (i j : ℕ) (c d : Cell α), st.cells[i]? = some c → st.cells[j]? = some d →
    c.step = none → d.step = none → c.source = d.source → i = j

abbrev Intact (st : Store α) : Prop :=
  st.IntactBelow st.cells.size

theorem intact_empty : ({} : Store α).Intact where
  source_lt _ _ impossible := nomatch impossible
  next_lt _ _ _ _ impossible := nomatch impossible
  alone _ _ _ _ impossible := nomatch impossible

/-- A pending cell with its source. -/
structure Pending (st : Store α) (cell : ℕ) (c : Cell α) (s : Source α) : Prop where
  cell_eq : st.cells[cell]? = some c
  unforced : c.step = none
  source_eq : st.sources[c.source]? = some s

/-- The store after the source of a pending cell has answered `step`. -/
def settle (st : Store α) (cell : ℕ) (c : Cell α) (s : Source α) (step : Option (α × ℕ)) :
    Store α where
  cells := st.cells.setIfInBounds cell { c with step := some step }
  sources := st.sources.setIfInBounds c.source { s with calls := s.calls + 1 }

/-- A new pending cell over a source. -/
def grow (st : Store α) (source : ℕ) : Store α :=
  { st with cells := st.cells.push { source } }

/-- What looking at a cell can do. -/
inductive Forces (st : Store α) (cell : ℕ) : Option (α × ℕ) × Store α → Prop
  | missing (absent : st.cells[cell]? = none) : Forces st cell (none, st)
  | known {c : Cell α} {step : Option (α × ℕ)} (here : st.cells[cell]? = some c)
      (settled : c.step = some step) : Forces st cell (step, st)
  | ended {c : Cell α} {s : Source α} (p : st.Pending cell c s)
      (done : s.answer s.calls = none) : Forces st cell (none, st.settle cell c s none)
  | item {c : Cell α} {s : Source α} {x : α} (p : st.Pending cell c s)
      (yielded : s.answer s.calls = some x) :
      Forces st cell (some (x, st.cells.size),
        (st.settle cell c s (some (x, st.cells.size))).grow c.source)

theorem force_known {st : Store α} {cell : ℕ} {c : Cell α} {step : Option (α × ℕ)}
    (here : st.cells[cell]? = some c) (settled : c.step = some step) :
    st.force cell = (step, st) := by
  unfold force
  rw [here]
  dsimp only
  rw [settled]

section Pending

variable {st : Store α} {cell : ℕ} {c : Cell α} {s : Source α} (p : st.Pending cell c s)
include p

theorem Pending.lt_size : cell < st.cells.size :=
  (Array.getElem?_eq_some_iff.1 p.cell_eq).1

theorem force_end (done : s.answer s.calls = none) :
    st.force cell = (none, st.settle cell c s none) := by
  unfold force
  rw [p.cell_eq]
  dsimp only
  rw [p.unforced, p.source_eq]
  dsimp only
  rw [done]
  rfl

theorem force_item {x : α} (yielded : s.answer s.calls = some x) :
    st.force cell = (some (x, st.cells.size),
      (st.settle cell c s (some (x, st.cells.size))).grow c.source) := by
  unfold force
  rw [p.cell_eq]
  dsimp only
  rw [p.unforced, p.source_eq]
  dsimp only
  rw [yielded]
  rfl

theorem settle_cells (step : Option (α × ℕ)) (i : ℕ) :
    (st.settle cell c s step).cells[i]? =
      if i = cell then some { c with step := some step } else st.cells[i]? := by
  unfold settle
  rw [Array.getElem?_setIfInBounds, if_pos p.lt_size]
  by_cases here : cell = i
  · rw [if_pos here, if_pos here.symm]
  · rw [if_neg here, if_neg (Ne.symm here)]

theorem settle_sources (step : Option (α × ℕ)) (j : ℕ) :
    (st.settle cell c s step).sources[j]? =
      if j = c.source then some { s with calls := s.calls + 1 } else st.sources[j]? := by
  have inside := (Array.getElem?_eq_some_iff.1 p.source_eq).1
  unfold settle
  rw [Array.getElem?_setIfInBounds, if_pos inside]
  by_cases here : c.source = j
  · rw [if_pos here, if_pos here.symm]
  · rw [if_neg here, if_neg (Ne.symm here)]

omit p in
theorem grow_cells (st : Store α) (source i : ℕ) :
    (st.grow source).cells[i]? =
      if i = st.cells.size then some { source } else st.cells[i]? :=
  Array.getElem?_push

omit p in
@[simp]
theorem settle_size (step : Option (α × ℕ)) :
    (st.settle cell c s step).cells.size = st.cells.size :=
  Array.size_setIfInBounds

omit p in
@[simp]
theorem grow_size (st : Store α) (source : ℕ) :
    (st.grow source).cells.size = st.cells.size + 1 :=
  Array.size_push _

omit p in
@[simp]
theorem wrap_size (st : Store α) (answer : ℕ → Option α) :
    (st.wrap answer).2.cells.size = st.cells.size + 1 :=
  Array.size_push _

/-- Settling the pending cell of a source leaves that source without one. -/
theorem intact_settle (intact : st.Intact) {step : Option (α × ℕ)} {n : ℕ}
    (le : st.cells.size ≤ n) (next_lt : ∀ x next, step = some (x, next) → next < n) :
    (st.settle cell c s step).IntactBelow n ∧ ∀ (i : ℕ) (d : Cell α),
      (st.settle cell c s step).cells[i]? = some d → d.step = none → d.source ≠ c.source := by
  have sizes : (st.settle cell c s step).sources.size = st.sources.size :=
    Array.size_setIfInBounds
  refine ⟨⟨?_, ?_, ?_⟩, ?_⟩
  · intro i d hd
    rw [sizes]
    rw [settle_cells p] at hd
    split at hd
    · cases hd
      exact intact.source_lt cell c p.cell_eq
    · exact intact.source_lt i d hd
  · intro i d x next hd stepped
    rw [settle_cells p] at hd
    split at hd
    · cases hd
      exact next_lt x next (Option.some.inj stepped)
    · exact Nat.lt_of_lt_of_le (intact.next_lt i d x next hd stepped) le
  · intro i j d e hd he unforced unforced' same
    rw [settle_cells p] at hd he
    split at hd
    · cases hd
      cases unforced
    · split at he
      · cases he
        cases unforced'
      · exact intact.alone i j d e hd he unforced unforced' same
  · intro i d hd unforced same
    rw [settle_cells p] at hd
    split at hd
    case isTrue =>
      cases hd
      cases unforced
    case isFalse other =>
      exact other (intact.alone i cell d c hd p.cell_eq unforced p.unforced same)

end Pending

theorem forces {st : Store α} (intact : st.Intact) (cell : ℕ) :
    Forces st cell (st.force cell) := by
  cases here : st.cells[cell]? with
  | none =>
    unfold force
    rw [here]
    exact .missing here
  | some c =>
    cases step : c.step with
    | some step' =>
      rw [force_known here step]
      exact .known here step
    | none =>
      have inside := intact.source_lt cell c here
      obtain ⟨s, source⟩ : ∃ s, st.sources[c.source]? = some s :=
        ⟨_, Array.getElem?_eq_getElem inside⟩
      have p : st.Pending cell c s := ⟨here, step, source⟩
      cases answer : s.answer s.calls with
      | none =>
        rw [force_end p answer]
        exact .ended p answer
      | some x =>
        rw [force_item p answer]
        exact .item p answer

theorem intact_grow {st : Store α} (intact : st.IntactBelow (st.cells.size + 1)) {source : ℕ}
    (inside : source < st.sources.size)
    (idle : ∀ (i : ℕ) (d : Cell α), st.cells[i]? = some d → d.step = none → d.source ≠ source) :
    (st.grow source).Intact := by
  refine ⟨?_, ?_, ?_⟩
  · intro i d hd
    rw [grow_cells] at hd
    split at hd
    · cases hd
      exact inside
    · exact intact.source_lt i d hd
  · intro i d x next hd stepped
    rw [grow_cells] at hd
    rw [grow_size]
    split at hd
    · cases hd
      cases stepped
    · exact intact.next_lt i d x next hd stepped
  · intro i j d e hd he unforced unforced' same
    rw [grow_cells] at hd he
    split at hd
    case isTrue hi =>
      split at he
      case isTrue hj => exact hi.trans hj.symm
      case isFalse =>
        cases hd
        exact absurd same.symm (idle j e he unforced')
    case isFalse =>
      split at he
      case isTrue =>
        cases he
        exact absurd same (idle i d hd unforced)
      case isFalse => exact intact.alone i j d e hd he unforced unforced' same

theorem intact_force {st : Store α} (intact : st.Intact) (cell : ℕ) :
    (st.force cell).2.Intact := by
  have done := forces intact cell
  generalize st.force cell = r at done ⊢
  cases done with
  | missing | known => exact intact
  | @ended c s p =>
    have settled := (intact_settle p intact (Nat.le_refl _)
      (show ∀ x next, none = some (x, next) → _ from nofun)).1
    rwa [Intact, settle_size]
  | @item c s x p =>
    obtain ⟨settled, idle⟩ := intact_settle p intact (Nat.le_succ st.cells.size)
      (show ∀ y next, some (x, st.cells.size) = some (y, next) → next < st.cells.size + 1 by
        rintro y next ⟨⟩
        exact Nat.lt_succ_self _)
    have inside : c.source < (st.settle cell c s (some (x, st.cells.size))).sources.size := by
      rw [settle, Array.size_setIfInBounds]
      exact intact.source_lt cell c p.cell_eq
    exact intact_grow (by simpa using settled) inside idle

theorem intact_wrap {st : Store α} (intact : st.Intact) (answer : ℕ → Option α) :
    (st.wrap answer).2.Intact := by
  have more : ({ st with sources := st.sources.push { answer } } : Store α).IntactBelow
      (st.cells.size + 1) := by
    refine ⟨?_, ?_, intact.alone⟩
    · intro i d hd
      rw [Array.size_push]
      exact Nat.lt_succ_of_lt (intact.source_lt i d hd)
    · intro i d x next hd stepped
      exact Nat.lt_succ_of_lt (intact.next_lt i d x next hd stepped)
  have inside : st.sources.size < (st.sources.push { answer }).size := by
    rw [Array.size_push]
    exact Nat.lt_succ_self _
  have grown : (grow { st with sources := st.sources.push { answer } } st.sources.size).Intact :=
    intact_grow more inside fun i d hd _ => Nat.ne_of_lt (intact.source_lt i d hd)
  exact grown

end Store

end Persistent
