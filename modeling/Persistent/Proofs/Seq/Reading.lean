import Persistent.Proofs.Seq.Intact
import Persistent.Seq.Basic

/-!
What a sequence reads. The items that a lazy cell will yield are settled by its source and by the
number of calls made, since at most one cell of a source is pending. Looking at a cell changes the
store, but nothing that any sequence reads in it.
-/

set_option autoImplicit false

namespace Persistent

variable {α : Type}

/-- From call `k` on a source answers with the items and then with its end. -/
def Answers (answer : ℕ → Option α) : ℕ → List α → Prop
  | k, [] => answer k = none
  | k, x :: xs => answer k = some x ∧ Answers answer (k + 1) xs

namespace Seq

/-- The sequence has these items and then its end. -/
inductive Reads (st : Store α) : Seq α → List α → Prop
  | nil : Reads st .nil []
  | cons {x : α} {rest : Seq α} {xs : List α} (behind : Reads st rest xs) :
      Reads st (.cons x rest) (x :: xs)
  | list {x : α} {xs : List α} : Reads st (.list x xs) (x :: xs)
  | ended {cell : ℕ} {c : Cell α} (here : st.cells[cell]? = some c)
      (step : c.step = some none) : Reads st (.lazy cell) []
  | forced {cell next : ℕ} {c : Cell α} {x : α} {xs : List α}
      (here : st.cells[cell]? = some c) (step : c.step = some (some (x, next)))
      (behind : Reads st (.lazy next) xs) : Reads st (.lazy cell) (x :: xs)
  | pending {cell : ℕ} {c : Cell α} {s : Source α} {xs : List α} (p : st.Pending cell c s)
      (answers : Answers s.answer s.calls xs) : Reads st (.lazy cell) xs

theorem reads_ofList (st : Store α) (xs : List α) : Reads st (ofList xs) xs := by
  cases xs with
  | nil => exact .nil
  | cons x xs => exact .list

theorem reads_ofList_eq {st : Store α} {xs ys : List α} (reads : Reads st (ofList xs) ys) :
    ys = xs := by
  cases xs with
  | nil =>
    cases reads
    rfl
  | cons x xs =>
    cases reads
    rfl

/-- The store `st'` may have come from `st` by looking at cells and wrapping sources. -/
structure Later (st st' : Store α) : Prop where
  grows : st.cells.size ≤ st'.cells.size
  reads : ∀ s xs, Reads st s xs → Reads st' s xs

theorem Later.refl (st : Store α) : Later st st :=
  ⟨Nat.le_refl _, fun _ _ h => h⟩

theorem Later.trans {st st' st'' : Store α} (h : Later st st') (k : Later st' st'') :
    Later st st'' :=
  ⟨Nat.le_trans h.grows k.grows, fun s xs reads => k.reads s xs (h.reads s xs reads)⟩

/-- Cells that stay as they are read as before. -/
theorem reads_of_old {st st' : Store α} (cell : ℕ)
    (old : ∀ (i : ℕ) (c : Cell α), i ≠ cell → st.cells[i]? = some c → st'.cells[i]? = some c)
    (pending : ∀ (i : ℕ) (c : Cell α) (s : Source α), i ≠ cell → st.Pending i c s →
      st'.sources[c.source]? = some s)
    (changed : ∀ xs, Reads st (.lazy cell) xs → Reads st' (.lazy cell) xs) {s : Seq α}
    {xs : List α} (reads : Reads st s xs) : Reads st' s xs := by
  induction reads with
  | nil => exact .nil
  | cons _ ih => exact .cons ih
  | list => exact .list
  | @ended i c here step =>
    by_cases same : i = cell
    · subst same
      exact changed _ (.ended here step)
    · exact .ended (old i c same here) step
  | @forced i next c x xs here step behind ih =>
    by_cases same : i = cell
    · subst same
      exact changed _ (.forced here step behind)
    · exact .forced (old i c same here) step ih
  | @pending i c s xs p answers =>
    by_cases same : i = cell
    · subst same
      exact changed _ (.pending p answers)
    · exact .pending ⟨old i c same p.cell_eq, p.unforced, pending i c s same p⟩ answers

theorem later_wrap (st : Store α) (answer : ℕ → Option α) : Later st (st.wrap answer).2 := by
  refine ⟨by simp, fun s xs reads => ?_⟩
  apply reads_of_old st.cells.size ?_ ?_ ?_ reads
  · intro i c _ here
    have inside := (Array.getElem?_eq_some_iff.1 here).1
    rw [Store.wrap, Array.getElem?_push_lt inside, ← here, Array.getElem?_eq_getElem inside]
  · intro i c s _ p
    have inside := (Array.getElem?_eq_some_iff.1 p.source_eq).1
    rw [Store.wrap, Array.getElem?_push_lt inside, ← p.source_eq, Array.getElem?_eq_getElem inside]
  · intro xs reads
    have none : st.cells[st.cells.size]? = none := Array.getElem?_eq_none (Nat.le_refl _)
    cases reads with
    | ended here | forced here => cases none.symm.trans here
    | pending p => cases none.symm.trans p.cell_eq

section Force

variable {st : Store α} (intact : st.Intact) {cell : ℕ} {c : Cell α} {s : Source α}
  (p : st.Pending cell c s)
include p

theorem answers_of_reads {xs : List α} (reads : Reads st (.lazy cell) xs) :
    Answers s.answer s.calls xs := by
  have unforced := p.unforced
  cases reads with
  | ended here step =>
    cases p.cell_eq.symm.trans here
    rw [step] at unforced
    cases unforced
  | forced here step _ =>
    cases p.cell_eq.symm.trans here
    rw [step] at unforced
    cases unforced
  | pending q answers =>
    cases p.cell_eq.symm.trans q.cell_eq
    cases p.source_eq.symm.trans q.source_eq
    exact answers

include intact

/-- Another pending cell has another source, which is not called. -/
theorem settle_pending (step : Option (α × ℕ)) {i : ℕ} {d : Cell α} {u : Source α}
    (other : i ≠ cell) (q : st.Pending i d u) :
    (st.settle cell c s step).sources[d.source]? = some u := by
  have apart : d.source ≠ c.source := fun same =>
    other (intact.alone i cell d c q.cell_eq p.cell_eq q.unforced p.unforced same)
  rw [Store.settle_sources p, if_neg apart]
  exact q.source_eq

theorem later_end (done : s.answer s.calls = none) : Later st (st.settle cell c s none) := by
  have here : (st.settle cell c s none).cells[cell]? = some { c with step := some none } := by
    rw [Store.settle_cells p, if_pos rfl]
  refine ⟨by simp, fun t xs reads => ?_⟩
  apply reads_of_old cell ?_ ?_ ?_ reads
  · intro i d other hd
    rw [Store.settle_cells p, if_neg other, hd]
  · intro i d u other q
    exact settle_pending intact p none other q
  · intro xs reads
    cases xs with
    | nil => exact .ended here rfl
    | cons x xs =>
      have item := (answers_of_reads p reads).1
      rw [done] at item
      cases item

theorem later_item {x : α} (item : s.answer s.calls = some x) :
    Later st ((st.settle cell c s (some (x, st.cells.size))).grow c.source) ∧
      ∀ xs, Answers s.answer (s.calls + 1) xs →
        Reads ((st.settle cell c s (some (x, st.cells.size))).grow c.source)
          (.lazy st.cells.size) xs := by
  have size : (st.settle cell c s (some (x, st.cells.size))).cells.size = st.cells.size :=
    Store.settle_size _
  have inside := p.lt_size
  have called : (st.settle cell c s (some (x, st.cells.size))).sources[c.source]? =
      some { s with calls := s.calls + 1 } := by
    rw [Store.settle_sources p, if_pos rfl]
  have new : ((st.settle cell c s (some (x, st.cells.size))).grow c.source).cells[st.cells.size]? =
      some { source := c.source } := by
    rw [Store.grow_cells, size, if_pos rfl]
  have here : ((st.settle cell c s (some (x, st.cells.size))).grow c.source).cells[cell]? =
      some { c with step := some (some (x, st.cells.size)) } := by
    rw [Store.grow_cells, size, if_neg (by omega), Store.settle_cells p, if_pos rfl]
  have behind (xs : List α) (answers : Answers s.answer (s.calls + 1) xs) :
      Reads ((st.settle cell c s (some (x, st.cells.size))).grow c.source)
        (.lazy st.cells.size) xs :=
    .pending ⟨new, rfl, called⟩ answers
  refine ⟨⟨?_, fun t xs reads => ?_⟩, behind⟩
  · simp
  · apply reads_of_old cell ?_ ?_ ?_ reads
    · intro i d other hd
      have old := (Array.getElem?_eq_some_iff.1 hd).1
      rw [Store.grow_cells, size, if_neg (by omega), Store.settle_cells p, if_neg other, hd]
    · intro i d u other q
      exact settle_pending intact p (some (x, st.cells.size)) other q
    · intro xs reads
      have answers := answers_of_reads p reads
      cases xs with
      | nil =>
        rw [Answers, item] at answers
        cases answers
      | cons y ys =>
        obtain ⟨first, rest⟩ := answers
        cases item.symm.trans first
        exact .forced here rfl (behind ys rest)

end Force

theorem later_force {st : Store α} (intact : st.Intact) (cell : ℕ) :
    Later st (st.force cell).2 := by
  have done := Store.forces intact cell
  generalize st.force cell = r at done ⊢
  cases done with
  | missing | known => exact .refl st
  | ended p done => exact later_end intact p done
  | item p yielded => exact (later_item intact p yielded).1

theorem uncons_nil {st : Store α} {s : Seq α} (reads : Reads st s []) :
    (s.uncons st).1 = none := by
  cases reads with
  | nil => rfl
  | @ended cell c here step =>
    rw [uncons]
    rw [Store.force_known here step]
    rfl
  | @pending cell c s _ p answers =>
    rw [uncons]
    rw [Store.force_end p answers]
    rfl

theorem uncons_cons {st : Store α} (intact : st.Intact) {s : Seq α} {x : α} {xs : List α}
    (reads : Reads st s (x :: xs)) :
    ∃ rest, (s.uncons st).1 = some (x, rest) ∧ Reads (s.uncons st).2 rest xs := by
  cases reads with
  | @cons _ rest _ behind => exact ⟨rest, rfl, behind⟩
  | list => exact ⟨ofList xs, rfl, reads_ofList st xs⟩
  | @forced cell next c _ _ here step behind =>
    refine ⟨.lazy next, ?_⟩
    rw [uncons]
    rw [Store.force_known here step]
    exact ⟨rfl, behind⟩
  | @pending cell c s _ p answers =>
    obtain ⟨item, rest⟩ := answers
    refine ⟨.lazy st.cells.size, ?_⟩
    rw [uncons]
    rw [Store.force_item p item]
    exact ⟨rfl, (later_item intact p item).2 xs rest⟩

end Seq

end Persistent
