import Persistent.Proofs.Seq.Reading
import Persistent.Proofs.Value.Lawful
import Persistent.Value.Comparison

/-!
Sane stores: the values in their cells, and those that their sources will answer, are valid over
the cells there are. A look at a cell of a valid sequence leads to a sane store and valid values.
-/

set_option autoImplicit false

namespace Persistent.Value

theorem mem_answers {answer : ℕ → Option Value} {k : ℕ} {xs : List Value}
    (answers : Answers answer k xs) : ∀ x ∈ xs, ∃ j, answer j = some x := by
  induction xs generalizing k with
  | nil => exact fun x hx => nomatch hx
  | cons y ys ih =>
    intro x hx
    rcases List.mem_cons.1 hx with rfl | hx
    · exact ⟨k, answers.1⟩
    · exact ih answers.2 x hx

variable [Hasher]

/-- A store whose cells hold, and whose sources answer, valid values. -/
structure Sane (st : Store Value) : Prop where
  intact : st.Intact
  steps : ∀ (i : ℕ) (c : Cell Value) (x : Value) (next : ℕ), st.cells[i]? = some c →
    c.step = some (some (x, next)) → x.Valid st.cells.size
  answers : ∀ (j : ℕ) (s : Source Value) (k : ℕ) (x : Value), st.sources[j]? = some s →
    s.answer k = some x → x.Valid st.cells.size

/-- The store `st'` is sane and later than `st`. -/
structure Leads (st st' : Store Value) : Prop where
  sane : Sane st'
  later : Seq.Later st st'

theorem sane_empty : Sane {} where
  intact := Store.intact_empty
  steps _ _ _ _ impossible := nomatch impossible
  answers _ _ _ _ impossible := nomatch impossible

theorem Leads.trans {st st' st'' : Store Value} (h : Leads st st') (k : Leads st' st'') :
    Leads st st'' :=
  ⟨k.sane, h.later.trans k.later⟩

theorem Valid.later {st st' : Store Value} {v : Value} (valid : v.Valid st.cells.size)
    (later : Seq.Later st st') : v.Valid st'.cells.size :=
  valid.mono later.grows

theorem sane_force {st : Store Value} (sane : Sane st) (cell : ℕ) :
    Sane (st.force cell).2 := by
  have intact := Store.intact_force sane.intact cell
  have done := Store.forces sane.intact cell
  generalize st.force cell = r at done intact ⊢
  -- a call leaves the answers of its source as they are
  have answers {c : Cell Value} {s : Source Value} (p : st.Pending cell c s)
      (step : Option (Value × ℕ)) (j : ℕ) (u : Source Value) (k : ℕ) (x : Value)
      (hu : (st.settle cell c s step).sources[j]? = some u) (answer : u.answer k = some x) :
      x.Valid st.cells.size := by
    rw [Store.settle_sources p] at hu
    split at hu
    · cases hu
      exact sane.answers c.source s k x p.source_eq answer
    · exact sane.answers j u k x hu answer
  cases done with
  | missing | known => exact sane
  | @ended c s p =>
    refine ⟨intact, ?_, ?_⟩
    · intro i d x next hd stepped
      rw [Store.settle_cells p] at hd
      rw [Store.settle_size]
      split at hd
      · cases hd
        cases stepped
      · exact sane.steps i d x next hd stepped
    · rw [Store.settle_size]
      exact answers p none
  | @item c s x p yielded =>
    refine ⟨intact, ?_, ?_⟩
    · intro i d y next hd stepped
      rw [Store.grow_size, Store.settle_size]
      apply Valid.mono (Nat.le_succ _)
      rw [Store.grow_cells] at hd
      split at hd
      · cases hd
        cases stepped
      · rw [Store.settle_cells p] at hd
        split at hd
        · cases hd
          cases stepped
          exact sane.answers c.source s s.calls x p.source_eq yielded
        · exact sane.steps i d y next hd stepped
    · intro j u k y hu answer
      rw [Store.grow_size, Store.settle_size]
      exact (answers p (some (x, st.cells.size)) j u k y hu answer).mono (Nat.le_succ _)

theorem leads_uncons {st : Store Value} (sane : Sane st) (s : Seq Value) :
    Leads st (s.uncons st).2 := by
  cases s with
  | lazy cell => exact ⟨sane_force sane cell, Seq.later_force sane.intact cell⟩
  | nil | cons | list => exact ⟨sane, .refl st⟩

/-- What a new source answers may name its own cell. -/
theorem leads_wrap {st : Store Value} (sane : Sane st) {answer : ℕ → Option Value}
    (valid : ∀ k x, answer k = some x → x.Valid (st.cells.size + 1)) :
    Leads st (st.wrap answer).2 := by
  refine ⟨⟨Store.intact_wrap sane.intact answer, ?_, ?_⟩, Seq.later_wrap st answer⟩
  · intro i d x next hd stepped
    rw [Store.wrap_size]
    apply Valid.mono (Nat.le_succ _)
    rw [Store.wrap, Array.getElem?_push] at hd
    split at hd
    · cases hd
      cases stepped
    · exact sane.steps i d x next hd stepped
  · intro j u k x hu answered
    rw [Store.wrap_size]
    rw [Store.wrap, Array.getElem?_push] at hu
    split at hu
    · cases hu
      exact valid k x answered
    · exact (sane.answers j u k x hu answered).mono (Nat.le_succ _)

theorem valid_uncons {st : Store Value} (sane : Sane st) {s rest : Seq Value} {x : Value}
    (valid : (Value.seq s).Valid st.cells.size) (shown : (s.uncons st).1 = some (x, rest)) :
    x.Valid (s.uncons st).2.cells.size ∧ (Value.seq rest).Valid (s.uncons st).2.cells.size := by
  obtain ⟨items, cell⟩ : (∀ y ∈ s.known, y.Valid st.cells.size) ∧
      ∀ c, s.pending? = some c → c < st.cells.size := by
    cases valid with
    | flat h => cases h
    | seq items cell => exact ⟨items, cell⟩
  cases s with
  | nil => cases shown
  | cons y behind =>
    cases shown
    exact ⟨items x List.mem_cons_self,
      .seq (fun z hz => items z (List.mem_cons_of_mem _ hz)) cell⟩
  | list y behind =>
    cases shown
    refine ⟨items x List.mem_cons_self, .seq ?_ ?_⟩
    · cases behind with
      | nil =>
        intro z hz
        cases hz
      | cons z zs => exact fun w hw => items w (List.mem_cons_of_mem _ hw)
    · intro c pending
      cases behind <;> cases pending
  | lazy i =>
    have done := Store.forces sane.intact i
    rw [Seq.uncons] at shown ⊢
    generalize st.force i = r at done shown ⊢
    cases done with
    | missing | ended => cases shown
    | @known c step here settled =>
      cases step with
      | none => cases shown
      | some step =>
        obtain ⟨y, next⟩ := step
        cases shown
        refine ⟨sane.steps i c x next here settled, .seq ?_ ?_⟩
        · intro z hz
          cases hz
        · rintro _ ⟨⟩
          exact sane.intact.next_lt i c x next here settled
    | @item c s y p yielded =>
      cases shown
      rw [Store.grow_size, Store.settle_size]
      refine ⟨?_, .seq ?_ ?_⟩
      · exact (sane.answers c.source s s.calls x p.source_eq yielded).mono (Nat.le_succ _)
      · intro z hz
        cases hz
      · rintro _ ⟨⟩
        exact Nat.lt_succ_self _

theorem valid_reads {st : Store Value} (sane : Sane st) {s : Seq Value} {xs : List Value}
    (reads : Seq.Reads st s xs) (valid : (Value.seq s).Valid st.cells.size) :
    ∀ x ∈ xs, x.Valid st.cells.size := by
  induction reads with
  | nil | ended => exact fun x hx => nomatch hx
  | cons behind ih =>
    cases valid with
    | flat h => cases h
    | seq items cell =>
      have rest := ih (.seq (fun y hy => items y (List.mem_cons_of_mem _ hy)) cell)
      intro y hy
      rcases List.mem_cons.1 hy with rfl | hy
      · exact items y List.mem_cons_self
      · exact rest y hy
  | list =>
    cases valid with
    | flat h => cases h
    | seq items => exact items
  | @forced i next c x xs here step behind ih =>
    have rest := ih (.seq (fun y hy => nomatch hy) fun j hj => by
      cases hj
      exact sane.intact.next_lt i c x next here step)
    intro y hy
    rcases List.mem_cons.1 hy with rfl | hy
    · exact sane.steps i c y next here step
    · exact rest y hy
  | @pending i c s xs p answers =>
    intro x hx
    obtain ⟨k, answer⟩ := mem_answers answers x hx
    exact sane.answers c.source s k x p.source_eq answer

theorem valid_sequence {n : ℕ} {v : Value} (valid : v.Valid n) {s : Seq Value}
    (sequence : v.sequence? = some s) : (Value.seq s).Valid n := by
  have ofList (xs : List Value) (items : ∀ x ∈ xs, x.Valid n) :
      (Value.seq (Seq.ofList xs)).Valid n := by
    cases xs with
    | nil => exact .seq items nofun
    | cons x xs => exact .seq items nofun
  cases valid with
  | flat h => cases v <;> cases h <;> cases sequence
  | list items =>
    cases sequence
    exact ofList _ items
  | vector held items =>
    cases sequence
    exact ofList _ items
  | seq items cell =>
    cases sequence
    exact .seq items cell
  | map | set => cases sequence

end Persistent.Value
