import Persistent.Proofs.Seq.Shown
import Persistent.Proofs.Value.Deciding
import Persistent.Proofs.Value.Delivering
import Persistent.Proofs.Value.Linking

/-!
Stores that come from one another by looks. What a sequence shows is the same in all of them, its
items are valid ones, and a comparison comes to the same verdict in each, whatever has been looked
at before.
-/

set_option autoImplicit false

namespace Persistent.Value

/-- The answer alone, without the store that is left. -/
def answer? {A : Type} (c : Demand Value A) (st : Store Value) : Option A :=
  (c st).map Prod.fst

/-- The same is done with the same answer. -/
theorem answer?_bind {A B : Type} {c : Demand Value A} {f f' : A → Demand Value B}
    {u u' : Store Value} (same : answer? c u = answer? c u')
    (next : ∀ a u₁ u₁', c u = some (a, u₁) → c u' = some (a, u₁') →
      answer? (f a) u₁ = answer? (f' a) u₁') : answer? (c >>= f) u = answer? (c >>= f') u' := by
  unfold answer? at same
  change (c u >>= fun r => f r.1 r.2).map Prod.fst = (c u' >>= fun r => f' r.1 r.2).map Prod.fst
  cases done : c u with
  | none =>
    rw [done, Option.map_none, eq_comm, Option.map_eq_none_iff] at same
    rw [same]
    rfl
  | some r =>
    obtain ⟨a, u₁⟩ := r
    rw [done, Option.map_some, eq_comm, Option.map_eq_some_iff] at same
    obtain ⟨⟨_, u₁'⟩, done', rfl⟩ := same
    rw [done']
    exact next _ u₁ u₁' done done'

variable [Hasher]

/-- A sane store whose cells stand in chains. -/
structure Ordered (st : Store Value) : Prop where
  sane : Sane st
  chained : st.Chained

/-- The store `st'` has come from `st`. -/
structure Advances (st st' : Store Value) : Prop where
  leads : Leads st st'
  extended : st.Extended st'

theorem Advances.refl {st : Store Value} (ordered : Ordered st) : Advances st st :=
  ⟨.refl ordered.sane, .refl ordered.chained⟩

theorem Advances.trans {st st' st'' : Store Value} (h : Advances st st')
    (k : Advances st' st'') : Advances st st'' :=
  ⟨h.leads.trans k.leads, h.extended.trans k.extended⟩

theorem Advances.ordered {st st' : Store Value} (h : Advances st st') : Ordered st' :=
  ⟨h.leads.sane, h.extended.chained⟩

theorem Advances.grows {st st' : Store Value} (h : Advances st st') : st.Grows st' :=
  h.extended.grows

theorem ordered_empty : Ordered {} :=
  ⟨sane_empty, Store.chained_empty⟩

theorem ordered_run (steps : List (Step × ℕ)) : Ordered (run steps).store :=
  ⟨(valid_run steps).sane, chained_run steps⟩

theorem advances_uncons {st : Store Value} (ordered : Ordered st) (s : Seq Value) :
    Advances st (s.uncons st).2 :=
  ⟨leads_uncons ordered.sane s, Seq.orderly_look s st ordered.chained _ _ rfl⟩

/-- A new source may answer whatever values are valid, sequences over its own cell among them. -/
theorem advances_wrap {st : Store Value} (ordered : Ordered st) {answer : ℕ → Option Value}
    (valid : ∀ k x, answer k = some x → x.Valid (st.cells.size + 1)) :
    Advances st (st.wrap answer).2 :=
  ⟨leads_wrap ordered.sane valid, Seq.orderly_lazily answer st ordered.chained _ _ rfl⟩

theorem advances_equal {st st' : Store Value} (ordered : Ordered st) {x y : Value} (hx : In st x)
    (hy : In st y) {fuel : ℕ} {b : Bool} (done : equal fuel x y st = some (b, st')) :
    Advances st st' :=
  ⟨(makes_equal fuel hx hy st (.refl ordered.sane) b st' done).1,
    orderly_equal fuel x y st ordered.chained b st' done⟩

section Shown

variable {st : Store Value} {s : Seq Value}

theorem in_of_shows (sane : Sane st) {f : Seq.Items Value} (shows : Seq.Shows st s f)
    (valid : In st (.seq s)) {k : ℕ} {x : Value} (item : f k = some x) : In st x := by
  induction shows generalizing k with
  | nil => cases item
  | cons _ ih =>
    cases valid with
    | flat h => cases h
    | seq items cell =>
      cases k with
      | zero =>
        cases item
        exact items _ List.mem_cons_self
      | succ k => exact ih (.seq (fun y hy => items y (List.mem_cons_of_mem _ hy)) cell) item
  | list =>
    cases valid with
    | flat h => cases h
    | seq items => exact items x (List.mem_of_getElem? item)
  | lazy stands =>
    obtain ⟨source, here, rfl⟩ := Option.map_eq_some_iff.1 stands.source
    exact sane.answers _ source _ x here item

theorem exists_shows (ordered : Ordered st) (valid : In st (.seq s)) :
    ∃ f, Seq.Shows st s f := by
  cases valid with
  | flat h => cases h
  | seq items cell =>
    clear items
    induction s with
    | nil => exact ⟨_, .nil⟩
    | cons x rest ih =>
      obtain ⟨f, shows⟩ := ih cell
      exact ⟨_, .cons shows⟩
    | list x xs => exact ⟨_, .list⟩
    | lazy i =>
      have here := Array.getElem?_eq_getElem (cell i rfl)
      obtain ⟨j, answer, k, stands⟩ := ordered.chained.exists_at here
      exact ⟨_, .lazy stands⟩

end Shown

/-- In `u` the sequence shows these items, all of them valid in `st`. -/
structure Presents (st u : Store Value) (s : Seq Value) (f : Seq.Items Value) : Prop where
  shows : Seq.Shows u s f
  valid : ∀ k x, f k = some x → In st x

theorem presents {st : Store Value} (sane : Sane st) {s : Seq Value} {f : Seq.Items Value}
    (shows : Seq.Shows st s f) (valid : In st (.seq s)) : Presents st st s f :=
  ⟨shows, fun _ _ => in_of_shows sane shows valid⟩

namespace Presents

variable {st u : Store Value} {s : Seq Value} {f : Seq.Items Value}

theorem mono (h : Presents st u s f) {u' : Store Value} (grows : u.Grows u') :
    Presents st u' s f :=
  ⟨h.shows.mono grows, h.valid⟩

theorem uncons (h : Presents st u s f) (ordered : Ordered u) :
    Seq.Unconsed u s f (s.uncons u).1 (s.uncons u).2 :=
  h.shows.uncons ordered.chained

theorem first (h : Presents st u s f) (ordered : Ordered u) :
    (s.uncons u).1.map Prod.fst = f 0 :=
  (h.uncons ordered).item

theorem behind (h : Presents st u s f) (ordered : Ordered u) {x : Value} {rest : Seq Value}
    (here : (s.uncons u).1 = some (x, rest)) :
    Presents st (s.uncons u).2 rest (Seq.Items.behind f) :=
  ⟨(h.uncons ordered).rest x rest here, fun k => h.valid (k + 1)⟩

theorem item (h : Presents st u s f) (ordered : Ordered u) {x : Value} {rest : Seq Value}
    (here : (s.uncons u).1 = some (x, rest)) : f 0 = some x := by
  rw [← h.first ordered, here]
  rfl

end Presents

/-- The store after a look at the first cell of one sequence and then of another. -/
def afterLooks (s t : Seq Value) (u : Store Value) : Store Value :=
  (t.uncons (s.uncons u).2).2

theorem advances_looks {u : Store Value} (ordered : Ordered u) (s t : Seq Value) :
    Advances u (afterLooks s t u) :=
  (advances_uncons ordered s).trans (advances_uncons (advances_uncons ordered s).ordered t)

/-- What comes of the first two looks of a walk along two sequences. -/
inductive Round (st u : Store Value) (s t : Seq Value) (f g : Seq.Items Value) : Prop
  | ended (left : (s.uncons u).1 = none) (first : f 0 = none)
      (step : ∀ same n, Seq.equal same (n + 1) s t u = some ((g 0).isNone, afterLooks s t u))
  | shorter {x : Value} (right : (t.uncons (s.uncons u).2).1 = none) (first : f 0 = some x)
      (second : g 0 = none)
      (step : ∀ same n, Seq.equal same (n + 1) s t u = some (false, afterLooks s t u))
  | items {x y : Value} {rest rest' : Seq Value} (left : (s.uncons u).1 = some (x, rest))
      (right : (t.uncons (s.uncons u).2).1 = some (y, rest')) (first : f 0 = some x)
      (second : g 0 = some y) (behind : Presents st (afterLooks s t u) rest (Seq.Items.behind f))
      (behind' : Presents st (afterLooks s t u) rest' (Seq.Items.behind g))
      (step : ∀ same n, Seq.equal same (n + 1) s t u = (same x y >>= fun b =>
        if b = true then Seq.equal same n rest rest' else pure false) (afterLooks s t u))

theorem round {st u : Store Value} (ordered : Ordered u) {s t : Seq Value}
    {f g : Seq.Items Value} (hs : Presents st u s f) (ht : Presents st u t g) :
    Round st u s t f g := by
  have looked := advances_uncons ordered s
  have ht' := ht.mono looked.grows
  have first := hs.first ordered
  have second := ht'.first looked.ordered
  have step (same : Value → Value → Demand Value Bool) (n : ℕ) :
      Seq.equal same (n + 1) s t u = _ :=
    bind_of_eq (show s.look u = some ((s.uncons u).1, (s.uncons u).2) from rfl)
  have look : t.look (s.uncons u).2 =
      some ((t.uncons (s.uncons u).2).1, afterLooks s t u) := rfl
  cases left : (s.uncons u).1 with
  | none =>
    rw [left] at first
    refine .ended left first.symm fun same n => ?_
    rw [step, left]
    refine (bind_of_eq look).trans ?_
    rw [← second, Option.isNone_map]
    rfl
  | some front =>
    obtain ⟨x, rest⟩ := front
    rw [left] at first
    cases right : (t.uncons (s.uncons u).2).1 with
    | none =>
      rw [right] at second look
      refine .shorter right first.symm second.symm fun same n => ?_
      rw [step, left]
      exact bind_of_eq look
    | some front' =>
      obtain ⟨y, rest'⟩ := front'
      rw [right] at second look
      refine .items left right first.symm second.symm ?_ ?_ fun same n => ?_
      · exact (hs.behind ordered left).mono (advances_uncons looked.ordered t).grows
      · exact ht'.behind looked.ordered right
      · rw [step, left]
        exact bind_of_eq look

/-- The three ways in which values are compared. -/
inductive Compared (a b : Value) : Prop
  | sequences {s t : Seq Value} (left : a.sequence? = some s) (right : b.sequence? = some t)
  | maps {m n : Map Metadata Value Value} (left : a = .map m) (right : b = .map n)
  | others (plain : ∀ fuel, equal (fuel + 1) a b = pure (a == b))

theorem compared (a b : Value) : Compared a b := by
  have sequences (v : Value) : v.sort = 1 → ∃ s, v.sequence? = some s := by
    intro h
    rw [← Option.isSome_iff_exists, sequence_isSome, h]
    rfl
  have maps (v : Value) : v.sort = 2 → ∃ m, v = .map m := by
    intro h
    cases v <;> first | exact ⟨_, rfl⟩ | cases h
  by_cases both : a.sort = 1 ∧ b.sort = 1
  · obtain ⟨s, left⟩ := sequences a both.1
    obtain ⟨t, right⟩ := sequences b both.2
    exact .sequences left right
  by_cases both' : a.sort = 2 ∧ b.sort = 2
  · obtain ⟨m, left⟩ := maps a both'.1
    obtain ⟨n, right⟩ := maps b both'.2
    exact .maps left right
  exact .others fun fuel => equal_others fuel (not_and_or.1 both) (not_and_or.1 both')

section Verdict

variable {st : Store Value} {fuel : ℕ}
  (each : ∀ x y u u', In st x → In st y → Advances st u → Advances st u' →
    answer? (equal fuel x y) u = answer? (equal fuel x y) u')
include each

theorem seqEqual_answer? (n : ℕ) {u u' : Store Value} (h : Advances st u) (h' : Advances st u')
    {s s' t t' : Seq Value} {f g : Seq.Items Value} (left : Presents st u s f)
    (left' : Presents st u' s' f) (right : Presents st u t g) (right' : Presents st u' t' g) :
    answer? (Seq.equal (equal fuel) n s t) u = answer? (Seq.equal (equal fuel) n s' t') u' := by
  induction n generalizing u u' s s' t t' f g with
  | zero => rfl
  | succ n ih =>
    have mid := h.trans (advances_looks h.ordered s t)
    have mid' := h'.trans (advances_looks h'.ordered s' t')
    unfold answer?
    cases round h.ordered left right with
    | ended _ first step =>
      cases round h'.ordered left' right' with
      | ended _ _ step' =>
        rw [step, step']
        rfl
      | shorter _ first' | items _ _ first' => cases first.symm.trans first'
    | shorter _ first second step =>
      cases round h'.ordered left' right' with
      | ended _ first' => cases first.symm.trans first'
      | shorter _ _ _ step' =>
        rw [step, step']
        rfl
      | items _ _ _ second' => cases second.symm.trans second'
    | @items x y _ _ _ _ first second behind behind' step =>
      cases round h'.ordered left' right' with
      | ended _ first' => cases first.symm.trans first'
      | shorter _ _ second' => cases second.symm.trans second'
      | items _ _ first' second' later later' step' =>
        cases first.symm.trans first'
        cases second.symm.trans second'
        have hx := left.valid 0 x first
        have hy := right.valid 0 y second
        rw [step, step']
        refine answer?_bind (each x y _ _ hx hy mid mid') fun b u₁ u₁' done done' => ?_
        cases b with
        | false => rfl
        | true =>
          have onward := advances_equal mid.ordered (hx.later mid.leads) (hy.later mid.leads) done
          have onward' :=
            advances_equal mid'.ordered (hx.later mid'.leads) (hy.later mid'.leads) done'
          exact ih (mid.trans onward) (mid'.trans onward') (behind.mono onward.grows)
            (later.mono onward'.grows) (behind'.mono onward.grows) (later'.mono onward'.grows)

theorem equalEntries_answer? {n : Map Metadata Value Value} (hn : In st (.map n))
    {entries : List (Value × Value)} (valid : ∀ e ∈ entries, e.1.Known ∧ In st e.2)
    {u u' : Store Value} (h : Advances st u) (h' : Advances st u') :
    answer? (equalEntries (equal fuel) n entries) u =
      answer? (equalEntries (equal fuel) n entries) u' := by
  induction entries generalizing u u' with
  | nil => rfl
  | cons e entries ih =>
    obtain ⟨key, value⟩ := valid e List.mem_cons_self
    rw [equalEntries]
    cases found : n.get? e.1 with
    | none => rfl
    | some x =>
      have hx : In st x := valid_get? hn key found
      refine answer?_bind (each x e.2 u u' hx value h h') fun b u₁ u₁' done done' => ?_
      cases b with
      | false => rfl
      | true =>
        have onward := advances_equal h.ordered (hx.later h.leads) (value.later h.leads) done
        have onward' := advances_equal h'.ordered (hx.later h'.leads) (value.later h'.leads) done'
        exact ih (fun f hf => valid f (List.mem_cons_of_mem _ hf)) (h.trans onward)
          (h'.trans onward')

omit each in
/-- A comparison answers alike in all stores that have come from one. -/
theorem equal_answer? (ordered : Ordered st) (fuel : ℕ) {x y : Value} (hx : In st x)
    (hy : In st y) {u u' : Store Value} (h : Advances st u) (h' : Advances st u') :
    answer? (equal fuel x y) u = answer? (equal fuel x y) u' := by
  induction fuel generalizing x y u u' with
  | zero => rfl
  | succ fuel ih =>
    have each (x y : Value) (u u' : Store Value) (hx : In st x) (hy : In st y)
        (h : Advances st u) (h' : Advances st u') := ih hx hy h h'
    cases compared x y with
    | sequences left right =>
      rw [equal_sequences fuel left right]
      split
      case isTrue => rfl
      case isFalse =>
        have hs := valid_sequence hx left
        have ht := valid_sequence hy right
        obtain ⟨f, shows⟩ := exists_shows ordered hs
        obtain ⟨g, shows'⟩ := exists_shows ordered ht
        have presents := presents ordered.sane shows hs
        have presents' := Value.presents ordered.sane shows' ht
        exact seqEqual_answer? each fuel h h' (presents.mono h.grows) (presents.mono h'.grows)
          (presents'.mono h.grows) (presents'.mono h'.grows)
    | maps left right =>
      subst left right
      rw [equal_maps]
      split
      case isTrue => rfl
      case isFalse =>
        obtain ⟨keyed, values⟩ := valid_entries hx
        exact equalEntries_answer? each hy (fun e he => ⟨keyed.keys e he, values e he⟩) h h'
    | others plain =>
      rw [plain]
      rfl

end Verdict

/-- The comparison of two values comes to this verdict. -/
def Verdict (st : Store Value) (x y : Value) (b : Bool) : Prop :=
  ∃ st', Comes (fun fuel => equal fuel x y) st b st'

theorem comes_of_equal {st st' : Store Value} {x y : Value} {fuel : ℕ} {b : Bool}
    (done : equal fuel x y st = some (b, st')) : Comes (fun fuel => equal fuel x y) st b st' :=
  ⟨fuel, fun _ more => equal_extends more x y st _ done⟩

namespace Verdict

variable {st : Store Value} {x y : Value} {b : Bool}

theorem unique {b' : Bool} (h : Verdict st x y b) (k : Verdict st x y b') : b = b' := by
  obtain ⟨_, comes⟩ := h
  obtain ⟨_, comes'⟩ := k
  exact (comes.unique comes').1

/-- A verdict is the same wherever the comparison is made. -/
theorem moves (ordered : Ordered st) (hx : In st x) (hy : In st y) {u u' : Store Value}
    (h : Advances st u) (h' : Advances st u') (verdict : Verdict u x y b) :
    ∃ w, Comes (fun fuel => equal fuel x y) u' b w ∧ Advances u' w := by
  obtain ⟨w, N, run⟩ := verdict
  have same := equal_answer? ordered N hx hy h h'
  have first : equal N x y u = some (b, w) := run N (Nat.le_refl N)
  unfold answer? at same
  rw [first, Option.map_some, eq_comm, Option.map_eq_some_iff] at same
  obtain ⟨⟨_, w'⟩, done, rfl⟩ := same
  exact ⟨w', comes_of_equal done,
    advances_equal h'.ordered (hx.later h'.leads) (hy.later h'.leads) done⟩

end Verdict

end Persistent.Value
