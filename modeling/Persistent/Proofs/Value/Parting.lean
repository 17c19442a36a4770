import Persistent.Proofs.Seq.Ahead
import Persistent.Proofs.Value.Advancing

/-!
The walk along two sequences that are compared. It goes on as long as the items at a place are
equal and stops where the two part, which is where one of them ends or the items differ. Up to
that place and with it, each cell of both has been looked at, and none behind it. What else has
been looked at is inside of the items that were compared.
-/

set_option autoImplicit false

open Persistent.Seq (Ahead Reached)

namespace Persistent.Value

theorem exists_le_succ {P : ℕ → Prop} {p : ℕ} :
    (∃ d ≤ p + 1, P d) ↔ P 0 ∨ ∃ d ≤ p, P (d + 1) := by
  constructor
  · rintro ⟨d, le, h⟩
    cases d with
    | zero => exact .inl h
    | succ d => exact .inr ⟨d, Nat.le_of_succ_le_succ le, h⟩
  · rintro (h | ⟨d, le, h⟩)
    · exact ⟨0, Nat.zero_le _, h⟩
    · exact ⟨d + 1, Nat.succ_le_succ le, h⟩

variable [Hasher]

/-- Both have an item at the place, and the two are equal. -/
def AgreeAt (st : Store Value) (f g : Seq.Items Value) (k : ℕ) : Prop :=
  ∃ x y, f k = some x ∧ g k = some y ∧ Verdict st x y true

/-- One of the two has ended, or their items at the place are unequal. -/
def StopAt (st : Store Value) (f g : Seq.Items Value) (k : ℕ) : Prop :=
  f k = none ∨ g k = none ∨ ∃ x y, f k = some x ∧ g k = some y ∧ Verdict st x y false

/-- The two agree on the first `p` places and no further. -/
structure PartAt (st : Store Value) (f g : Seq.Items Value) (p : ℕ) : Prop where
  agree : ∀ k < p, AgreeAt st f g k
  stops : StopAt st f g p

/-- Cell `i` is met at place `d` of one sequence or the other. -/
def Met (st : Store Value) (s t : Seq Value) (d i : ℕ) : Prop :=
  Ahead st s d i ∨ Ahead st t d i

/-- In the course of the walk, cell `i` is first looked at by the comparison of the items at
place `d`. -/
inductive Inside : Store Value → Seq Value → Seq Value → ℕ → ℕ → Prop
  | here {u u' : Store Value} {s t rest rest' : Seq Value} {x y : Value} {b : Bool} {i : ℕ}
      (left : (s.uncons u).1 = some (x, rest))
      (right : (t.uncons (s.uncons u).2).1 = some (y, rest'))
      (compared : Comes (fun fuel => equal fuel x y) (afterLooks s t u) b u')
      (before : ¬(afterLooks s t u).settled i) (after : u'.settled i) : Inside u s t 0 i
  | behind {u u' : Store Value} {s t rest rest' : Seq Value} {x y : Value} {d i : ℕ}
      (left : (s.uncons u).1 = some (x, rest))
      (right : (t.uncons (s.uncons u).2).1 = some (y, rest'))
      (compared : Comes (fun fuel => equal fuel x y) (afterLooks s t u) true u')
      (later : Inside u' rest rest' d i) : Inside u s t (d + 1) i

/-- The walk from `u` along both sequences, which part at `p`, with its verdict and what it has
looked at. It takes one round more than there are places on which they agree. -/
structure Walked (u : Store Value) (s t : Seq Value) (f g : Seq.Items Value) (p : ℕ) (r : Bool)
    (u' : Store Value) : Prop where
  rounds : ∃ N, ∀ fuel ≥ N, ∀ n,
    Seq.equal (equal fuel) n s t u = if p < n then some (r, u') else none
  verdict : r = true ↔ f p = none ∧ g p = none
  advances : Advances u u'
  settled_iff : ∀ i, u'.settled i ↔
    u.settled i ∨ ∃ d ≤ p, Met u' s t d i ∨ Inside u s t d i
  reached : ∀ d ≤ p, Reached u' s d ∧ Reached u' t d

section Walk

variable {st u w : Store Value} {s t : Seq Value} {f g : Seq.Items Value} (ordered : Ordered u)
  (hs : Presents st u s f) (ht : Presents st u t g)
include ordered hs ht

/-- The first two looks settle the cells in front. -/
theorem settled_looks (grows : u.Grows w) (i : ℕ) :
    (afterLooks s t u).settled i ↔ u.settled i ∨ Met w s t 0 i := by
  have looked := advances_uncons ordered s
  have left := (hs.uncons ordered).settled_iff i
  have right := ((ht.mono looked.grows).uncons looked.ordered).settled_iff i
  rw [Met, Seq.ahead_zero hs.shows grows, Seq.ahead_zero ht.shows grows, ← or_assoc, ← left]
  exact right

/-- The looks are at the cells in front, wherever the walk leads from there. -/
theorem settled_front (grows : (afterLooks s t u).Grows w)
    (more : ∀ i, w.settled i ↔ (afterLooks s t u).settled i ∨ Inside u s t 0 i) (i : ℕ) :
    w.settled i ↔ u.settled i ∨ ∃ d ≤ 0, Met w s t d i ∨ Inside u s t d i := by
  have looks := settled_looks ordered hs ht ((advances_looks ordered s t).grows.trans grows) i
  rw [more, looks, or_assoc]
  simp

omit ordered in
theorem reached_front (grows : u.Grows w) (d : ℕ) (le : d ≤ 0) :
    Reached w s d ∧ Reached w t d := by
  obtain rfl := Nat.le_zero.1 le
  exact ⟨Seq.reached_zero hs.shows grows, Seq.reached_zero ht.shows grows⟩

/-- The walk stops after its first two looks. -/
theorem walked_looks {r : Bool} (verdict : r = true ↔ f 0 = none ∧ g 0 = none)
    (alone : ∀ i, ¬Inside u s t 0 i)
    (step : ∀ same n, Seq.equal same (n + 1) s t u = some (r, afterLooks s t u)) :
    Walked u s t f g 0 r (afterLooks s t u) where
  rounds := by
    refine ⟨0, fun fuel _ n => ?_⟩
    cases n with
    | zero => rfl
    | succ n => exact step _ n
  verdict := verdict
  advances := advances_looks ordered s t
  settled_iff := settled_front ordered hs ht (.refl _) fun i =>
    ⟨.inl, fun h => h.resolve_right (alone i)⟩
  reached := reached_front hs ht (advances_looks ordered s t).grows

section Seq.Items

variable {x y : Value} {rest rest' : Seq Value} (left : (s.uncons u).1 = some (x, rest))
  (right : (t.uncons (s.uncons u).2).1 = some (y, rest'))
include left right

omit ordered hs ht in
theorem inside_zero {b : Bool}
    (compared : Comes (fun fuel => equal fuel x y) (afterLooks s t u) b w) (i : ℕ) :
    Inside u s t 0 i ↔ ¬(afterLooks s t u).settled i ∧ w.settled i := by
  constructor
  · intro inside
    cases inside with
    | here left' right' compared' before after =>
      cases left.symm.trans left'
      cases right.symm.trans right'
      obtain ⟨-, rfl⟩ := compared.unique compared'
      exact ⟨before, after⟩
  · rintro ⟨before, after⟩
    exact .here left right compared before after

omit ordered hs ht in
theorem inside_succ (compared : Comes (fun fuel => equal fuel x y) (afterLooks s t u) true w)
    (d i : ℕ) : Inside u s t (d + 1) i ↔ Inside w rest rest' d i := by
  constructor
  · intro inside
    cases inside with
    | behind left' right' compared' later =>
      cases left.symm.trans left'
      cases right.symm.trans right'
      obtain ⟨-, rfl⟩ := compared.unique compared'
      exact later
  · exact .behind left right compared

theorem met_succ (grows : (afterLooks s t u).Grows w) (d i : ℕ) :
    Met w s t (d + 1) i ↔ Met w rest rest' d i := by
  have looked := advances_uncons ordered s
  have both := (advances_uncons looked.ordered t).grows.trans grows
  have shows := (ht.mono looked.grows).shows
  rw [Met, Seq.ahead_succ ordered.chained hs.shows left both,
    Seq.ahead_succ looked.extended.chained shows right grows]
  rfl

theorem reached_succ (grows : (afterLooks s t u).Grows w) {d : ℕ}
    (reached : Reached w rest d ∧ Reached w rest' d) :
    Reached w s (d + 1) ∧ Reached w t (d + 1) := by
  have looked := advances_uncons ordered s
  have both := (advances_uncons looked.ordered t).grows.trans grows
  have shows := (ht.mono looked.grows).shows
  exact ⟨Seq.reached_succ ordered.chained hs.shows left both reached.1,
    Seq.reached_succ looked.extended.chained shows right grows reached.2⟩

/-- What the comparison of the items in front settles is the cells in front and what is inside. -/
theorem settled_compared {b : Bool}
    (compared : Comes (fun fuel => equal fuel x y) (afterLooks s t u) b w)
    (onward : Advances (afterLooks s t u) w) (i : ℕ) :
    w.settled i ↔ u.settled i ∨ ∃ d ≤ 0, Met w s t d i ∨ Inside u s t d i := by
  refine settled_front ordered hs ht onward.grows (fun i => ?_) i
  rw [inside_zero left right compared]
  constructor
  · intro settled
    exact or_iff_not_imp_left.2 fun before => ⟨before, settled⟩
  · rintro (before | ⟨-, settled⟩)
    · exact onward.extended.settled i before
    · exact settled

variable (step : ∀ same n, Seq.equal same (n + 1) s t u = (same x y >>= fun b =>
    if b = true then Seq.equal same n rest rest' else pure false) (afterLooks s t u))
include step

/-- The walk stops at the items in front, which are unequal. -/
theorem walked_unequal (first : f 0 = some x)
    (compared : Comes (fun fuel => equal fuel x y) (afterLooks s t u) false w)
    (onward : Advances (afterLooks s t u) w) : Walked u s t f g 0 false w where
  rounds := by
    obtain ⟨N, run⟩ := compared
    refine ⟨N, fun fuel enough n => ?_⟩
    cases n with
    | zero => rfl
    | succ n => exact (step _ n).trans (bind_of_eq (run fuel enough))
  verdict := by simp [first]
  advances := (advances_looks ordered s t).trans onward
  settled_iff := settled_compared ordered hs ht left right compared onward
  reached := reached_front hs ht ((advances_looks ordered s t).grows.trans onward.grows)

/-- The items in front are equal, and the walk goes on behind them. -/
theorem walked_behind {p : ℕ} {r : Bool} {u' : Store Value}
    (compared : Comes (fun fuel => equal fuel x y) (afterLooks s t u) true w)
    (onward : Advances (afterLooks s t u) w)
    (walked : Walked w rest rest' (Seq.Items.behind f) (Seq.Items.behind g) p r u') :
    Walked u s t f g (p + 1) r u' where
  rounds := by
    obtain ⟨N, run⟩ := compared
    obtain ⟨M, rounds⟩ := walked.rounds
    refine ⟨max N M, fun fuel enough n => ?_⟩
    cases n with
    | zero => rfl
    | succ n =>
      rw [step, bind_of_eq (run fuel (by omega)), if_pos rfl, rounds fuel (by omega) n]
      simp only [Nat.add_lt_add_iff_right]
  verdict := walked.verdict
  advances := ((advances_looks ordered s t).trans onward).trans walked.advances
  settled_iff i := by
    have grows := walked.advances.grows
    have front := settled_compared ordered hs ht left right compared onward i
    have same : Met w s t 0 i ↔ Met u' s t 0 i := by
      have before := (advances_looks ordered s t).grows.trans onward.grows
      rw [Met, Met, Seq.ahead_zero hs.shows before, Seq.ahead_zero ht.shows before,
        Seq.ahead_zero hs.shows (before.trans grows), Seq.ahead_zero ht.shows (before.trans grows)]
    have later (d : ℕ) : Met u' s t (d + 1) i ∨ Inside u s t (d + 1) i ↔
        Met u' rest rest' d i ∨ Inside w rest rest' d i := by
      rw [met_succ ordered hs ht left right (onward.grows.trans grows),
        inside_succ left right compared]
    rw [walked.settled_iff, front, exists_le_succ, or_assoc]
    simp only [later, Nat.le_zero, exists_eq_left, same]
  reached d le := by
    have grows := (advances_looks ordered s t).grows.trans (onward.trans walked.advances).grows
    cases d with
    | zero => exact reached_front hs ht grows 0 (Nat.le_refl 0)
    | succ d =>
      exact reached_succ ordered hs ht left right (onward.trans walked.advances).grows
        (walked.reached d (Nat.le_of_succ_le_succ le))

end Seq.Items

end Walk

namespace PartAt

variable {st : Store Value} {f g : Seq.Items Value} {p : ℕ}

theorem behind (h : PartAt st f g (p + 1)) :
    PartAt st (Seq.Items.behind f) (Seq.Items.behind g) p :=
  ⟨fun k inside => h.agree (k + 1) (Nat.succ_lt_succ inside), h.stops⟩

theorem push (first : AgreeAt st f g 0)
    (h : PartAt st (Seq.Items.behind f) (Seq.Items.behind g) p) : PartAt st f g (p + 1) := by
  refine ⟨fun k inside => ?_, h.stops⟩
  cases k with
  | zero => exact first
  | succ k => exact h.agree k (Nat.lt_of_succ_lt_succ inside)

theorem not_agree (stops : StopAt st f g p) : ¬AgreeAt st f g p := by
  rintro ⟨x, y, first, second, equal⟩
  rcases stops with none | none | ⟨x', y', first', second', unequal⟩
  · cases first.symm.trans none
  · cases second.symm.trans none
  · cases first.symm.trans first'
    cases second.symm.trans second'
    cases equal.unique unequal

theorem unique {q : ℕ} (h : PartAt st f g p) (k : PartAt st f g q) : p = q := by
  rcases Nat.lt_trichotomy p q with less | same | more
  · exact absurd (k.agree p less) (not_agree h.stops)
  · exact same
  · exact absurd (h.agree q more) (not_agree k.stops)

/-- An end on one side is not passed. -/
theorem le_of_ends (h : PartAt st f g p) {n : ℕ} (none : f n = none ∨ g n = none) : p ≤ n := by
  by_contra further
  obtain ⟨x, y, first, second, -⟩ := h.agree n (Nat.lt_of_not_le further)
  rcases none with none | none
  · cases first.symm.trans none
  · cases second.symm.trans none

/-- The two are equal if they part where both have ended. -/
theorem both_ended_iff (h : PartAt st f g p) : (f p = none ∧ g p = none) ↔
    ∃ n, Seq.Items.EndsAt f n ∧ Seq.Items.EndsAt g n ∧ ∀ k < n, AgreeAt st f g k := by
  constructor
  · rintro ⟨none, none'⟩
    refine ⟨p, ⟨none, fun k inside => ?_⟩, ⟨none', fun k inside => ?_⟩, h.agree⟩
    · obtain ⟨x, y, first, -⟩ := h.agree k inside
      rw [first]
      rfl
    · obtain ⟨x, y, -, second, -⟩ := h.agree k inside
      rw [second]
      rfl
  · rintro ⟨n, ends, ends', agree⟩
    obtain rfl := h.unique ⟨agree, .inl ends.done⟩
    exact ⟨ends.done, ends'.done⟩

end PartAt

/-- If the walk would stop somewhere and the items in front of that place can be compared, then
the two part. -/
theorem exists_partAt {st : Store Value} {f g : Seq.Items Value} {k : ℕ} (stops : StopAt st f g k)
    (decided : ∀ i < k, ∀ x y, f i = some x → g i = some y → ∃ b, Verdict st x y b) :
    ∃ p ≤ k, PartAt st f g p := by
  induction k using Nat.strongRecOn with
  | ind k ih =>
    by_cases agree : ∀ i < k, AgreeAt st f g i
    · exact ⟨k, Nat.le_refl k, agree, stops⟩
    simp only [not_forall] at agree
    obtain ⟨i, inside, apart⟩ := agree
    have stops' : StopAt st f g i := by
      cases first : f i with
      | none => exact .inl first
      | some x =>
        cases second : g i with
        | none => exact .inr (.inl second)
        | some y =>
          obtain ⟨b, verdict⟩ := decided i inside x y first second
          cases b with
          | false => exact .inr (.inr ⟨x, y, first, second, verdict⟩)
          | true => exact absurd ⟨x, y, first, second, verdict⟩ apart
    obtain ⟨p, le, parts⟩ := ih i inside stops' fun j before =>
      decided j (Nat.lt_trans before inside)
    exact ⟨p, Nat.le_trans le (Nat.le_of_lt inside), parts⟩

section Nothing

variable {u : Store Value} {s t : Seq Value}

theorem not_inside_left (left : (s.uncons u).1 = none) (i : ℕ) : ¬Inside u s t 0 i := by
  intro inside
  cases inside with
  | here left' => cases left.symm.trans left'

theorem not_inside_right (right : (t.uncons (s.uncons u).2).1 = none) (i : ℕ) :
    ¬Inside u s t 0 i := by
  intro inside
  cases inside with
  | here _ right' => cases right.symm.trans right'

end Nothing

section Run

variable {st u : Store Value} (ordered : Ordered st) (from_ : Advances st u) {s t : Seq Value}
  {f g : Seq.Items Value} (hs : Presents st u s f) (ht : Presents st u t g)
include ordered from_ hs ht

/-- The comparison of two sequences that part walks to the place where they do. -/
theorem exists_walked {p : ℕ} (parts : PartAt st f g p) : ∃ r u', Walked u s t f g p r u' := by
  induction p generalizing u s t f g with
  | zero =>
    have here := from_.ordered
    cases round here hs ht with
    | ended left first step =>
      exact ⟨_, _, walked_looks here hs ht (by simp [first]) (not_inside_left left) step⟩
    | shorter right first second step =>
      exact ⟨_, _, walked_looks here hs ht (by simp [first]) (not_inside_right right) step⟩
    | @items x y _ _ left right first second _ _ step =>
      have unequal : Verdict st x y false := by
        rcases parts.stops with none | none | ⟨x', y', first', second', verdict⟩
        · cases first.symm.trans none
        · cases second.symm.trans none
        · cases first.symm.trans first'
          cases second.symm.trans second'
          exact verdict
      obtain ⟨w, compared, onward⟩ := unequal.moves ordered (hs.valid 0 x first)
        (ht.valid 0 y second) (.refl ordered) (from_.trans (advances_looks here s t))
      exact ⟨_, _, walked_unequal here hs ht left right step first compared onward⟩
  | succ p ih =>
    have here := from_.ordered
    obtain ⟨x, y, first, second, equal⟩ := parts.agree 0 (Nat.succ_pos p)
    cases round here hs ht with
    | ended _ none => cases first.symm.trans none
    | shorter _ _ none => cases second.symm.trans none
    | items left right first' second' behind behind' step =>
      cases first.symm.trans first'
      cases second.symm.trans second'
      have mid := from_.trans (advances_looks here s t)
      obtain ⟨w, compared, onward⟩ :=
        equal.moves ordered (hs.valid 0 x first) (ht.valid 0 y second) (.refl ordered) mid
      obtain ⟨r, u', walked⟩ := ih (mid.trans onward) (behind.mono onward.grows)
        (behind'.mono onward.grows) parts.behind
      exact ⟨r, u', walked_behind here hs ht left right step compared onward walked⟩

/-- Sequences whose comparison comes to an end part somewhere. -/
theorem partAt_of_equal {fuel n : ℕ} {r : Bool} {u' : Store Value}
    (done : Seq.equal (equal fuel) n s t u = some (r, u')) : ∃ p, PartAt st f g p := by
  induction n generalizing u s t f g with
  | zero => cases done
  | succ n ih =>
    have here := from_.ordered
    cases round here hs ht with
    | ended _ first => exact ⟨0, nofun, .inl first⟩
    | shorter _ _ second => exact ⟨0, nofun, .inr (.inl second)⟩
    | @items x y _ _ _ _ first second behind behind' step =>
      have mid := from_.trans (advances_looks here s t)
      have hx := hs.valid 0 x first
      have hy := ht.valid 0 y second
      rw [step] at done
      obtain ⟨b, w, compared, done⟩ := of_bind done
      have onward := advances_equal mid.ordered (hx.later mid.leads) (hy.later mid.leads) compared
      obtain ⟨w', comes, -⟩ :=
        Verdict.moves ordered hx hy mid (.refl ordered) ⟨w, comes_of_equal compared⟩
      cases b with
      | false => exact ⟨0, nofun, .inr (.inr ⟨x, y, first, second, w', comes⟩)⟩
      | true =>
        obtain ⟨p, parts⟩ := ih (mid.trans onward) (behind.mono onward.grows)
          (behind'.mono onward.grows) done
        exact ⟨p + 1, parts.push ⟨x, y, first, second, w', comes⟩⟩

end Run

end Persistent.Value
