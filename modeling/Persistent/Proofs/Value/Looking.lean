import Persistent.Proofs.Seq.Ahead
import Persistent.Proofs.Seq.Taking
import Persistent.Proofs.Value.Advancing

/-!
What a computation looks at, to the cell. A computation that is made up of others looks at the
cells that they look at, and a walk along a sequence at those up to the limit or the end.
-/

set_option autoImplicit false

open Persistent.Seq (Ahead Reached)

namespace Persistent.Value

/-- The first places of a sequence, `m` of them at most and none behind its end. -/
def Front (f : Seq.Items Value) (m k : ℕ) : Prop :=
  k < m ∧ ∀ j < k, (f j).isSome

theorem front_succ {f : Seq.Items Value} (some : (f 0).isSome) (m k : ℕ) :
    Front f (m + 1) k ↔ k = 0 ∨ ∃ j, Front (Seq.Items.behind f) m j ∧ j + 1 = k := by
  constructor
  · rintro ⟨inside, before⟩
    cases k with
    | zero => exact .inl rfl
    | succ k =>
      exact .inr ⟨k, ⟨Nat.lt_of_succ_lt_succ inside, fun j less =>
        before (j + 1) (Nat.succ_lt_succ less)⟩, rfl⟩
  · rintro (rfl | ⟨j, ⟨inside, before⟩, rfl⟩)
    · exact ⟨Nat.succ_pos m, nofun⟩
    · refine ⟨Nat.succ_lt_succ inside, fun i less => ?_⟩
      cases i with
      | zero => exact some
      | succ i => exact before i (Nat.lt_of_succ_lt_succ less)

theorem not_front_zero {f : Seq.Items Value} {k : ℕ} : ¬Front f 0 k :=
  fun front => Nat.not_lt_zero k front.1

theorem front_one {f : Seq.Items Value} {k : ℕ} : Front f 1 k ↔ k = 0 := by
  constructor
  · exact fun front => Nat.lt_one_iff.1 front.1
  · rintro rfl
    exact ⟨Nat.one_pos, nofun⟩

theorem Front.mono {f : Seq.Items Value} {m n k : ℕ} (h : Front f m k) (le : m ≤ n) :
    Front f n k :=
  ⟨Nat.lt_of_lt_of_le h.1 le, h.2⟩

/-- There are no places behind the end. -/
theorem front_of_ends {f : Seq.Items Value} {n m k : ℕ} (ends : Seq.Items.EndsAt f n)
    (less : n < m) : Front f m k ↔ Front f (n + 1) k := by
  constructor
  · rintro ⟨-, before⟩
    refine ⟨Nat.lt_succ_of_le (Nat.le_of_not_lt fun past => ?_), before⟩
    have item := before n past
    rw [ends.done] at item
    cases item
  · exact fun front => front.mono less

/-- A place on the one sequence in question. -/
theorem exists_on {s : Seq Value} {F : ℕ → Prop} {P : Seq Value → ℕ → Prop} :
    (∃ t k, (t = s ∧ F k) ∧ P t k) ↔ ∃ k, F k ∧ P s k := by
  constructor
  · rintro ⟨_, k, ⟨rfl, front⟩, place⟩
    exact ⟨k, front, place⟩
  · rintro ⟨k, front, place⟩
    exact ⟨s, k, ⟨rfl, front⟩, place⟩

variable [Hasher]

/-- From `u` the computation comes to an answer and leaves `u'`. The cells that it has looked at
are those at the places `looked`, which are so many items behind the front of a sequence. -/
structure Looks {A : Type} (c : ℕ → Demand Value A) (u : Store Value)
    (looked : Seq Value → ℕ → Prop) (a : A) (u' : Store Value) : Prop where
  comes : Comes c u a u'
  advances : Advances u u'
  settled_iff : ∀ w, u'.Grows w → ∀ i,
    u'.settled i ↔ u.settled i ∨ ∃ s k, looked s k ∧ Ahead w s k i
  reached : ∀ s k, looked s k → Reached u' s k

section Looks

variable {A B : Type} {c : ℕ → Demand Value A} {u u' u'' : Store Value}
  {looked looked' : Seq Value → ℕ → Prop} {a : A}

theorem looks_pure (ordered : Ordered u) (a : A) :
    Looks (fun _ => (pure a : Demand Value A)) u (fun _ _ => False) a u where
  comes := ⟨0, fun _ _ => rfl⟩
  advances := .refl ordered
  settled_iff _ _ i := by simp
  reached _ _ := False.elim

theorem Looks.bind {f : ℕ → A → Demand Value B} {b : B} (h : Looks c u looked a u')
    (k : Looks (fun fuel => f fuel a) u' looked' b u'') :
    Looks (fun fuel => c fuel >>= f fuel) u (fun s k => looked s k ∨ looked' s k) b u'' where
  comes := h.comes.bind k.comes
  advances := h.advances.trans k.advances
  settled_iff w grows i := by
    rw [k.settled_iff w grows, h.settled_iff w (k.advances.grows.trans grows), or_assoc]
    simp only [or_and_right, exists_or]
  reached s d place := by
    rcases place with first | second
    · exact (h.reached s d first).mono k.advances.grows
    · exact k.reached s d second

/-- The places can be told in another way. -/
theorem Looks.congr (h : Looks c u looked a u') (same : ∀ s k, looked s k ↔ looked' s k) :
    Looks c u looked' a u' := by
  have places : looked = looked' := funext fun s => funext fun k => propext (same s k)
  exact places ▸ h

theorem Looks.returns {f : A → B} (h : Looks c u looked a u') :
    Looks (fun fuel => do return f (← c fuel)) u looked (f a) u' :=
  (h.bind (looks_pure h.advances.ordered (f a))).congr fun _ _ => or_iff_left id

/-- It is enough to know the computation with much fuel. -/
theorem Looks.eventually {d : ℕ → Demand Value A} (h : Looks c u looked a u') {N : ℕ}
    (same : ∀ fuel ≥ N, d fuel u = c fuel u) : Looks d u looked a u' := by
  obtain ⟨M, run⟩ := h.comes
  refine ⟨⟨max N M, fun fuel enough => ?_⟩, h.advances, h.settled_iff, h.reached⟩
  rw [same fuel (by omega)]
  exact run fuel (by omega)

theorem Looks.succ {d : ℕ → Demand Value A} (h : Looks c u looked a u')
    (step : ∀ fuel, d (fuel + 1) = c fuel) : Looks d u looked a u' := by
  obtain ⟨N, run⟩ := h.comes
  refine ⟨⟨N + 1, fun fuel enough => ?_⟩, h.advances, h.settled_iff, h.reached⟩
  obtain ⟨fuel, rfl⟩ := Nat.exists_eq_add_of_le' (Nat.le_trans (Nat.le_add_left 1 N) enough)
  rw [step]
  exact run fuel (by omega)

end Looks

/-- Of two looks from the front, the one that goes further has been at all the places. -/
theorem Looks.widen {A : Type} {c : ℕ → Demand Value A} {u u' : Store Value} {a : A}
    {s : Seq Value} {f : Seq.Items Value} {n m : ℕ} (le : n ≤ m)
    (h : Looks c u (fun t k => (t = s ∧ Front f n k) ∨ (t = s ∧ Front f m k)) a u') :
    Looks c u (fun t k => t = s ∧ Front f m k) a u' := by
  refine h.congr fun t k => ?_
  rw [← and_or_left, or_iff_right_of_imp fun front => front.mono le]

section Front

variable {A : Type} {u u' : Store Value} (ordered : Ordered u) {s : Seq Value}
  {f : Seq.Items Value} (shows : Seq.Shows u s f) {a : A}
  {g : ℕ → Option (Value × Seq Value) → Demand Value A}
include ordered shows

/-- A look at the first cell. -/
theorem look_looks :
    Looks (fun _ => s.look) u (fun t k => t = s ∧ Front f 1 k) (s.uncons u).1 (s.uncons u).2 := by
  have step := shows.uncons ordered.chained
  have onward := advances_uncons ordered s
  refine ⟨⟨0, fun _ _ => rfl⟩, onward, fun w grows i => ?_, ?_⟩
  · rw [step.settled_iff, exists_on]
    simp only [front_one, exists_eq_left]
    rw [Seq.ahead_zero shows (onward.grows.trans grows)]
  · rintro _ k ⟨rfl, front⟩
    obtain rfl := front_one.1 front
    exact Seq.reached_zero shows onward.grows

/-- A walk that is at the end looks at the end only. -/
theorem look_ended (none : f 0 = none) (answer : ∀ fuel, g fuel Option.none = pure a) (m : ℕ) :
    Looks (fun fuel => s.look >>= g fuel) u (fun t k => t = s ∧ Front f (m + 1) k) a
      (s.uncons u).2 := by
  have onward := (advances_uncons ordered s).ordered
  have here : (s.uncons u).1 = Option.none :=
    Option.map_eq_none_iff.1 ((shows.uncons ordered.chained).item.trans none)
  have answered : Looks (fun fuel => g fuel (s.uncons u).1) (s.uncons u).2 (fun _ _ => False) a
      (s.uncons u).2 := by
    simp only [here, answer]
    exact looks_pure onward a
  refine ((look_looks ordered shows).bind answered).congr fun t k => ?_
  rw [or_false, front_of_ends (Seq.Items.endsAt_zero none) (Nat.succ_pos m)]

section Onward

variable {x : Value} {rest : Seq Value} (here : (s.uncons u).1 = some (x, rest)) {m : ℕ}
include here

/-- Once the first cell is known, the places behind it count from the front. -/
theorem Looks.further {c : ℕ → Demand Value A}
    (h : Looks c (s.uncons u).2 (fun t k => t = rest ∧ Front (Seq.Items.behind f) m k) a u') :
    Looks c (s.uncons u).2 (fun t k => t = s ∧ Front f (m + 1) k) a u' := by
  have step := shows.uncons ordered.chained
  have both := (advances_uncons ordered s).trans h.advances
  have isSome : (f 0).isSome := by rw [← step.item, here]; rfl
  refine ⟨h.comes, h.advances, fun w grows i => ?_, ?_⟩
  · have nearer (k : ℕ) := Seq.ahead_succ ordered.chained shows here
      (h.advances.grows.trans grows) k i
    have front := Seq.ahead_zero shows (both.grows.trans grows) i
    -- The first cell is looked at already, so that its place adds nothing.
    rw [h.settled_iff w grows, step.settled_iff, exists_on, exists_on, ← front]
    simp only [← nearer, front_succ isSome, or_and_right, exists_or, exists_eq_left,
      exists_exists_and_eq_and, or_assoc, or_self_left]
  · rintro _ k ⟨rfl, front⟩
    rcases (front_succ isSome m k).1 front with rfl | ⟨j, further, rfl⟩
    · exact Seq.reached_zero shows both.grows
    · exact Seq.reached_succ ordered.chained shows here h.advances.grows
        (h.reached rest j ⟨rfl, further⟩)

/-- A walk that goes on behind the first item looks at one place more. -/
theorem look_onward
    (behind : Looks (fun fuel => g fuel (some (x, rest))) (s.uncons u).2
      (fun t k => t = rest ∧ Front (Seq.Items.behind f) m k) a u') :
    Looks (fun fuel => s.look >>= g fuel) u (fun t k => t = s ∧ Front f (m + 1) k) a u' := by
  have further := behind.further ordered shows here
  rw [← here] at further
  exact ((look_looks ordered shows).bind further).widen (Nat.succ_pos m)

end Onward

end Front

/-- Where a sequence has a first item, so has the walk along it. -/
theorem exists_uncons {u : Store Value} (ordered : Ordered u) {s : Seq Value}
    {f : Seq.Items Value} (shows : Seq.Shows u s f) {x : Value} (item : f 0 = some x) :
    ∃ rest, (s.uncons u).1 = some (x, rest) ∧
      Seq.Shows (s.uncons u).2 rest (Seq.Items.behind f) := by
  have step := shows.uncons ordered.chained
  have first := step.item
  rw [item] at first
  obtain ⟨⟨y, rest⟩, here, rfl⟩ := Option.map_eq_some_iff.1 first
  exact ⟨rest, here, step.rest y rest here⟩

/-- Taking items looks at the first places of the sequence, as many as are asked for, or at all of
them and at the end. -/
theorem take_looks (m : ℕ) {u : Store Value} (ordered : Ordered u) {s : Seq Value}
    {f : Seq.Items Value} (shows : Seq.Shows u s f) :
    ∃ u', Looks (fun _ => s.take m) u (fun t k => t = s ∧ Front f m k) (Seq.Items.take m f) u' := by
  induction m generalizing u s f with
  | zero =>
    refine ⟨u, (looks_pure ordered []).congr fun t k => ?_⟩
    simp [Front]
  | succ m ih =>
    simp only [Seq.take, Seq.Items.take]
    cases first : f 0 with
    | none =>
      refine ⟨_, look_ended ordered shows first (fun _ => ?_) m⟩
      rfl
    | some x =>
      obtain ⟨rest, here, behind⟩ := exists_uncons ordered shows first
      obtain ⟨u', taken⟩ := ih (advances_uncons ordered s).ordered behind
      exact ⟨u', look_onward ordered shows here taken.returns⟩

/-- All items of a sequence that has an end are as many as there are in front of it. -/
theorem toList_eq_take (n fuel : ℕ) {u : Store Value} (ordered : Ordered u) {s : Seq Value}
    {f : Seq.Items Value} (shows : Seq.Shows u s f) (ends : Seq.Items.EndsAt f n) :
    s.toList (n + fuel + 1) u = s.take (n + 1) u := by
  induction n generalizing u s f with
  | zero =>
    have item := (shows.uncons ordered.chained).item
    have none : (s.uncons u).1 = Option.none := Option.map_eq_none_iff.1 (item.trans ends.done)
    have looked : s.look u = some (Option.none, (s.uncons u).2) := by rw [← none]; rfl
    rw [Seq.toList, Seq.take, bind_of_eq looked, bind_of_eq looked]
  | succ n ih =>
    have step := shows.uncons ordered.chained
    have first := ends.before 0 (Nat.succ_pos n)
    rw [← step.item, Option.isSome_map] at first
    obtain ⟨⟨x, rest⟩, here⟩ := Option.isSome_iff_exists.1 first
    have looked : s.look u = some (some (x, rest), (s.uncons u).2) := by rw [← here]; rfl
    have onward := (advances_uncons ordered s).ordered
    have same := ih onward (step.rest x rest here) ends.of_succ
    rw [Nat.succ_add, Seq.toList, Seq.take, bind_of_eq looked, bind_of_eq looked]
    exact congrArg (· >>= _) same

end Persistent.Value
